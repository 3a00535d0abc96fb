import LlmServing.Lib.Keyed
import LlmServing.Scheduling.Scheduler

/-!
# Folding results in, and aborting

The induction rule for `handle_iteration_results`, and what it and `abort` leave in `running`.
-/

namespace LlmServing.Scheduling

open Lib

variable {α : Type} [KVAllocator α]

@[simp] theorem seqId_recordToken (now : Time) (token : Token) (finished : Bool) (seq : Sequence) :
    (recordToken now token finished seq).seqId = seq.seqId := rfl

@[simp] theorem blockTable_recordToken (now : Time) (token : Token) (finished : Bool)
    (seq : Sequence) : (recordToken now token finished seq).blockTable = seq.blockTable := rfl

theorem tokens_recordToken (now : Time) (token : Token) (finished : Bool) (seq : Sequence) :
    (recordToken now token finished seq).tokens = seq.tokens ++ [token] := by
  simp [recordToken, Sequence.tokens]

theorem foldResult_token (now : Time) (front behind finished : List Sequence) (seq : Sequence)
    (a : α) (token : Token) (distinct : ((front ++ seq :: behind).map (·.seqId)).Nodup) :
    foldResult now ⟨front ++ seq :: behind, a, finished⟩ (seq.seqId, token, false) =
      some ⟨front ++ recordToken now token false seq :: behind, a, finished⟩ := by
  simp only [foldResult, Keyed.find?_split distinct]
  simp only [Bool.false_eq_true, if_false, Keyed.map_update_split distinct]

theorem foldResult_finished (now : Time) (front behind finished : List Sequence) (seq : Sequence)
    (a : α) (token : Token) (distinct : ((front ++ seq :: behind).map (·.seqId)).Nodup) :
    foldResult now ⟨front ++ seq :: behind, a, finished⟩ (seq.seqId, token, true) =
      some ⟨front ++ behind, (free a seq.blockTable).1,
        finished ++ [{ recordToken now token true seq with
          blockTable := (free a seq.blockTable).2 }]⟩ := by
  simp only [foldResult, Keyed.find?_split distinct]
  simp only [if_true, Keyed.eraseP_split distinct, blockTable_recordToken]

/-- Induction over the results still to fold in: they name distinct running sequences, so none is
a `KeyError`, and what each of the two branches keeps is kept by the whole loop. -/
theorem foldResults_rule {now : Time} {I : IterationResults → Folding α → Prop}
    (onToken : ∀ front seq behind a finished token rest,
      ((front ++ seq :: behind).map (·.seqId)).Nodup → seq.seqId ∉ rest.map (·.1) →
      I ((seq.seqId, token, false) :: rest) ⟨front ++ seq :: behind, a, finished⟩ →
      I rest ⟨front ++ recordToken now token false seq :: behind, a, finished⟩)
    (onFinished : ∀ front seq behind a finished token rest,
      ((front ++ seq :: behind).map (·.seqId)).Nodup → seq.seqId ∉ rest.map (·.1) →
      I ((seq.seqId, token, true) :: rest) ⟨front ++ seq :: behind, a, finished⟩ →
      I rest ⟨front ++ behind, (free a seq.blockTable).1,
        finished ++ [{ recordToken now token true seq with
          blockTable := (free a seq.blockTable).2 }]⟩)
    {results : IterationResults} {st : Folding α} (distinct : (st.running.map (·.seqId)).Nodup)
    (once : (results.map (·.1)).Nodup)
    (present : ∀ id ∈ results.map (·.1), id ∈ st.running.map (·.seqId)) (holds : I results st) :
    ∃ st', results.foldlM (foldResult now) st = some st' ∧ I [] st' := by
  induction results generalizing st with
  | nil => exact ⟨st, rfl, holds⟩
  | cons result rest ih =>
      obtain ⟨id, token, ended⟩ := result
      simp only [List.map_cons, List.nodup_cons] at once
      obtain ⟨seq, member, rfl⟩ := List.mem_map.mp (present id (by simp))
      obtain ⟨front, behind, split⟩ := List.append_of_mem member
      obtain ⟨running, a, finished⟩ := st
      subst split
      have others (other : SeqId) (named : other ∈ rest.map (·.1)) :
          other ∈ (front ++ behind).map (·.seqId) := by
        have found := present other (by simp [named])
        have different : other ≠ seq.seqId := fun same => once.1 (same ▸ named)
        simp only [List.map_append, List.map_cons, List.mem_append, List.mem_cons] at found ⊢
        tauto
      cases ended with
      | false =>
          obtain ⟨st', folded, done⟩ := @ih ⟨front ++ recordToken now token false seq :: behind,
            a, finished⟩ (by simpa using distinct) once.2
            (fun other named => by
              have found := others other named
              simp only [List.map_append, List.mem_append, List.map_cons, List.mem_cons] at found ⊢
              tauto)
            (onToken _ _ _ _ _ _ _ distinct once.1 holds)
          refine ⟨st', ?_, done⟩
          rw [List.foldlM_cons, foldResult_token _ _ _ _ _ _ _ distinct]
          exact folded
      | true =>
          obtain ⟨st', folded, done⟩ := @ih ⟨front ++ behind, (free a seq.blockTable).1,
            finished ++ [{ recordToken now token true seq with
              blockTable := (free a seq.blockTable).2 }]⟩
            (distinct.sublist ((List.Sublist.append_left (List.sublist_cons_self _ _) _).map _))
            once.2 others (onFinished _ _ _ _ _ _ _ distinct once.1 holds)
          refine ⟨st', ?_, done⟩
          rw [List.foldlM_cons, foldResult_finished _ _ _ _ _ _ _ distinct]
          exact folded

theorem foldResults_keeps {now : Time} {I : Folding α → Prop}
    (onToken : ∀ front seq behind a finished token,
      I ⟨front ++ seq :: behind, a, finished⟩ →
      I ⟨front ++ recordToken now token false seq :: behind, a, finished⟩)
    (onFinished : ∀ front seq behind a finished token,
      I ⟨front ++ seq :: behind, a, finished⟩ →
      I ⟨front ++ behind, (free a seq.blockTable).1,
        finished ++ [{ recordToken now token true seq with
          blockTable := (free a seq.blockTable).2 }]⟩)
    {results : IterationResults} {st st' : Folding α} (distinct : (st.running.map (·.seqId)).Nodup)
    (once : (results.map (·.1)).Nodup)
    (present : ∀ id ∈ results.map (·.1), id ∈ st.running.map (·.seqId))
    (folded : results.foldlM (foldResult now) st = some st') (holds : I st) : I st' := by
  obtain ⟨other, folded', after⟩ := foldResults_rule (I := fun _ => I)
    (fun front seq behind a finished token _ _ _ => onToken front seq behind a finished token)
    (fun front seq behind a finished token _ _ _ => onFinished front seq behind a finished token)
    distinct once present holds
  rw [Option.some.inj (folded.symm.trans folded')]
  exact after

/-! ## What is left in `running` -/

def afterResults (now : Time) (results : IterationResults) (seq : Sequence) : Option Sequence :=
  match results.find? (·.1 = seq.seqId) with
  | none => some seq
  | some (_, token, finished) => if finished then none else some (recordToken now token false seq)

theorem afterResults_of_absent {now : Time} {results : IterationResults} {seq : Sequence}
    (absent : seq.seqId ∉ results.map (·.1)) : afterResults now results seq = some seq := by
  have none := Keyed.find?_eq_none.mpr absent
  simp only [afterResults, none]

theorem afterResults_cons_other {now : Time} {results : IterationResults} {seq : Sequence}
    {id : SeqId} {result : Token × Bool} (other : id ≠ seq.seqId) :
    afterResults now ((id, result) :: results) seq = afterResults now results seq := by
  simp [afterResults, other]

theorem afterResults_cons_self {now : Time} {results : IterationResults} {seq : Sequence}
    {token : Token} {finished : Bool} :
    afterResults now ((seq.seqId, token, finished) :: results) seq =
      if finished then none else some (recordToken now token false seq) := by
  simp [afterResults]

theorem afterResults_cases {now : Time} {results : IterationResults} {seq seq' : Sequence}
    (left : afterResults now results seq = some seq') :
    (seq.seqId ∉ results.map (·.1) ∧ seq' = seq) ∨
      ∃ token, (seq.seqId, token, false) ∈ results ∧ seq' = recordToken now token false seq := by
  unfold afterResults at left
  split at left
  · rename_i absent
    exact .inl ⟨Keyed.find?_eq_none.mp absent, by simpa using left.symm⟩
  · rename_i id token finished found
    obtain ⟨member, rfl⟩ := Keyed.find?_some found
    split at left
    · cases left
    · rename_i unfinished
      rw [Bool.not_eq_true] at unfinished
      subst unfinished
      exact .inr ⟨token, member, by simpa using left.symm⟩

theorem filterMap_afterResults_cons {now : Time} {results : IterationResults} {id : SeqId}
    {result : Token × Bool} {list : List Sequence} (others : ∀ seq ∈ list, id ≠ seq.seqId) :
    list.filterMap (afterResults now ((id, result) :: results)) =
      list.filterMap (afterResults now results) :=
  List.filterMap_congr fun seq member => afterResults_cons_other (others seq member)

structure Folded (now : Time) (results : IterationResults) (before after : Folding α) : Prop where
  running : after.running = before.running.filterMap (afterResults now results)
  perm : ((after.running ++ after.finished).map (·.seqId)).Perm
    ((before.running ++ before.finished).map (·.seqId))
  ids : after.finished.map (·.seqId) =
    before.finished.map (·.seqId) ++ (results.filter (·.2.2)).map (·.1)
  finished : ∀ seq ∈ after.finished, seq ∈ before.finished ∨
    ∃ source ∈ before.running, ∃ token, ∃ a : α, (source.seqId, token, true) ∈ results ∧
      seq = { recordToken now token true source with
        blockTable := (free a source.blockTable).2 }

theorem Folded.running_source {now : Time} {results : IterationResults} {before after : Folding α}
    (spec : Folded now results before after) {seq : Sequence} (member : seq ∈ after.running) :
    ∃ source ∈ before.running,
      (source.seqId ∉ results.map (·.1) ∧ seq = source) ∨
        ∃ token, (source.seqId, token, false) ∈ results ∧
          seq = recordToken now token false source := by
  rw [spec.running] at member
  obtain ⟨source, found, left⟩ := List.mem_filterMap.mp member
  exact ⟨source, found, afterResults_cases left⟩

theorem Folded.running_keeps {now : Time} {results : IterationResults} {before after : Folding α}
    {P : Sequence → Prop} (spec : Folded now results before after)
    (each : ∀ seq ∈ before.running, P seq)
    (recorded : ∀ seq token, P seq → P (recordToken now token false seq)) :
    ∀ seq ∈ after.running, P seq := by
  intro seq member
  obtain ⟨source, found, ⟨-, rfl⟩ | ⟨token, -, rfl⟩⟩ := spec.running_source member
  · exact each _ found
  · exact recorded source token (each source found)

structure PartlyFolded (now : Time) (results : IterationResults) (before : Folding α)
    (pending : IterationResults) (st : Folding α) : Prop where
  running : st.running.filterMap (afterResults now pending) =
    before.running.filterMap (afterResults now results)
  untouched : ∀ seq ∈ st.running, seq.seqId ∈ pending.map (·.1) → seq ∈ before.running
  named : ∀ result ∈ pending, result ∈ results
  perm : ((st.running ++ st.finished).map (·.seqId)).Perm
    ((before.running ++ before.finished).map (·.seqId))
  ids : st.finished.map (·.seqId) ++ (pending.filter (·.2.2)).map (·.1) =
    before.finished.map (·.seqId) ++ (results.filter (·.2.2)).map (·.1)
  finished : ∀ seq ∈ st.finished, seq ∈ before.finished ∨
    ∃ source ∈ before.running, ∃ token, ∃ a : α, (source.seqId, token, true) ∈ results ∧
      seq = { recordToken now token true source with
        blockTable := (free a source.blockTable).2 }

section

variable {now : Time} {results rest : IterationResults} {before st : Folding α}
  {front behind finished : List Sequence} {seq : Sequence} {a : α} {token : Token}

theorem PartlyFolded.record
    (partly : PartlyFolded now results before ((seq.seqId, token, false) :: rest)
      ⟨front ++ seq :: behind, a, finished⟩)
    (distinct : ((front ++ seq :: behind).map (·.seqId)).Nodup)
    (later : seq.seqId ∉ rest.map (·.1)) :
    PartlyFolded now results before rest
      ⟨front ++ recordToken now token false seq :: behind, a, finished⟩ where
  running := by
    have others := Keyed.ne_of_nodup_cons distinct
    rw [← partly.running]
    simp only [List.filterMap_append, List.filterMap_cons, afterResults_cons_self,
      @afterResults_of_absent now rest (recordToken now token false seq) later,
      Bool.false_eq_true, if_false]
    rw [filterMap_afterResults_cons fun other member => others other (by simp [member]),
      filterMap_afterResults_cons fun other member => others other (by simp [member])]
  untouched := by
    intro other member name
    simp only [List.mem_append, List.mem_cons] at member
    rcases member with member | rfl | member
    · exact partly.untouched other (by simp [member]) (by simp [name])
    · exact absurd name later
    · exact partly.untouched other (by simp [member]) (by simp [name])
  named result member := partly.named result (by simp [member])
  perm := by simpa using partly.perm
  ids := by simpa using partly.ids
  finished := partly.finished

theorem PartlyFolded.finish
    (partly : PartlyFolded now results before ((seq.seqId, token, true) :: rest)
      ⟨front ++ seq :: behind, a, finished⟩)
    (distinct : ((front ++ seq :: behind).map (·.seqId)).Nodup) :
    PartlyFolded now results before rest ⟨front ++ behind, (free a seq.blockTable).1,
      finished ++ [{ recordToken now token true seq with
        blockTable := (free a seq.blockTable).2 }]⟩ where
  running := by
    have others := Keyed.ne_of_nodup_cons distinct
    rw [← partly.running]
    simp only [List.filterMap_append, List.filterMap_cons, afterResults_cons_self, if_true]
    rw [filterMap_afterResults_cons fun other member => others other (by simp [member]),
      filterMap_afterResults_cons fun other member => others other (by simp [member])]
  untouched := by
    intro other member name
    refine partly.untouched other ?_ (by simp [name])
    simp only [List.mem_append, List.mem_cons] at member ⊢
    tauto
  named result member := partly.named result (by simp [member])
  perm := by
    refine List.Perm.trans ?_ partly.perm
    simp only [List.map_append, List.map_cons, List.append_assoc, List.map_nil]
    refine List.Perm.append_left _ ?_
    rw [← List.append_assoc]
    exact List.perm_append_singleton _ _
  ids := by simpa using partly.ids
  finished := by
    intro other member
    rcases List.mem_append.mp member with member | member
    · exact partly.finished other member
    · exact .inr ⟨seq, partly.untouched seq (by simp) (by simp), token, a,
        partly.named _ (by simp), List.mem_singleton.mp member⟩

theorem PartlyFolded.done (partly : PartlyFolded now results before [] st) :
    Folded now results before st where
  running := by
    have nothing : afterResults now [] = some := rfl
    rw [← partly.running, nothing, List.filterMap_some]
  perm := partly.perm
  ids := by simpa using partly.ids
  finished := partly.finished

theorem exists_folded (distinct : (before.running.map (·.seqId)).Nodup)
    (once : (results.map (·.1)).Nodup)
    (present : ∀ id ∈ results.map (·.1), id ∈ before.running.map (·.seqId)) :
    ∃ after, results.foldlM (foldResult now) before = some after ∧
      Folded now results before after := by
  have start : PartlyFolded now results before results before :=
    ⟨rfl, fun _ member _ => member, fun _ member => member, .refl _, rfl,
      fun _ member => .inl member⟩
  obtain ⟨after, folded, partly⟩ := @foldResults_rule _ _ now (PartlyFolded now results before)
    (fun _ _ _ _ _ _ _ distinct later partly => PartlyFolded.record partly distinct later)
    (fun _ _ _ _ _ _ _ distinct _ partly => PartlyFolded.finish partly distinct)
    results before distinct once present start
  exact ⟨after, folded, partly.done⟩

end

theorem foldl_abortOne_running (seqs : List Sequence) (st : Folding α)
    (distinct : (st.running.map (·.seqId)).Nodup) :
    (seqs.foldl abortOne st).running =
      st.running.filter (·.seqId ∉ seqs.map (·.seqId)) := by
  have each : ∀ st : Folding α, (seqs.foldl abortOne st).running =
      (seqs.map (·.seqId)).foldl (fun running id => running.eraseP (·.seqId = id)) st.running := by
    induction seqs with
    | nil => exact fun _ => rfl
    | cons seq rest ih => exact fun st => ih (abortOne st seq)
  rw [each, Keyed.foldl_eraseP distinct]

theorem foldl_abortOne_finished (seqs : List Sequence) (st : Folding α) :
    (seqs.foldl abortOne st).finished.map (·.seqId) =
        st.finished.map (·.seqId) ++ seqs.map (·.seqId) ∧
      ∀ seq ∈ (seqs.foldl abortOne st).finished, seq ∈ st.finished ∨
        ∃ source ∈ seqs, ∃ a : α, seq = { source with
          blockTable := (free a source.blockTable).2 } := by
  induction seqs generalizing st with
  | nil => simp
  | cons seq rest ih =>
      obtain ⟨ids, released⟩ := ih (abortOne st seq)
      refine ⟨by simpa [abortOne] using ids, fun other member => ?_⟩
      rcases released other member with member | ⟨source, member, a, same⟩
      · rcases List.mem_append.mp member with member | member
        · exact .inl member
        · exact .inr ⟨seq, by simp, st.allocator, List.mem_singleton.mp member⟩
      · exact .inr ⟨source, by simp [member], a, same⟩

/-- Induction over distinct sequences to abort, each in `running` or known by `Q` to hold nothing. -/
theorem foldl_abortOne_rule {I : Folding α → Prop} {Q : Sequence → Prop}
    (leave : ∀ front seq behind a finished, I ⟨front ++ seq :: behind, a, finished⟩ →
      I ⟨front ++ behind, (free a seq.blockTable).1,
        finished ++ [{ seq with blockTable := (free a seq.blockTable).2 }]⟩)
    (absent : ∀ seq running a finished, Q seq → I ⟨running, a, finished⟩ →
      I ⟨running, (free a seq.blockTable).1,
        finished ++ [{ seq with blockTable := (free a seq.blockTable).2 }]⟩)
    (seqs : List Sequence) (st : Folding α) (distinct : (st.running.map (·.seqId)).Nodup)
    (once : (seqs.map (·.seqId)).Nodup)
    (each : ∀ seq ∈ seqs, seq ∈ st.running ∨
      (Q seq ∧ seq.seqId ∉ st.running.map (·.seqId)))
    (holds : I st) : I (seqs.foldl abortOne st) := by
  induction seqs generalizing st with
  | nil => exact holds
  | cons seq rest ih =>
      obtain ⟨running, a, finished⟩ := st
      simp only [List.map_cons, List.nodup_cons] at once
      rcases each seq (by simp) with member | ⟨known, away⟩
      · obtain ⟨front, behind, split⟩ := List.append_of_mem member
        subst split
        have erased : abortOne ⟨front ++ seq :: behind, a, finished⟩ seq =
            ⟨front ++ behind, (free a seq.blockTable).1,
              finished ++ [{ seq with blockTable := (free a seq.blockTable).2 }]⟩ := by
          simp only [abortOne, Keyed.eraseP_split distinct]
        rw [List.foldl_cons, erased]
        refine ih _ ?_ once.2 ?_ (leave front seq behind a finished holds)
        · exact distinct.sublist ((List.Sublist.append_left (List.sublist_cons_self _ _) _).map _)
        · intro other named
          have different : other.seqId ≠ seq.seqId := fun same =>
            once.1 (same ▸ List.mem_map_of_mem named)
          rcases each other (by simp [named]) with member | ⟨known, away⟩
          · refine .inl ?_
            simp only [List.mem_append, List.mem_cons] at member ⊢
            rcases member with member | rfl | member
            · exact .inl member
            · exact absurd rfl different
            · exact .inr member
          · refine .inr ⟨known, fun member => away ?_⟩
            simp only [List.map_append, List.map_cons, List.mem_append, List.mem_cons] at member ⊢
            tauto
      · have erased : abortOne ⟨running, a, finished⟩ seq =
            ⟨running, (free a seq.blockTable).1,
              finished ++ [{ seq with blockTable := (free a seq.blockTable).2 }]⟩ := by
          have kept : running.eraseP (·.seqId = seq.seqId) = running :=
            List.eraseP_of_forall_not fun other member => by
              simpa using fun same => away (List.mem_map.mpr ⟨other, member, same⟩)
          simp only [abortOne, kept]
        rw [List.foldl_cons, erased]
        exact ih _ distinct once.2 (fun other named => each other (by simp [named]))
          (absent seq running a finished known holds)

theorem foldl_abortOne_allocator {R : α → Prop}
    (release : ∀ a table, R a → R (free a table).1) (seqs : List Sequence) (st : Folding α)
    (allocator : R st.allocator) : R (seqs.foldl abortOne st).allocator := by
  induction seqs generalizing st with
  | nil => exact allocator
  | cons seq rest ih => exact ih (abortOne st seq) (release _ _ allocator)

end LlmServing.Scheduling
