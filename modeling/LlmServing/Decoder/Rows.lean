import LlmServing.Decoder.Modules
import LlmServing.Paged.Rows

/-!
# The rows of a batch, layer by layer

Each row of a flattened batch is one token of one sequence. While the caches hold the cells of a
sequence's positions before, every layer gives its rows the states it would have alone, and extends the
caches by the cells of the rows, whatever the rest of the batch. How the caches are laid out is
`Attends`' business.
-/

namespace LlmServing.Decoder

open Scheduling Runner Engine Lib
open Paged (spans row entryRows)

def RowAt (pairs : List (BatchEntry × Sequence)) (i : Nat) (entry : BatchEntry) (seq : Sequence)
    (position : Nat) : Prop :=
  ∃ e start r : Nat, pairs[e]? = some (entry, seq) ∧
    (spans 0 pairs)[e]? = some (start, start + entry.nTokens) ∧ r < entry.nTokens ∧
    i = start + r ∧ position = cachedBefore entry seq + r

variable {pairs : List (BatchEntry × Sequence)} {entry : BatchEntry} {seq : Sequence}
  {i position blockSize : Nat}

theorem RowAt.mem (here : RowAt pairs i entry seq position) : (entry, seq) ∈ pairs := by
  obtain ⟨e, start, r, found, -⟩ := here
  exact List.mem_of_getElem? found

theorem RowAt.new (here : RowAt pairs i entry seq position) :
    cachedBefore entry seq ≤ position ∧ position < cachedBefore entry seq + entry.nTokens := by
  obtain ⟨e, start, r, -, -, inside, -, rfl⟩ := here
  omega

theorem RowAt.row (here : RowAt pairs i entry seq position) (blockSize : Nat) :
    (pairs.flatMap (entryRows blockSize))[i]? = some (Paged.row blockSize seq position) := by
  obtain ⟨e, start, r, found, span, inside, rfl, rfl⟩ := here
  obtain ⟨skip, span', rows⟩ := Paged.row_at blockSize 0 found
  rw [span] at span'
  simp only [Option.some.injEq, Prod.mk.injEq, Nat.zero_add] at span'
  rw [span'.1]
  exact rows r inside

theorem exists_rowAt (member : (entry, seq) ∈ pairs) (new : cachedBefore entry seq ≤ position)
    (inside : position < cachedBefore entry seq + entry.nTokens) :
    ∃ i, RowAt pairs i entry seq position := by
  obtain ⟨e, found⟩ := List.mem_iff_getElem?.mp member
  obtain ⟨skip, span, -⟩ := Paged.row_at 1 0 found
  exact ⟨0 + skip + (position - cachedBefore entry seq), e, 0 + skip,
    position - cachedBefore entry seq, found, span, by omega, rfl, by omega⟩

theorem start_le_span {start : Nat} {pairs : List (BatchEntry × Sequence)} {span : Nat × Nat}
    (member : span ∈ spans start pairs) : start ≤ span.1 := by
  induction pairs generalizing start with
  | nil => cases member
  | cons pair rest ih =>
      rcases List.mem_cons.mp member with rfl | later
      · exact Nat.le_refl _
      · exact (Nat.le_add_right _ _).trans (ih later)

theorem spans_ordered {start e e' : Nat} {pairs : List (BatchEntry × Sequence)} {first second : Nat × Nat}
    (before : e < e') (here : (spans start pairs)[e]? = some first)
    (there : (spans start pairs)[e']? = some second) : first.2 ≤ second.1 := by
  induction pairs generalizing start e e' with
  | nil => cases here
  | cons pair rest ih =>
      obtain ⟨e', rfl⟩ := Nat.exists_eq_succ_of_ne_zero (Nat.ne_of_gt (Nat.zero_lt_of_lt before))
      rw [spans, List.getElem?_cons_succ] at there
      cases e with
      | zero =>
          rw [spans, List.getElem?_cons_zero, Option.some.injEq] at here
          subst here
          exact start_le_span (List.mem_of_getElem? there)
      | succ e =>
          rw [spans, List.getElem?_cons_succ] at here
          exact ih (Nat.lt_of_succ_lt_succ before) here there

variable {m : Modules} {ρ : Type}

/-- What one layer's attention does to one sequence's `cells`, a reading of the caches by layer and
position. -/
structure Attends (pairs : List (BatchEntry × Sequence)) (entry : BatchEntry) (seq : Sequence)
    (cells : ρ → Nat → Nat → m.Key × m.Value) (layer : Nat) (normed : TokenRows m.Hidden)
    (rotary : TokenRows m.Rotary) (before : ρ) (out : TokenRows m.Hidden) (after : ρ) : Prop where
  new {i position : Nat} : RowAt pairs i entry seq position →
    cells after layer position = m.keyValue layer (rotary i) (normed i)
  old : ∀ position < cachedBefore entry seq, cells after layer position = cells before layer position
  others : ∀ other ≠ layer, ∀ position < cachedBefore entry seq + entry.nTokens,
    cells after other position = cells before other position
  out {i position : Nat} : RowAt pairs i entry seq position →
    out i = m.oProj layer (m.attention (m.query layer (rotary i) (normed i))
      ((List.range (position + 1)).map (cells after layer)))

structure Computed (pairs : List (BatchEntry × Sequence)) (entry : BatchEntry) (seq : Sequence)
    (cells : ρ → Nat → Nat → m.Key × m.Value) (before : ρ) (done : Nat) (hidden : TokenRows m.Hidden)
    (after : ρ) : Prop where
  states {i position : Nat} : RowAt pairs i entry seq position →
    hidden i = m.hiddenAt seq.tokens done position
  filled : ∀ layer < done, ∀ position < cachedBefore entry seq + entry.nTokens,
    cells after layer position = m.cellAt seq.tokens layer position
  later : ∀ layer, done ≤ layer → ∀ position < cachedBefore entry seq + entry.nTokens,
    cells after layer position = cells before layer position

variable {cells : ρ → Nat → Nat → m.Key × m.Value} {before state after : ρ} {layer : Nat}
  {start hidden out : TokenRows m.Hidden} {rotary : TokenRows m.Rotary}

theorem Computed.next (member : (entry, seq) ∈ pairs)
    (computed : Computed pairs entry seq cells before layer hidden state)
    (cached : ∀ position < cachedBefore entry seq,
      cells before layer position = m.cellAt seq.tokens layer position)
    (positions : ∀ i position, RowAt pairs i entry seq position → rotary i = m.rotaryEmb position)
    (attends : Attends pairs entry seq cells layer (fun i => m.inputLayernorm layer (hidden i)) rotary
      state out after) :
    Computed pairs entry seq cells before (layer + 1)
      (fun i => m.afterAttention layer (hidden i) (out i)) after := by
  have rows {i position : Nat} (here : RowAt pairs i entry seq position) :
      cells after layer position = m.cellAt seq.tokens layer position := by
    rw [attends.new here, positions _ _ here, computed.states here]
    rfl
  have whole {position : Nat} (inside : position < cachedBefore entry seq + entry.nTokens) :
      cells after layer position = m.cellAt seq.tokens layer position := by
    by_cases old : position < cachedBefore entry seq
    · rw [attends.old position old, computed.later layer (Nat.le_refl _) position inside]
      exact cached position old
    · obtain ⟨i, here⟩ := exists_rowAt member (Nat.le_of_not_lt old) inside
      exact rows here
  refine ⟨fun {i position} here => ?_, fun other below position inside => ?_,
    fun other above position inside => ?_⟩
  · have reads : ∀ earlier ≤ position,
        cells after layer earlier = m.cellAt seq.tokens layer earlier := fun earlier le =>
      whole (Nat.lt_of_le_of_lt le here.new.2)
    rw [attends.out here, positions _ _ here, computed.states here]
    exact CausalStack.state_succ_of_cells reads
  · by_cases same : other = layer
    · rw [same]
      exact whole inside
    · rw [attends.others other same position inside]
      exact computed.filled other (by omega) position inside
  · rw [attends.others other (by omega) position inside]
    exact computed.later other (by omega) position inside

theorem computed_layers (member : (entry, seq) ∈ pairs) {attend : m.Attend ρ} (good : Nat → ρ → Prop)
    {bound done : Nat} (below : done ≤ bound)
    (attends : ∀ layer < bound, ∀ normed before out after, good layer before →
      attend layer normed rotary before out after →
      Attends pairs entry seq cells layer normed rotary before out after ∧ good (layer + 1) after)
    (cached : ∀ layer < bound, ∀ position < cachedBefore entry seq,
      cells before layer position = m.cellAt seq.tokens layer position)
    (positions : ∀ i position, RowAt pairs i entry seq position → rotary i = m.rotaryEmb position)
    (embedded : ∀ i position, RowAt pairs i entry seq position →
      start i = m.embedded seq.tokens position)
    (ready : good 0 before)
    (layers : m.DecoderLayers attend rotary start before done hidden after) :
    Computed pairs entry seq cells before done hidden after ∧ good done after := by
  induction layers with
  | start => exact ⟨⟨fun here => embedded _ _ here, fun _ below => absurd below (Nat.not_lt_zero _),
      fun _ _ _ _ => rfl⟩, ready⟩
  | layer _ moved ih =>
      obtain ⟨computed, good⟩ := ih (Nat.le_of_succ_le below)
      obtain ⟨spec, next⟩ := attends _ below _ _ _ _ good moved
      exact ⟨computed.next member (cached _ below) positions spec, next⟩

theorem decoderHidden_computed (member : (entry, seq) ∈ pairs) {attend : m.Attend ρ}
    (good : Nat → ρ → Prop) {inputIds : List Token} {positionIds : List Nat}
    (attends : ∀ layer < m.layers, ∀ normed before out after, good layer before →
      attend layer normed (m.rotaryRows positionIds) before out after →
      Attends pairs entry seq cells layer normed (m.rotaryRows positionIds) before out after ∧
        good (layer + 1) after)
    (cached : ∀ layer < m.layers, ∀ position < cachedBefore entry seq,
      cells before layer position = m.cellAt seq.tokens layer position)
    (fed : ∀ i position, RowAt pairs i entry seq position →
      inputIds[i]? = some (seq.tokens.getD position 0) ∧ positionIds[i]? = some position)
    (ready : good 0 before)
    (computed : m.DecoderHidden attend inputIds positionIds before hidden after) :
    (∀ i position, RowAt pairs i entry seq position →
      hidden i = m.norm (m.hiddenAt seq.tokens m.layers position)) ∧
    (∀ layer < m.layers, ∀ position < cachedBefore entry seq + entry.nTokens,
      cells after layer position = m.cellAt seq.tokens layer position) ∧ good m.layers after := by
  obtain ⟨last, layers, rfl⟩ := computed
  have positions (i position : Nat) (here : RowAt pairs i entry seq position) :
      m.rotaryRows positionIds i = m.rotaryEmb position := by
    rw [Modules.rotaryRows, List.getD_eq_getElem?_getD, (fed i position here).2, Option.getD_some]
  have embedded (i position : Nat) (here : RowAt pairs i entry seq position) :
      m.embedRows inputIds i = m.embedded seq.tokens position := by
    rw [Modules.embedRows, List.getD_eq_getElem?_getD, (fed i position here).1, Option.getD_some]
    rfl
  obtain ⟨done, good⟩ := computed_layers member good (Nat.le_refl m.layers) attends cached positions
    embedded ready layers
  exact ⟨fun i position here => congrArg m.norm (done.states here), done.filled, good⟩

end LlmServing.Decoder
