import LlmServing.Lib.Keyed
import LlmServing.Scheduling.Dispatch

/-!
# The model runner's interface to the engine

The parts of `model_runner.py` that every forward path shares: the tokens an entry feeds to the
model, which entries owe a token, and `emit_tokens`. `ModelRunner` is what the engine relies on; the
forward paths instantiate its per-sequence state.
-/

namespace LlmServing.Runner

open Scheduling

/-- `seqs[seq_id]`. Sequence ids are distinct, so the dictionary is the list it was built from. -/
def lookup (seqs : List Sequence) (id : SeqId) : Option Sequence := seqs.find? (·.seqId = id)

def batch (plan : BatchPlan) (seqs : List Sequence) : List (BatchEntry × Sequence) :=
  plan.entries.filterMap fun entry => (lookup seqs entry.seqId).map (entry, ·)

/-- A decode entry's sequence has generated a token; `generated_tokens[-1]` raises otherwise. -/
def entryTokenIds (entry : BatchEntry) (seq : Sequence) : List Token :=
  if entry.isPrefillChunk then
    seq.prefillTokenIds (seq.prefillProgress - entry.nTokens) seq.prefillProgress
  else seq.generatedTokens.getLast?.toList

def owesToken (entry : BatchEntry) (seq : Sequence) : Bool :=
  !(entry.isPrefillChunk && seq.status = .prefilling)

def owed (plan : BatchPlan) (seqs : List Sequence) : List Sequence :=
  ((batch plan seqs).filter fun (entry, seq) => owesToken entry seq).map (·.2)

def emitToken (eosTokenIds : List Token) (seq : Sequence) (token : Token) :
    SeqId × Token × Bool :=
  (seq.seqId, token, token ∈ eosTokenIds ∨
    seq.samplingParams.maxTokens ≤ seq.generatedTokens.length + 1)

/-- `emit_tokens` once `tokens` are sampled, one for each owed sequence. -/
def emitTokens (eosTokenIds : List Token) (owed : List Sequence) (tokens : List Token) :
    IterationResults :=
  List.zipWith (emitToken eosTokenIds) owed tokens

/-- What `_results_queue` carries. `DeviceLost` is the exception of a device that is gone. -/
inductive Outcome where
  | results (results : IterationResults)
  | failed
  | deviceLost
  deriving DecidableEq

/-- A model runner with per-sequence state `ρ`. `forward plan seqs before outcome after` says that
one iteration may end so; what it returns went through `emit_tokens`. -/
structure ModelRunner (ρ : Type) where
  eosTokenIds : List Token
  forward : BatchPlan → List Sequence → ρ → Outcome → ρ → Prop
  free : SeqId → ρ → ρ
  emits {plan : BatchPlan} {seqs : List Sequence} {before after : ρ} {results : IterationResults} :
    forward plan seqs before (.results results) after →
      ∃ tokens : List Token, tokens.length = (owed plan seqs).length ∧
        results = emitTokens eosTokenIds (owed plan seqs) tokens

def ModelRunner.freeAll {ρ : Type} (runner : ModelRunner ρ) (ids : List SeqId) (state : ρ) : ρ :=
  ids.foldl (fun state id => runner.free id state) state

theorem lookup_some {seqs : List Sequence} {id : SeqId} {seq : Sequence}
    (found : lookup seqs id = some seq) : seq ∈ seqs ∧ seq.seqId = id :=
  Lib.Keyed.find?_some found

theorem lookup_of_mem {seqs : List Sequence} (distinct : (seqs.map (·.seqId)).Nodup)
    {seq : Sequence} (member : seq ∈ seqs) : lookup seqs seq.seqId = some seq :=
  Lib.Keyed.find?_of_mem distinct member

theorem mem_batch {plan : BatchPlan} {seqs : List Sequence} {entry : BatchEntry} {seq : Sequence} :
    (entry, seq) ∈ batch plan seqs ↔ entry ∈ plan.entries ∧ lookup seqs entry.seqId = some seq := by
  simp [batch]

theorem map_fst_batch {plan : BatchPlan} {seqs : List Sequence}
    (found : ∀ id ∈ plan.ids, id ∈ seqs.map (·.seqId)) :
    (batch plan seqs).map (·.1) = plan.entries := by
  have each : ∀ entries : List BatchEntry, (∀ entry ∈ entries, entry.seqId ∈ seqs.map (·.seqId)) →
      (entries.filterMap fun entry => (lookup seqs entry.seqId).map (entry, ·)).map (·.1) =
        entries := by
    intro entries present
    induction entries with
    | nil => rfl
    | cons entry rest ih =>
        obtain ⟨seq, here⟩ := Lib.Keyed.exists_find? (present entry (by simp))
        simp only [lookup, List.filterMap_cons, here, Option.map_some, List.map_cons]
        exact congrArg _ (ih fun other member => present other (by simp [member]))
  exact each plan.entries fun entry member => found _ (List.mem_map_of_mem member)

theorem map_seqId_batch {plan : BatchPlan} {seqs : List Sequence}
    (found : ∀ id ∈ plan.ids, id ∈ seqs.map (·.seqId)) :
    (batch plan seqs).map (·.2.seqId) = plan.ids := by
  have same : (batch plan seqs).map (·.2.seqId) = (batch plan seqs).map (·.1.seqId) := by
    apply List.map_congr_left
    intro ⟨entry, seq⟩ member
    exact (lookup_some (mem_batch.mp member).2).2
  rw [same, BatchPlan.ids, ← map_fst_batch found, List.map_map]
  rfl

end LlmServing.Runner
