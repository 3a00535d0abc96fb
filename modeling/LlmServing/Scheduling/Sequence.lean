/-!
# Request-lifetime state and one iteration's plan

`sequence.py`, `batch_plan.py`, and the records of `sampling.py` and `metrics.py` they carry.
Token ids and sequence ids are natural numbers; clock readings are exact rationals.
-/

namespace LlmServing.Scheduling

abbrev Token := Nat
abbrev SeqId := Nat
abbrev Time := Rat

/-- The checks of `__post_init__` are the fields after `maxTokens`. -/
structure SamplingParams where
  temperature : Rat := 1
  topP : Rat := 1
  topK : Int := -1
  maxTokens : Nat := 256
  temperature_nonneg : 0 ≤ temperature := by decide
  topP_pos : 0 < topP := by decide
  topP_le_one : topP ≤ 1 := by decide
  maxTokens_pos : 0 < maxTokens := by decide
  deriving DecidableEq

structure RequestMetrics where
  enqueueTime : Time
  admitTime : Option Time := none
  firstTokenTime : Option Time := none
  tokenTimes : List Time := []
  doneTime : Option Time := none
  deriving DecidableEq

structure BlockTable where
  physicalBlocks : List Nat := []
  numTokens : Nat := 0
  reservedTokens : Nat := 0
  deriving DecidableEq

inductive SequenceStatus where
  | waiting | prefilling | decoding
  deriving DecidableEq

/-- `submit` refuses a prompt of no tokens before any `Sequence` is built from it, which is
`promptTokens_ne_nil`. -/
structure Sequence where
  seqId : SeqId
  promptTokens : List Token
  samplingParams : SamplingParams
  metrics : RequestMetrics
  generatedTokens : List Token := []
  blockTable : BlockTable := {}
  status : SequenceStatus := .waiting
  prefillProgress : Nat := 0
  admissionSkips : Nat := 0
  promptTokens_ne_nil : promptTokens ≠ []
  deriving DecidableEq

namespace Sequence

abbrev tokens (seq : Sequence) : List Token := seq.promptTokens ++ seq.generatedTokens

def numTokens (seq : Sequence) : Nat := seq.promptTokens.length + seq.generatedTokens.length

/-- A Python slice `tokens[start:stop]` with `start` and `stop` non-negative. -/
def slice (tokens : List Token) (start stop : Nat) : List Token := (tokens.take stop).drop start

def prefillTokenIds (seq : Sequence) (start stop : Nat) : List Token :=
  if stop ≤ seq.promptTokens.length then slice seq.promptTokens start stop
  else slice seq.tokens start stop

theorem length_tokens (seq : Sequence) : seq.tokens.length = seq.numTokens := by
  simp [tokens, numTokens]

theorem numTokens_pos (seq : Sequence) : 0 < seq.numTokens := by
  have prompt := List.length_pos_iff.mpr seq.promptTokens_ne_nil
  unfold numTokens
  omega

theorem prefillTokenIds_eq (seq : Sequence) (start stop : Nat) :
    seq.prefillTokenIds start stop = slice seq.tokens start stop := by
  unfold prefillTokenIds
  split
  · rename_i inside
    simp only [slice, tokens, List.take_append_of_le_length inside]
  · rfl

theorem take_append_slice (tokens : List Token) (start stop : Nat) (le : start ≤ stop) :
    tokens.take start ++ slice tokens start stop = tokens.take stop := by
  have front : (tokens.take stop).take start = tokens.take start := by
    rw [List.take_take, Nat.min_eq_left le]
  rw [slice, ← front, List.take_append_drop]

theorem length_slice (tokens : List Token) (start stop : Nat) (le : stop ≤ tokens.length) :
    (slice tokens start stop).length = stop - start := by
  simp [slice, Nat.min_eq_left le]

theorem slice_eq_map (tokens : List Token) (start stop : Nat) (inside : stop ≤ tokens.length) :
    slice tokens start stop =
      (List.range' start (stop - start)).map (tokens.getD · 0) := by
  apply List.ext_getElem
  · simp [slice, Nat.min_eq_left inside]
  · intro i here _
    rw [length_slice _ _ _ inside] at here
    have bound : start + i < tokens.length := by omega
    simp [slice, bound]

theorem getLast?_toList (seq : Sequence) (generated : seq.generatedTokens ≠ []) :
    seq.generatedTokens.getLast?.toList = [seq.tokens.getD (seq.numTokens - 1) 0] := by
  have some : seq.generatedTokens.getLast? = some (seq.generatedTokens.getLast generated) :=
    List.getLast?_eq_some_getLast generated
  have last : seq.tokens.getLast? = seq.generatedTokens.getLast? := by
    rw [tokens, List.getLast?_append, some]
    rfl
  rw [← length_tokens, List.getD_eq_getElem?_getD, ← List.getLast?_eq_getElem?, last, some]
  rfl

end Sequence

structure BatchEntry where
  seqId : SeqId
  nTokens : Nat
  isPrefillChunk : Bool := false
  deriving DecidableEq

structure BatchPlan where
  entries : List BatchEntry := []
  preempted : List SeqId := []
  rejected : List Sequence := []
  deriving DecidableEq

namespace BatchPlan

def add (plan : BatchPlan) (seq : Sequence) (nTokens : Nat) (isPrefillChunk : Bool := false) :
    BatchPlan :=
  { plan with entries := plan.entries ++ [⟨seq.seqId, nTokens, isPrefillChunk⟩] }

@[simp] theorem add_entries (plan : BatchPlan) (seq : Sequence) (n : Nat) (chunk : Bool) :
    (plan.add seq n chunk).entries = plan.entries ++ [⟨seq.seqId, n, chunk⟩] := rfl

@[simp] theorem add_preempted (plan : BatchPlan) (seq : Sequence) (n : Nat) (chunk : Bool) :
    (plan.add seq n chunk).preempted = plan.preempted := rfl

@[simp] theorem add_rejected (plan : BatchPlan) (seq : Sequence) (n : Nat) (chunk : Bool) :
    (plan.add seq n chunk).rejected = plan.rejected := rfl

def ids (plan : BatchPlan) : List SeqId := plan.entries.map (·.seqId)

@[simp] theorem add_ids (plan : BatchPlan) (seq : Sequence) (n : Nat) (chunk : Bool) :
    (plan.add seq n chunk).ids = plan.ids ++ [seq.seqId] := by simp [ids]

end BatchPlan

end LlmServing.Scheduling
