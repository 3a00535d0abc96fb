import Mathlib.Data.List.Basic

/-!
# Streaming decoders

A machine that puts out symbols as its inputs arrive, and at their end flushes what it still holds.
Where the flush of every state but the first leaves a marker, an output that does not end in the
marker shows that the machine is back at its start, and so that nothing of its inputs is pending.
-/

namespace LlmServing.Lib

structure Transducer (State Input Output : Type) where
  start : State
  step : State → Input → State × List Output
  flush : State → List Output

namespace Transducer

variable {State Input Output : Type} (machine : Transducer State Input Output)

def run : State → List Input → State × List Output
  | state, [] => (state, [])
  | state, input :: inputs =>
      let (next, output) := machine.step state input
      let (last, outputs) := run next inputs
      (last, output ++ outputs)

def decode (inputs : List Input) : List Output :=
  let (last, outputs) := machine.run machine.start inputs
  outputs ++ machine.flush last

theorem run_append (state : State) (first second : List Input) :
    machine.run state (first ++ second) =
      ((machine.run (machine.run state first).1 second).1,
        (machine.run state first).2 ++ (machine.run (machine.run state first).1 second).2) := by
  induction first generalizing state with
  | nil => rfl
  | cons input first ih => simp only [List.cons_append, run, ih, List.append_assoc]

theorem decode_append {first : List Input} (back : (machine.run machine.start first).1 = machine.start)
    (empty : machine.flush machine.start = []) (second : List Input) :
    machine.decode (first ++ second) = machine.decode first ++ machine.decode second := by
  simp only [decode, run_append, back, empty, List.append_nil, List.append_assoc]

structure Marks (marker : Output) : Prop where
  start : machine.flush machine.start = []
  pending (state : State) : state ≠ machine.start → (machine.flush state).getLast? = some marker

variable {machine} {marker : Output}

theorem Marks.decode_nil (marks : machine.Marks marker) : machine.decode [] = [] := by
  simp only [decode, run, marks.start, List.append_nil]

theorem Marks.back (marks : machine.Marks marker) {inputs : List Input}
    (whole : (machine.decode inputs).getLast? ≠ some marker) :
    (machine.run machine.start inputs).1 = machine.start := by
  by_contra pending
  apply whole
  rw [decode, List.getLast?_append, marks.pending _ pending, Option.some_or]

theorem Marks.decode_append (marks : machine.Marks marker) {first : List Input}
    (whole : (machine.decode first).getLast? ≠ some marker) (second : List Input) :
    machine.decode (first ++ second) = machine.decode first ++ machine.decode second :=
  machine.decode_append (marks.back whole) marks.start second

theorem decode_flatMap {encode : Output → List Input} (empty : machine.flush machine.start = [])
    (each : ∀ symbol, machine.run machine.start (encode symbol) = (machine.start, [symbol]))
    (symbols : List Output) : machine.decode (symbols.flatMap encode) = symbols := by
  induction symbols with
  | nil => simp only [List.flatMap_nil, decode, run, empty, List.append_nil]
  | cons symbol symbols ih =>
      have back : (machine.run machine.start (encode symbol)).1 = machine.start := by rw [each]
      rw [List.flatMap_cons, machine.decode_append back empty, ih, decode, each]
      simp only [empty, List.append_nil, List.singleton_append]

end Transducer

end LlmServing.Lib
