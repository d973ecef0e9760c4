import Std.Data.HashMap
import ByteAutomata.Dfa
import ByteAutomata.Learner.ByteClasses
import ByteAutomata.Text.Grid
import ByteAutomata.Word.Quoted

/-!
# The observation table

* `Observed` : a state of the hypothesis: the word it was found by, the answers for this word with
  every experiment behind it, the steps that are known and the answers by which they were found;
* `Observations` : the byte classes, the experiments and the states, also by their rows
  (`Observations.withRow?`, which `Observations.reindex` brings up to date);
* `Observations.automaton`, `Observations.dfa` : the hypothesis;
* `Observations.render` : the table as text.
-/

namespace ByteAutomata

set_option autoImplicit false

/-- A state of the hypothesis. -/
structure Observed where
  /-- The word by which the state was found. -/
  label : Word
  /-- The answers for the label with each experiment behind it. -/
  row : List Bool
  /-- The steps by canonical bytes, as far as they are known. -/
  steps : ByteMap (Option Nat)
  /-- The answers for the label and one more byte with experiments behind them, as far as they are
  known. -/
  beyond : ByteMap (List Bool)

/-- What a learner knows about a language. -/
structure Observations where
  classes : ByteClasses
  /-- The words used to tell states apart; the first one is empty. -/
  experiments : List Word
  states : Array Observed
  /-- The states by their rows. -/
  index : Std.HashMap (List Bool) Nat
  /-- How often the experiments or the classes have changed. -/
  generation : Nat

namespace Observations

variable (T : Observations)

def size : Nat := T.states.size

def label (q : Nat) : Word :=
  match T.states[q]? with
  | some s => s.label
  | none => []

def row (q : Nat) : List Bool :=
  match T.states[q]? with
  | some s => s.row
  | none => []

def step? (q : Nat) (b : UInt8) : Option Nat := T.states[q]?.bind fun s => s.steps.get b

/-- Whether a state accepts, which the first experiment tells. -/
def accepting (q : Nat) : Bool := (T.row q).headD false

def withRow? (row : List Bool) : Option Nat := T.index[row]?

/-- The answers that are known for the label of a state and one more byte. -/
def beyond (q : Nat) (b : UInt8) : List Bool :=
  match T.states[q]? with
  | some s => s.beyond.get b
  | none => []

/-- Remembers a step, and the answers that tell where it leads. -/
def setStep (q : Nat) (b : UInt8) (row : List Bool) (t : Nat) : Observations :=
  { T with states := T.states.modify q fun s =>
      { s with steps := s.steps.set b (some t), beyond := s.beyond.set b row } }

def push (label : Word) (row : List Bool) : Observations :=
  { T with
    states := T.states.push ⟨label, row, ByteMap.const none, ByteMap.const []⟩
    index := T.index.insert row T.size }

/-- Looks the states up by the rows that they have now. -/
def reindex (T : Observations) : Observations :=
  { T with index := T.states.toList.zipIdx.foldl (fun m s => m.insert s.1.row s.2) ∅ }

@[simp] theorem size_push (label : Word) (row : List Bool) : (T.push label row).size = T.size + 1 :=
  Array.size_push ..

@[simp] theorem size_setStep (q : Nat) (b : UInt8) (row : List Bool) (t : Nat) :
    (T.setStep q b row t).size = T.size := Array.size_modify ..

@[simp] theorem withRow?_setStep (q : Nat) (b : UInt8) (answers row : List Bool) (t : Nat) :
    (T.setStep q b answers t).withRow? row = T.withRow? row := rfl

theorem withRow?_push (label : Word) (answers row : List Bool) :
    (T.push label answers).withRow? row = if answers = row then some T.size else T.withRow? row := by
  rw [withRow?, push, Std.HashMap.getElem?_insert, withRow?]
  simp only [beq_iff_eq]

/-- The hypothesis: it starts in state 0 and treats every byte like its canonical byte. -/
def automaton : Automaton where
  size := T.size
  start := toState? T.size 0
  accepting q := T.accepting q
  step q b := (T.step? q (T.classes.normalize b)).bind (toState? T.size)

/-- The hypothesis, stored as maximal runs. -/
def dfa : Dfa := Dfa.ofAutomaton T.automaton

/-- The table of answers: a record for each state, with its label and its row. -/
def render : String :=
  Grid.render (("label" :: T.experiments.map Word.quoted) ::
    T.states.toList.map fun s => s.label.quoted :: s.row.map fun a => if a then "+" else "-")

end Observations
end ByteAutomata
