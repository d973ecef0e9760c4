import ByteAutomata.Automaton.Merge
import ByteAutomata.Automaton.Difference
import ByteAutomata.Dfa.Table

/-!
# Automata with stored tables

* `Dfa` : at least one state, a start state, the accepting states and one table for each state;
* `Dfa.toAutomaton` : the automaton it stands for, and `Dfa.ofAutomaton` the way back;
* `Dfa.entries` : the maximal runs of the steps out of a state. They do not depend on how the
  steps are stored, and neither do `Dfa.same` and the canonical form `Dfa.canonical`.
-/

namespace ByteAutomata

set_option autoImplicit false

/-- A deterministic automaton given by a table for each state. -/
structure Dfa where
  size : Nat
  start : Fin size
  accepting : Vector Bool size
  tables : Vector (Table (Fin size)) size

namespace Dfa

variable (A : Dfa)

def step (q : Fin A.size) (b : UInt8) : Option (Fin A.size) := (A.tables.get q).lookup b

/-- The states and steps of the automaton without the way they are stored. -/
def toAutomaton : Automaton where
  size := A.size
  start := some A.start
  accepting := A.accepting.get
  step := A.step

def accepts (w : Word) : Bool := A.toAutomaton.accepts w

def acceptingStates : List Nat := ((List.finRange A.size).filter A.accepting.get).map Fin.val

/-- The maximal runs of the steps out of a state. -/
def entries (q : Fin A.size) : List (Run (Fin A.size)) := runs (A.step q)

/-- The entries of all states. -/
def rows : List (List (Run Nat)) :=
  (List.finRange A.size).map fun q => (A.entries q).map (Run.map Fin.val)

/-- Whether start, size, accepting states and all entries coincide. -/
def same (B : Dfa) : Bool :=
  A.start.val == B.start.val && A.acceptingStates == B.acceptingStates && A.size == B.size &&
    A.rows == B.rows

/-- The automaton with one rejecting state, which accepts nothing. -/
def empty : Dfa where
  size := 1
  start := 0
  accepting := #v[false]
  tables := #v[Table.none]

/-- Stores the steps of an automaton as maximal runs. An automaton that starts in the dead sink
becomes the empty one. -/
def ofAutomaton (M : Automaton) : Dfa :=
  match M.start with
  | none => empty
  | some start =>
    { size := M.size
      start := start
      accepting := Vector.ofFn M.accepting
      tables := Vector.ofFn fun q => Table.sparse (runs (M.step q)) (runs_ordered _) }

end Dfa

/-- The canonical form: the minimal automaton of the language, stored as maximal runs. -/
def Automaton.canonical (M : Automaton) : Dfa := Dfa.ofAutomaton M.minimal

/-- The canonical form of the language of `A`. -/
def Dfa.canonical (A : Dfa) : Dfa := A.toAutomaton.canonical

end ByteAutomata
