import ByteAutomata.Dfa
import ByteAutomata.Word

/-!
# Running and shrinking test cases

* `Status`, `Outcome κ` : how a run on a buffer ended; outcomes of one defect have the same origin;
* `Outcome.isInterestingWith` : a failure of the given origin;
* `Engine ε κ` : generates, runs and shrinks test cases, and compares buffers. It has a state and
  need not give the same outcome twice.
-/

namespace ByteAutomata

set_option autoImplicit false

/-- How a run of the test function ended, by how far it got. -/
inductive Status where
  | overrun
  | invalid
  | valid
  | interesting
deriving DecidableEq

/-- The place of a status in their order. -/
def Status.rank : Status → Nat
  | overrun => 0
  | invalid => 1
  | valid => 2
  | interesting => 3

def Status.compare (s t : Status) : Ordering := Ord.compare s.rank t.rank

/-- The outcome of a run of the test function. -/
structure Outcome (κ : Type) where
  status : Status
  /-- What interesting outcomes of the same defect share. -/
  origin : Option κ
  /-- The part of the input that was consumed. -/
  buffer : Word
  /-- Whether some of the consumed part was thrown away. -/
  hasDiscards : Bool
deriving DecidableEq

/-- Whether the outcome is interesting and has the given origin. -/
def Outcome.isInterestingWith {κ : Type} [DecidableEq κ] (r : Outcome κ) (origin : κ) : Bool :=
  r.status = .interesting && r.origin = some origin

/-- What a session needs of the machinery that runs a test function. -/
structure Engine (ε κ : Type) where
  /-- Runs the test function on fresh data. -/
  generate : StateM ε (Outcome κ)
  /-- Runs the test function on a buffer. -/
  run : Word → StateM ε (Outcome κ)
  /-- Reduces an outcome among those that satisfy the predicate. Parts that an automaton accepts
  may be replaced by smaller words that it accepts. -/
  shrink : Outcome κ → List Dfa → (Outcome κ → Bool) → StateM ε (Outcome κ)
  /-- The smallest outcome of an origin that was found. -/
  best : κ → StateM ε (Option (Outcome κ))
  /-- The order of buffers, smaller ones being preferred. -/
  compare : Word → Word → StateM ε Ordering

/-- The order of buffers that an engine has unless it gives its own. -/
def shortlexOrder {ε : Type} (x y : Word) : StateM ε Ordering := pure (shortlex x y)

end ByteAutomata
