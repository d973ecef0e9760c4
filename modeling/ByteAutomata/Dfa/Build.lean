import ByteAutomata.Dfa

/-!
# Building automata from descriptions

* `StateRef` : a state as callers name it, which need not exist;
* `StateSpec` : the steps out of one state, as entries in any order or as a map;
* `Dfa.build` : the automaton of a list of descriptions, or the first thing wrong with them
  (`BuildError`). Inverted ranges come first, then overlaps, then a missing state, then references
  to states that do not exist: the start, the targets in the order of the tables, the accepting
  states in the given order.
-/

namespace ByteAutomata

set_option autoImplicit false

/-- A state as callers name it: the dead sink, or a number. -/
inductive StateRef where
  | sink
  | state (index : Nat)
deriving DecidableEq

namespace StateRef

/-- The number that stands for the dead sink, the largest of 32 bits. -/
def sinkNumber : Nat := 4294967295

def number : StateRef → Nat
  | sink => sinkNumber
  | state i => i

def ofNumber (n : Nat) : StateRef := if n = sinkNumber then sink else state n

/-- The reference to a state that exists, or to the sink. -/
def ofState? {n : Nat} : Option (Fin n) → StateRef
  | none => sink
  | some q => state q.val

/-- The state of an automaton with `n` states, if it exists. -/
def resolve? (n : Nat) : StateRef → Option (Fin n)
  | sink => none
  | state i => toState? n i

end StateRef

/-- An entry as it is given: the bytes `lo..=hi` lead to `target`. -/
structure EntrySpec where
  lo : UInt8
  hi : UInt8
  target : StateRef

/-- The steps out of one state as they are given. -/
inductive StateSpec where
  /-- Entries in any order. -/
  | entries (list : List EntrySpec)
  /-- Pairs of a byte and its target; the last pair of a byte counts. -/
  | map (pairs : List (UInt8 × StateRef))

/-- What is wrong with a description. -/
inductive BuildError where
  | inverted (lo hi : UInt8)
  | overlap (left right : Run StateRef)
  | noStates
  | unknownStart (state : StateRef) (size : Nat)
  | unknownTarget (state : StateRef) (size : Nat)
  | unknownAccepting (state : StateRef) (size : Nat)
deriving DecidableEq

namespace BuildError

/-- The text of an entry in messages. -/
def showRun (r : Run StateRef) : String :=
  s!"Entry \x7b lo: {r.lo}, hi: {r.hi}, target: {r.value.number} \x7d"

def message : BuildError → String
  | inverted lo hi => s!"range {lo}..={hi} is inverted"
  | overlap left right => s!"transition entries {showRun left} and {showRun right} overlap"
  | noStates => "an automaton needs at least one state"
  | unknownStart q n => s!"start state {q.number} does not exist in automaton of size {n}"
  | unknownTarget q n => s!"transition target {q.number} does not exist in automaton of size {n}"
  | unknownAccepting q n => s!"accepting state {q.number} does not exist in automaton of size {n}"

end BuildError

/-! ## Tables -/

/-- The run of an entry that is not inverted. -/
def EntrySpec.run? (e : EntrySpec) : Except BuildError (Run StateRef) :=
  if h : e.lo ≤ e.hi then .ok ⟨e.lo, e.hi, e.target, h⟩ else .error (.inverted e.lo e.hi)

/-- A description in which no range is inverted. -/
inductive StateRuns where
  | entries (list : List (Run StateRef))
  | map (pairs : List (UInt8 × StateRef))

/-- Checks the ranges of a description. -/
def StateSpec.runs? : StateSpec → Except BuildError StateRuns
  | .entries list => return .entries (← list.mapM EntrySpec.run?)
  | .map pairs => return .map pairs

/-- The target in a map, where the sink is no target. -/
def StateRef.target? : StateRef → Option StateRef
  | sink => none
  | state i => some (state i)

/-- The table of a description. -/
def StateRuns.table? : StateRuns → Except BuildError (Table StateRef)
  | .entries list =>
    match Table.ofEntries StateRef.number list with
    | .ok t => .ok t
    | .error (left, right) => .error (.overlap left right)
  | .map pairs => .ok (Table.ofPairs (pairs.map fun p => (p.1, p.2.target?)))

/-! ## Automata -/

/-- The automaton of tables, accepting states and a start that exists. References to states that do
not exist are dropped. -/
def Dfa.ofTables (tables : List (Table StateRef)) (accepting : List StateRef)
    (start : Fin tables.length) : Dfa where
  size := tables.length
  start := start
  accepting := accepting.foldl (fun marks q => match q.resolve? tables.length with
    | some i => marks.set i true
    | none => marks) (Vector.replicate tables.length false)
  tables := ⟨(tables.map (Table.filterMap (StateRef.resolve? tables.length))).toArray, by simp⟩

/-- Fails at the first reference that does not name a state. -/
def checkStates (n : Nat) (error : StateRef → BuildError) (list : List StateRef) :
    Except BuildError Unit :=
  match list.find? fun q => (q.resolve? n).isNone with
  | some q => .error (error q)
  | none => .ok ()

/-- The automaton of a list of descriptions, one for each state. -/
def Dfa.build (states : List StateSpec) (accepting : List StateRef) (start : StateRef) :
    Except BuildError Dfa := do
  let given ← states.mapM StateSpec.runs?
  let tables ← given.mapM StateRuns.table?
  let n := tables.length
  if n = 0 then throw .noStates
  match start.resolve? n with
  | none => throw (.unknownStart start n)
  | some q =>
    checkStates n (.unknownTarget · n) (tables.flatMap Table.targets)
    checkStates n (.unknownAccepting · n) accepting
    return Dfa.ofTables tables accepting q

end ByteAutomata
