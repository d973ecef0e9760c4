import ByteAutomata.Search
import ByteAutomata.Word
import ByteAutomata.Byte

/-!
# Deterministic automata over bytes

* `Automaton` : finitely many states `Fin size`, a partial step function; a missing step, and a
  missing start state, is the dead sink, which accepts nothing;
* `Automaton.ofNumbers` : an automaton whose states are given by number;
* `Automaton.read`, `Automaton.acceptsFrom`, `Automaton.accepts` : reading a word
  (`read_append`, `acceptsFrom_cons`);
* `Automaton.explore`, `Automaton.reachable` : the states that can be reached, numbered in the
  order of discovery;
* `Automaton.alive`, `Automaton.trim` : the states from which some word is accepted, and the
  automaton whose steps lead to such states only.
-/

namespace ByteAutomata

set_option autoImplicit false

/-- A deterministic automaton. `none` in place of a state is the dead sink. -/
structure Automaton where
  size : Nat
  start : Option (Fin size)
  accepting : Fin size → Bool
  step : Fin size → UInt8 → Option (Fin size)

/-- The number as a state of an automaton with `n` states. -/
def toState? (n i : Nat) : Option (Fin n) := if h : i < n then some ⟨i, h⟩ else none

@[simp] theorem toState?_val {n : Nat} (q : Fin n) : toState? n q.val = some q := by
  simp [toState?]

/-- The automaton on the states below `size` whose steps are given by number. A number that is too
large is the dead sink. -/
def Automaton.ofNumbers (size : Nat) (start : Option Nat) (accepting : Nat → Bool)
    (step : Nat → UInt8 → Option Nat) : Automaton where
  size := size
  start := start.bind (toState? size)
  accepting q := accepting q
  step q b := (step q b).bind (toState? size)

namespace Automaton

variable (A : Automaton)

/-- One step, also from the dead sink, which is never left. -/
def advance (q : Option (Fin A.size)) (b : UInt8) : Option (Fin A.size) := q.bind (A.step · b)

/-- The state reached by reading a word. -/
def read (q : Option (Fin A.size)) (w : Word) : Option (Fin A.size) := w.foldl A.advance q

/-- Whether a state, or the dead sink, accepts. -/
def acceptsHere : Option (Fin A.size) → Bool
  | some q => A.accepting q
  | none => false

def acceptsFrom (q : Option (Fin A.size)) (w : Word) : Bool := A.acceptsHere (A.read q w)

def accepts (w : Word) : Bool := A.acceptsFrom A.start w

@[simp] theorem advance_some (q : Fin A.size) (b : UInt8) : A.advance (some q) b = A.step q b := rfl

@[simp] theorem read_cons (q : Option (Fin A.size)) (b : UInt8) (w : Word) :
    A.read q (b :: w) = A.read (A.advance q b) w := rfl

theorem read_append (q : Option (Fin A.size)) (v w : Word) :
    A.read q (v ++ w) = A.read (A.read q v) w := List.foldl_append

@[simp] theorem read_none (w : Word) : A.read none w = none := by
  induction w with
  | nil => rfl
  | cons b w ih => exact ih

@[simp] theorem acceptsFrom_none (w : Word) : A.acceptsFrom none w = false := by
  rw [acceptsFrom, read_none]; rfl

@[simp] theorem acceptsFrom_cons (q : Option (Fin A.size)) (b : UInt8) (w : Word) :
    A.acceptsFrom q (b :: w) = A.acceptsFrom (A.advance q b) w := rfl

/-! ## Reachable states -/

/-- The steps out of a state in ascending byte order. -/
def edges (q : Fin A.size) : List (UInt8 × Fin A.size) :=
  Byte.all.filterMap fun b => (A.step q b).map (b, ·)

theorem mem_edges {q t : Fin A.size} {b : UInt8} : (b, t) ∈ A.edges q ↔ A.step q b = some t := by
  simp only [edges, List.mem_filterMap, Option.map_eq_some_iff, Prod.mk.injEq]
  constructor
  · rintro ⟨c, -, u, h, rfl, rfl⟩; exact h
  · intro h; exact ⟨b, Byte.mem_all b, t, h, rfl, rfl⟩

def explore : Search (Fin A.size) UInt8 := Search.explore A.edges A.size A.start.toList

/-- The automaton on the nodes of a search, numbered by position. -/
def numbered (s : Search (Fin A.size) UInt8) : Automaton :=
  let n := s.nodes.size
  let name (q : Fin A.size) : Option (Fin n) := s.index[q]?.bind (toState? n)
  let rows : Vector (ByteMap (Option (Fin n))) n := Vector.ofFn fun i =>
    ByteMap.ofFn fun b => (A.step s.nodes[i].1 b).bind name
  let final : Vector Bool n := Vector.ofFn fun i => A.accepting s.nodes[i].1
  { size := n
    start := A.start.bind name
    accepting := fun q => final.get q
    step := fun q b => (rows.get q).get b }

/-- The reachable part, its states numbered in the order in which a breadth-first search in
ascending byte order finds them. -/
def reachable : Automaton := A.numbered A.explore

/-! ## Live states -/

/-- For every state the states with a step to it. -/
def predecessors : Vector (List (Fin A.size)) A.size :=
  (List.finRange A.size).foldl
    (fun v p => (A.edges p).foldl (fun v e => v.set e.2 (p :: v.get e.2)) v) (Vector.replicate A.size [])

/-- Marks the states from which some word is accepted: those that a backward search from the
accepting states finds. -/
def alive : Vector Bool A.size :=
  let before := A.predecessors
  let s : Search (Fin A.size) Unit := Search.explore (fun q => (before.get q).map ((), ·)) A.size
    ((List.finRange A.size).filter A.accepting)
  Vector.ofFn fun q => s.index.contains q

/-- Sends every step that leads to a state without accepted words to the dead sink. -/
def trim : Automaton :=
  let live := A.alive
  let keep (q : Fin A.size) : Option (Fin A.size) := if live.get q then some q else none
  { size := A.size
    start := A.start.bind keep
    accepting := A.accepting
    step := fun q b => (A.step q b).bind keep }

end Automaton
end ByteAutomata
