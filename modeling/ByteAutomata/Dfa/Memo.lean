import ByteAutomata.Dfa.Build
import ByteAutomata.Dfa.Length
import ByteAutomata.Dfa.Printer

/-!
# Answers with memory

* `Memo A` : what earlier questions about `A` have left behind: tables that have become dense, the
  successors and live states, the lengths of longest words, and layers of word counts;
* `Memo.touch`, `Memo.touchAll`, `Memo.shape` : looking up steps, which makes crowded tables dense;
* `Memo.isDead`, `Memo.maxLength`, `Memo.count`, `Memo.nth` : each question gives its answer and
  the memory behind it.

Looking up a step changes no step (`Memo.step_touch`, `Memo.step_touchAll`), so memory is never seen
except through `Table.isDense`.
-/

namespace ByteAutomata

set_option autoImplicit false

/-- What ends a question without an answer. -/
inductive Fault where
  /-- A list of this length has no element at this index. -/
  | outOfBounds (length index : Nat)
  /-- There are not that many accepted words of the length. -/
  | rankTooLarge (rank length : Nat)
  /-- The counts of words do not add up. -/
  | inconsistentCounts
  /-- A search for the next word has skipped more lengths than there are states. -/
  | skippedTooFar
deriving DecidableEq

def Fault.message : Fault → String
  | outOfBounds length index => s!"index out of bounds: the len is {length} but the index is {index}"
  | rankTooLarge rank length => s!"rank {rank} exceeds the number of accepted words of length {length}"
  | inconsistentCounts => "accepted word counts are inconsistent"
  | skippedTooFar => "no accepted word of a later length was found"

/-- What all questions about whole words need: the distinct successors of each state with the
number of bytes that lead there, in the order of their first bytes, and the live states. -/
structure Shape (n : Nat) where
  successors : Vector (List (Fin n × Nat)) n
  live : Vector Bool n

/-- Counts one more occurrence of `t`. -/
def tally {n : Nat} (t : Fin n) : List (Fin n × Nat) → List (Fin n × Nat)
  | [] => [(t, 1)]
  | (u, k) :: rest => if u = t then (u, k + 1) :: rest else (u, k) :: tally t rest

/-- The successors and live states of an automaton. -/
def Automaton.shape (M : Automaton) : Shape M.size where
  successors := Vector.ofFn fun q => (M.edges q).foldl (fun groups e => tally e.2 groups) []
  live := M.alive

/-- What earlier questions about `A` have left behind. -/
structure Memo (A : Dfa) where
  tables : Vector (Table (Fin A.size)) A.size
  known : Option (Shape A.size)
  visits : Vector Visit A.size
  layers : Array (Vector Nat A.size)

namespace Memo

variable {A : Dfa}

def fresh (A : Dfa) : Memo A := ⟨A.tables, none, Vector.replicate A.size .unvisited, #[]⟩

def snapshot (m : Memo A) : Dfa := { A with tables := m.tables }

/-- The automaton without the way it is stored. -/
def automaton (m : Memo A) : Automaton := m.snapshot.toAutomaton

/-- Looks up a step of `q`. -/
def touch (m : Memo A) (q : Fin A.size) : Memo A :=
  { m with tables := m.tables.set q (m.tables.get q).settled }

def touchList (m : Memo A) (qs : List (Fin A.size)) : Memo A := qs.foldl touch m

def touchAll (m : Memo A) : Memo A := { m with tables := m.tables.map Table.settled }

/-- The step from `q` by `b` as it is stored now. -/
def step (m : Memo A) (q : Fin A.size) (b : UInt8) : Option (Fin A.size) := (m.tables.get q).lookup b

def touchWord (m : Memo A) : Option (Fin A.size) → Word → Memo A
  | some q, b :: w => let m := m.touch q; m.touchWord (m.step q b) w
  | _, _ => m

/-! ### Looking up steps changes no step -/

theorem tables_touch (m : Memo A) (q p : Fin A.size) :
    (m.touch q).tables.get p = if p = q then (m.tables.get p).settled else m.tables.get p := by
  change (m.tables.set q.val (m.tables.get q).settled q.isLt)[p.val] = _
  rw [Vector.getElem_set]
  by_cases h : p = q
  · rw [if_pos h, if_pos (congrArg Fin.val h.symm), h]
  · rw [if_neg h, if_neg fun e => h (Fin.ext e.symm)]
    rfl

@[simp] theorem step_touch (m : Memo A) (q : Fin A.size) : (m.touch q).step = m.step := by
  funext p b
  rw [step, tables_touch]
  split
  · exact Table.lookup_settled _ b
  · rfl

@[simp] theorem step_touchAll (m : Memo A) : m.touchAll.step = m.step := by
  funext p b
  have : m.touchAll.tables.get p = (m.tables.get p).settled := Vector.getElem_map Table.settled p.isLt
  rw [step, this]
  exact Table.lookup_settled _ b

theorem automaton_congr {m k : Memo A} (h : m.step = k.step) : m.automaton = k.automaton :=
  congrArg (Automaton.mk A.size (some A.start) A.accepting.get) h

/-- The successors and live states, found at the first question that needs them. -/
def shape (m : Memo A) : Shape A.size × Memo A :=
  match m.known with
  | some s => (s, m)
  | none =>
    let m := m.touchAll
    let s := m.automaton.shape
    (s, { m with known := some s })

/-! ## Dead states and longest words -/

def isDead (m : Memo A) : Option (Fin A.size) → Bool × Memo A
  | none => (true, m)
  | some q => let (s, m) := m.shape; (!s.live.get q, m)

/-- The length of the longest word accepted from a state, zero if there is none. -/
def maxLength (m : Memo A) : Option (Fin A.size) → MaxLength × Memo A
  | none => (.finite 0, m)
  | some q =>
    let (s, m) := m.shape
    if s.live.get q then
      match m.visits.get q with
      | .done length => (length, m)
      | _ =>
        let next (p : Fin A.size) := ((s.successors.get p).map Prod.fst).filter s.live.get
        let (length, visits) := longest next A.size q m.visits
        (length, { m with visits := visits })
    else (.finite 0, m)

/-! ## Counting and ranking words -/

/-- The number of words of length zero accepted from each state. -/
def firstLayer (A : Dfa) : Vector Nat A.size := A.accepting.map fun final => if final then 1 else 0

/-- The counts of the next length: a word is a byte and a word from the state behind it. -/
def nextLayer {n : Nat} (s : Shape n) (layer : Vector Nat n) : Vector Nat n :=
  s.successors.map fun targets => targets.foldl (fun sum e => sum + layer.get e.1 * e.2) 0

/-- Adds the given number of layers. -/
def extend {n : Nat} (s : Shape n) : Nat → Array (Vector Nat n) → Array (Vector Nat n)
  | 0, layers => layers
  | k + 1, layers =>
    match layers.back? with
    | some last => extend s k (layers.push (nextLayer s last))
    | none => layers

/-- Makes sure that the counts of all lengths up to `length` are known. -/
def fill (m : Memo A) (length : Nat) : Memo A :=
  let m := if m.layers.isEmpty then { m with layers := #[firstLayer A] } else m
  if length < m.layers.size then m
  else
    let (s, m) := m.shape
    { m with layers := extend s (length + 1 - m.layers.size) m.layers }

/-- The count of words of the given length accepted from `q`, as far as it is known. -/
def layer (m : Memo A) (length : Nat) (q : Fin A.size) : Nat :=
  match m.layers[length]? with
  | some counts => counts.get q
  | none => 0

def count (m : Memo A) (q : Option (Fin A.size)) (length : Nat) : Nat × Memo A :=
  match q with
  | none => (0, m)
  | some q => let m := m.fill length; (m.layer length q, m)

/-- The first of the given bytes whose words, `weight` many, reach past the rank, its target, and
the rank among these words. -/
def choose {n : Nat} (step : UInt8 → Option (Fin n)) (weight : Fin n → Nat) :
    List UInt8 → Nat → Option (UInt8 × Fin n × Nat)
  | [], _ => none
  | b :: bs, rank =>
    match step b with
    | none => choose step weight bs rank
    | some t => if rank < weight t then some (b, t, rank) else choose step weight bs (rank - weight t)

/-- The word of the given length and rank from `q`, found byte by byte. -/
def descend {n : Nat} (step : Fin n → UInt8 → Option (Fin n)) (weight : Nat → Fin n → Nat) :
    Nat → Fin n → Nat → Option Word
  | 0, _, _ => some []
  | length + 1, q, rank => do
    let (b, t, rank) ← choose (step q) (weight length) Byte.all rank
    return b :: (← descend step weight length t rank)

/-- The word with the given rank among the words of a length accepted from a state, in
lexicographic order. -/
def nth (m : Memo A) (q : Option (Fin A.size)) (length rank : Nat) : Except Fault Word × Memo A :=
  let (total, m) := m.count q length
  match q with
  | some p =>
    if rank < total then
      match descend m.step m.layer length p rank with
      | some w => (.ok w, m)
      | none => (.error .inconsistentCounts, m)
    else (.error (.rankTooLarge rank length), m)
  | none => (.error (.rankTooLarge rank length), m)

/-! ## Comparing -/

/-- Whether both automata have the same start, accepting states, size and entries. The entries are
compared state by state up to the first difference. -/
def same {B : Dfa} (m : Memo A) (k : Memo B) : Bool × Memo A × Memo B :=
  if A.start.val = B.start.val ∧ A.acceptingStates = B.acceptingStates ∧ A.size = B.size then
    let left := m.snapshot.rows
    let right := k.snapshot.rows
    let alike := ((left.zip right).takeWhile fun p => p.1 == p.2).length
    let upTo (n : Nat) := (List.finRange n).take (alike + 1)
    (alike == A.size, m.touchList (upTo A.size), k.touchList (upTo B.size))
  else (false, m, k)

/-- The search for a word that exactly one of the automata accepts. -/
def difference {B : Dfa} (m : Memo A) (k : Memo B) : Option Word × Memo A × Memo B :=
  let d := m.automaton.difference k.automaton
  (d.word, m.touchList (d.expanded.filterMap Prod.fst), k.touchList (d.expanded.filterMap Prod.snd))

/-- The canonical form, for which the steps of all reachable states are looked up. -/
def canonical (m : Memo A) : Dfa × Memo A :=
  (m.automaton.canonical, m.touchList m.automaton.explore.found)

end Memo
end ByteAutomata
