import ByteAutomata.Automaton

/-!
# Merging states with the same language

* `leaders key` : for every state the first one with the same key;
* `Automaton.signature`, `Automaton.refine` : one round of splitting classes by where the steps lead
  (`signature_ofFn_eq_iff`);
* `Automaton.classes` : the rounds repeated until they change nothing. A class is named by its
  first state;
* `Automaton.merge` : the automaton whose steps lead to the first state of each class.
-/

namespace ByteAutomata

set_option autoImplicit false

/-- For every state the first one with the same key. -/
def leaders {n : Nat} {κ : Type} [BEq κ] [Hashable κ] (key : Fin n → κ) : Vector (Fin n) n :=
  let keys := Vector.ofFn key
  let first : Std.HashMap κ (Fin n) := (List.finRange n).foldl (fun m q => m.insertIfNew (keys.get q) q) ∅
  Vector.ofFn fun q => first.getD (keys.get q) q

namespace Automaton

variable (A : Automaton)

/-- What a step must preserve: the class of a state and the classes its steps lead to. -/
def signature (steps : Vector (List (UInt8 × Fin A.size)) A.size)
    (classes : Vector (Fin A.size) A.size) (q : Fin A.size) : Fin A.size × List (UInt8 × Fin A.size) :=
  (classes.get q, (steps.get q).map fun e => (e.1, classes.get e.2))

/-- Splits the classes by the signatures of their states. -/
def refine (steps : Vector (List (UInt8 × Fin A.size)) A.size)
    (classes : Vector (Fin A.size) A.size) : Vector (Fin A.size) A.size :=
  leaders (A.signature steps classes)

/-- Refines until nothing changes, at most the given number of times. -/
def refineLoop (steps : Vector (List (UInt8 × Fin A.size)) A.size) :
    Nat → Vector (Fin A.size) A.size → Vector (Fin A.size) A.size
  | 0, classes => classes
  | fuel + 1, classes =>
    let next := A.refine steps classes
    if next = classes then classes else refineLoop steps fuel next

/-- The coarsest partition into classes that agree on acceptance and on the classes of their
steps. Every round but the last adds a class, so there are at most `size` rounds. -/
def classes : Vector (Fin A.size) A.size :=
  A.refineLoop (Vector.ofFn A.edges) A.size (leaders A.accepting)

/-! ### What a signature tells -/

theorem mem_map_edges {κ : Type} (f : Fin A.size → κ) {q : Fin A.size} {b : UInt8} {k : κ} :
    (b, k) ∈ (A.edges q).map (fun e => (e.1, f e.2)) ↔ (A.step q b).map f = some k := by
  rw [List.mem_map, Option.map_eq_some_iff]
  constructor
  · rintro ⟨⟨c, t⟩, h, he⟩
    cases he
    exact ⟨t, A.mem_edges.1 h, rfl⟩
  · rintro ⟨t, h, rfl⟩
    exact ⟨(b, t), A.mem_edges.2 h, rfl⟩

theorem map_edges_eq_iff {κ : Type} (f : Fin A.size → κ) {p q : Fin A.size} :
    (A.edges p).map (fun e => (e.1, f e.2)) = (A.edges q).map (fun e => (e.1, f e.2)) ↔
      ∀ b, (A.step p b).map f = (A.step q b).map f := by
  constructor
  · intro h b
    apply Option.ext
    intro k
    rw [← A.mem_map_edges f, h, A.mem_map_edges f]
  · intro h
    simp only [edges, List.map_filterMap, Option.map_map]
    congr 1
    funext b
    have := congrArg (Option.map fun k => (b, k)) (h b)
    simpa [Option.map_map, Function.comp_def] using this

/-- Two states have the same signature exactly if they are in one class and every byte leads them
to one class. -/
theorem signature_ofFn_eq_iff (classes : Vector (Fin A.size) A.size) {p q : Fin A.size} :
    A.signature (Vector.ofFn A.edges) classes p = A.signature (Vector.ofFn A.edges) classes q ↔
      classes.get p = classes.get q ∧
        ∀ b, (A.step p b).map classes.get = (A.step q b).map classes.get := by
  have get_edges (i : Fin A.size) : (Vector.ofFn A.edges).get i = A.edges i := Vector.getElem_ofFn i.2
  simp only [signature, Prod.mk.injEq, get_edges, A.map_edges_eq_iff]

/-! ## The merged automaton -/

/-- Leads every step to the first state of its class. -/
def merge : Automaton :=
  let leader := A.classes
  { size := A.size
    start := A.start.map leader.get
    accepting := A.accepting
    step := fun q b => (A.step q b).map leader.get }

/-- The minimal automaton of the language: without unreachable states, without steps from which
nothing is accepted, with one state for each language that remains, and numbered in the order in
which a breadth-first search in ascending byte order finds the states. -/
def minimal : Automaton := A.reachable.trim.merge.reachable

end Automaton
end ByteAutomata
