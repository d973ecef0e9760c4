import Std.Data.HashMap

/-!
# Breadth-first search

* `Search σ ℓ` : the nodes found so far in the order of discovery, each with the labels of the
  path that found it (last label first), and the position of every found node;
* `Search.discover`, `Search.expand` : adds one node, or all successors of a node, unless known;
* `Search.loop` : expands the nodes in the order of discovery, until one is the goal;
* `Search.explore`, `Search.seek` : the search without and with a goal.

A node is expanded once, so a bound on the number of nodes bounds the rounds of the loop.
-/

namespace ByteAutomata

set_option autoImplicit false

/-- The nodes a breadth-first search has found. -/
structure Search (σ ℓ : Type) [BEq σ] [Hashable σ] where
  /-- Every node with the labels on the way to it, last label first, in the order of discovery. -/
  nodes : Array (σ × List ℓ)
  /-- The position of a node in `nodes`. -/
  index : Std.HashMap σ Nat

namespace Search

variable {σ ℓ : Type} [BEq σ] [Hashable σ]

def empty : Search σ ℓ := ⟨#[], ∅⟩

/-- Adds a node unless it is known. -/
def discover (s : Search σ ℓ) (path : List ℓ) (q : σ) : Search σ ℓ :=
  if s.index.contains q then s else ⟨s.nodes.push (q, path), s.index.insert q s.nodes.size⟩

/-- Adds the targets of labelled edges that leave the node at the end of `path`. -/
def expand (s : Search σ ℓ) (path : List ℓ) (edges : List (ℓ × σ)) : Search σ ℓ :=
  edges.foldl (fun s e => s.discover (e.1 :: path) e.2) s

/-- Expands the nodes from position `i` on. Stops at the first node that is a goal, and gives its
position; such a node is not expanded. -/
def loop (edges : σ → List (ℓ × σ)) (goal : σ → Bool) :
    Nat → Nat → Search σ ℓ → Search σ ℓ × Option Nat
  | 0, _, s => (s, none)
  | fuel + 1, i, s =>
    match s.nodes[i]? with
    | none => (s, none)
    | some (q, path) =>
      if goal q then (s, some i) else loop edges goal fuel (i + 1) (s.expand path (edges q))

/-- The search that starts with the given nodes and ends at a goal. `bound` is at least the number
of nodes. -/
def seek (edges : σ → List (ℓ × σ)) (goal : σ → Bool) (bound : Nat) (starts : List σ) :
    Search σ ℓ × Option Nat :=
  loop edges goal bound 0 (starts.foldl (fun s q => s.discover [] q) empty)

/-- All nodes that can be reached from the given ones. -/
def explore (edges : σ → List (ℓ × σ)) (bound : Nat) (starts : List σ) : Search σ ℓ :=
  (seek edges (fun _ => false) bound starts).1

def found (s : Search σ ℓ) : List σ := s.nodes.toList.map Prod.fst

end Search
end ByteAutomata
