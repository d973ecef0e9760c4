/-!
# Lengths of longest words

* `MaxLength` : a number, or no bound; ordered by size with the unbounded length last;
* `Visit` : how far the depth-first search for the longest word has come at a state;
* `longest` : the search. A state met again while it is still entered lies on a cycle, so words of
  unbounded length pass through it.
-/

namespace ByteAutomata

set_option autoImplicit false

/-- The length of a longest word. -/
inductive MaxLength where
  | finite (length : Nat)
  | infinite
deriving DecidableEq, Inhabited

namespace MaxLength

def isFinite : MaxLength → Bool
  | finite _ => true
  | infinite => false

def finite? : MaxLength → Option Nat
  | finite n => some n
  | infinite => none

/-- The length after one more byte in front. -/
def successor : MaxLength → MaxLength
  | finite n => finite (n + 1)
  | infinite => infinite

def compare : MaxLength → MaxLength → Ordering
  | finite m, finite n => Ord.compare m n
  | finite _, infinite => .lt
  | infinite, finite _ => .gt
  | infinite, infinite => .eq

def max : MaxLength → MaxLength → MaxLength
  | finite m, finite n => finite (Nat.max m n)
  | _, _ => infinite

/-- The number, or `inf`. -/
def text : MaxLength → String
  | finite n => toString n
  | infinite => "inf"

@[simp] theorem max_infinite (m : MaxLength) : m.max infinite = infinite := by cases m <;> rfl

@[simp] theorem infinite_max (m : MaxLength) : infinite.max m = infinite := by cases m <;> rfl

theorem max_comm (m n : MaxLength) : m.max n = n.max m := by
  cases m <;> cases n <;> simp [max, Nat.max_comm]

end MaxLength

/-- How far a search has come at a state. -/
inductive Visit where
  | unvisited
  | entered
  | done (length : MaxLength)
deriving DecidableEq

/-- The length of the longest path from `q` along `next`, and what the search has learned about
the states it visited. Every call enters a state that was not visited, so a bound of `n` calls one
inside the other is enough. -/
def longest {n : Nat} (next : Fin n → List (Fin n)) :
    Nat → Fin n → Vector Visit n → MaxLength × Vector Visit n
  | 0, _, visits => (.finite 0, visits)
  | fuel + 1, q, visits =>
    let (best, visits) := (next q).foldl (fun acc child =>
      match acc.2.get child with
      | .done length => (acc.1.max length.successor, acc.2)
      | .entered => (.infinite, acc.2)
      | .unvisited =>
        let (length, visits) := longest next fuel child acc.2
        (acc.1.max length.successor, visits)) (.finite 0, visits.set q .entered)
    (best, visits.set q (.done best))

end ByteAutomata
