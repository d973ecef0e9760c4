import ByteAutomata.Automaton

/-!
# Words accepted by exactly one of two automata

* `Difference` : the shortlex least such word, and the pairs of states that were expanded before
  it was found;
* `Automaton.difference` : the breadth-first search of the product in ascending byte order;
* `Automaton.distinguishing`, `Automaton.equivalent` : its word, and whether there is none.
-/

namespace ByteAutomata

set_option autoImplicit false

/-- The result of comparing the languages of `L` and `R`. -/
structure Difference (L R : Automaton) where
  /-- The shortlex least word that exactly one side accepts. -/
  word : Option Word
  /-- The pairs of states whose steps were looked up. -/
  expanded : List (Option (Fin L.size) × Option (Fin R.size))

namespace Automaton

variable (L R : Automaton)

/-- The steps of a pair of states. Nothing leaves the pair of dead sinks. -/
def pairEdges : Option (Fin L.size) × Option (Fin R.size) →
    List (UInt8 × (Option (Fin L.size) × Option (Fin R.size)))
  | (none, none) => []
  | (p, q) => Byte.all.map fun b => (b, (L.advance p b, R.advance q b))

/-- Whether exactly one state of a pair accepts. -/
def disagree (s : Option (Fin L.size) × Option (Fin R.size)) : Bool :=
  L.acceptsHere s.1 != R.acceptsHere s.2

/-- Searches the product for a reachable pair of states of which exactly one accepts. -/
def difference : Difference L R :=
  let (s, goal) := Search.seek (L.pairEdges R) (L.disagree R) ((L.size + 1) * (R.size + 1))
    [(L.start, R.start)]
  let word := goal.bind fun i => s.nodes[i]?.map fun node => node.2.reverse
  let seen := match goal with
    | some i => s.found.take i
    | none => s.found
  ⟨word, seen.filter fun s => s.1.isSome || s.2.isSome⟩

/-- The shortlex least word that exactly one of the automata accepts. -/
def distinguishing : Option Word := (L.difference R).word

def equivalent : Bool := (L.distinguishing R).isNone

end Automaton
end ByteAutomata
