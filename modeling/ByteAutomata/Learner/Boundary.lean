import ByteAutomata.Dialogue

/-!
# A boundary of a predicate on numbers

* `boundary` : asks a predicate that holds at 0 for a number `n` such that it holds at `n` and not at
  `n + 1`. The numbers up to four are tried one by one, then the bound is doubled until the
  predicate fails, and the gap is halved.
-/

namespace ByteAutomata

set_option autoImplicit false

/-- Halves the gap between `lo`, where the predicate holds, and `hi`, where it does not. -/
def bisect (lo hi : Nat) : Dialogue Nat Nat :=
  if lo + 1 < hi then
    let mid := lo + (hi - lo) / 2
    .ask mid fun holds => if holds then bisect mid hi else bisect lo mid
  else .done lo
termination_by hi - lo
decreasing_by all_goals omega

/-- Doubles `hi` until the predicate fails there, at most the given number of times. -/
def gallop : Nat → Nat → Nat → Dialogue Nat Nat
  | 0, lo, hi => .ask hi fun holds => if holds then .fail .overflow else bisect lo hi
  | doublings + 1, lo, hi =>
    .ask hi fun holds => if holds then gallop doublings hi (2 * hi) else bisect lo hi

/-- How often 5 can be doubled within 64 bits. -/
def doublings : Nat := 61

/-- Tries the next numbers one by one, as many as given, and then larger steps. -/
def climb : Nat → Nat → Dialogue Nat Nat
  | 0, n => gallop doublings n (n + 1)
  | steps + 1, n => .ask (n + 1) fun holds => if holds then climb steps (n + 1) else .done n

/-- A number where the predicate holds, unlike at the next one. -/
def boundary : Dialogue Nat Nat := climb 4 0

end ByteAutomata
