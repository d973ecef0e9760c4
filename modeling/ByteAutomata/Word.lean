/-!
# Words over bytes

* `Word` : a word is a list of bytes;
* `shortlex` : the order of words, by length first and lexicographically among equal lengths
  (`shortlex_self`, `shortlex_eq_iff`);
* `Word.replaceByte` : one byte in place of another.
-/

namespace ByteAutomata

set_option autoImplicit false

abbrev Word := List UInt8

/-- Compares by length first and lexicographically among words of equal length. -/
def shortlex (x y : Word) : Ordering := (compare x.length y.length).then (compare x y)

theorem shortlex_eq_iff (x y : Word) : shortlex x y = .eq ↔ x = y := by
  simp only [shortlex, Ordering.then_eq_eq, Std.LawfulEqOrd.compare_eq_iff_eq]
  exact ⟨And.right, fun h => ⟨by rw [h], h⟩⟩

theorem shortlex_self (x : Word) : shortlex x x = .eq := (shortlex_eq_iff x x).2 rfl

theorem shortlex_swap (x y : Word) : (shortlex x y).swap = shortlex y x := by
  simp [shortlex, Ordering.swap_then, Std.OrientedCmp.eq_swap (a := y.length) (b := x.length),
    Std.OrientedCmp.eq_swap (a := y) (b := x)]

/-- The word with every `a` replaced by `x`. -/
def Word.replaceByte (w : Word) (a x : UInt8) : Word := w.map fun c => if c = a then x else c

end ByteAutomata
