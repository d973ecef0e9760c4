import ByteAutomata.Word

/-!
# Where two words differ

* `commonStart` : the longest common start of two words;
* `Divergence` : two words as a common prefix, the cores in which they differ, and a common suffix;
* `Divergence.split` : the longest common prefix, and then the longest common suffix of what is
  left, so that the two never overlap;
* `Divergence.embed` : a core between the prefix and the suffix.
-/

namespace ByteAutomata

set_option autoImplicit false

def commonStart : Word → Word → Word
  | a :: x, b :: y => if a = b then a :: commonStart x y else []
  | _, _ => []

def commonEnd (x y : Word) : Word := (commonStart x.reverse y.reverse).reverse

/-- Two words that share what stands before and behind their cores. -/
structure Divergence where
  start : Word
  smallerCore : Word
  largerCore : Word
  finish : Word
deriving DecidableEq

namespace Divergence

/-- Cuts off the longest common prefix, and then the longest common suffix of what is left. -/
def split (smaller larger : Word) : Divergence :=
  let start := commonStart smaller larger
  let left := smaller.drop start.length
  let right := larger.drop start.length
  let finish := commonEnd left right
  ⟨start, left.take (left.length - finish.length), right.take (right.length - finish.length), finish⟩

/-- The word with the given core. -/
def embed (d : Divergence) (core : Word) : Word := d.start ++ core ++ d.finish

end Divergence

theorem commonStart_prefix_left (x y : Word) : commonStart x y <+: x := by
  fun_induction commonStart x y with
  | case1 a x y ih => exact List.cons_prefix_cons.2 ⟨rfl, ih⟩
  | case2 => exact List.nil_prefix
  | case3 => exact List.nil_prefix

theorem commonStart_comm (x y : Word) : commonStart x y = commonStart y x := by
  fun_induction commonStart x y with
  | case1 a x y ih => simp [commonStart, ih]
  | case2 a x b y h => simp [commonStart, Ne.symm h]
  | case3 x y h =>
    cases x with
    | nil => cases y <;> rfl
    | cons a x => cases y with
      | nil => rfl
      | cons b y => exact absurd rfl (h a x b y rfl)

theorem commonStart_prefix_right (x y : Word) : commonStart x y <+: y :=
  commonStart_comm x y ▸ commonStart_prefix_left y x

end ByteAutomata
