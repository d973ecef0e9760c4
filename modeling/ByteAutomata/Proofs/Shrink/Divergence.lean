import ByteAutomata.Shrink.Divergence
import Mathlib.Data.List.Infix

/-!
# The parts of two words

* `LongestStart`, `LongestEnd` : the longest common prefix and the longest common suffix of two words, which
  `commonStart` and `commonEnd` give (`longestStart_commonStart`, `longestEnd_commonEnd`);
* `LongestStart.ne_of_cons`, `LongestEnd.ne_of_snoc` : words differ next to them;
* `Divergence.Separates x y d` : what the parts of `x` and `y` must be;
* `Divergence.split_eq_iff` : these are the parts that `Divergence.split` gives, and no others are;
* `Divergence.split_parts` : what follows for the cores.
-/

namespace ByteAutomata

set_option autoImplicit false

/-! ## Longest common prefixes -/

/-- All common prefixes of `x` and `y` are prefixes of the common prefix `p`. -/
structure LongestStart (x y p : Word) : Prop where
  left : p <+: x
  right : p <+: y
  longest : ∀ q, q <+: x → q <+: y → q <+: p

section LongestStart

variable {x y p q : Word} {a b : UInt8}

theorem prefix_commonStart (hx : p <+: x) (hy : p <+: y) : p <+: commonStart x y := by
  fun_induction commonStart x y generalizing p with
  | case1 x b y ih =>
    cases p with
    | nil => exact List.nil_prefix
    | cons c p =>
      obtain ⟨rfl, hpx⟩ := List.cons_prefix_cons.1 hx
      obtain ⟨-, hpy⟩ := List.cons_prefix_cons.1 hy
      exact List.cons_prefix_cons.2 ⟨rfl, ih hpx hpy⟩
  | case2 a x b y hne =>
    cases p with
    | nil => exact List.nil_prefix
    | cons c p => exact absurd ((List.cons_prefix_cons.1 hx).1.symm.trans (List.cons_prefix_cons.1 hy).1) hne
  | case3 x y hempty =>
    cases p with
    | nil => exact List.nil_prefix
    | cons c p =>
      obtain ⟨u, rfl⟩ := hx
      obtain ⟨v, rfl⟩ := hy
      exact absurd rfl (hempty c (p ++ u) c (p ++ v) rfl)

theorem longestStart_commonStart (x y : Word) : LongestStart x y (commonStart x y) :=
  ⟨commonStart_prefix_left x y, commonStart_prefix_right x y, fun _ => prefix_commonStart⟩

theorem LongestStart.unique (hp : LongestStart x y p) (hq : LongestStart x y q) : p = q := by
  have hpq := hq.longest p hp.left hp.right
  have hqp := hp.longest q hq.left hq.right
  exact hpq.eq_of_length (Nat.le_antisymm hpq.length_le hqp.length_le)

/-- Behind the longest common prefix the words go on with different bytes. -/
theorem LongestStart.ne_of_cons {u v : Word} (h : LongestStart (p ++ a :: u) (p ++ b :: v) p) : a ≠ b := by
  rintro rfl
  have hlonger := h.longest (p ++ [a]) ⟨u, by simp⟩ ⟨v, by simp⟩
  have hle := hlonger.length_le
  rw [List.length_append, List.length_singleton] at hle
  omega

end LongestStart

/-! ## Longest common suffixes -/

/-- All common suffixes of `x` and `y` are suffixes of the common suffix `s`. -/
structure LongestEnd (x y s : Word) : Prop where
  left : s <:+ x
  right : s <:+ y
  longest : ∀ t, t <:+ x → t <:+ y → t <:+ s

section LongestEnd

variable {x y s t : Word} {a b : UInt8}

/-- Read backwards, a longest common suffix is a longest common prefix. -/
theorem longestEnd_iff : LongestEnd x y s ↔ LongestStart x.reverse y.reverse s.reverse := by
  constructor
  · intro h
    refine ⟨List.reverse_prefix.2 h.left, List.reverse_prefix.2 h.right, fun q hx hy => ?_⟩
    rw [← List.reverse_suffix, List.reverse_reverse]
    refine h.longest q.reverse ?_ ?_
    · rwa [← List.reverse_prefix, List.reverse_reverse]
    · rwa [← List.reverse_prefix, List.reverse_reverse]
  · intro h
    refine ⟨List.reverse_prefix.1 h.left, List.reverse_prefix.1 h.right, fun t hx hy => ?_⟩
    exact List.reverse_prefix.1 (h.longest t.reverse (List.reverse_prefix.2 hx) (List.reverse_prefix.2 hy))

theorem longestEnd_commonEnd (x y : Word) : LongestEnd x y (commonEnd x y) := by
  rw [longestEnd_iff, commonEnd, List.reverse_reverse]
  exact longestStart_commonStart x.reverse y.reverse

theorem LongestEnd.unique (hs : LongestEnd x y s) (ht : LongestEnd x y t) : s = t :=
  List.reverse_injective ((longestEnd_iff.1 hs).unique (longestEnd_iff.1 ht))

/-- In front of the longest common suffix the words end in different bytes. -/
theorem LongestEnd.ne_of_snoc {u v : Word} (h : LongestEnd (u ++ [a] ++ s) (v ++ [b] ++ s) s) : a ≠ b := by
  have hback := longestEnd_iff.1 h
  simp only [List.reverse_append, List.reverse_singleton, List.singleton_append] at hback
  exact hback.ne_of_cons

end LongestEnd

/-! ## Parts -/

namespace Divergence

variable {x y : Word} {d e : Divergence}

/-- The parts of `x` and `y`: a prefix and a suffix that they share, and their cores in between. -/
structure Separates (x y : Word) (d : Divergence) : Prop where
  smaller : d.embed d.smallerCore = x
  larger : d.embed d.largerCore = y
  start : LongestStart x y d.start
  /-- The suffix is the longest of what is left behind the prefix. -/
  finish : LongestEnd (x.drop d.start.length) (y.drop d.start.length) d.finish

/-- A word is its prefix, what stands between, and its suffix. -/
theorem append_core_append {p s : Word} (hp : p <+: x) (hs : s <:+ x.drop p.length) :
    p ++ (x.drop p.length).take ((x.drop p.length).length - s.length) ++ s = x := by
  obtain ⟨u, rfl⟩ := hp
  rw [List.drop_left] at hs ⊢
  obtain ⟨core, rfl⟩ := hs
  rw [List.length_append, Nat.add_sub_cancel, List.take_left, List.append_assoc]

namespace Separates

theorem drop_smaller (h : Separates x y d) : x.drop d.start.length = d.smallerCore ++ d.finish := by
  conv_lhs => rw [← h.smaller, embed, List.append_assoc, List.drop_left]

theorem drop_larger (h : Separates x y d) : y.drop d.start.length = d.largerCore ++ d.finish := by
  conv_lhs => rw [← h.larger, embed, List.append_assoc, List.drop_left]

theorem unique (hd : Separates x y d) (he : Separates x y e) : d = e := by
  have hstart : d.start = e.start := hd.start.unique he.start
  have hfinish : d.finish = e.finish := by
    have hd := hd.finish
    rw [hstart] at hd
    exact hd.unique he.finish
  have hsmaller := hd.drop_smaller.symm
  have hlarger := hd.drop_larger.symm
  rw [hstart, he.drop_smaller, hfinish] at hsmaller
  rw [hstart, he.drop_larger, hfinish] at hlarger
  obtain ⟨start, smallerCore, largerCore, finish⟩ := d
  rw [mk.injEq]
  exact ⟨hstart, List.append_cancel_right hsmaller, List.append_cancel_right hlarger, hfinish⟩

/-- Prefix and suffix do not overlap in the smaller word. -/
theorem length_le_smaller (h : Separates x y d) : d.start.length + d.finish.length ≤ x.length := by
  rw [← h.smaller, embed, List.length_append, List.length_append]
  omega

/-- Nor do they in the larger word. -/
theorem length_le_larger (h : Separates x y d) : d.start.length + d.finish.length ≤ y.length := by
  rw [← h.larger, embed, List.length_append, List.length_append]
  omega

theorem head?_ne (h : Separates x y d) (hs : d.smallerCore ≠ []) (hl : d.largerCore ≠ []) :
    d.smallerCore.head? ≠ d.largerCore.head? := by
  obtain ⟨a, u, hu⟩ := List.exists_cons_of_ne_nil hs
  obtain ⟨b, v, hv⟩ := List.exists_cons_of_ne_nil hl
  have hstart := h.start
  rw [← h.smaller, ← h.larger, embed, embed, hu, hv, List.append_assoc, List.append_assoc] at hstart
  rw [hu, hv]
  exact fun heq => hstart.ne_of_cons (Option.some.inj heq)

theorem getLast?_ne (h : Separates x y d) (hs : d.smallerCore ≠ []) (hl : d.largerCore ≠ []) :
    d.smallerCore.getLast? ≠ d.largerCore.getLast? := by
  obtain ⟨u, a, hu⟩ := (List.eq_nil_or_concat' d.smallerCore).resolve_left hs
  obtain ⟨v, b, hv⟩ := (List.eq_nil_or_concat' d.largerCore).resolve_left hl
  have hfinish := h.finish
  rw [h.drop_smaller, h.drop_larger, hu, hv] at hfinish
  rw [hu, hv, List.getLast?_concat, List.getLast?_concat]
  exact fun heq => hfinish.ne_of_snoc (Option.some.inj heq)

theorem cores_eq_nil_iff (h : Separates x y d) : d.smallerCore = [] ∧ d.largerCore = [] ↔ x = y := by
  constructor
  · rintro ⟨hs, hl⟩
    rw [← h.smaller, ← h.larger, hs, hl]
  · rintro rfl
    -- the whole word is shared, so nothing is left behind the prefix
    have hwhole := (h.start.longest x (List.prefix_refl x) (List.prefix_refl x)).length_le
    have hsmaller := h.drop_smaller
    have hlarger := h.drop_larger
    rw [List.drop_eq_nil_of_le hwhole] at hsmaller hlarger
    exact ⟨(List.append_eq_nil_iff.1 hsmaller.symm).1, (List.append_eq_nil_iff.1 hlarger.symm).1⟩

end Separates

/-! ## Splitting -/

theorem separates_split (x y : Word) : Separates x y (split x y) := by
  have hstart := longestStart_commonStart x y
  have hfinish := longestEnd_commonEnd (x.drop (commonStart x y).length) (y.drop (commonStart x y).length)
  refine ⟨?_, ?_, hstart, hfinish⟩
  · exact append_core_append hstart.left hfinish.left
  · exact append_core_append hstart.right hfinish.right

theorem split_eq_iff : split x y = d ↔ Separates x y d := by
  constructor
  · rintro rfl
    exact separates_split x y
  · exact (separates_split x y).unique

/-- Words are split into a longest common prefix, cores, and the longest common suffix of what is left behind the
prefix, which does not overlap it. The cores differ in their first and in their last bytes, unless one of them is
empty, and both are empty for equal words only. -/
theorem split_parts (x y : Word) :
    ((split x y).embed (split x y).smallerCore = x ∧ (split x y).embed (split x y).largerCore = y) ∧
    LongestStart x y (split x y).start ∧
    LongestEnd (x.drop (split x y).start.length) (y.drop (split x y).start.length) (split x y).finish ∧
    ((split x y).start.length + (split x y).finish.length ≤ x.length ∧
      (split x y).start.length + (split x y).finish.length ≤ y.length) ∧
    ((split x y).smallerCore ≠ [] → (split x y).largerCore ≠ [] →
      (split x y).smallerCore.head? ≠ (split x y).largerCore.head? ∧
        (split x y).smallerCore.getLast? ≠ (split x y).largerCore.getLast?) ∧
    ((split x y).smallerCore = [] ∧ (split x y).largerCore = [] ↔ x = y) := by
  have h : Separates x y (split x y) := split_eq_iff.1 rfl
  refine ⟨⟨h.smaller, h.larger⟩, h.start, h.finish, ⟨h.length_le_smaller, h.length_le_larger⟩, ?_, h.cores_eq_nil_iff⟩
  intro hs hl
  exact ⟨h.head?_ne hs hl, h.getLast?_ne hs hl⟩

/-- Prefix and suffix both want the first byte of the shorter word. -/
example : split [97, 98] [97, 97, 98] = ⟨[97], [], [97], [98]⟩ := by decide

end Divergence
end ByteAutomata
