import ByteAutomata.Byte
import ByteAutomata.Learner.ByteClasses
import ByteAutomata.Proofs.Boundary
import Mathlib.Data.List.Perm.Subperm
import Mathlib.Data.List.TakeWhile
import Mathlib.Tactic.Tauto

/-!
# Byte classes

* `ByteClasses.Wf` : the canonical bytes ascend from 0. Then `normalize` gives the greatest one that
  is not above a byte (`normalize_eq_iff`);
* `mem_canonical_insert`, `Wf.insert`, `Wf.normalize_insert` : splitting a class adds one canonical byte, and bytes of
  the class that are not below it go over to it;
* `distinguish_spec` : a byte that a test tells from its canonical byte gets a class apart, and its new
  canonical byte passes the test like the byte itself.
-/

namespace ByteAutomata

set_option autoImplicit false

open Dialogue

/-! ## Sorted bytes -/

section Sorted

variable {l : List UInt8}

theorem mem_takeWhile_le (h : l.Pairwise (· < ·)) {b c : UInt8} :
    c ∈ l.takeWhile (· ≤ b) ↔ c ∈ l ∧ c ≤ b := by
  induction l with
  | nil => simp
  | cons a l ih =>
    obtain ⟨ha, hl⟩ := List.pairwise_cons.1 h
    by_cases hab : a ≤ b
    · rw [List.takeWhile_cons_of_pos (by simpa using hab), List.mem_cons, List.mem_cons, ih hl]
      constructor
      · rintro (rfl | hc)
        · exact ⟨Or.inl rfl, hab⟩
        · exact ⟨Or.inr hc.1, hc.2⟩
      · rintro ⟨hc | hc, hle⟩
        · exact Or.inl hc
        · exact Or.inr ⟨hc, hle⟩
    · rw [List.takeWhile_cons_of_neg (by simpa using hab), List.mem_cons]
      constructor
      · intro hc
        cases hc
      · rintro ⟨rfl | hc, hle⟩
        · exact absurd hle hab
        · exact absurd (UInt8.le_of_lt (UInt8.lt_of_lt_of_le (ha c hc) hle)) hab

theorem le_getLastD (h : l.Pairwise (· < ·)) {c : UInt8} (hc : c ∈ l) (d : UInt8) : c ≤ l.getLastD d := by
  obtain ⟨front, last, rfl⟩ := (List.eq_nil_or_concat l).resolve_left (List.ne_nil_of_mem hc)
  rw [List.concat_eq_append] at h hc ⊢
  rw [List.getLastD_concat]
  rcases List.mem_append.1 hc with hfront | hlast
  · exact UInt8.le_of_lt ((List.pairwise_append.1 h).2.2 c hfront last (List.mem_singleton.2 rfl))
  · rw [List.mem_singleton.1 hlast]
    exact UInt8.le_refl last

theorem getLastD_mem (hne : l ≠ []) (d : UInt8) : l.getLastD d ∈ l := by
  obtain ⟨front, last, rfl⟩ := (List.eq_nil_or_concat l).resolve_left hne
  rw [List.concat_eq_append, List.getLastD_concat]
  simp

end Sorted

namespace ByteClasses

/-- The canonical bytes ascend from 0. -/
structure Wf (C : ByteClasses) : Prop where
  ascending : C.canonical.Pairwise (· < ·)
  zero : 0 ∈ C.canonical

theorem wf_single : single.Wf := ⟨List.pairwise_singleton _ _, List.mem_singleton.2 rfl⟩

variable {C D : ByteClasses} {b c : UInt8}

theorem Wf.length_le (h : C.Wf) : C.canonical.length ≤ 256 := by
  have hnodup : C.canonical.Nodup := h.ascending.imp fun hab heq => by
    rw [heq] at hab
    exact UInt8.lt_irrefl _ hab
  rw [← Byte.length_all]
  exact (List.subperm_of_subset hnodup fun b _ => Byte.mem_all b).length_le

theorem Wf.length_pos (h : C.Wf) : 0 < C.canonical.length := List.length_pos_of_mem h.zero

theorem Wf.eq_single (h : C.Wf) (hlength : C.canonical.length ≤ 1) : C = single := by
  obtain ⟨c, hc⟩ := List.length_eq_one_iff.1 (Nat.le_antisymm hlength h.length_pos)
  have hzero := h.zero
  rw [hc, List.mem_singleton] at hzero
  obtain ⟨canonical⟩ := C
  exact congrArg ByteClasses.mk (hc.trans (congrArg (fun d => [d]) hzero.symm))

/-! ## Canonical bytes -/

theorem Wf.normalize_spec (h : C.Wf) (b : UInt8) :
    C.normalize b ∈ C.canonical ∧ C.normalize b ≤ b ∧ ∀ d ∈ C.canonical, d ≤ b → d ≤ C.normalize b := by
  have hne : C.canonical.takeWhile (· ≤ b) ≠ [] :=
    List.ne_nil_of_mem ((mem_takeWhile_le h.ascending).2 ⟨h.zero, UInt8.zero_le⟩)
  have hmem := (mem_takeWhile_le h.ascending).1 (getLastD_mem hne 0)
  refine ⟨hmem.1, hmem.2, fun d hd hle => ?_⟩
  exact le_getLastD (h.ascending.sublist (List.takeWhile_sublist _)) ((mem_takeWhile_le h.ascending).2 ⟨hd, hle⟩) 0

theorem Wf.normalize_mem (h : C.Wf) (b : UInt8) : C.normalize b ∈ C.canonical := (h.normalize_spec b).1

theorem Wf.normalize_le (h : C.Wf) (b : UInt8) : C.normalize b ≤ b := (h.normalize_spec b).2.1

theorem Wf.normalize_eq_iff (h : C.Wf) :
    C.normalize b = c ↔ c ∈ C.canonical ∧ c ≤ b ∧ ∀ d ∈ C.canonical, d ≤ b → d ≤ c := by
  obtain ⟨hmem, hle, hmax⟩ := h.normalize_spec b
  constructor
  · rintro rfl
    exact ⟨hmem, hle, hmax⟩
  · intro h
    obtain ⟨hc, hcb, hcmax⟩ := h
    exact UInt8.le_antisymm (hcmax _ hmem hle) (hmax c hc hcb)

theorem Wf.normalize_of_mem (h : C.Wf) (hb : b ∈ C.canonical) : C.normalize b = b :=
  h.normalize_eq_iff.2 ⟨hb, UInt8.le_refl b, fun _ _ hd => hd⟩

theorem Wf.normalize_normalize (h : C.Wf) (b : UInt8) : C.normalize (C.normalize b) = C.normalize b :=
  h.normalize_of_mem (h.normalize_mem b)

theorem Wf.mem_normalizeWord (h : C.Wf) {w : Word} (hb : b ∈ C.normalizeWord w) : b ∈ C.canonical := by
  obtain ⟨a, -, rfl⟩ := List.mem_map.1 hb
  exact h.normalize_mem a

theorem Wf.normalizeWord_of_subset (h : C.Wf) {w : Word} (hw : ∀ b ∈ w, b ∈ C.canonical) : C.normalizeWord w = w := by
  unfold normalizeWord
  rw [List.map_congr_left fun b hb => h.normalize_of_mem (hw b hb), List.map_id']

@[simp] theorem length_normalizeWord (w : Word) : (C.normalizeWord w).length = w.length := List.length_map _

/-! ## Splitting a class -/

theorem mem_canonical_insert (s : UInt8) : c ∈ (C.insert s).canonical ↔ c = s ∨ c ∈ C.canonical := by
  have hsplit : c ∈ C.canonical ↔ c ∈ C.canonical.takeWhile (· < s) ∨ c ∈ C.canonical.dropWhile (· < s) := by
    rw [← List.mem_append, List.takeWhile_append_dropWhile]
  unfold insert
  rw [List.mem_append, List.mem_cons, hsplit]
  tauto

theorem length_canonical_insert (s : UInt8) : (C.insert s).canonical.length = C.canonical.length + 1 := by
  have hlength := congrArg List.length (List.takeWhile_append_dropWhile (p := (· < s)) (l := C.canonical))
  unfold insert
  rw [List.length_append, List.length_cons]
  rw [List.length_append] at hlength
  omega

theorem le_of_mem_dropWhile_lt {l : List UInt8} (h : l.Pairwise (· < ·)) {s d : UInt8}
    (hd : d ∈ l.dropWhile (· < s)) : s ≤ d := by
  induction l with
  | nil => cases hd
  | cons a l ih =>
    obtain ⟨ha, hl⟩ := List.pairwise_cons.1 h
    by_cases has : a < s
    · rw [List.dropWhile_cons_of_pos (by simpa using has)] at hd
      exact ih hl hd
    · rw [List.dropWhile_cons_of_neg (by simpa using has)] at hd
      have hle : s ≤ a := UInt8.not_lt.1 has
      rcases List.mem_cons.1 hd with rfl | hd
      · exact hle
      · exact UInt8.le_trans hle (UInt8.le_of_lt (ha d hd))

theorem Wf.insert (h : C.Wf) {s : UInt8} (hs : s ∉ C.canonical) : (C.insert s).Wf := by
  refine ⟨?_, (mem_canonical_insert s).2 (Or.inr h.zero)⟩
  have hbelow : ∀ a ∈ C.canonical.takeWhile (· < s), a < s := by
    intro a ha
    simpa using List.mem_takeWhile_imp ha
  have habove : ∀ d ∈ C.canonical.dropWhile (· < s), s < d := by
    intro d hd
    have hne : s ≠ d := by
      rintro rfl
      exact hs ((List.dropWhile_sublist _).subset hd)
    exact UInt8.lt_of_le_of_ne (le_of_mem_dropWhile_lt h.ascending hd) hne
  unfold ByteClasses.insert
  refine List.pairwise_append.2 ⟨h.ascending.sublist (List.takeWhile_sublist _), ?_, ?_⟩
  · exact List.pairwise_cons.2 ⟨habove, h.ascending.sublist (List.dropWhile_sublist _)⟩
  · intro a ha d hd
    rcases List.mem_cons.1 hd with rfl | hd
    · exact hbelow a ha
    · exact UInt8.lt_trans (hbelow a ha) (habove d hd)

/-- The bytes from a new canonical byte up to the next one go over to it. -/
theorem Wf.normalize_insert (h : C.Wf) {s : UInt8} (hs : s ∉ C.canonical) (d : UInt8) :
    (C.insert s).normalize d = if C.normalize d < s ∧ s ≤ d then s else C.normalize d := by
  obtain ⟨hmem, hle, hmax⟩ := h.normalize_spec d
  rw [(h.insert hs).normalize_eq_iff]
  by_cases hd : C.normalize d < s ∧ s ≤ d
  · rw [if_pos hd]
    refine ⟨(mem_canonical_insert s).2 (Or.inl rfl), hd.2, fun e he hed => ?_⟩
    rcases (mem_canonical_insert s).1 he with rfl | he
    · exact UInt8.le_refl e
    · exact UInt8.le_of_lt (UInt8.lt_of_le_of_lt (hmax e he hed) hd.1)
  · rw [if_neg hd]
    refine ⟨(mem_canonical_insert s).2 (Or.inr hmem), hle, fun e he hed => ?_⟩
    rcases (mem_canonical_insert s).1 he with rfl | he
    · exact UInt8.not_lt.1 fun hlt => hd ⟨hlt, hed⟩
    · exact hmax e he hed

/-- What lies between the canonical byte of a byte and that byte is not canonical. -/
theorem Wf.not_mem_of_between (h : C.Wf) {s : UInt8} (hlt : C.normalize b < s) (hle : s ≤ b) : s ∉ C.canonical :=
  fun hs => UInt8.lt_irrefl _ (UInt8.lt_of_lt_of_le hlt ((h.normalize_spec b).2.2 s hs hle))

/-! ## Telling bytes apart -/

theorem toNat_below {k : Nat} (h : k ≤ b.toNat) : (below b k).toNat = b.toNat - k := by
  have hb := b.toNat_lt
  unfold below
  rw [UInt8.toNat_ofNat', Nat.mod_eq_of_lt (by omega)]

theorem below_pred {k : Nat} (h : k + 1 ≤ b.toNat) : below (below b k) 1 = below b (k + 1) := by
  have hk := toNat_below (b := b) (k := k) (by omega)
  rw [← UInt8.toNat_inj, toNat_below (by omega), toNat_below h, hk]
  omega

/-- Between a byte and a smaller one on which the test differs there is a place where it changes. -/
theorem shift_spec (test : UInt8 → Bool) (hlt : c < b) (hdiffer : test c ≠ test b) :
    Ensures test False (boundary.relay fun k =>
        if k < b.toNat - c.toNat then do return (← query (below b k)) == test b else return false)
      fun k => k < b.toNat - c.toNat ∧ test (below b k) = test b ∧ test (below b (k + 1)) ≠ test b := by
  have hbyte := b.toNat_lt
  rw [UInt8.lt_iff_toNat_lt] at hlt
  have hanswers : ∀ k, (if k < b.toNat - c.toNat then do return (← query (below b k)) == test b
      else return false : Dialogue UInt8 Bool).result test =
      .ok (decide (k < b.toNat - c.toNat) && test (below b k) == test b) := by
    intro k
    by_cases hk : k < b.toNat - c.toNat
    · rw [if_pos hk, result_bind, result_query, decide_eq_true hk, Bool.true_and]
      rfl
    · rw [if_neg hk, decide_eq_false hk, Bool.false_and]
      rfl
  have hzero : (decide (0 < b.toNat - c.toNat) && test (below b 0) == test b) = true := by
    have hself : below b 0 = b := UInt8.ofNat_toNat
    rw [hself, beq_self_eq_true, Bool.and_true, decide_eq_true_iff]
    omega
  have hfar : (decide (5 * 2 ^ doublings < b.toNat - c.toNat) && test (below b (5 * 2 ^ doublings)) == test b) =
      false := by
    have hbig : 256 ≤ 5 * 2 ^ doublings := by decide
    rw [decide_eq_false (by omega), Bool.false_and]
  apply ((boundary_total hzero hfar).relay hanswers).imp
  intro k hk
  obtain ⟨hat, hnext⟩ := hk
  rw [Bool.and_eq_true, decide_eq_true_iff, beq_iff_eq] at hat
  refine ⟨hat.1, hat.2, ?_⟩
  by_cases hlast : k + 1 < b.toNat - c.toNat
  · rw [decide_eq_true hlast, Bool.true_and, beq_eq_false_iff_ne] at hnext
    exact hnext
  · have hc : below b (k + 1) = c := by
      rw [← UInt8.toNat_inj, toNat_below (by omega)]
      omega
    rw [hc]
    exact hdiffer

/-- Either nothing changes, and the test does not tell the byte from its canonical byte, or it does, and a new
canonical byte comes in between, where the test changes. -/
theorem distinguish_spec (h : C.Wf) (test : UInt8 → Bool) (b : UInt8) :
    Ensures test False (C.distinguish b) fun r =>
      (r = (false, C) ∧ test (C.normalize b) = test b) ∨
      (test (C.normalize b) ≠ test b ∧
        ∃ s, r = (true, C.insert s) ∧ C.normalize b < s ∧ s ≤ b ∧ test s = test b ∧ test (below s 1) ≠ test b) := by
  have hle := h.normalize_le b
  unfold distinguish
  simp only
  generalize C.normalize b = c at hle
  by_cases hcb : c = b
  · rw [if_pos hcb]
    exact ensures_pure (Or.inl ⟨rfl, by rw [hcb]⟩)
  rw [if_neg hcb]
  apply ensures_query_bind
  apply ensures_query_bind
  by_cases hsame : test c = test b
  · rw [if_pos hsame]
    exact ensures_pure (Or.inl ⟨rfl, hsame⟩)
  rw [if_neg hsame]
  apply (shift_spec test (UInt8.lt_of_le_of_ne hle hcb) hsame).bind
  intro k hk
  obtain ⟨hlt, hat, hnext⟩ := hk
  have hk := toNat_below (b := b) (k := k) (by omega)
  refine ensures_pure (Or.inr ⟨hsame, below b k, rfl, ?_, ?_, hat, ?_⟩)
  · rw [UInt8.lt_iff_toNat_lt, hk]
    omega
  · rw [UInt8.le_iff_toNat_le, hk]
    omega
  · rw [below_pred (by omega)]
    exact hnext

/-- Splitting keeps the classes in order, leaves the test's answer for the byte to its canonical byte,
and adds at most one canonical byte. -/
theorem distinguish_refines (h : C.Wf) (test : UInt8 → Bool) (b : UInt8) :
    Ensures test False (C.distinguish b) fun r =>
      r.2.Wf ∧ C.canonical ⊆ r.2.canonical ∧ test (r.2.normalize b) = test b ∧
        ((r.1 = false ∧ r.2 = C) ∨ (r.1 = true ∧ r.2.canonical.length = C.canonical.length + 1)) := by
  apply (distinguish_spec h test b).imp
  intro r hr
  rcases hr with ⟨rfl, htest⟩ | ⟨-, s, rfl, hlt, hle, htest, -⟩
  · exact ⟨h, List.Subset.refl _, htest, Or.inl ⟨rfl, rfl⟩⟩
  · have hnew := h.not_mem_of_between hlt hle
    refine ⟨h.insert hnew, fun c hc => (mem_canonical_insert s).2 (Or.inr hc), ?_,
      Or.inr ⟨rfl, length_canonical_insert s⟩⟩
    rw [h.normalize_insert hnew, if_pos ⟨hlt, hle⟩]
    exact htest

end ByteClasses
end ByteAutomata
