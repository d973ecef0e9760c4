import ByteAutomata.Dfa.Table
import Mathlib.Data.List.Pairwise

/-!
# Entries in any order

* `Run.Disjoint` : runs without a common byte; `Run.Disjoint.before_of_lo_le` : then the one that starts first
  ends before the other;
* `Table.pairwise_before_sortEntries` : sorted entries are one before the other exactly if no two of the given
  entries share a byte;
* `Table.exists_ofEntries_iff` : so these are the entries of tables, in whatever order they are given.
-/

namespace ByteAutomata

set_option autoImplicit false

/-! ## Runs -/

namespace Run

variable {α β : Type} {r s : Run α}

/-- No byte lies in both runs. -/
def Disjoint (r s : Run α) : Prop := ∀ b, r.covers b = true → s.covers b = false

theorem Disjoint.symm (h : r.Disjoint s) : s.Disjoint r := by
  intro b hs
  by_contra hr
  simp [h b (Bool.not_eq_false _ ▸ hr)] at hs

theorem covers_lo (r : Run α) : r.covers r.lo = true := (covers_iff r r.lo).2 ⟨UInt8.le_refl _, r.lo_le_hi⟩

theorem Before.disjoint (h : r.Before s) : r.Disjoint s := by
  intro b hr
  by_contra hs
  simp only [Bool.not_eq_false, covers_iff] at hr hs
  exact UInt8.lt_irrefl b (UInt8.lt_of_le_of_lt hr.2 (UInt8.lt_of_lt_of_le h hs.1))

theorem Disjoint.before_of_lo_le (h : r.Disjoint s) (hlo : r.lo ≤ s.lo) : r.Before s := by
  by_contra hbefore
  have hself := s.covers_lo
  have hcovers : r.covers s.lo = true := (covers_iff r s.lo).2 ⟨hlo, UInt8.not_lt.1 hbefore⟩
  simp [h s.lo hcovers] at hself

theorem disjoint_map (f : α → β) : (r.map f).Disjoint (s.map f) ↔ r.Disjoint s := Iff.rfl

end Run

/-! ## Tables -/

namespace Table

variable {α : Type}

theorem firstOverlap_eq_none_iff {entries : List (Run α)} :
    firstOverlap entries = Option.none ↔ entries.Pairwise Run.Before := by
  refine ⟨ordered_of_firstOverlap, fun ordered => ?_⟩
  fun_induction firstOverlap entries with
  | case1 r s rest hrs ih => exact ih ordered.of_cons
  | case2 r s rest hrs => exact absurd (List.rel_of_pairwise_cons ordered (by simp)) hrs
  | case3 => rfl

/-- The order of sorted entries. -/
def order (rank : α → Nat) : Run α → Run α → Ordering :=
  compareLex (compareOn Run.lo) (compareLex (compareOn Run.hi) (compareOn fun r => rank r.value))

theorem pairwise_lo_sortEntries (rank : α → Nat) (entries : List (Run α)) :
    (sortEntries rank entries).Pairwise fun r s => r.lo ≤ s.lo := by
  have : Std.TransCmp (order rank) := inferInstanceAs (Std.TransCmp (compareLex _ _))
  have hsorted : (entries.mergeSort fun r s => (order rank r s).isLE).Pairwise
      fun r s => (order rank r s).isLE = true := by
    refine List.pairwise_mergeSort (fun r s t => Std.TransCmp.isLE_trans) (fun r s => ?_) entries
    have hswap : order rank s r = (order rank r s).swap := Std.OrientedCmp.eq_swap
    rw [hswap]
    cases order rank r s <;> rfl
  refine hsorted.imp fun {r s} hle => ?_
  have hlo : (compare r.lo s.lo).isLE = true := (Ordering.isLE_then_iff_and.1 hle).1
  exact Std.isLE_compare.1 hlo

theorem sortEntries_perm (rank : α → Nat) (entries : List (Run α)) : (sortEntries rank entries).Perm entries :=
  List.mergeSort_perm entries _

theorem pairwise_before_sortEntries (rank : α → Nat) (entries : List (Run α)) :
    (sortEntries rank entries).Pairwise Run.Before ↔ entries.Pairwise Run.Disjoint := by
  rw [← (sortEntries_perm rank entries).pairwise_iff Run.Disjoint.symm]
  constructor
  · exact List.Pairwise.imp Run.Before.disjoint
  · intro hdisjoint
    exact hdisjoint.imp₂ (fun r s h hlo => h.before_of_lo_le hlo) (pairwise_lo_sortEntries rank entries)

theorem ofEntries_eq_ok_iff {rank : α → Nat} {entries : List (Run α)} {t : Table α} :
    ofEntries rank entries = .ok t ↔
      ∃ ordered : (sortEntries rank entries).Pairwise Run.Before, t = sparse (sortEntries rank entries) ordered := by
  unfold ofEntries
  split
  next pair hoverlap =>
    have hnot : ¬(sortEntries rank entries).Pairwise Run.Before := by simp [← firstOverlap_eq_none_iff, hoverlap]
    exact ⟨nofun, fun ⟨ordered, _⟩ => absurd ordered hnot⟩
  next hoverlap =>
    rw [Except.ok.injEq]
    exact ⟨fun h => ⟨ordered_of_firstOverlap hoverlap, h.symm⟩, fun ⟨_, h⟩ => h.symm⟩

/-- Entries have a table exactly if no two of them share a byte, whatever their order. -/
theorem exists_ofEntries_iff (rank : α → Nat) (entries : List (Run α)) :
    (∃ t, ofEntries rank entries = .ok t) ↔ entries.Pairwise Run.Disjoint := by
  simp only [ofEntries_eq_ok_iff, ← pairwise_before_sortEntries rank]
  exact ⟨fun ⟨_, ordered, _⟩ => ordered, fun ordered => ⟨_, ordered, rfl⟩⟩

theorem mem_targets_of_ofEntries {rank : α → Nat} {entries : List (Run α)} {t : Table α}
    (h : ofEntries rank entries = .ok t) (x : α) : x ∈ t.targets ↔ ∃ r ∈ entries, r.value = x := by
  obtain ⟨ordered, rfl⟩ := ofEntries_eq_ok_iff.1 h
  simp [targets, (sortEntries_perm rank entries).mem_iff]

end Table
end ByteAutomata
