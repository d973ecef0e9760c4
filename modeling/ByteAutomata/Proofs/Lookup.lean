import ByteAutomata.Proofs.Disjoint

/-!
# Halving and filling

* `Run.place` : whether a run lies below a byte, above it or around it;
* `Table.search` : the entry around a byte, found by halving. Among entries that are one before the other it is the
  one that covers the byte (`search_eq_find?`);
* `Table.fill` : one cell for every byte, filled run by run, which holds what is found by halving (`get_fill`);
* `Table.Consistent` : all ways to read a table lead to the same targets (`consistent`).
-/

namespace ByteAutomata

set_option autoImplicit false

namespace Run

variable {α : Type} {r : Run α} {b : UInt8}

/-- Where the run lies, as seen from the byte. -/
def place (r : Run α) (b : UInt8) : Ordering := if r.hi < b then .lt else if b < r.lo then .gt else .eq

theorem hi_lt_of_place (h : r.place b = .lt) : r.hi < b := by
  by_contra hhi
  rw [place, if_neg hhi] at h
  split at h <;> cases h

theorem lt_lo_of_place (h : r.place b = .gt) : b < r.lo := by
  by_contra hlo
  rw [place, if_neg hlo] at h
  split at h <;> cases h

theorem covers_of_place (h : r.place b = .eq) : r.covers b = true := by
  unfold place at h
  split at h
  next => cases h
  next hhi =>
    split at h
    next => cases h
    next hlo => exact (covers_iff r b).2 ⟨UInt8.not_lt.1 hlo, UInt8.not_lt.1 hhi⟩

theorem not_covers_of_hi_lt (h : r.hi < b) : r.covers b = false := by
  rw [Bool.eq_false_iff, ne_eq, covers_iff]
  exact fun hb => UInt8.not_le.2 h hb.2

theorem not_covers_of_lt_lo (h : b < r.lo) : r.covers b = false := by
  rw [Bool.eq_false_iff, ne_eq, covers_iff]
  exact fun hb => UInt8.not_le.2 h hb.1

/-- The bytes of the run in ascending order. -/
def bytes (r : Run α) : List UInt8 :=
  (List.range' r.lo.toNat (r.hi.toNat + 1 - r.lo.toNat)).map UInt8.ofNat

theorem mem_bytes : b ∈ r.bytes ↔ r.covers b = true := by
  have hhi := r.hi.toNat_lt
  rw [covers_iff, bytes, List.mem_map, UInt8.le_iff_toNat_le, UInt8.le_iff_toNat_le]
  constructor
  · rintro ⟨k, hk, rfl⟩
    rw [List.mem_range'_1] at hk
    rw [UInt8.toNat_ofNat', Nat.mod_eq_of_lt (by omega)]
    omega
  · rintro ⟨hlo, hle⟩
    exact ⟨b.toNat, List.mem_range'_1.2 (by omega), UInt8.ofNat_toNat⟩

end Run

namespace Table

variable {α : Type} {entries : List (Run α)}

/-! ## Halving -/

/-- The entry around the byte: the one in the middle, or one of the half that lies on its side of the byte. -/
def search (b : UInt8) (entries : List (Run α)) : Option (Run α) :=
  match _h : entries.drop (entries.length / 2) with
  | [] => Option.none
  | r :: above =>
    match r.place b with
    | .eq => some r
    | .gt => search b (entries.take (entries.length / 2))
    | .lt => search b above
termination_by entries.length
decreasing_by
  all_goals
    have hlength := congrArg List.length _h
    simp only [List.length_drop, List.length_cons, List.length_take] at hlength ⊢
    omega

section Middle

variable {below above : List (Run α)} {r : Run α} {b : UInt8}

/-- If the entry in the middle is below the byte, so is all in front of it. -/
theorem find?_of_hi_lt (ordered : entries.Pairwise Run.Before) (hsplit : below ++ r :: above = entries) (h : r.hi < b) :
    entries.find? (·.covers b) = above.find? (·.covers b) := by
  subst hsplit
  have hbelow : below.find? (·.covers b) = Option.none := by
    refine List.find?_eq_none.2 fun s hs => ?_
    have hsr : s.hi < r.lo := (List.pairwise_append.1 ordered).2.2 s hs r List.mem_cons_self
    have hsb := UInt8.lt_trans (UInt8.lt_of_lt_of_le hsr r.lo_le_hi) h
    simp [Run.not_covers_of_hi_lt hsb]
  rw [List.find?_append, hbelow, Option.none_or, List.find?_cons_of_neg]
  simp [Run.not_covers_of_hi_lt h]

/-- If the entry in the middle is above the byte, so is all behind it. -/
theorem find?_of_lt_lo (ordered : entries.Pairwise Run.Before) (hsplit : below ++ r :: above = entries) (h : b < r.lo) :
    entries.find? (·.covers b) = below.find? (·.covers b) := by
  subst hsplit
  have habove : (r :: above).find? (·.covers b) = Option.none := by
    refine List.find?_eq_none.2 (List.forall_mem_cons.2 ⟨?_, fun s hs => ?_⟩)
    · simp [Run.not_covers_of_lt_lo h]
    · have hrs : r.hi < s.lo := List.rel_of_pairwise_cons (List.pairwise_append.1 ordered).2.1 hs
      have hbs := UInt8.lt_trans (UInt8.lt_of_lt_of_le h r.lo_le_hi) hrs
      simp [Run.not_covers_of_lt_lo hbs]
  rw [List.find?_append, habove, Option.or_none]

/-- If the entry in the middle covers the byte, nothing in front of it does. -/
theorem find?_of_covers (ordered : entries.Pairwise Run.Before) (hsplit : below ++ r :: above = entries)
    (h : r.covers b = true) : entries.find? (·.covers b) = some r := by
  subst hsplit
  have hbelow : below.find? (·.covers b) = Option.none := by
    refine List.find?_eq_none.2 fun s hs => ?_
    have hsr : s.Before r := (List.pairwise_append.1 ordered).2.2 s hs r List.mem_cons_self
    have hsb := UInt8.lt_of_lt_of_le hsr ((r.covers_iff b).1 h).1
    simp [Run.not_covers_of_hi_lt hsb]
  rw [List.find?_append, hbelow, Option.none_or]
  exact List.find?_cons_of_pos h

theorem take_append_middle {k : Nat} (h : entries.drop k = r :: above) : entries.take k ++ r :: above = entries := by
  rw [← h]
  exact List.take_append_drop k entries

end Middle

theorem search_eq_find? (ordered : entries.Pairwise Run.Before) (b : UInt8) :
    search b entries = entries.find? (·.covers b) := by
  fun_induction search b entries with
  | case1 entries hempty =>
    have hlength := congrArg List.length hempty
    rw [List.length_drop, List.length_nil] at hlength
    obtain rfl : entries = [] := List.eq_nil_of_length_eq_zero (by omega)
    rfl
  | case2 entries r above hmiddle hplace =>
    exact (find?_of_covers ordered (take_append_middle hmiddle) (Run.covers_of_place hplace)).symm
  | case3 entries r above hmiddle hplace ih =>
    rw [ih (ordered.sublist (List.take_sublist _ _))]
    exact (find?_of_lt_lo ordered (take_append_middle hmiddle) (Run.lt_lo_of_place hplace)).symm
  | case4 entries r above hmiddle hplace ih =>
    have habove : (r :: above).Pairwise Run.Before := hmiddle ▸ ordered.sublist (List.drop_sublist _ _)
    rw [ih habove.of_cons]
    exact (find?_of_hi_lt ordered (take_append_middle hmiddle) (Run.hi_lt_of_place hplace)).symm

/-! ## Filling -/

/-- One cell for every byte: those of each run in turn get its value. -/
def fill (entries : List (Run α)) : ByteMap (Option α) :=
  entries.foldl (fun cells r => r.bytes.foldl (fun cells b => cells.set b (some r.value)) cells)
    (ByteMap.const Option.none)

theorem get_foldl_set {β : Type} (bs : List UInt8) (a : β) (cells : ByteMap β) (c : UInt8) :
    (bs.foldl (fun cells b => cells.set b a) cells).get c = if c ∈ bs then a else cells.get c := by
  induction bs generalizing cells with
  | nil => simp
  | cons b bs ih =>
    rw [List.foldl_cons, ih, ByteMap.get_set]
    by_cases hc : c ∈ bs
    · simp [hc]
    · simp [hc]

/-- Runs do not overlap, so it does not matter that the last one that covers a byte fills its cell. -/
theorem get_foldl_fill (ordered : entries.Pairwise Run.Before) (cells : ByteMap (Option α)) (b : UInt8) :
    (entries.foldl (fun cells r => r.bytes.foldl (fun cells b => cells.set b (some r.value)) cells) cells).get b =
      ((entries.find? (·.covers b)).map Run.value).or (cells.get b) := by
  induction entries generalizing cells with
  | nil => rfl
  | cons r rest ih =>
    rw [List.foldl_cons, ih ordered.of_cons, get_foldl_set]
    by_cases hr : r.covers b = true
    · have hrest : rest.find? (·.covers b) = Option.none := by
        refine List.find?_eq_none.2 fun s hs => ?_
        simp [Run.Before.disjoint (List.rel_of_pairwise_cons ordered hs) b hr]
      rw [hrest, if_pos (Run.mem_bytes.2 hr)]
      simp [hr]
    · rw [if_neg fun hmem => hr (Run.mem_bytes.1 hmem)]
      simp [hr]

theorem get_fill (ordered : entries.Pairwise Run.Before) (b : UInt8) :
    (fill entries).get b = (entries.find? (·.covers b)).map Run.value := by
  rw [fill, get_foldl_fill ordered, ByteMap.get_const, Option.or_none]

/-! ## Ways to read a table -/

/-- However the table is read, before or after it has become dense, a byte leads to its target by `f`. -/
structure Consistent (t : Table α) (f : UInt8 → Option α) : Prop where
  lookup : ∀ b, t.lookup b = f b
  settled : ∀ b, t.settled.lookup b = f b
  search : ∀ entries ordered, t = sparse entries ordered → ∀ b, (search b entries).map Run.value = f b
  fill : ∀ entries ordered, t = sparse entries ordered → ∀ b, (fill entries).get b = f b

theorem consistent (t : Table α) : t.Consistent t.lookup where
  lookup _ := rfl
  settled b := t.lookup_settled b
  search entries ordered h b := by
    rw [h, search_eq_find? ordered]
    rfl
  fill entries ordered h b := by
    rw [h, get_fill ordered]
    rfl

end Table
end ByteAutomata
