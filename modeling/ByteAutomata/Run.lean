import ByteAutomata.Byte

/-!
# Runs of bytes

* `Run α` : the bytes `lo..=hi` together with one value, never inverted (`Run.lo_le_hi`);
* `Run.covers` : whether a byte lies in the run;
* `runs f` : the maximal runs of a partial function on bytes. They ascend and do not touch where
  the value is the same (`runs_ordered`), and a byte lies in one of them with value `a` exactly
  if `f` has the value `a` there (`mem_runs_covers`).
-/

namespace ByteAutomata

set_option autoImplicit false

/-- The bytes from `lo` to `hi`, both included, with a common value. -/
structure Run (α : Type) where
  lo : UInt8
  hi : UInt8
  value : α
  lo_le_hi : lo ≤ hi
deriving DecidableEq

namespace Run

variable {α β : Type}

def single (b : UInt8) (a : α) : Run α := ⟨b, b, a, UInt8.le_refl b⟩

def covers (r : Run α) (b : UInt8) : Bool := r.lo ≤ b && b ≤ r.hi

def map (f : α → β) (r : Run α) : Run β := ⟨r.lo, r.hi, f r.value, r.lo_le_hi⟩

/-- All bytes of `r` come before all bytes of `s`. -/
def Before (r s : Run α) : Prop := r.hi < s.lo

instance (r s : Run α) : Decidable (r.Before s) := inferInstanceAs (Decidable (r.hi < s.lo))

theorem covers_iff (r : Run α) (b : UInt8) : r.covers b = true ↔ r.lo ≤ b ∧ b ≤ r.hi := by
  simp [covers]

@[simp] theorem covers_single (b c : UInt8) (a : α) : (single b a).covers c = true ↔ c = b := by
  rw [covers_iff]
  exact ⟨fun h => UInt8.le_antisymm h.2 h.1, fun h => by subst h; exact ⟨UInt8.le_refl _, UInt8.le_refl _⟩⟩

/-- Puts byte `b` in front of ascending runs, extending the first one if it starts at the next
byte with the same value. -/
def cons [DecidableEq α] (b : UInt8) (a : α) : List (Run α) → List (Run α)
  | [] => [single b a]
  | r :: rest =>
    if h : r.value = a ∧ r.lo.toNat = b.toNat + 1 then
      ⟨b, r.hi, a, UInt8.le_trans (by rw [UInt8.le_iff_toNat_le]; omega) r.lo_le_hi⟩ :: rest
    else single b a :: r :: rest

end Run

variable {α : Type} [DecidableEq α]

/-- The maximal runs of consecutive bytes with the same value, ascending. -/
def runs (f : UInt8 → Option α) : List (Run α) :=
  Byte.all.foldr (fun b rest => match f b with
    | some a => Run.cons b a rest
    | none => rest) []

/-! ## Order and coverage -/

theorem Run.cons_cons (b : UInt8) (a : α) (s : Run α) (rest : List (Run α)) :
    Run.cons b a (s :: rest) =
      if h : s.value = a ∧ s.lo.toNat = b.toNat + 1 then
        ⟨b, s.hi, a, UInt8.le_trans (by rw [UInt8.le_iff_toNat_le]; omega) s.lo_le_hi⟩ :: rest
      else Run.single b a :: s :: rest := rfl

theorem Run.lo_of_mem_cons {b : UInt8} {a : α} {rest : List (Run α)} (h : ∀ r ∈ rest, b < r.lo) :
    ∀ r ∈ Run.cons b a rest, b ≤ r.lo := by
  intro r hr
  cases rest with
  | nil =>
    rw [Run.cons, List.mem_singleton] at hr
    subst hr; exact UInt8.le_refl b
  | cons s rest =>
    rw [Run.cons_cons] at hr
    split at hr
    · rcases List.mem_cons.1 hr with rfl | hr
      · exact UInt8.le_refl b
      · exact UInt8.le_of_lt (h r (List.mem_cons_of_mem s hr))
    · rcases List.mem_cons.1 hr with rfl | hr
      · exact UInt8.le_refl b
      · exact UInt8.le_of_lt (h r hr)

theorem Run.cons_ordered {b : UInt8} {a : α} {rest : List (Run α)} (h : ∀ r ∈ rest, b < r.lo)
    (ho : rest.Pairwise Run.Before) : (Run.cons b a rest).Pairwise Run.Before := by
  cases rest with
  | nil => simp [Run.cons]
  | cons s rest =>
    rw [Run.cons_cons]
    split
    · obtain ⟨hs, ho⟩ := List.pairwise_cons.1 ho
      exact List.pairwise_cons.2 ⟨hs, ho⟩
    · exact List.pairwise_cons.2 ⟨h, ho⟩

theorem Run.covers_cons {b : UInt8} {a : α} {rest : List (Run α)} (c : UInt8) (x : α) :
    (∃ r ∈ Run.cons b a rest, r.covers c = true ∧ r.value = x) ↔
      (c = b ∧ x = a) ∨ ∃ r ∈ rest, r.covers c = true ∧ r.value = x := by
  have hsingle : (Run.single b a).covers c = true ∧ (Run.single b a).value = x ↔ c = b ∧ x = a := by
    rw [Run.covers_single, eq_comm (a := x)]; rfl
  cases rest with
  | nil => simpa [Run.cons] using hsingle
  | cons s rest =>
    rw [Run.cons_cons]
    split
    next hs =>
      simp only [List.mem_cons, exists_eq_or_imp, Run.covers_iff, ← or_assoc]
      refine or_congr_left ?_
      rw [hs.1, eq_comm (a := x), ← or_and_right]
      refine and_congr_left fun _ => ?_
      have h1 := hs.2
      have h2 := s.lo_le_hi
      rw [UInt8.le_iff_toNat_le] at h2
      rw [← UInt8.toNat_inj]
      simp only [UInt8.le_iff_toNat_le]
      omega
    next => simp only [List.mem_cons (a := _) (b := Run.single b a), exists_eq_or_imp, hsingle]

theorem runs_foldr (f : UInt8 → Option α) (bs : List UInt8) (hbs : bs.Pairwise (· < ·)) :
    let rs := bs.foldr (fun b rest => match f b with | some a => Run.cons b a rest | none => rest) []
    rs.Pairwise Run.Before ∧ (∀ r ∈ rs, ∃ b ∈ bs, b ≤ r.lo) ∧
      ∀ c x, (∃ r ∈ rs, r.covers c = true ∧ r.value = x) ↔ c ∈ bs ∧ f c = some x := by
  induction bs with
  | nil => simp
  | cons b bs ih =>
    obtain ⟨hb, hbs⟩ := List.pairwise_cons.1 hbs
    obtain ⟨ho, hlo, hc⟩ := ih hbs
    simp only [List.foldr_cons]
    generalize bs.foldr (fun b rest => match f b with | some a => Run.cons b a rest | none => rest) []
      = rest at ho hlo hc
    have hlt : ∀ r ∈ rest, b < r.lo := fun r hr => by
      obtain ⟨d, hd, hle⟩ := hlo r hr
      exact UInt8.lt_of_lt_of_le (hb d hd) hle
    have hnot : b ∉ bs := fun h => UInt8.lt_irrefl b (hb b h)
    cases hf : f b with
    | none =>
      refine ⟨ho, fun r hr => ?_, fun c x => ?_⟩
      · obtain ⟨d, hd, hle⟩ := hlo r hr
        exact ⟨d, by simp [hd], hle⟩
      · rw [hc, List.mem_cons]
        refine ⟨fun h => ⟨.inr h.1, h.2⟩, ?_⟩
        rintro ⟨rfl | h, hx⟩
        · rw [hf] at hx; contradiction
        · exact ⟨h, hx⟩
    | some a =>
      refine ⟨Run.cons_ordered hlt ho, fun r hr => ⟨b, by simp, Run.lo_of_mem_cons hlt r hr⟩, fun c x => ?_⟩
      simp only [Run.covers_cons, hc, List.mem_cons]
      constructor
      · rintro (⟨rfl, rfl⟩ | h)
        · exact ⟨.inl rfl, hf⟩
        · exact ⟨.inr h.1, h.2⟩
      · rintro ⟨rfl | h, hx⟩
        · rw [hf, Option.some.injEq] at hx
          exact .inl ⟨rfl, hx.symm⟩
        · exact .inr ⟨h, hx⟩

theorem runs_ordered (f : UInt8 → Option α) : (runs f).Pairwise Run.Before :=
  (runs_foldr f Byte.all Byte.pairwise_all).1

/-- A byte lies in a run of value `x` exactly if the function has the value `x` there. -/
theorem mem_runs_covers (f : UInt8 → Option α) (c : UInt8) (x : α) :
    (∃ r ∈ runs f, r.covers c = true ∧ r.value = x) ↔ f c = some x := by
  rw [runs, (runs_foldr f Byte.all Byte.pairwise_all).2.2 c x]
  exact and_iff_right (Byte.mem_all c)

end ByteAutomata
