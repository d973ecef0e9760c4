import ByteAutomata.Proofs.ByteClasses

/-!
# Classes that are split

* `Dialogue.MayEnd` : how a dialogue may end if a question may be answered differently when it is asked again
  (`mayEnd_run`, `MayEnd.of_bind`, `MayEnd.of_relay`); `mayEnd_boundary` : a search ends with a number that has passed;
* `ByteClasses.Reached` : classes that come from the single one by tests that answer as they like. Their canonical
  bytes ascend from 0 (`Reached.wf`);
* `ByteClasses.distinguishExact` : splitting in the arithmetic of bytes, which fails where a difference, a narrowing
  or a position is out of range. This never happens (`Wf.distinguishExact_eq`);
* `ByteClasses.SplitAt` : what a split changes; `distinguish_splits` : when a class is split, and that no more changes.
-/

namespace ByteAutomata

set_option autoImplicit false

/-! ## Dialogues with any answers -/

namespace Dialogue

variable {ι κ α β : Type}

/-- The dialogue may end with `a`, if `may i b` allows the answer `b` to the question `i`. A question may be answered
differently when it is asked again. -/
inductive MayEnd (may : ι → Bool → Prop) : Dialogue ι α → α → Prop
  | done (a : α) : MayEnd may (.done a) a
  | ask {i : ι} {next : Bool → Dialogue ι α} {b : Bool} {a : α} (hb : may i b) (h : MayEnd may (next b) a) :
    MayEnd may (.ask i next) a

variable {may : ι → Bool → Prop} {a : α}

theorem mayEnd_run {ρ : Type} {answer : ι → ρ → Bool × ρ} {d : Dialogue ι α} {r : ρ} (h : (d.run answer r).1 = .ok a) :
    MayEnd (fun _ _ => True) d a := by
  induction d generalizing r with
  | done x =>
    cases h
    exact .done a
  | fail e => cases h
  | ask i next ih => exact .ask trivial (ih _ h)

theorem MayEnd.eq_of_pure {x : α} (h : MayEnd may (pure x) a) : a = x := by
  cases h
  rfl

theorem MayEnd.of_ask {i : ι} {next : Bool → Dialogue ι α} (h : MayEnd may (.ask i next) a) :
    (may i true ∧ MayEnd may (next true) a) ∨ (may i false ∧ MayEnd may (next false) a) := by
  cases h with
  | @ask _ _ b _ hb h =>
    cases b with
    | true => exact Or.inl ⟨hb, h⟩
    | false => exact Or.inr ⟨hb, h⟩

theorem MayEnd.of_bind {d : Dialogue ι β} {k : β → Dialogue ι α} (h : MayEnd may (d >>= k) a) :
    ∃ x, MayEnd may d x ∧ MayEnd may (k x) a := by
  induction d with
  | done x => exact ⟨x, .done x, h⟩
  | fail e => cases h
  | ask i next ih =>
    cases h with
    | ask hb h =>
      obtain ⟨x, hx, hk⟩ := ih _ h
      exact ⟨x, .ask hb hx, hk⟩

/-- A relayed dialogue goes on with the answers that the dialogues it relays to may end with. -/
theorem MayEnd.of_relay {answer : κ → Dialogue ι Bool} {d : Dialogue κ α} (h : MayEnd may (d.relay answer) a) :
    MayEnd (fun k b => MayEnd may (answer k) b) d a := by
  induction d with
  | done x =>
    cases h
    exact .done a
  | fail e => cases h
  | ask k next ih =>
    obtain ⟨b, hb, hnext⟩ := MayEnd.of_bind h
    exact .ask hb (ih b hnext)

/-- What follows a dialogue matters only for the results that it may end with. -/
theorem bind_congr_of_mayEnd {d : Dialogue ι β} {k k' : β → Dialogue ι α}
    (h : ∀ x, MayEnd (fun _ _ => True) d x → k x = k' x) : d >>= k = d >>= k' := by
  induction d with
  | done x => exact h x (.done x)
  | fail e => rfl
  | ask i next ih => exact congrArg (Dialogue.ask i) (funext fun b => ih b fun x hx => h x (.ask trivial hx))

/-- The value, without which the dialogue fails. -/
def need : Option α → Dialogue ι α
  | some a => .done a
  | none => .fail .overflow

@[simp] theorem need_some_bind (x : β) (k : β → Dialogue ι α) : need (some x) >>= k = k x := rfl

end Dialogue

open Dialogue

/-! ## Searches with any answers -/

section Search

variable {may : Nat → Bool → Prop} {n : Nat}

theorem mayEnd_bisect {lo hi : Nat} (h : MayEnd may (bisect lo hi) n) : n = lo ∨ may n true := by
  fun_induction bisect lo hi with
  | case1 lo hi hgap mid ih₁ ih₂ =>
    rcases h.of_ask with ⟨hmid, h⟩ | ⟨-, h⟩
    · rcases ih₁ h with rfl | hn
      · exact Or.inr hmid
      · exact Or.inr hn
    · exact ih₂ h
  | case2 lo hi hgap => exact Or.inl h.eq_of_pure

theorem mayEnd_gallop {r lo hi : Nat} (h : MayEnd may (gallop r lo hi) n) : n = lo ∨ may n true := by
  induction r generalizing lo hi with
  | zero =>
    rcases h.of_ask with ⟨-, h⟩ | ⟨-, h⟩
    · cases h
    · exact mayEnd_bisect h
  | succ r ih =>
    rcases h.of_ask with ⟨hhi, h⟩ | ⟨-, h⟩
    · rcases ih h with rfl | hn
      · exact Or.inr hhi
      · exact Or.inr hn
    · exact mayEnd_bisect h

theorem mayEnd_climb {steps m : Nat} (h : MayEnd may (climb steps m) n) : n = m ∨ may n true := by
  induction steps generalizing m with
  | zero => exact mayEnd_gallop h
  | succ steps ih =>
    rcases h.of_ask with ⟨hnext, h⟩ | ⟨-, h⟩
    · rcases ih h with rfl | hn
      · exact Or.inr hnext
      · exact Or.inr hn
    · exact Or.inl h.eq_of_pure

/-- What is found has passed the test, unless it is the number that the search starts from. -/
theorem mayEnd_boundary (h : MayEnd may boundary n) : n = 0 ∨ may n true := mayEnd_climb h

end Search

/-- The difference of two bytes, unless it is below zero. -/
def Byte.sub? (a b : UInt8) : Option UInt8 := if b ≤ a then some (a - b) else none

/-- The number as a byte, unless it is too large. -/
def Byte.ofNat? (k : Nat) : Option UInt8 := if k < 256 then some (UInt8.ofNat k) else none

namespace ByteClasses

variable {C D : ByteClasses} {b c : UInt8}

/-! ## Classes that are reached -/

/-- The distance to the new canonical byte is less than that to the old one, whatever the test answers. -/
theorem shift_lt {distance n : Nat} {value : Bool} (hpos : 0 < distance)
    (h : MayEnd (fun _ _ => True) (boundary.relay fun k =>
      if k < distance then do return (← query (below b k)) == value else return false) n) : n < distance := by
  rcases mayEnd_boundary h.of_relay with rfl | htrue
  · exact hpos
  · by_contra hn
    rw [if_neg hn] at htrue
    cases htrue.eq_of_pure

theorem Wf.distance_pos (h : C.Wf) (hne : C.normalize b ≠ b) : 0 < b.toNat - (C.normalize b).toNat := by
  have hlt := UInt8.lt_iff_toNat_lt.1 (UInt8.lt_of_le_of_ne (h.normalize_le b) hne)
  omega

/-- Whatever the answers, either nothing changes or a new canonical byte comes in between. -/
theorem Wf.mayEnd_distinguish (h : C.Wf) {r : Bool × ByteClasses}
    (hr : MayEnd (fun _ _ => True) (C.distinguish b) r) :
    r = (false, C) ∨ ∃ s, r = (true, C.insert s) ∧ C.normalize b < s ∧ s ≤ b := by
  unfold distinguish at hr
  by_cases hcb : C.normalize b = b
  · rw [if_pos hcb] at hr
    exact Or.inl hr.eq_of_pure
  simp only [if_neg hcb] at hr
  obtain ⟨value, -, hr⟩ := hr.of_bind
  obtain ⟨other, -, hr⟩ := hr.of_bind
  by_cases hsame : other = value
  · rw [if_pos hsame] at hr
    exact Or.inl hr.eq_of_pure
  rw [if_neg hsame] at hr
  obtain ⟨k, hk, hr⟩ := hr.of_bind
  have hlt := shift_lt (h.distance_pos hcb) hk
  have hbelow := toNat_below (b := b) (k := k) (by omega)
  refine Or.inr ⟨below b k, hr.eq_of_pure, ?_, ?_⟩
  · rw [UInt8.lt_iff_toNat_lt, hbelow]
    omega
  · rw [UInt8.le_iff_toNat_le, hbelow]
    omega

/-- Classes that come from the single one by tests, which may have a state and answer as they like. -/
inductive Reached : ByteClasses → Prop
  | single : Reached single
  | distinguish {C D : ByteClasses} {b : UInt8} {split : Bool} {ρ : Type} {test : UInt8 → ρ → Bool × ρ} {r : ρ}
    (h : Reached C) (hD : ((C.distinguish b).run test r).1 = .ok (split, D)) : Reached D

theorem Reached.wf (h : Reached C) : C.Wf := by
  induction h with
  | single => exact wf_single
  | distinguish _ hD ih =>
    rcases ih.mayEnd_distinguish (mayEnd_run hD) with hsame | ⟨s, hsplit, hlt, hle⟩
    · cases hsame
      exact ih
    · cases hsplit
      exact ih.insert (ih.not_mem_of_between hlt hle)

/-! ## Arithmetic of bytes -/

/-- The canonical byte in front of the first one above `b`. -/
def normalize? (C : ByteClasses) (b : UInt8) : Option UInt8 :=
  let position := (C.canonical.takeWhile (· ≤ b)).length
  if 0 < position then C.canonical[position - 1]? else none

def below? (b : UInt8) (k : Nat) : Option UInt8 := (Byte.ofNat? k).bind (Byte.sub? b)

/-- Splits the class of `b` like `distinguish`, and fails where a difference is below zero, a number does not fit
into a byte, or there is no canonical byte at a position. -/
def distinguishExact (C : ByteClasses) (b : UInt8) : Dialogue UInt8 (Bool × ByteClasses) := do
  let c ← need (C.normalize? b)
  if c = b then return (false, C)
  let value ← query b
  if (← query c) = value then return (false, C)
  let distance ← need (Byte.sub? b c)
  let shift ← boundary.relay fun k =>
    if k < distance.toNat then do return (← query (← need (below? b k))) == value else return false
  return (true, C.insert (← need (below? b shift)))

theorem Wf.normalize?_eq (h : C.Wf) (b : UInt8) : C.normalize? b = some (C.normalize b) := by
  have hne : C.canonical.takeWhile (· ≤ b) ≠ [] :=
    List.ne_nil_of_mem ((mem_takeWhile_le h.ascending).2 ⟨h.zero, UInt8.zero_le⟩)
  obtain ⟨rest, hrest⟩ := List.takeWhile_prefix (· ≤ b) (l := C.canonical)
  unfold normalize? normalize
  generalize C.canonical.takeWhile (· ≤ b) = front at hne hrest
  have hpos := List.length_pos_iff.2 hne
  rw [if_pos hpos, ← hrest, List.getElem?_append_left (by omega), ← List.getLast?_eq_getElem?,
    List.getLastD_eq_getLast?, List.getLast?_eq_some_getLast hne]
  rfl

theorem below?_eq {k : Nat} (h : k ≤ b.toNat) : below? b k = some (below b k) := by
  have hb := b.toNat_lt
  have hk : (UInt8.ofNat k).toNat = k := by rw [UInt8.toNat_ofNat', Nat.mod_eq_of_lt (by omega)]
  have hle : UInt8.ofNat k ≤ b := by rw [UInt8.le_iff_toNat_le, hk]; exact h
  unfold below? Byte.ofNat? Byte.sub?
  rw [if_pos (by omega), Option.bind_some, if_pos hle, Option.some.injEq, ← UInt8.toNat_inj, toNat_below h,
    UInt8.toNat_sub_of_le _ _ hle, hk]

/-- No difference is below zero, all numbers fit into a byte, and all positions exist. -/
theorem Wf.distinguishExact_eq (h : C.Wf) (b : UInt8) : C.distinguishExact b = C.distinguish b := by
  have hle := h.normalize_le b
  unfold distinguishExact distinguish
  rw [h.normalize?_eq]
  by_cases hcb : C.normalize b = b
  · simp only [need_some_bind, if_pos hcb]
  have hsub : Byte.sub? b (C.normalize b) = some (b - C.normalize b) := if_pos hle
  have hdistance : (b - C.normalize b).toNat = b.toNat - (C.normalize b).toNat := UInt8.toNat_sub_of_le _ _ hle
  simp only [need_some_bind, if_neg hcb, hsub, hdistance]
  refine congrArg _ (funext fun value => congrArg _ (funext fun other => ?_))
  by_cases hsame : other = value
  · rw [if_pos hsame, if_pos hsame]
  rw [if_neg hsame, if_neg hsame]
  have htest : (fun k => if k < b.toNat - (C.normalize b).toNat then do
        return (← query (← need (below? b k))) == value else return false : Nat → Dialogue UInt8 Bool) =
      fun k => if k < b.toNat - (C.normalize b).toNat then do return (← query (below b k)) == value
        else return false := by
    funext k
    by_cases hk : k < b.toNat - (C.normalize b).toNat
    · rw [if_pos hk, if_pos hk, below?_eq (by omega)]
      rfl
    · rw [if_neg hk, if_neg hk]
  rw [htest]
  refine bind_congr_of_mayEnd fun k hk => ?_
  have hlt := shift_lt (h.distance_pos hcb) hk
  rw [below?_eq (by omega)]
  rfl

/-! ## What a split changes -/

/-- From the classes `C` to `D` one canonical byte `s` is added, between `b` and the canonical byte that it had, at a
place where the test changes. -/
structure SplitAt (test : UInt8 → Bool) (b s : UInt8) (C D : ByteClasses) : Prop where
  lt : C.normalize b < s
  le : s ≤ b
  alike : test s = test b
  changes : test (s - 1) ≠ test b
  fresh : s ∉ C.canonical
  added : D.canonical.Perm (s :: C.canonical)
  ascending : D.canonical.Pairwise (· < ·)
  normalize_eq : D.normalize b = s
  /-- The bytes of the old class that are not below `s` go over, and no others. -/
  moved : ∀ d, D.normalize d = if C.normalize d = C.normalize b ∧ s ≤ d then s else C.normalize d

theorem canonical_insert_perm (C : ByteClasses) (s : UInt8) : (C.insert s).canonical.Perm (s :: C.canonical) := by
  have hmiddle : (C.insert s).canonical.Perm (s :: (C.canonical.takeWhile (· < s) ++ C.canonical.dropWhile (· < s))) :=
    List.perm_middle
  rwa [List.takeWhile_append_dropWhile] at hmiddle

theorem below_one {s : UInt8} (h : 0 < s) : below s 1 = s - 1 := by
  have hone : (1 : UInt8) ≤ s := UInt8.le_iff_toNat_le.2 (UInt8.lt_iff_toNat_lt.1 h)
  have hle : 1 ≤ s.toNat := UInt8.le_iff_toNat_le.1 hone
  rw [← UInt8.toNat_inj, toNat_below hle, UInt8.toNat_sub_of_le _ _ hone]
  rfl

theorem Wf.splitAt_insert (h : C.Wf) {test : UInt8 → Bool} {s : UInt8} (hlt : C.normalize b < s) (hle : s ≤ b)
    (halike : test s = test b) (hchanges : test (below s 1) ≠ test b) : SplitAt test b s C (C.insert s) := by
  have hnew := h.not_mem_of_between hlt hle
  have hpos : 0 < s := UInt8.lt_of_le_of_lt UInt8.zero_le hlt
  rw [below_one hpos] at hchanges
  refine ⟨hlt, hle, halike, hchanges, hnew, C.canonical_insert_perm s, (h.insert hnew).ascending, ?_, fun d => ?_⟩
  · rw [h.normalize_insert hnew, if_pos ⟨hlt, hle⟩]
  · -- the classes that reach up to `s` from below are the one of `b`
    have hclass : C.normalize d < s ∧ s ≤ d ↔ C.normalize d = C.normalize b ∧ s ≤ d := by
      refine and_congr_left fun hd => ⟨fun hds => ?_, fun heq => by rwa [heq]⟩
      obtain ⟨hmem, -, hmax⟩ := h.normalize_spec d
      obtain ⟨hmem', hle', hmax'⟩ := h.normalize_spec b
      refine UInt8.le_antisymm (hmax' _ hmem ?_) (hmax _ hmem' ?_)
      · exact UInt8.le_of_lt (UInt8.lt_of_lt_of_le hds hle)
      · exact UInt8.le_of_lt (UInt8.lt_of_lt_of_le hlt hd)
    rw [h.normalize_insert hnew]
    simp only [hclass]

/-- Classes that are reached are split exactly if the test tells a byte from its canonical byte. Then one canonical
byte is added at a place where the test changes, and otherwise nothing is. No arithmetic of bytes goes wrong. -/
theorem distinguish_splits (h : Reached C) (test : UInt8 → Bool) (b : UInt8) :
    ∃ split D, (C.distinguish b).result test = .ok (split, D) ∧
      (split = true ↔ C.normalize b ≠ b ∧ test (C.normalize b) ≠ test b) ∧
      (split = false → D = C) ∧
      (split = true → ∃ s, SplitAt test b s C D) ∧
      C.distinguishExact b = C.distinguish b ∧ (∀ d, C.normalize? d = some (C.normalize d)) ∧
        ∀ d, D.normalize? d = some (D.normalize d) := by
  have hwf := h.wf
  obtain ⟨r, hr, hcases⟩ := (distinguish_spec hwf test b).total
  rcases hcases with ⟨rfl, hsame⟩ | ⟨hdiffer, s, rfl, hlt, hle, halike, hchanges⟩
  · refine ⟨false, C, hr, ⟨nofun, fun hne => absurd hsame hne.2⟩, fun _ => rfl, nofun, ?_⟩
    exact ⟨hwf.distinguishExact_eq b, hwf.normalize?_eq, hwf.normalize?_eq⟩
  · have hsplit := hwf.splitAt_insert hlt hle halike hchanges
    refine ⟨true, C.insert s, hr, ⟨fun _ => ⟨fun hcb => hdiffer (by rw [hcb]), hdiffer⟩, fun _ => rfl⟩, nofun,
      fun _ => ⟨s, hsplit⟩, ?_⟩
    exact ⟨hwf.distinguishExact_eq b, hwf.normalize?_eq, (hwf.insert hsplit.fresh).normalize?_eq⟩

/-- Two classes, which are split at 100. -/
def twoClasses : ByteClasses := ⟨[0, 100]⟩

theorem reached_twoClasses : Reached twoClasses := by
  have hrun : ((single.distinguish 200).run (fun c (_ : Unit) => (decide (100 ≤ c), ())) ()).1 =
      .ok (true, twoClasses) := by decide +kernel
  exact .distinguish .single hrun

theorem distinguish_splits_twoClasses : Reached twoClasses ∧
    ∃ D s, (twoClasses.distinguish 150).result (fun c => decide (c % 64 < 32)) = .ok (true, D) ∧
      SplitAt (fun c => decide (c % 64 < 32)) 150 s twoClasses D := by
  obtain ⟨split, D, hr, hiff, -, hsplit, -⟩ :=
    distinguish_splits reached_twoClasses (fun c => decide (c % 64 < 32)) 150
  obtain rfl : split = true := hiff.2 ⟨by decide, by decide⟩
  obtain ⟨s, hs⟩ := hsplit rfl
  exact ⟨reached_twoClasses, D, s, hr, hs⟩

end ByteClasses
end ByteAutomata
