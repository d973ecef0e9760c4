import ByteAutomata.Learner.Boundary
import ByteAutomata.Proofs.Dialogue
import Mathlib.Data.Nat.Log
import Mathlib.Tactic.Ring

/-!
# The search for a boundary

* `Finds g lo top c d n` : the dialogue `d` goes on from `lo`, where the predicate `g` holds, finds the boundary `n`
  below `top`, and asks at most `c` numbers in between, none of them twice;
* `Finds.ask_true`, `Finds.ask_false` : one question more, by which the search goes on above or below a number;
* `finds_bisect`, `finds_gallop`, `finds_climb` : each phase finds a boundary, unless the predicate holds at all
  numbers on the way up (`gallop_overflow`, `climb_overflow`);
* `boundary_spec`, `boundary_total` : so the search finds one, unless the predicate holds far out;
* `gallopBelow` : doubling that compares each number with 2^64 before it is used. The bounded number of doublings
  amounts to that (`doublings_fit`, `boundary_eq_boundaryBelow`);
* `boundary_decides` : when it does not, and how many questions it takes.
-/

namespace ByteAutomata

set_option autoImplicit false

open Dialogue

variable {g : Nat → Bool}

/-! ## Searches from a number where the predicate holds -/

/-- From `lo` on the dialogue finds the boundary `n` below `top` with at most `c` questions. -/
structure Finds (g : Nat → Bool) (lo top c : Nat) (d : Dialogue Nat Nat) (n : Nat) : Prop where
  result : d.result g = .ok n
  holds : g n = true
  fails : g (n + 1) = false
  le : lo ≤ n
  lt : n < top
  between : ∀ i ∈ d.asked g, lo < i ∧ i < top
  nodup : (d.asked g).Nodup
  calls : (d.asked g).length ≤ c

section Finds

variable {lo top top' c c' i n : Nat} {d : Dialogue Nat Nat} {next : Bool → Dialogue Nat Nat}

theorem Finds.mono (h : Finds g lo top c d n) (hc : c ≤ c') : Finds g lo top c' d n :=
  { h with calls := h.calls.trans hc }

theorem finds_done (hn : g n = true) (hnext : g (n + 1) = false) : Finds g n (n + 1) 0 (.done n) n where
  result := rfl
  holds := hn
  fails := hnext
  le := Nat.le_refl n
  lt := Nat.lt_succ_self n
  between := nofun
  nodup := List.nodup_nil
  calls := Nat.le_refl 0

/-- The predicate holds at `i`, and the search goes on above. -/
theorem Finds.ask_true (h : Finds g i top c (next true) n) (hi : g i = true) (hlo : lo < i) :
    Finds g lo top (c + 1) (.ask i next) n := by
  have hasked : (Dialogue.ask i next).asked g = i :: (next true).asked g := by rw [asked, hi]
  have htop : i < top := Nat.lt_of_le_of_lt h.le h.lt
  refine ⟨by rw [Dialogue.result, hi, h.result], h.holds, h.fails, ?_, h.lt, ?_, ?_, ?_⟩
  · exact Nat.le_trans (Nat.le_of_lt hlo) h.le
  · rw [hasked]
    refine List.forall_mem_cons.2 ⟨⟨hlo, htop⟩, fun j hj => ?_⟩
    obtain ⟨hij, hj⟩ := h.between j hj
    exact ⟨Nat.lt_trans hlo hij, hj⟩
  · rw [hasked]
    exact List.nodup_cons.2 ⟨fun hmem => Nat.lt_irrefl i (h.between i hmem).1, h.nodup⟩
  · rw [hasked]
    exact Nat.succ_le_succ h.calls

/-- The predicate fails at `i`, and the search goes on below. -/
theorem Finds.ask_false (h : Finds g lo i c (next false) n) (hi : g i = false) (htop : i < top) :
    Finds g lo top (c + 1) (.ask i next) n := by
  have hasked : (Dialogue.ask i next).asked g = i :: (next false).asked g := by rw [asked, hi]
  have hlo : lo < i := Nat.lt_of_le_of_lt h.le h.lt
  refine ⟨by rw [Dialogue.result, hi, h.result], h.holds, h.fails, h.le, Nat.lt_trans h.lt htop, ?_, ?_, ?_⟩
  · rw [hasked]
    refine List.forall_mem_cons.2 ⟨⟨hlo, htop⟩, fun j hj => ?_⟩
    obtain ⟨hj, hji⟩ := h.between j hj
    exact ⟨hj, Nat.lt_trans hji htop⟩
  · rw [hasked]
    exact List.nodup_cons.2 ⟨fun hmem => Nat.lt_irrefl i (h.between i hmem).2, h.nodup⟩
  · rw [hasked]
    exact Nat.succ_le_succ h.calls

end Finds

/-! ## Halving -/

theorem clog_half_lt {m k : Nat} (hm : 2 ≤ m) (hk : 2 * k ≤ m + 1) : Nat.clog 2 k + 1 ≤ Nat.clog 2 m := by
  rw [Nat.clog_of_two_le (n := m) Nat.one_lt_two hm]
  have hle : k ≤ (m + 2 - 1) / 2 := by omega
  exact Nat.succ_le_succ (Nat.clog_mono_right 2 hle)

/-- Halving needs no bound: the gap shrinks until the ends are neighbours. -/
theorem finds_bisect {lo hi : Nat} (hlt : lo < hi) (hlo : g lo = true) (hhi : g hi = false) :
    ∃ n, Finds g lo hi (Nat.clog 2 (hi - lo)) (bisect lo hi) n := by
  fun_induction bisect lo hi with
  | case1 lo hi hgap mid ih₁ ih₂ =>
    cases hmid : g mid with
    | true =>
      obtain ⟨n, hn⟩ := ih₁ (by omega) hmid hhi
      refine ⟨n, (Finds.ask_true hn hmid (by omega)).mono ?_⟩
      exact clog_half_lt (by omega) (by omega)
    | false =>
      obtain ⟨n, hn⟩ := ih₂ (by omega) hlo hmid
      refine ⟨n, (Finds.ask_false hn hmid (by omega)).mono ?_⟩
      exact clog_half_lt (by omega) (by omega)
  | case2 lo hi hgap =>
    obtain rfl : hi = lo + 1 := by omega
    exact ⟨lo, (finds_done hlo hhi).mono (Nat.zero_le _)⟩

/-! ## Doubling -/

theorem gallop_overflow {r lo hi : Nat} (h : ∀ k ≤ r, g (hi * 2 ^ k) = true) :
    (gallop r lo hi).result g = .error .overflow := by
  induction r generalizing lo hi with
  | zero =>
    have hhi : g hi = true := by simpa using h 0 (Nat.le_refl 0)
    rw [gallop, Dialogue.result, hhi]
    rfl
  | succ r ih =>
    have hhi : g hi = true := by simpa using h 0 (Nat.zero_le _)
    rw [gallop, Dialogue.result, hhi]
    refine ih fun k hk => ?_
    have hdouble : 2 * hi * 2 ^ k = hi * 2 ^ (k + 1) := by rw [Nat.pow_succ]; ring
    rw [hdouble]
    exact h (k + 1) (by omega)

/-- The bound has been doubled to at most twice what is found, and the gap is not larger than that. -/
theorem clog_gap_le {lo hi n : Nat} (hlt : lo < hi) (hdouble : hi ≤ 2 * lo) (hn : lo ≤ n) :
    Nat.clog 2 (hi - lo) + 1 + Nat.log 2 hi ≤ 2 * Nat.log 2 n + 3 := by
  have hgap : Nat.clog 2 (hi - lo) ≤ Nat.log 2 n + 1 := by
    refine Nat.clog_le_of_le_pow ?_
    have := Nat.lt_pow_succ_log_self Nat.one_lt_two n
    omega
  have hlog : Nat.log 2 hi ≤ Nat.log 2 n + 1 := by
    rw [← Nat.log_mul_base Nat.one_lt_two (by omega)]
    exact Nat.log_mono_right (by omega)
  omega

/-- A bound at which the predicate fails ends the doubling. -/
theorem finds_below {lo hi top : Nat} {next : Bool → Dialogue Nat Nat} (hlt : lo < hi) (hdouble : hi ≤ 2 * lo)
    (hlo : g lo = true) (hhi : g hi = false) (htop : hi < top) (hnext : next false = bisect lo hi) :
    ∃ n, Finds g lo top (2 * Nat.log 2 n + 3 - Nat.log 2 hi) (.ask hi next) n := by
  obtain ⟨n, hn⟩ := finds_bisect hlt hlo hhi
  rw [← hnext] at hn
  have hcalls := clog_gap_le hlt hdouble hn.le
  exact ⟨n, (hn.ask_false hhi htop).mono (by omega)⟩

theorem finds_gallop {r lo hi k : Nat} (hlt : lo < hi) (hdouble : hi ≤ 2 * lo) (hlo : g lo = true) (hk : k ≤ r)
    (hfail : g (hi * 2 ^ k) = false) :
    ∃ n, Finds g lo (hi * 2 ^ r + 1) (2 * Nat.log 2 n + 3 - Nat.log 2 hi) (gallop r lo hi) n := by
  induction r generalizing lo hi k with
  | zero =>
    obtain rfl : k = 0 := by omega
    exact finds_below hlt hdouble hlo (by simpa using hfail) (by omega) rfl
  | succ r ih =>
    cases hhi : g hi with
    | false =>
      have htop : hi * 1 ≤ hi * 2 ^ (r + 1) := Nat.mul_le_mul_left hi Nat.one_le_two_pow
      exact finds_below hlt hdouble hlo hhi (by omega) rfl
    | true =>
      cases k with
      | zero =>
        rw [Nat.pow_zero, Nat.mul_one, hhi] at hfail
        cases hfail
      | succ k =>
        have hpow : ∀ j, hi * 2 ^ (j + 1) = 2 * hi * 2 ^ j := fun j => by rw [Nat.pow_succ]; ring
        rw [hpow] at hfail ⊢
        obtain ⟨n, hn⟩ := ih (by omega) (Nat.le_refl _) hhi (by omega) hfail
        have hlog : Nat.log 2 (2 * hi) = Nat.log 2 hi + 1 := by
          rw [Nat.mul_comm, Nat.log_mul_base Nat.one_lt_two (by omega)]
        have hle : Nat.log 2 hi ≤ Nat.log 2 n := Nat.log_mono_right hn.le
        exact ⟨n, (Finds.ask_true hn hhi hlt).mono (by omega)⟩

/-! ## One by one -/

theorem climb_overflow {steps n : Nat} (h : ∀ i < steps, g (n + i + 1) = true)
    (hfar : ∀ k ≤ doublings, g ((n + steps + 1) * 2 ^ k) = true) :
    (climb steps n).result g = .error .overflow := by
  induction steps generalizing n with
  | zero => exact gallop_overflow hfar
  | succ steps ih =>
    have hnext : g (n + 1) = true := h 0 (Nat.succ_pos steps)
    rw [climb, Dialogue.result, hnext]
    refine ih (fun i hi => ?_) fun k hk => ?_
    · have hsum : n + 1 + i + 1 = n + (i + 1) + 1 := by omega
      rw [hsum]
      exact h (i + 1) (by omega)
    · have hsum : n + 1 + steps + 1 = n + (steps + 1) + 1 := by omega
      rw [hsum]
      exact hfar k hk

theorem finds_climb {steps n : Nat} (hpos : 0 < n + steps) (hn : g n = true)
    (hfail : (∃ i < steps, g (n + i + 1) = false) ∨ ∃ k ≤ doublings, g ((n + steps + 1) * 2 ^ k) = false) :
    ∃ m, Finds g n ((n + steps + 1) * 2 ^ doublings + 1)
      (steps + (2 * Nat.log 2 m + 3 - Nat.log 2 (n + steps + 1))) (climb steps n) m := by
  induction steps generalizing n with
  | zero =>
    obtain ⟨i, hi, -⟩ | ⟨k, hk, hfail⟩ := hfail
    · cases hi
    · simp only [Nat.add_zero] at hpos hfail ⊢
      obtain ⟨m, hm⟩ := finds_gallop (Nat.lt_add_one n) (by omega) hn hk hfail
      exact ⟨m, hm.mono (by omega)⟩
  | succ steps ih =>
    have hsum : n + (steps + 1) + 1 = n + 1 + steps + 1 := by omega
    rw [hsum] at hfail ⊢
    cases hnext : g (n + 1) with
    | false =>
      have htop : (n + 1 + steps + 1) * 1 ≤ (n + 1 + steps + 1) * 2 ^ doublings :=
        Nat.mul_le_mul_left _ Nat.one_le_two_pow
      exact ⟨n, ((finds_done hn hnext).ask_false hnext (by omega)).mono (by omega)⟩
    | true =>
      have hrest : (∃ i < steps, g (n + 1 + i + 1) = false) ∨
          ∃ k ≤ doublings, g ((n + 1 + steps + 1) * 2 ^ k) = false := by
        refine hfail.imp_left fun ⟨i, hi, hfail⟩ => ?_
        cases i with
        | zero =>
          rw [Nat.add_zero, hnext] at hfail
          cases hfail
        | succ i =>
          refine ⟨i, by omega, ?_⟩
          have hindex : n + 1 + i + 1 = n + (i + 1) + 1 := by omega
          rw [hindex]
          exact hfail
      obtain ⟨m, hm⟩ := ih (by omega) hnext hrest
      exact ⟨m, (Finds.ask_true hm hnext (Nat.lt_succ_self n)).mono (by omega)⟩

/-! ## The whole search -/

/-- The predicate holds at all numbers that are tried on the way up. -/
def HoldsUpwards (g : Nat → Bool) : Prop :=
  (∀ i < 4, g (i + 1) = true) ∧ ∀ k ≤ doublings, g (5 * 2 ^ k) = true

theorem boundary_overflow (h : HoldsUpwards g) : boundary.result g = .error .overflow := by
  refine climb_overflow (fun i hi => ?_) h.2
  rw [Nat.zero_add]
  exact h.1 i hi

theorem finds_boundary (h0 : g 0 = true) (h : ¬ HoldsUpwards g) :
    ∃ n, Finds g 0 (5 * 2 ^ doublings + 1) (2 * Nat.log 2 n + 5) boundary n := by
  have hfail : (∃ i < 4, g (0 + i + 1) = false) ∨ ∃ k ≤ doublings, g ((0 + 4 + 1) * 2 ^ k) = false := by
    rw [HoldsUpwards, not_and_or] at h
    simpa using h
  obtain ⟨n, hn⟩ := finds_climb (by omega) h0 hfail
  have hlog : Nat.log 2 (0 + 4 + 1) = 2 := by decide
  rw [hlog] at hn
  exact ⟨n, hn.mono (by omega)⟩

/-- A predicate that holds at 0 has a boundary. The search for one fails only if the predicate holds
up to 4 and at all numbers after that which are tried by doubling. -/
theorem boundary_spec (h : g 0 = true) :
    Ensures g ((∀ i ≤ 4, g i = true) ∧ ∀ k ≤ doublings, g (5 * 2 ^ k) = true) boundary
      fun n => g n = true ∧ g (n + 1) = false := by
  by_cases hup : HoldsUpwards g
  · refine Or.inr ⟨boundary_overflow hup, fun i hi => ?_, hup.2⟩
    cases i with
    | zero => exact h
    | succ i => exact hup.1 i (by omega)
  · obtain ⟨n, hn⟩ := finds_boundary h hup
    exact ensures_ok hn.result ⟨hn.holds, hn.fails⟩

/-- A predicate that fails from some 64-bit number on has a boundary that is found. -/
theorem boundary_total (h : g 0 = true) (hfar : g (5 * 2 ^ doublings) = false) :
    Ensures g False boundary fun n => g n = true ∧ g (n + 1) = false := by
  refine (boundary_spec h).mono (fun hall => ?_) fun _ => id
  rw [hall.2 doublings (Nat.le_refl _)] at hfar
  cases hfar

/-! ## Doubling below 2^64 -/

/-- The last double of 5 that has 64 bits, with room for its successor, and the next one, which has not. -/
theorem doublings_fit : 5 * 2 ^ doublings + 1 < 2 ^ 64 ∧ 2 ^ 64 ≤ 5 * 2 ^ (doublings + 1) := by decide

/-- Doubles `hi` until the predicate fails there, as long as the double has 64 bits. -/
def gallopBelow (lo hi : Nat) (hpos : 0 < hi) : Dialogue Nat Nat :=
  .ask hi fun holds =>
    if holds then
      if 2 * hi < 2 ^ 64 then gallopBelow hi (2 * hi) (by omega) else .fail .overflow
    else bisect lo hi
termination_by 2 ^ 64 - hi
decreasing_by omega

/-- Tries the next numbers one by one, as many as given, and then larger steps below 2^64. -/
def climbBelow : Nat → Nat → Dialogue Nat Nat
  | 0, n => gallopBelow n (n + 1) n.succ_pos
  | steps + 1, n => .ask (n + 1) fun holds => if holds then climbBelow steps (n + 1) else .done n

/-- The whole search in numbers of 64 bits. -/
def boundaryBelow : Dialogue Nat Nat := climbBelow 4 0

/-- A bound on the doublings amounts to the comparisons if one doubling more would leave 64 bits. -/
theorem gallop_eq_gallopBelow {r lo hi : Nat} (hpos : 0 < hi) (hfit : hi * 2 ^ r < 2 ^ 64)
    (hlast : 2 ^ 64 ≤ hi * 2 ^ (r + 1)) : gallop r lo hi = gallopBelow lo hi hpos := by
  induction r generalizing lo hi with
  | zero =>
    have hover : ¬ 2 * hi < 2 ^ 64 := by omega
    rw [gallop, gallopBelow, if_neg hover]
  | succ r ih =>
    have hpow : ∀ j, hi * 2 ^ (j + 1) = 2 * hi * 2 ^ j := fun j => by rw [Nat.pow_succ]; ring
    rw [hpow] at hfit hlast
    have hdouble : 2 * hi < 2 ^ 64 := by
      have hle : 2 * hi * 1 ≤ 2 * hi * 2 ^ r := Nat.mul_le_mul_left _ Nat.one_le_two_pow
      omega
    rw [gallop, gallopBelow, if_pos hdouble, ih (by omega) hfit hlast]

theorem climb_eq_climbBelow {steps n : Nat} (h : n + steps = 4) : climb steps n = climbBelow steps n := by
  induction steps generalizing n with
  | zero =>
    obtain rfl : n = 4 := h
    exact gallop_eq_gallopBelow (Nat.succ_pos 4) (Nat.lt_of_succ_lt doublings_fit.1) doublings_fit.2
  | succ steps ih => rw [climb, climbBelow, ih (by omega)]

/-- The search gives up exactly where a double would not have 64 bits. -/
theorem boundary_eq_boundaryBelow : boundary = boundaryBelow := climb_eq_climbBelow rfl

/-! ## Predicates on numbers of 64 bits -/

/-- The predicate as the search asks for it. -/
def onNumbers (f : UInt64 → Bool) (n : Nat) : Bool := f (UInt64.ofNat n)

theorem holdsUpwards_onNumbers {f : UInt64 → Bool} : HoldsUpwards (onNumbers f) ↔
    (f 1 = true ∧ f 2 = true ∧ f 3 = true ∧ f 4 = true) ∧ ∀ k ≤ 61, f (UInt64.ofNat (5 * 2 ^ k)) = true := by
  refine and_congr ⟨fun h => ?_, ?_⟩ Iff.rfl
  · exact ⟨h 0 (by decide), h 1 (by decide), h 2 (by decide), h 3 (by decide)⟩
  · rintro ⟨h1, h2, h3, h4⟩ i hi
    match i, hi with
    | 0, _ => exact h1
    | 1, _ => exact h2
    | 2, _ => exact h3
    | 3, _ => exact h4

/-- For a predicate on numbers of 64 bits that holds at 0, the search doubles past 64 bits exactly if the predicate
holds at 1, 2, 3, 4 and at all doublings of 5. Otherwise it finds a boundary, asks no number twice, and asks about
twice as many numbers as the boundary has bits. -/
theorem boundary_decides (f : UInt64 → Bool) (h : f 0 = true) :
    (boundary.result (onNumbers f) = .error .overflow ↔
      (f 1 = true ∧ f 2 = true ∧ f 3 = true ∧ f 4 = true) ∧ ∀ k ≤ 61, f (UInt64.ofNat (5 * 2 ^ k)) = true) ∧
    (boundary.result (onNumbers f) ≠ .error .overflow → ∃ n, boundary.result (onNumbers f) = .ok n ∧
      n + 1 < 2 ^ 64 ∧ f (UInt64.ofNat n) = true ∧ f (UInt64.ofNat (n + 1)) = false ∧
      (∀ i ∈ boundary.asked (onNumbers f), i < 2 ^ 64) ∧ (boundary.asked (onNumbers f)).Nodup ∧
      (boundary.asked (onNumbers f)).length ≤ 2 * Nat.log 2 (max n 1) + 9) := by
  rw [← holdsUpwards_onNumbers]
  by_cases hholds : HoldsUpwards (onNumbers f)
  · have hover := boundary_overflow hholds
    exact ⟨⟨fun _ => hholds, fun _ => hover⟩, fun hne => absurd hover hne⟩
  · obtain ⟨n, hn⟩ := finds_boundary h hholds
    have hfit := doublings_fit.1
    have hlog : Nat.log 2 n ≤ Nat.log 2 (max n 1) := Nat.log_mono_right (Nat.le_max_left n 1)
    refine ⟨⟨fun hover => ?_, fun hup => absurd hup hholds⟩, fun _ => ⟨n, hn.result, ?_, hn.holds, hn.fails, ?_, hn.nodup, ?_⟩⟩
    · rw [hn.result] at hover
      cases hover
    · have hlt := hn.lt
      omega
    · intro i hi
      have hlt := (hn.between i hi).2
      omega
    · have hcalls := hn.calls
      omega

/-- Holds up to 8 and again from 12 to 20. -/
def holdsWithGap (n : UInt64) : Bool := n ≤ 8 || (12 ≤ n && n ≤ 20)

theorem boundary_decides_gap : holdsWithGap 0 = true ∧
    ∃ n, boundary.result (onNumbers holdsWithGap) = .ok n ∧ n + 1 < 2 ^ 64 ∧
      holdsWithGap (UInt64.ofNat n) = true ∧ holdsWithGap (UInt64.ofNat (n + 1)) = false ∧
      (∀ i ∈ boundary.asked (onNumbers holdsWithGap), i < 2 ^ 64) ∧
      (boundary.asked (onNumbers holdsWithGap)).Nodup ∧
      (boundary.asked (onNumbers holdsWithGap)).length ≤ 2 * Nat.log 2 (max n 1) + 9 := by
  obtain ⟨hover, hfinds⟩ := boundary_decides holdsWithGap (by decide)
  have hten : holdsWithGap (UInt64.ofNat (5 * 2 ^ 1)) = false := by decide
  refine ⟨by decide, hfinds fun hup => ?_⟩
  have hall := (hover.1 hup).2 1 (by decide)
  rw [hten] at hall
  cases hall

end ByteAutomata
