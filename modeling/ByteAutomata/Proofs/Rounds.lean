import ByteAutomata.Proofs.Dialogue
import Mathlib.Data.List.Chain

/-!
# Dialogues in rounds

* `Dialogue.repeatRounds` : repeats rounds until one tells to stop, at most the given number of times;
* `Dialogue.Rounds f round a bs c` : rounds without a bound lead from `a` through `bs` and stop with `c`. A bound changes
  the result only if it is too small (`Rounds.result`);
* `Dialogue.ensures_repeatRounds` : rounds that lower a measure end. What one round guarantees is stated once, for the
  round alone.
-/

namespace ByteAutomata.Dialogue

set_option autoImplicit false

variable {ι α : Type} {f : ι → Bool} {round : α → Dialogue ι (Bool × α)}

/-- Repeats rounds until one tells to stop, at most the given number of times. -/
def repeatRounds (round : α → Dialogue ι (Bool × α)) : Nat → α → Dialogue ι α
  | 0, _ => .fail .outOfRounds
  | fuel + 1, a => do
    let (stop, b) ← round a
    if stop then return b else repeatRounds round fuel b

theorem repeatRounds_succ (fuel : Nat) (a : α) : repeatRounds round (fuel + 1) a =
    round a >>= fun r => if r.1 = true then pure r.2 else repeatRounds round fuel r.2 := rfl

/-- Without a bound the rounds from `a` on lead through `bs`, and the last one stops with `c`. -/
inductive Rounds (f : ι → Bool) (round : α → Dialogue ι (Bool × α)) : α → List α → α → Prop
  | stop {a c : α} (last : (round a).result f = .ok (true, c)) : Rounds f round a [] c
  | next {a b c : α} {bs : List α} (first : (round a).result f = .ok (false, b)) (rest : Rounds f round b bs c) :
    Rounds f round a (b :: bs) c

/-- A bound changes nothing but to cut the rounds short. -/
theorem Rounds.result {a c : α} {bs : List α} (h : Rounds f round a bs c) (fuel : Nat) :
    (repeatRounds round fuel a).result f = if bs.length < fuel then .ok c else .error .outOfRounds := by
  induction h generalizing fuel with
  | stop last =>
    cases fuel with
    | zero => rfl
    | succ fuel =>
      rw [repeatRounds_succ, result_bind, last]
      rfl
  | @next a b c bs first _ ih =>
    cases fuel with
    | zero => rfl
    | succ fuel =>
      rw [repeatRounds_succ, result_bind, first]
      refine (ih fuel).trans ?_
      simp only [List.length_cons, Nat.succ_lt_succ_iff]

/-- Rounds end if each of them stops or lowers a measure. What `post` says of the rounds from `b` on, by their number
and their result, the round before adds to. -/
theorem ensures_repeatRounds {excuse : Prop} (inv : α → Prop) (measure : α → Nat) (step : α → α → Prop)
    (post : α → Nat → α → Prop)
    (hround : ∀ a, inv a → Ensures f excuse (round a) fun r => (r.1 = true → post a 0 r.2) ∧
      (r.1 = false → inv r.2 ∧ measure r.2 < measure a ∧ step a r.2 ∧ ∀ n c, post r.2 n c → post a (n + 1) c))
    {a : α} (ha : inv a) {fuel : Nat} (hfuel : measure a < fuel) :
    Ensures f excuse (repeatRounds round fuel a) fun c => ∃ bs, Rounds f round a bs c ∧ (a :: bs).IsChain step ∧
      bs.length ≤ measure a ∧ post a bs.length c := by
  induction fuel generalizing a with
  | zero => exact absurd hfuel (Nat.not_lt_zero _)
  | succ fuel ih =>
    rw [repeatRounds_succ]
    apply (hround a ha).keep.bind
    rintro ⟨stop, b⟩ ⟨hresult, hstop, hnext⟩
    cases stop with
    | true => exact ensures_pure ⟨[], .stop hresult, List.isChain_singleton a, Nat.zero_le _, hstop rfl⟩
    | false =>
      obtain ⟨hb, hless, hstep, hpost⟩ := hnext rfl
      refine (ih hb (by omega)).imp fun c hc => ?_
      obtain ⟨bs, hrounds, hchain, hlength, hc⟩ := hc
      refine ⟨b :: bs, .next hresult hrounds, hchain.cons_cons hstep, ?_, hpost _ _ hc⟩
      rw [List.length_cons]
      omega

end ByteAutomata.Dialogue
