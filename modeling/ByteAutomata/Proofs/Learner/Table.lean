import ByteAutomata.Learner.Learn
import ByteAutomata.Proofs.ByteClasses
import Mathlib.Data.Fintype.BigOperators

/-!
# What the observation table records

* `answers f es u` : the answers for `u` with each experiment behind it;
* `Faithful f T` : the table records answers of `f`: rows belong to labels, different states have
  different rows, known steps lead to the state with the row of the longer word (`faithful_setStep`,
  `faithful_push`);
* `Extends T U` : `U` has more states and steps, and all those of `T` (`extends_setStep`,
  `extends_push`); `Closed T` : every step by a canonical byte is known;
* `size_le_two_pow` : there are at most as many states as rows of the length of the experiments.
-/

namespace ByteAutomata.Observations

set_option autoImplicit false

open Dialogue

/-- The answers for `u` with each experiment behind it. -/
def answers (f : Word → Bool) (es : List Word) (u : Word) : List Bool := es.map fun e => f (u ++ e)

variable {f : Word → Bool} {T U V : Observations}

@[simp] theorem length_answers (es : List Word) (u : Word) : (answers f es u).length = es.length := List.length_map _

theorem answers_append (es ds : List Word) (u : Word) : answers f (es ++ ds) u = answers f es u ++ answers f ds u :=
  List.map_append

/-! ## Reading a table that was changed -/

section Update

variable {q : Nat} {b : UInt8} {row : List Bool} {t : Nat} {u : Word}

theorem getElem?_setStep (p : Nat) :
    (T.setStep q b row t).states[p]? =
      if q = p then T.states[p]?.map fun s => { s with steps := s.steps.set b (some t), beyond := s.beyond.set b row }
      else T.states[p]? := Array.getElem?_modify

theorem getElem?_push (p : Nat) :
    (T.push u row).states[p]? =
      if p = T.size then some ⟨u, row, ByteMap.const none, ByteMap.const []⟩ else T.states[p]? := Array.getElem?_push

@[simp] theorem label_setStep (p : Nat) : (T.setStep q b row t).label p = T.label p := by
  unfold label
  rw [getElem?_setStep]
  by_cases hp : q = p
  · rw [if_pos hp]
    cases T.states[p]? <;> rfl
  · rw [if_neg hp]

@[simp] theorem row_setStep (p : Nat) : (T.setStep q b row t).row p = T.row p := by
  unfold Observations.row
  rw [getElem?_setStep]
  by_cases hp : q = p
  · rw [if_pos hp]
    cases T.states[p]? <;> rfl
  · rw [if_neg hp]

theorem getElem?_states_of_lt (h : q < T.size) : ∃ s, T.states[q]? = some s :=
  ⟨_, Array.getElem?_eq_getElem h⟩

theorem step?_setStep (h : q < T.size) (p : Nat) (c : UInt8) :
    (T.setStep q b row t).step? p c = if p = q ∧ c = b then some t else T.step? p c := by
  unfold step?
  rw [getElem?_setStep]
  by_cases hp : q = p
  · subst hp
    obtain ⟨s, hs⟩ := getElem?_states_of_lt h
    rw [if_pos rfl, hs, Option.map_some, Option.bind_some, Option.bind_some]
    show (s.steps.set b (some t)).get c = _
    rw [ByteMap.get_set]
    by_cases hc : c = b
    · rw [if_pos hc, if_pos ⟨rfl, hc⟩]
    · rw [if_neg hc, if_neg fun hboth => hc hboth.2]
  · rw [if_neg hp, if_neg fun hboth => hp hboth.1.symm]

theorem beyond_setStep (h : q < T.size) (p : Nat) (c : UInt8) :
    (T.setStep q b row t).beyond p c = if p = q ∧ c = b then row else T.beyond p c := by
  unfold beyond
  rw [getElem?_setStep]
  by_cases hp : q = p
  · subst hp
    obtain ⟨s, hs⟩ := getElem?_states_of_lt h
    rw [if_pos rfl, hs]
    show (s.beyond.set b row).get c = _
    rw [ByteMap.get_set]
    by_cases hc : c = b
    · rw [if_pos hc, if_pos ⟨rfl, hc⟩]
    · rw [if_neg hc, if_neg fun hboth => hc hboth.2]
  · rw [if_neg hp, if_neg fun hboth => hp hboth.1.symm]

theorem label_push (p : Nat) : (T.push u row).label p = if p = T.size then u else T.label p := by
  unfold label
  rw [getElem?_push]
  by_cases hp : p = T.size
  · rw [if_pos hp, if_pos hp]
  · rw [if_neg hp, if_neg hp]

theorem row_push (p : Nat) : (T.push u row).row p = if p = T.size then row else T.row p := by
  unfold Observations.row
  rw [getElem?_push]
  by_cases hp : p = T.size
  · rw [if_pos hp, if_pos hp]
  · rw [if_neg hp, if_neg hp]

theorem getElem?_states_size : T.states[T.size]? = none := Array.getElem?_eq_none (Nat.le_refl _)

theorem step?_push (p : Nat) (c : UInt8) : (T.push u row).step? p c = T.step? p c := by
  unfold step?
  rw [getElem?_push]
  by_cases hp : p = T.size
  · rw [if_pos hp, hp, getElem?_states_size]
    show (ByteMap.const none).get c = none
    rw [ByteMap.get_const]
  · rw [if_neg hp]

theorem beyond_push (p : Nat) (c : UInt8) : (T.push u row).beyond p c = T.beyond p c := by
  unfold beyond
  rw [getElem?_push]
  by_cases hp : p = T.size
  · rw [if_pos hp, hp, getElem?_states_size]
    show (ByteMap.const []).get c = []
    rw [ByteMap.get_const]
  · rw [if_neg hp]

end Update

/-! ## Faithful tables -/

/-- All that the table records are answers of `f`. -/
structure Faithful (f : Word → Bool) (T : Observations) : Prop where
  classes : T.classes.Wf
  experiments : ∃ es, T.experiments = [] :: es
  distinct : T.experiments.Nodup
  pos : 0 < T.size
  root : T.label 0 = []
  labels : ∀ q, 0 < q → q < T.size → ∃ p < q, ∃ b ∈ T.classes.canonical, T.label q = T.label p ++ [b]
  rows : ∀ q < T.size, T.row q = answers f T.experiments (T.label q)
  index : ∀ row q, T.withRow? row = some q ↔ q < T.size ∧ T.row q = row
  beyond : ∀ q < T.size, ∀ b, ∃ k, T.beyond q b = answers f (T.experiments.take k) (T.label q ++ [b])
  steps : ∀ q b t, T.step? q b = some t → t < T.size ∧ T.row t = answers f T.experiments (T.label q ++ [b])

theorem lt_size_of_step? {q t : Nat} {b : UInt8} (h : T.step? q b = some t) : q < T.size := by
  by_contra hq
  unfold step? at h
  rw [Array.getElem?_eq_none (Nat.le_of_not_lt hq)] at h
  cases h

/-- Different states have different rows. -/
theorem Faithful.eq_of_row (h : Faithful f T) {p q : Nat} (hp : p < T.size) (hq : q < T.size)
    (hrow : T.row p = T.row q) : p = q := by
  have h₁ := (h.index (T.row q) p).2 ⟨hp, hrow⟩
  have h₂ := (h.index (T.row q) q).2 ⟨hq, rfl⟩
  rw [h₁] at h₂
  exact Option.some.inj h₂

theorem Faithful.experiments_pos (h : Faithful f T) : 0 < T.experiments.length := by
  obtain ⟨es, hes⟩ := h.experiments
  rw [hes]
  exact Nat.succ_pos _

/-- A state accepts exactly if its label belongs to the language. -/
theorem Faithful.accepting_eq (h : Faithful f T) {q : Nat} (hq : q < T.size) : T.accepting q = f (T.label q) := by
  obtain ⟨es, hes⟩ := h.experiments
  unfold accepting
  rw [h.rows q hq, hes]
  show f (T.label q ++ []) = _
  rw [List.append_nil]

theorem Faithful.size_le_two_pow (h : Faithful f T) : T.size ≤ 2 ^ T.experiments.length := by
  have hlength : ∀ q : Fin T.size, (T.row q).length = T.experiments.length := by
    intro q
    rw [h.rows q q.isLt, length_answers]
  let cell (q : Fin T.size) (i : Fin T.experiments.length) : Bool := (T.row q).getD i false
  have hinj : Function.Injective cell := by
    intro p q hpq
    refine Fin.ext (h.eq_of_row p.isLt q.isLt ?_)
    apply List.ext_getElem ((hlength p).trans (hlength q).symm)
    intro i hi hi'
    have hcell := congrFun hpq ⟨i, by rw [← hlength p]; exact hi⟩
    show _ = _
    simp only [cell, List.getD_eq_getElem?_getD, List.getElem?_eq_getElem hi, List.getElem?_eq_getElem hi',
      Option.getD_some] at hcell
    exact hcell
  have hcard := Fintype.card_le_of_injective cell hinj
  rwa [Fintype.card_fin, Fintype.card_fun, Fintype.card_fin, Fintype.card_bool] at hcard

theorem faithful_setStep (h : Faithful f T) {q t : Nat} {b : UInt8} (hq : q < T.size) (ht : t < T.size)
    (hrow : T.row t = answers f T.experiments (T.label q ++ [b])) :
    Faithful f (T.setStep q b (answers f T.experiments (T.label q ++ [b])) t) where
  classes := h.classes
  experiments := h.experiments
  distinct := h.distinct
  pos := by rw [size_setStep]; exact h.pos
  root := by rw [label_setStep]; exact h.root
  labels p hp hlt := by
    rw [size_setStep] at hlt
    obtain ⟨r, hr, c, hc, hlabel⟩ := h.labels p hp hlt
    refine ⟨r, hr, c, hc, ?_⟩
    rw [label_setStep, label_setStep]
    exact hlabel
  rows p hp := by
    rw [size_setStep] at hp
    rw [row_setStep, label_setStep]
    exact h.rows p hp
  index row p := by
    rw [withRow?_setStep, size_setStep, row_setStep]
    exact h.index row p
  beyond p hp c := by
    rw [size_setStep] at hp
    rw [beyond_setStep hq, label_setStep]
    by_cases hboth : p = q ∧ c = b
    · rw [if_pos hboth, hboth.1, hboth.2]
      exact ⟨T.experiments.length, congrArg (answers f · _) (List.take_length).symm⟩
    · rw [if_neg hboth]
      exact h.beyond p hp c
  steps p c s hs := by
    rw [step?_setStep hq] at hs
    rw [size_setStep, row_setStep, label_setStep]
    by_cases hboth : p = q ∧ c = b
    · rw [if_pos hboth] at hs
      cases hs
      rw [hboth.1, hboth.2]
      exact ⟨ht, hrow⟩
    · rw [if_neg hboth] at hs
      exact h.steps p c s hs

/-- With a row that no state had, states are still found by their rows. -/
theorem withRow?_push_iff (h : Faithful f T) {u : Word} {new row : List Bool} (hnew : T.withRow? new = none) (p : Nat) :
    (T.push u new).withRow? row = some p ↔ p < T.size + 1 ∧ (T.push u new).row p = row := by
  have hfresh : ∀ p < T.size, T.row p ≠ new := by
    intro p hp hrow
    rw [(h.index _ p).2 ⟨hp, hrow⟩] at hnew
    cases hnew
  rw [withRow?_push, row_push]
  by_cases hrow : new = row
  · rw [if_pos hrow, Option.some.injEq]
    constructor
    · rintro rfl
      rw [if_pos rfl]
      exact ⟨Nat.lt_succ_self _, hrow⟩
    · intro hp
      by_contra hne
      rw [if_neg (Ne.symm hne)] at hp
      exact hfresh p (by omega) (hp.2.trans hrow.symm)
  · rw [if_neg hrow, h.index]
    constructor
    · intro hp
      rw [if_neg (Nat.ne_of_lt hp.1)]
      exact ⟨by omega, hp.2⟩
    · intro hp
      by_cases hlast : p = T.size
      · rw [if_pos hlast] at hp
        exact absurd hp.2 hrow
      · rw [if_neg hlast] at hp
        exact ⟨by omega, hp.2⟩

theorem faithful_push (h : Faithful f T) {q : Nat} {b : UInt8} (hq : q < T.size) (hb : b ∈ T.classes.canonical)
    (hnew : T.withRow? (answers f T.experiments (T.label q ++ [b])) = none) :
    Faithful f (T.push (T.label q ++ [b]) (answers f T.experiments (T.label q ++ [b]))) where
  classes := h.classes
  experiments := h.experiments
  distinct := h.distinct
  pos := by rw [size_push]; omega
  root := by rw [label_push, if_neg (Nat.ne_of_lt h.pos)]; exact h.root
  labels p hp hlt := by
    rw [size_push] at hlt
    by_cases hlast : p = T.size
    · refine ⟨q, by omega, b, hb, ?_⟩
      rw [label_push, if_pos hlast, label_push, if_neg (Nat.ne_of_lt hq)]
    · obtain ⟨r, hr, c, hc, hlabel⟩ := h.labels p hp (by omega)
      refine ⟨r, hr, c, hc, ?_⟩
      rw [label_push, if_neg hlast, label_push, if_neg (by omega)]
      exact hlabel
  rows p hp := by
    rw [size_push] at hp
    rw [row_push, label_push]
    by_cases hlast : p = T.size
    · rw [if_pos hlast, if_pos hlast]
      rfl
    · rw [if_neg hlast, if_neg hlast]
      exact h.rows p (by omega)
  index row p := by
    rw [size_push]
    exact withRow?_push_iff h hnew p
  beyond p hp c := by
    rw [size_push] at hp
    rw [beyond_push, label_push]
    by_cases hlast : p = T.size
    · refine ⟨0, ?_⟩
      unfold Observations.beyond
      rw [hlast, getElem?_states_size]
      rfl
    · rw [if_neg hlast]
      exact h.beyond p (by omega) c
  steps p c t ht := by
    rw [step?_push] at ht
    obtain ⟨hlt, hrow⟩ := h.steps p c t ht
    have hp := lt_size_of_step? ht
    rw [size_push, row_push, label_push, if_neg (Nat.ne_of_lt hlt), if_neg (Nat.ne_of_lt hp)]
    exact ⟨by omega, hrow⟩

/-! ## Tables that extend each other -/

/-- `U` has the states and steps of `T`, and maybe more, for the same classes and experiments. -/
structure Extends (T U : Observations) : Prop where
  classes : U.classes = T.classes
  experiments : U.experiments = T.experiments
  generation : U.generation = T.generation
  size_le : T.size ≤ U.size
  label : ∀ q < T.size, U.label q = T.label q
  step : ∀ q b t, T.step? q b = some t → U.step? q b = some t

theorem Extends.refl (T : Observations) : Extends T T :=
  ⟨rfl, rfl, rfl, Nat.le_refl _, fun _ _ => rfl, fun _ _ _ h => h⟩

theorem Extends.trans (h : Extends T U) (h' : Extends U V) : Extends T V where
  classes := h'.classes.trans h.classes
  experiments := h'.experiments.trans h.experiments
  generation := h'.generation.trans h.generation
  size_le := Nat.le_trans h.size_le h'.size_le
  label q hq := (h'.label q (Nat.lt_of_lt_of_le hq h.size_le)).trans (h.label q hq)
  step q b t ht := h'.step q b t (h.step q b t ht)

theorem extends_setStep {q t : Nat} {b : UInt8} (row : List Bool) (hq : q < T.size) (hnew : T.step? q b = none) :
    Extends T (T.setStep q b row t) where
  classes := rfl
  experiments := rfl
  generation := rfl
  size_le := by rw [size_setStep]
  label p _ := label_setStep p
  step p c s hs := by
    rw [step?_setStep hq, if_neg]
    · exact hs
    · intro h
      obtain ⟨rfl, rfl⟩ := h
      rw [hnew] at hs
      cases hs

theorem extends_push (u : Word) (row : List Bool) : Extends T (T.push u row) where
  classes := rfl
  experiments := rfl
  generation := rfl
  size_le := by rw [size_push]; omega
  label p hp := by rw [label_push, if_neg (Nat.ne_of_lt hp)]
  step p c s hs := by rw [step?_push]; exact hs

/-- A state keeps its row. -/
theorem Extends.row (h : Extends T U) (hT : Faithful f T) (hU : Faithful f U) {q : Nat} (hq : q < T.size) :
    U.row q = T.row q := by
  rw [hU.rows q (Nat.lt_of_lt_of_le hq h.size_le), hT.rows q hq, h.experiments, h.label q hq]

/-- Every step by a canonical byte is known. -/
def Closed (T : Observations) : Prop := ∀ q < T.size, ∀ b ∈ T.classes.canonical, ∃ t, T.step? q b = some t

end ByteAutomata.Observations
