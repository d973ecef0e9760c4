import ByteAutomata.Proofs.Learner.Session

/-!
# The table and its hypothesis

* `Recorded c T` : what the table says is what the cache remembers: rows are answers, different states have
  different rows, labels grow from each other, and every step leads to the row of the longer word;
* `read?_label` : every label leads to its own state, although steps are found anew whenever experiments or
  classes change;
* `Represents c T M` : the automaton `M` has the states and steps of the table, and every label leads to its
  state, which accepts like the label (`Settled.represents`);
* `session_recorded` : both hold behind every sequence of calls, for oracles with a state as well.
-/

namespace ByteAutomata

set_option autoImplicit false

open Dialogue

/-- Rows of answers that do not depend on words that were not asked are remembered. -/
theorem Cache.map_some_eq_of_agrees {σ : Type} {c : Cache σ} {row : List Bool} {es : List Word} {u : Word}
    (h : ∀ f, c.Agrees f → row = Observations.answers f es u) : row.map some = es.map fun e => c.cached (u ++ e) := by
  have hfirst := h c.first c.agrees_first
  have hcached : ∀ e ∈ es, c.cached (u ++ e) = some (c.first (u ++ e)) := by
    intro e he
    refine Cache.cached_of_agrees fun f hf => ?_
    exact List.map_inj_left.1 ((h f hf).symm.trans hfirst) e he
  rw [hfirst, Observations.answers, List.map_map]
  exact List.map_congr_left fun e he => (hcached e he).symm

namespace Observations

variable {f : Word → Bool} {T : Observations}

/-! ## Labels -/

/-- Every label leads to its state, as different states have different rows. -/
theorem read?_label (h : Faithful f T) (hclosed : Closed T) {q : Nat} (hq : q < T.size) :
    T.read? 0 (T.label q) = some q := by
  induction q using Nat.strong_induction_on with
  | _ q ih =>
    by_cases hzero : q = 0
    · rw [hzero, h.root]
      rfl
    obtain ⟨p, hp, b, hb, hlabel⟩ := h.labels q (Nat.pos_of_ne_zero hzero) hq
    have hlt : p < T.size := Nat.lt_trans hp hq
    obtain ⟨t, hstep⟩ := hclosed p hlt b hb
    obtain ⟨ht, hrow⟩ := h.steps p b t hstep
    have hback : t = q := by
      apply h.eq_of_row ht hq
      rw [hrow, h.rows q hq, hlabel]
    rw [hlabel, read?_snoc, ih p hp hlt, Option.bind_some, h.classes.normalize_of_mem hb, hstep, hback]

/-! ## The hypothesis -/

section Oracle

variable {σ : Type} {oracle : Oracle σ} {c : Cache σ}

/-- The table says what was answered. -/
structure Recorded (c : Cache σ) (T : Observations) : Prop where
  experiments : ∃ es, T.experiments = [] :: es
  rows : ∀ q < T.size, (T.row q).map some = T.experiments.map fun e => c.cached (T.label q ++ e)
  distinct : ∀ p < T.size, ∀ q < T.size, p ≠ q → T.row p ≠ T.row q
  pos : 0 < T.size
  root : T.label 0 = []
  labels : ∀ q < T.size, q ≠ 0 → ∃ p < q, ∃ b ∈ T.classes.canonical, T.label q = T.label p ++ [b]
  steps : ∀ q < T.size, ∀ b ∈ T.classes.canonical, ∃ t < T.size, T.step? q b = some t ∧
    (T.row t).map some = T.experiments.map fun e => c.cached (T.label q ++ [b] ++ e)

theorem Recorded.of_settled (h : ∀ f, c.Agrees f → Settled f T) : Recorded c T := by
  have hfirst := h c.first c.agrees_first
  obtain ⟨hT, hclosed, -, -⟩ := hfirst
  refine ⟨hT.experiments, fun q hq => ?_, fun p hp q hq hpq hrow => hpq (hT.eq_of_row hp hq hrow), hT.pos, hT.root,
    fun q hq hzero => hT.labels q (Nat.pos_of_ne_zero hzero) hq, fun q hq b hb => ?_⟩
  · exact Cache.map_some_eq_of_agrees fun f hf => (h f hf).faithful.rows q hq
  · obtain ⟨t, ht⟩ := hclosed q hq b hb
    exact ⟨t, (hT.steps q b t ht).1, ht,
      Cache.map_some_eq_of_agrees fun f hf => ((h f hf).faithful.steps q b t ht).2⟩

/-- The automaton has the states of the table, a step for every byte, and each label leads to its state. -/
structure Represents (c : Cache σ) (T : Observations) (M : Automaton) : Prop where
  size : M.size = T.size
  start : M.start.map Fin.val = some 0
  total : ∀ q b, ∃ t, M.step q b = some t
  classes : ∀ q b, M.step q b = M.step q (T.classes.normalize b)
  steps : ∀ (q : Fin M.size) b, (M.step q b).map Fin.val = T.step? q (T.classes.normalize b)
  leads : ∀ q : Fin M.size, M.read M.start (T.label q) = some q
  accepting : ∀ q : Fin M.size, c.cached (T.label q) = some (M.accepting q)

theorem map_val_toState? {n i : Nat} (h : i < n) : (toState? n i).map Fin.val = some i := by
  unfold toState?
  rw [dif_pos h]
  rfl

theorem Represents.of_settled (h : ∀ f, c.Agrees f → Settled f T) : Represents c T T.automaton := by
  have hfirst := h c.first c.agrees_first
  obtain ⟨hT, hclosed, -, -⟩ := hfirst
  have hknown : ∀ (q : Fin T.size) b, ∃ t, ∃ ht : t < T.size, T.step? q (T.classes.normalize b) = some t ∧
      T.automaton.step q b = some ⟨t, ht⟩ := by
    intro q b
    obtain ⟨t, hstep⟩ := hclosed q q.isLt _ (hT.classes.normalize_mem b)
    have ht := (hT.steps q _ t hstep).1
    refine ⟨t, ht, hstep, ?_⟩
    change (T.step? q (T.classes.normalize b)).bind (toState? T.size) = _
    rw [hstep]
    exact dif_pos ht
  refine ⟨rfl, map_val_toState? hT.pos, fun q b => ?_, fun q b => ?_, fun q b => ?_, fun q => ?_, fun q => ?_⟩
  · obtain ⟨t, ht, -, hstep⟩ := hknown q b
    exact ⟨_, hstep⟩
  · change (T.step? q (T.classes.normalize b)).bind _ = (T.step? q (T.classes.normalize (T.classes.normalize b))).bind _
    rw [hT.classes.normalize_normalize]
  · obtain ⟨t, ht, htable, hstep⟩ := hknown q b
    rw [hstep, htable]
    rfl
  · rw [read_automaton hT (read?_label hT hclosed q.isLt)]
    exact toState?_val q
  · exact Cache.cached_of_agrees fun f hf => ((h f hf).faithful.accepting_eq q.isLt).symm

/-- The hypothesis has the states and steps of the table. -/
theorem toAutomaton_dfa (h : Faithful f T) : T.dfa.toAutomaton = T.automaton :=
  Dfa.toAutomaton_ofAutomaton (dif_pos h.pos : T.automaton.start = some ⟨0, h.pos⟩)

/-- Behind a new learner's calls the table holds the answers that were given, all its steps are known, and
its hypothesis has its states. Only words that no memory holds could make a call fail. -/
theorem session_recorded (oracle : Oracle σ) (s : σ) (ws : List Word) :
    (∃ T c, oracle.hold (session ws) (Cache.empty s) = (.ok T, c) ∧ Recorded c T ∧ Represents c T T.dfa.toAutomaton) ∨
    ((oracle.hold (session ws) (Cache.empty s)).1 = .error .overflow ∧ ∃ w ∈ ws, 5 * 2 ^ 61 ≤ w.length) := by
  have hall : ∀ f, (oracle.hold (session ws) (Cache.empty s)).2.Agrees f →
      (session ws).result f = (oracle.hold (session ws) (Cache.empty s)).1 :=
    fun f hf => oracle.result_eq_hold _ hf
  generalize oracle.hold (session ws) (Cache.empty s) = r at hall ⊢
  obtain ⟨result, c⟩ := r
  dsimp only at hall ⊢
  have hresult := hall _ c.agrees_first
  rcases session_spec c.first ws with ⟨T, hT, -⟩ | ⟨hfault, hhuge⟩
  · rw [hT] at hresult
    subst hresult
    have hsettled : ∀ f, c.Agrees f → Settled f T := fun f hf => (session_spec f ws).of_ok (hall f hf)
    refine Or.inl ⟨T, c, rfl, .of_settled hsettled, ?_⟩
    rw [toAutomaton_dfa (hsettled _ c.agrees_first).faithful]
    exact .of_settled hsettled
  · rw [hfault] at hresult
    exact Or.inr ⟨hresult.symm, hhuge⟩

end Oracle

end Observations
end ByteAutomata
