import ByteAutomata.Proofs.Learner.Session
import ByteAutomata.Proofs.WordList
import Mathlib.Data.Set.Card

/-!
# Learning a regular language comes to an end

* `residual f u` : the language behind a word; a language is regular if there are finitely many;
* `size_le_of_residuals` : different states have different residuals;
* `Calls f T` : the tables that any sequence of calls leads to;
* `stabilize_spec` : every pass but the last raises the generation, so there are few passes;
* `converges` : how large tables become, and how many corrections there can be.
-/

namespace ByteAutomata.Observations

set_option autoImplicit false

open Dialogue

variable {f : Word → Bool} {T U : Observations} {N : Nat}

/-! ## States and residuals -/

/-- The language behind a word. -/
def residual (f : Word → Bool) (u : Word) : Word → Bool := fun v => f (u ++ v)

theorem answers_eq_of_residual {u v : Word} (h : residual f u = residual f v) (es : List Word) :
    answers f es u = answers f es v :=
  List.map_congr_left fun e _ => congrFun h e

/-- The labels of states have different residuals. -/
theorem Faithful.residual_injective (h : Faithful f T) :
    Function.Injective fun q : Fin T.size => residual f (T.label q) := by
  intro p q hpq
  refine Fin.ext (h.eq_of_row p.isLt q.isLt ?_)
  rw [h.rows p p.isLt, h.rows q q.isLt]
  exact answers_eq_of_residual hpq _

theorem size_le_of_residuals (h : Faithful f T) (hN : (Set.range (residual f)).encard = N) : T.size ≤ N := by
  have hsub : Set.range (fun q : Fin T.size => residual f (T.label q)) ⊆ Set.range (residual f) := by
    rintro _ ⟨q, rfl⟩
    exact ⟨_, rfl⟩
  have hcard := h.residual_injective.encard_range.trans (Set.encard_le_encard hsub)
  rw [hN, ENat.card_eq_coe_fintype_card, Fintype.card_fin] at hcard
  exact_mod_cast hcard

theorem size_dfa (h : Faithful f T) : T.dfa.size = T.size := by
  have hstart : T.automaton.start = some ⟨0, h.pos⟩ := dif_pos h.pos
  have hsize := congrArg Automaton.size (Dfa.toAutomaton_ofAutomaton hstart)
  exact hsize

/-- The table is bounded between calls. -/
theorem Settled.bounds (h : Settled f T) (hN : (Set.range (residual f)).encard = N) :
    T.size ≤ N ∧ T.experiments.length ≤ T.size ∧ T.generation ≤ N + 254 := by
  have hsize := size_le_of_residuals h.faithful hN
  have hvariety := variety_le_size h.faithful h.closed
  have hvaried := h.varied
  have hcounted := h.counted
  have hclasses := h.faithful.classes.length_le
  omega

/-! ## Calls -/

/-- A table that calls lead to, from a new learner on. -/
inductive Calls (f : Word → Bool) : Observations → Prop
  | start {T : Observations} (h : start.result f = .ok T) : Calls f T
  | learn {T U : Observations} {w : Word} (calls : Calls f T) (h : (T.learn w).result f = .ok U) : Calls f U
  | stabilize {T U : Observations} {seeds : List Word} {sample rounds : Nat} (calls : Calls f T)
    (h : (stabilize seeds sample rounds T).result f = .ok U) : Calls f U

/-- One of the first words of a hypothesis of which `I` holds. -/
def Listed (I : Observations → Prop) (sample : Nat) (w : Word) : Prop :=
  ∃ U own, I U ∧ U.dfa.words sample = .ok own ∧ w ∈ own

theorem Kept.pass {I : Observations → Prop} (hI : Kept f I) (h : I T) (seeds : List Word) (sample : Nat) :
    Ensures f (∃ w, Huge w ∧ (w ∈ seeds ∨ Listed I sample w)) (T.pass seeds sample) fun U => I U ∧ Progress f T U := by
  unfold Observations.pass
  refine ((hI.learnAll h seeds).mono ?_ fun _ hU => hU).bind fun U hU => ?_
  · intro h
    obtain ⟨w, hw, hhuge⟩ := h
    exact ⟨w, hhuge, Or.inl hw⟩
  obtain ⟨hU, hprogress⟩ := hU
  obtain ⟨own, hown, -⟩ := U.dfa.words_spec sample
  rw [hown]
  refine (hI.learnAll hU own).mono ?_ fun V hV => ⟨hV.1, hprogress.trans hV.2⟩
  intro h
  obtain ⟨w, hw, hhuge⟩ := h
  exact ⟨w, hhuge, Or.inr ⟨U, own, hU, hown, hw⟩⟩

theorem Kept.of_stabilize {I : Observations → Prop} (hI : Kept f I) {seeds : List Word} {sample rounds : Nat}
    (h : I T) (hU : (stabilize seeds sample rounds T).result f = .ok U) : I U := by
  induction rounds generalizing T with
  | zero => cases hU
  | succ rounds ih =>
    unfold stabilize at hU
    obtain ⟨next, hnext, hrest⟩ := result_bind_eq_ok hU
    have hkept := ((hI.pass h seeds sample).of_ok hnext).1
    by_cases hsame : next.generation = T.generation
    · rw [if_pos hsame] at hrest
      cases hrest
      exact hkept
    · rw [if_neg hsame] at hrest
      exact ih hkept hrest

theorem Calls.settled (h : Calls f T) : Settled f T := by
  induction h with
  | start h => exact settled_start.of_ok h
  | learn _ h ih => exact kept_settled.learn _ _ _ ih h
  | stabilize _ h ih => exact kept_settled.of_stabilize ih h

theorem kept_calls : Kept f (Calls f) where
  settled _ h := h.settled
  learn _ _ _ h hU := .learn h hU

theorem Calls.of_session {ws : List Word} (h : (session ws).result f = .ok T) : Calls f T := by
  obtain ⟨U, hU, hrest⟩ := result_bind_eq_ok h
  exact ((kept_calls.learnAll (.start hU) ws).of_ok hrest).1

/-- Every pass but the last raises the generation, which stays below a bound. -/
theorem stabilize_spec (hN : (Set.range (residual f)).encard = N) (seeds : List Word) (sample : Nat) {rounds : Nat}
    (h : Calls f T) (hrounds : N + 255 ≤ rounds + T.generation) :
    Ensures f (∃ w, Huge w ∧ (w ∈ seeds ∨ Listed (Calls f) sample w)) (stabilize seeds sample rounds T) (Calls f) := by
  induction rounds generalizing T with
  | zero =>
    have hbounds := h.settled.bounds hN
    omega
  | succ rounds ih =>
    unfold stabilize
    apply (kept_calls.pass h seeds sample).bind
    intro U hU
    obtain ⟨hU, hprogress⟩ := hU
    by_cases hsame : U.generation = T.generation
    · rw [if_pos hsame]
      exact ensures_pure hU
    · rw [if_neg hsame]
      have hle := hprogress.generation_le
      exact ih hU (by omega)

/-- Once the passes come to an end, more of them would not be made. -/
theorem stabilize_result_of_le {seeds : List Word} {sample rounds more : Nat} (hle : rounds ≤ more)
    (h : (stabilize seeds sample rounds T).result f ≠ .error .outOfRounds) :
    (stabilize seeds sample more T).result f = (stabilize seeds sample rounds T).result f := by
  induction rounds generalizing T more with
  | zero => exact absurd rfl h
  | succ rounds ih =>
    obtain ⟨more, rfl⟩ := Nat.exists_eq_succ_of_ne_zero (show more ≠ 0 by omega)
    unfold stabilize at h ⊢
    rw [result_bind] at h ⊢
    rw [result_bind]
    cases hpass : (T.pass seeds sample).result f with
    | error e => rfl
    | ok next =>
      rw [hpass] at h
      change (if next.generation = T.generation then pure next else stabilize seeds sample rounds next : Dialogue Word
        Observations).result f ≠ _ at h
      show (if next.generation = T.generation then pure next else stabilize seeds sample more next : Dialogue Word
        Observations).result f = (if next.generation = T.generation then pure next
          else stabilize seeds sample rounds next : Dialogue Word Observations).result f
      by_cases hsame : next.generation = T.generation
      · rw [if_pos hsame, if_pos hsame]
      · rw [if_neg hsame] at h
        rw [if_neg hsame, if_neg hsame]
        exact ih (by omega) h

/-! ## Corrections -/

/-- Calls each of which is about a word that the hypothesis misclassifies. -/
inductive Corrections (f : Word → Bool) : Observations → List Word → Observations → Prop
  | nil (T : Observations) : Corrections f T [] T
  | cons {T U V : Observations} {w : Word} {ws : List Word} (wrong : T.dfa.accepts w ≠ f w)
    (h : (T.learn w).result f = .ok U) (rest : Corrections f U ws V) : Corrections f T (w :: ws) V

/-- Learning a misclassified word raises the generation. -/
theorem Settled.learn_raises (h : Settled f T) {w : Word} (hw : T.dfa.accepts w ≠ f w) :
    Ensures f (Huge w) (T.learn w) fun U => Settled f U ∧ T.generation < U.generation := by
  apply (generation_eq_iff h w).imp
  intro U hU
  obtain ⟨hU, hprogress, -, hiff⟩ := hU
  have hne : U.generation ≠ T.generation := fun heq => hw (hiff.1 heq).1
  have hle := hprogress.generation_le
  exact ⟨hU, by omega⟩

theorem Corrections.generation_le {V : Observations} {ws : List Word} (h : Corrections f T ws V) (hT : Settled f T) :
    Settled f V ∧ T.generation + ws.length ≤ V.generation := by
  induction h with
  | nil T => exact ⟨hT, Nat.le_refl _⟩
  | @cons T U V w ws wrong h _ ih =>
    obtain ⟨hU, hlt⟩ := (hT.learn_raises wrong).of_ok h
    obtain ⟨hV, hle⟩ := ih hU
    rw [List.length_cons]
    exact ⟨hV, by omega⟩

/-! ## Convergence -/

/-- The bounds on the table of a language with `N` residuals, and on what calls can still do. -/
structure Converges (f : Word → Bool) (N : Nat) (T : Observations) : Prop where
  size_le : T.dfa.size ≤ N
  experiments_le : T.experiments.length ≤ T.dfa.size
  generation_le : T.generation ≤ (T.classes.canonical.length - 1) + (T.experiments.length - 1)
  growth_le : (T.classes.canonical.length - 1) + (T.experiments.length - 1) ≤ N + 254
  /-- A call about a misclassified word raises the generation. -/
  raises : ∀ w, T.dfa.accepts w ≠ f w → Ensures f (Huge w) (T.learn w) fun U => T.generation < U.generation
  /-- Learning until nothing changes returns, after no more passes than this however many are allowed,
  unless it meets a word that no memory holds. -/
  returns : ∀ seeds sample, ∃ r, (∀ rounds, N + 255 ≤ rounds → (stabilize seeds sample rounds T).result f = r) ∧
    ((∃ U, r = .ok U ∧ Calls f U) ∨
      (r = .error .overflow ∧ ∃ w, Huge w ∧ (w ∈ seeds ∨ Listed (Calls f) sample w)))
  corrections_le : ∀ ws U, Corrections f T ws U → ws.length ≤ N + 254

/-- Whatever the calls, learning a regular language converges. -/
theorem converges (hN : (Set.range (residual f)).encard = N) (h : Calls f T) : Converges f N T := by
  obtain ⟨hsize, hexperiments, -⟩ := h.settled.bounds hN
  have hdfa := size_dfa h.settled.faithful
  have hcounted := h.settled.counted
  have hclasses := h.settled.faithful.classes.length_le
  have hpos := h.settled.faithful.experiments_pos
  refine ⟨by omega, by omega, by omega, by omega, fun w hw => ?_, fun seeds sample => ?_, fun ws U hws => ?_⟩
  · exact (h.settled.learn_raises hw).imp fun U hU => hU.2
  · refine ⟨(stabilize seeds sample (N + 255) T).result f, fun rounds hrounds => ?_, ?_⟩
    · apply stabilize_result_of_le hrounds
      rcases stabilize_spec hN seeds sample h (Nat.le_add_right _ _) with ⟨U, hU, -⟩ | ⟨hU, -⟩
      · rw [hU]
        exact nofun
      · rw [hU]
        exact nofun
    · exact stabilize_spec hN seeds sample h (Nat.le_add_right _ _)
  · obtain ⟨hU, hle⟩ := hws.generation_le h.settled
    have hbound := hU.bounds hN
    omega

/-! ### A language of three residuals -/

/-- The words that a residual of `byHighs` contains, by the remainder of the word before. -/
def residualAt (r : Fin 3) (v : Word) : Bool := (r.val + highs v) % 3 != 1

theorem residual_byHighs (u : Word) : residual byHighs u = residualAt ⟨highs u % 3, Nat.mod_lt _ (by decide)⟩ := by
  funext v
  unfold residual byHighs residualAt
  rw [highs_append, Nat.mod_add_mod]

theorem residualAt_injective : Function.Injective residualAt := by
  have hdiffer : ∀ p q, residualAt p [] = residualAt q [] → residualAt p [100] = residualAt q [100] → p = q := by decide
  exact fun p q hpq => hdiffer p q (congrFun hpq []) (congrFun hpq [100])

theorem encard_residual_byHighs : (Set.range (residual byHighs)).encard = (3 : Nat) := by
  have hrange : Set.range (residual byHighs) = Set.range residualAt := by
    apply Set.Subset.antisymm
    · rintro _ ⟨u, rfl⟩
      exact ⟨_, (residual_byHighs u).symm⟩
    · rintro _ ⟨r, rfl⟩
      refine ⟨List.replicate r.val 100, (residual_byHighs _).trans (congrArg residualAt ?_)⟩
      revert r
      decide
  rw [hrange, ← Set.image_univ, residualAt_injective.encard_image, Set.encard_univ, ENat.card_eq_coe_fintype_card,
    Fintype.card_fin]

/-- Three residuals, behind a call that has split a class and added an experiment. -/
theorem converges_byHighs : ∃ T, Calls byHighs T ∧ 1 < T.classes.canonical.length ∧ 1 < T.experiments.length ∧
    Converges byHighs 3 T := by
  obtain ⟨T, hT, hclasses, hexperiments⟩ := session_byHighs.total
  exact ⟨T, .of_session hT, hclasses, hexperiments, converges encard_residual_byHighs (.of_session hT)⟩

end ByteAutomata.Observations
