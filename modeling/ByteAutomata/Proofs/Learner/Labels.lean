import ByteAutomata.Proofs.Learner.Hypothesis

/-!
# How long labels are

* `Automaton.Shortest M q u` : no word that leads to `q` is shorter than `u`, which does;
  `Automaton.shortest_iff` : whether all labels of an automaton are shortest is seen at its steps;
* `Shortcut` : a step to a state whose label is longer than the word by which the step was found;
* `session_keeps_label` : calls that lead to a shortcut;
* `labels_shortest_iff` : labels are shortest as long as there is no shortcut, and there is none while all bytes are
  in one class; `session_lengthens` : a learner that has found a shortcut keeps the longer label.
-/

namespace ByteAutomata

set_option autoImplicit false

open Dialogue

/-! ## Labels of automata -/

namespace Automaton

variable {M : Automaton}

/-- The word leads to the state, and no shorter one does. -/
structure Shortest (M : Automaton) (q : Fin M.size) (u : Word) : Prop where
  leads : M.read M.start u = some q
  least : ∀ w, M.read M.start w = some q → u.length ≤ w.length

/-- The length of a label is the distance of its state if no step makes it grow by more than one. -/
theorem shortest_iff (label : Fin M.size → Word) (hleads : ∀ q, M.read M.start (label q) = some q)
    (hroot : ∀ q, M.start = some q → label q = []) : (∀ q, M.Shortest q (label q)) ↔
      ∀ p b q, M.step p b = some q → (label q).length ≤ (label p).length + 1 := by
  constructor
  · intro h p b q hstep
    have hread : M.read M.start (label p ++ [b]) = some q := by
      rw [read_snoc, hleads]
      exact hstep
    exact ((h q).least _ hread).trans_eq List.length_append
  · intro h q
    refine ⟨hleads q, fun w => ?_⟩
    induction w using List.reverseRecOn generalizing q with
    | nil =>
      intro hw
      rw [hroot q hw]
    | append_singleton w b ih =>
      intro hw
      rw [read_snoc] at hw
      obtain ⟨p, hp, hstep⟩ := Option.bind_eq_some_iff.1 hw
      have hbefore := ih p hp
      have hgrows := h p b q hstep
      rw [List.length_append, List.length_singleton]
      omega

end Automaton

namespace Observations

variable {σ : Type} {oracle : Oracle σ} {f : Word → Bool} {T : Observations} {c : Cache σ} {M : Automaton}

/-! ## Labels of hypotheses -/

/-- Every beginning of a label is a label, as labels grow from each other. -/
theorem Faithful.exists_label_take (h : Faithful f T) {q : Nat} (hq : q < T.size) {k : Nat}
    (hk : k ≤ (T.label q).length) : ∃ p < T.size, T.label p = (T.label q).take k := by
  induction q using Nat.strong_induction_on with
  | _ q ih =>
    by_cases hwhole : k = (T.label q).length
    · exact ⟨q, hq, by rw [hwhole, List.take_length]⟩
    have hpos : 0 < q := by
      apply Nat.pos_of_ne_zero
      intro hzero
      rw [hzero, h.root, List.length_nil] at hk hwhole
      omega
    obtain ⟨p, hp, b, -, hlabel⟩ := h.labels q hpos hq
    rw [hlabel, List.length_append, List.length_singleton] at hk hwhole
    have hshort : k ≤ (T.label p).length := by omega
    rw [hlabel, List.take_append_of_le_length hshort]
    exact ih p hp (by omega) hshort

/-- While all bytes are in one class, labels consist of its canonical byte. -/
theorem Faithful.label_of_single (h : Faithful f T) (hsingle : T.classes = .single) {q : Nat} (hq : q < T.size) :
    T.label q = List.replicate (T.label q).length 0 := by
  refine List.eq_replicate_length.2 fun a ha => ?_
  induction q using Nat.strong_induction_on with
  | _ q ih =>
    by_cases hzero : q = 0
    · rw [hzero, h.root] at ha
      exact absurd ha List.not_mem_nil
    obtain ⟨p, hp, b, hb, hlabel⟩ := h.labels q (Nat.pos_of_ne_zero hzero) hq
    rw [hlabel, List.mem_append, List.mem_singleton] at ha
    rcases ha with ha | rfl
    · exact ih p hp (by omega) ha
    · rw [hsingle] at hb
      exact List.mem_singleton.1 hb

theorem Represents.root (h : Represents c T M) (hT : Faithful f T) {q : Fin M.size} (hq : M.start = some q) :
    T.label q = [] := by
  have hstart := h.start
  rw [hq] at hstart
  rw [Option.some.inj hstart, hT.root]

theorem Represents.shortest_iff (h : Represents c T M) (hT : Faithful f T) :
    (∀ q : Fin M.size, M.Shortest q (T.label q)) ↔
      ∀ p b q, M.step p b = some q → (T.label q).length ≤ (T.label p).length + 1 :=
  Automaton.shortest_iff (fun q => T.label q) h.leads fun _ hq => h.root hT hq

/-- Among words of a single byte there is one of every length, so that a label that is too long would begin with
another label of its state. -/
theorem Represents.shortest_of_single (h : Represents c T M) (hT : Faithful f T) (hsingle : T.classes = .single) :
    ∀ q : Fin M.size, M.Shortest q (T.label q) := by
  rw [h.shortest_iff hT]
  intro p b q hstep
  by_contra hlong
  have hqT : q.val < T.size := h.size ▸ q.isLt
  have hpT : p.val < T.size := h.size ▸ p.isLt
  obtain ⟨r, hr, hlabel⟩ := hT.exists_label_take hqT (show (T.label p).length + 1 ≤ _ by omega)
  have hlength : (T.label r).length = (T.label p).length + 1 := by
    rw [hlabel, List.length_take]
    omega
  have hgrown : T.label r = T.label p ++ [0] := by
    rw [hT.label_of_single hsingle hr, hlength, List.replicate_succ', ← hT.label_of_single hsingle hpT]
  have hzero : M.step p 0 = some q := by
    have hcanonical := h.classes p b
    rw [hsingle] at hcanonical
    have hnormal : ByteClasses.single.normalize b = 0 :=
      List.mem_singleton.1 (ByteClasses.wf_single.normalize_mem b)
    rw [hnormal] at hcanonical
    rw [← hcanonical, hstep]
  have hrM : r < M.size := h.size.symm ▸ hr
  have hread := h.leads ⟨r, hrM⟩
  dsimp only at hread
  rw [hgrown, Automaton.read_snoc, h.leads p] at hread
  have hsame : some q = some (⟨r, hrM⟩ : Fin M.size) := hzero.symm.trans hread
  obtain rfl := Option.some.inj hsame
  dsimp only at hlong
  omega

/-- A step leads to a state whose label is longer than the word by which the step was found. This word has been asked
about, and has the row of the state. -/
structure Shortcut (c : Cache σ) (T : Observations) (M : Automaton) (p : Fin M.size) (b : UInt8) (q : Fin M.size) :
    Prop where
  canonical : b ∈ T.classes.canonical
  step : M.step p b = some q
  known : (T.row q).map some = T.experiments.map fun e => c.cached (T.label p ++ [b] ++ e)
  shorter : (T.label p ++ [b]).length < (T.label q).length

/-- What every byte does its canonical byte does as well, which was asked about. -/
theorem Represents.exists_shortcut_iff (h : Represents c T M) (hT : Recorded c T) (hwf : T.classes.Wf) :
    (∃ p b q, Shortcut c T M p b q) ↔
      ∃ p b q, M.step p b = some q ∧ (T.label p).length + 1 < (T.label q).length := by
  have hlength : ∀ (p : Fin M.size) b, (T.label p ++ [b]).length = (T.label p).length + 1 :=
    fun p b => List.length_append
  constructor
  · intro hcut
    obtain ⟨p, b, q, hcut⟩ := hcut
    exact ⟨p, b, q, hcut.step, hlength p b ▸ hcut.shorter⟩
  · intro hlong
    obtain ⟨p, b, q, hstep, hlong⟩ := hlong
    have hmem := hwf.normalize_mem b
    rw [h.classes] at hstep
    obtain ⟨t, -, ht, hrow⟩ := hT.steps p (h.size ▸ p.isLt) _ hmem
    have htable := h.steps p (T.classes.normalize b)
    rw [hstep, hwf.normalize_normalize, ht] at htable
    obtain rfl : q.val = t := Option.some.inj htable
    exact ⟨p, T.classes.normalize b, q, hmem, hstep, hrow, (hlength p _).symm ▸ hlong⟩

/-- Where a word leads in the table it leads in the hypothesis. -/
theorem Settled.exists_read_dfa (h : Settled f T) {w : Word} {t : Nat} (hread : T.read? 0 w = some t) :
    ∃ q : Fin T.dfa.toAutomaton.size, T.dfa.toAutomaton.read T.dfa.toAutomaton.start w = some q ∧ q.val = t := by
  have ht := h.faithful.read?_lt h.faithful.pos hread
  rw [toAutomaton_dfa h.faithful]
  refine ⟨⟨t, ht⟩, ?_, rfl⟩
  rw [read_automaton h.faithful hread]
  exact dif_pos ht

/-! ## Two words with one residual -/

/-- Two words with the same residual. -/
def zerosOrOne (w : Word) : Bool := w == [0, 0] || w == [1]

theorem zerosOrOne_eq_true_iff {w : Word} : zerosOrOne w = true ↔ w = [0, 0] ∨ w = [1] := by
  rw [zerosOrOne, Bool.or_eq_true, beq_iff_eq, beq_iff_eq]

theorem zerosOrOne_append (e : Word) : zerosOrOne ([0, 0] ++ e) = zerosOrOne ([1] ++ e) := by
  rw [Bool.eq_iff_iff, zerosOrOne_eq_true_iff, zerosOrOne_eq_true_iff]
  simp

/-- The state of an accepted word has one of the two as its label. -/
theorem label_of_zerosOrOne (h : Settled zerosOrOne T) {w : Word} (hw : T.dfa.accepts w = true) :
    ∃ q < T.size, T.read? 0 w = some q ∧ (T.label q = [0, 0] ∨ T.label q = [1]) := by
  obtain ⟨q, hq, hread⟩ := h.exists_read? w
  rw [accepts_eq_label h.faithful hread] at hw
  exact ⟨q, hq, hread, zerosOrOne_eq_true_iff.1 hw⟩

/-- The states of the two words have the same row, whatever the experiments. -/
theorem read?_one (h : Settled zerosOrOne T) {p : Nat} (hp : p < T.size) (hlabel : T.label p = [0, 0])
    (hone : T.dfa.accepts [1] = true) : T.read? 0 [1] = some p := by
  obtain ⟨q, hq, hread, hlabels⟩ := label_of_zerosOrOne h hone
  have hsame : q = p := by
    refine h.eq_of_answers hq hp fun e _ => ?_
    rw [hlabel]
    rcases hlabels with hzeros | hsingle
    · rw [hzeros]
    · rw [hsingle]
      exact (zerosOrOne_append e).symm
  rw [hread, hsame]

/-- The first word splits no class, so that its state has a label of zeros, which the second word does not change. -/
theorem session_keeps_label : Ensures zerosOrOne False (session [[0, 0], [1]]) fun T => Settled zerosOrOne T ∧
    ∃ q < T.size, T.read? 0 [1] = some q ∧ T.label q = [0, 0] := by
  unfold session
  apply (settled_start.and start_spec).bind
  intro T hT
  obtain ⟨hT, -, -, hsingle, -⟩ := hT
  show Ensures zerosOrOne False (T.learn [0, 0] >>= fun U => U.learn [1] >>= pure) _
  refine ((learn_spec hT.faithful [0, 0]).mono (by decide) fun _ hU => hU).bind fun U hU => ?_
  have hU' := hT.progress hU.faithful hU.closed hU.progress
  have hsame : U.classes = .single :=
    (hU.classes (congrArg _ (normalizeWord_replicate hT.faithful.classes 2))).trans hsingle
  obtain ⟨q, hq, -, hlabel⟩ := label_of_zerosOrOne hU' hU.learned.1
  have hzeros := hU'.faithful.label_of_single hsame hq
  have hfirst : U.label q = [0, 0] := by
    refine hlabel.resolve_right fun hone => ?_
    rw [hone] at hzeros
    cases hzeros
  rw [bind_pure]
  refine ((hU'.learn [1]).mono (by decide) fun _ hV => hV).imp fun V hV => ?_
  obtain ⟨hV, hprogress, hone⟩ := hV
  have hqV := Nat.lt_of_lt_of_le hq hprogress.size_le
  have hkept := (hprogress.label q hq).trans hfirst
  exact ⟨hV, q, hqV, read?_one hV hqV hkept hone.1, hkept⟩

/-! ## Shortest labels -/

/-- Every label leads to its state. All of them are shortest words exactly if there is no shortcut, as before the
first split of a class. -/
theorem labels_shortest_iff (h : Reached oracle T c) :
    (∀ q : Fin T.dfa.toAutomaton.size, T.dfa.toAutomaton.read T.dfa.toAutomaton.start (T.label q) = some q) ∧
    ((∀ q : Fin T.dfa.toAutomaton.size, T.dfa.toAutomaton.Shortest q (T.label q)) ↔
      ¬ ∃ p b q, Shortcut c T T.dfa.toAutomaton p b q) ∧
    (T.classes = .single → ∀ q : Fin T.dfa.toAutomaton.size, T.dfa.toAutomaton.Shortest q (T.label q)) := by
  have hsettled : ∀ f, c.Agrees f → Settled f T := fun f hf => h.settled hf
  have hfaithful := (hsettled _ c.agrees_first).faithful
  have hT := Recorded.of_settled hsettled
  have hM := Represents.of_settled hsettled
  rw [toAutomaton_dfa hfaithful]
  refine ⟨hM.leads, ?_, hM.shortest_of_single hfaithful⟩
  rw [hM.shortest_iff hfaithful, hM.exists_shortcut_iff hT hfaithful.classes]
  push Not
  rfl

/-- The second word leads to the state that was found by the first one, so the step by which it leads there is a
shortcut. -/
theorem labels_shortest_iff_zerosOrOne : ∃ T c, Reached (counting zerosOrOne) T c ∧
    (∃ q, T.dfa.toAutomaton.read T.dfa.toAutomaton.start [1] = some q ∧ T.label q = [0, 0]) ∧
    ∃ p b q, Shortcut c T T.dfa.toAutomaton p b q := by
  obtain ⟨T, c, h, hsettled, q, -, hread, hlabel⟩ := exists_reached_counting session_keeps_label
  obtain ⟨q, hleads, rfl⟩ := hsettled.exists_read_dfa hread
  refine ⟨T, c, h, ⟨q, hleads, hlabel⟩, ?_⟩
  by_contra hnone
  have hshort := (((labels_shortest_iff h).2.1.2 hnone) q).least [1] hleads
  rw [hlabel] at hshort
  exact absurd hshort (by decide)

/-- The state that was found by the first word keeps its label, though the second one leads there and is shorter. -/
theorem session_lengthens : ∃ T : Observations, (session [[0, 0], [1]]).result zerosOrOne = .ok T ∧
    ∃ (q : Fin T.dfa.toAutomaton.size) (w : Word),
      T.dfa.toAutomaton.read T.dfa.toAutomaton.start w = some q ∧ w.length < (T.label q).length := by
  obtain ⟨T, hT, hsettled, q, -, hread, hlabel⟩ := session_keeps_label.total
  obtain ⟨q, hleads, rfl⟩ := hsettled.exists_read_dfa hread
  refine ⟨T, hT, q, [1], hleads, ?_⟩
  rw [hlabel]
  decide

end Observations
end ByteAutomata
