import ByteAutomata.Proofs.Learner.Convergence
import ByteAutomata.Proofs.WordOrder

/-!
# Learning until nothing changes

* `Closed.closeState`, `Closed.close`, `Closed.follow`, `Closed.explain` : where all steps are known nothing
  is asked to find them, and the table stays as it is;
* `Settled.learn_yields` : learning a word that has been learned asks about the word and its normal form only;
* `Stable f T seeds sample` : the seeds and the first words of the hypothesis have been learned. A pass that
  raises no generation was made with a stable table (`Settled.pass_unchanged`), so learning until nothing changes
  leads to one (`stabilize_leads`), and from there on asks nothing new (`Stable.stabilize_yields`);
* `Reached.stable`, `stabilize_stable` : the same for oracles with a state.
-/

namespace ByteAutomata.Observations

set_option autoImplicit false

open Dialogue

variable {f : Word → Bool} {T U : Observations} {w : Word}

/-! ## Closed tables -/

theorem Closed.closeState (h : Closed T) {q : Nat} (hq : q < T.size) : T.closeState q = pure T := by
  have hsteps : ∀ bs, bs ⊆ T.classes.canonical →
      bs.foldlM (fun T b => Prod.snd <$> T.successor q b) T = (pure T : Dialogue Word Observations) := by
    intro bs hbs
    induction bs with
    | nil => rfl
    | cons b bs ih =>
      obtain ⟨t, ht⟩ := h q hq b (hbs List.mem_cons_self)
      rw [List.foldlM_cons, successor_of_step? ht, map_pure, pure_bind]
      exact ih fun c hc => hbs (List.mem_cons_of_mem b hc)
  exact hsteps _ (List.Subset.refl _)

theorem Closed.closeFrom (h : Closed T) {fuel q : Nat} (hle : q ≤ T.size) (hfuel : T.size < fuel + q) :
    closeFrom fuel q T = pure T := by
  induction fuel generalizing q with
  | zero => omega
  | succ fuel ih =>
    unfold Observations.closeFrom
    by_cases hq : q < T.size
    · rw [if_pos hq, h.closeState hq, pure_bind]
      exact ih hq (by omega)
    · rw [if_neg hq]

theorem Closed.close (h : Closed T) (hT : Faithful f T) : T.close = pure T := by
  refine h.closeFrom (Nat.zero_le _) ?_
  have hsize := hT.size_le_two_pow
  change T.size < 2 ^ T.experiments.length + 1 + 0
  omega

theorem Closed.follow (h : Closed T) (hT : Faithful f T) {q : Nat} (hq : q < T.size) (w : Word) :
    ∃ visited, T.follow q w = pure (visited, T) ∧ T.read? q w = some (visited.headD q) := by
  induction w using List.reverseRecOn with
  | nil => exact ⟨[q], rfl, rfl⟩
  | append_singleton w b ih =>
    obtain ⟨visited, hfollow, hread⟩ := ih
    obtain ⟨t, ht⟩ := h _ (hT.read?_lt hq hread) _ (hT.classes.normalize_mem b)
    refine ⟨t :: visited, ?_, ?_⟩
    · unfold Observations.follow at hfollow ⊢
      rw [List.foldlM_append, hfollow, pure_bind, List.foldlM_cons]
      dsimp only
      rw [successor_of_step? ht]
      rfl
    · rw [read?_snoc, hread]
      exact ht

/-- A word that is classified rightly needs no explanation. -/
theorem Closed.explain (h : Closed T) (hT : Faithful f T) {expected : Bool} (hw : T.dfa.accepts w = expected) :
    T.explain expected w = pure T := by
  obtain ⟨visited, hfollow, hread⟩ := h.follow hT hT.pos w
  rw [accepts_of_read? hT hread] at hw
  unfold Observations.explain explainLoop
  rw [hfollow, pure_bind]
  exact if_pos hw

theorem accepts_normalizeWord (h : Settled f T) (w : Word) :
    T.dfa.accepts (T.classes.normalizeWord w) = T.dfa.accepts w := by
  obtain ⟨q, -, hread⟩ := h.exists_read? w
  have hnormal := (read?_normalizeWord h.faithful.classes 0 w).trans hread
  rw [accepts_of_read? h.faithful hread, accepts_of_read? h.faithful hnormal]

/-! ## Words that have been learned -/

section Yields

variable {P : Word → Prop}

theorem Settled.learn_yields (h : Settled f T) (hw : Learned f T w) (hP : P w)
    (hnormal : P (T.classes.normalizeWord w)) : Yields f P (T.learn w) T := by
  obtain ⟨haccepts, hanswer⟩ := hw
  have hagree : Yields f P (T.agree (f w) w) (T.classes.normalizeWord w, T) := by
    unfold agree agreeLoop
    apply yields_query_bind hnormal
    rw [if_pos hanswer]
    exact yields_pure _
  unfold Observations.learn
  apply yields_query_bind hP
  apply hagree.bind
  dsimp only
  have hexplain := h.closed.explain h.faithful ((accepts_normalizeWord h w).trans haccepts)
  rw [hexplain, pure_bind, h.closed.close h.faithful]
  exact yields_pure T

theorem Settled.learnAll_yields (h : Settled f T) {ws : List Word} (hws : ∀ w ∈ ws, Learned f T w)
    (hP : ∀ w ∈ ws, P w ∧ P (T.classes.normalizeWord w)) : Yields f P (T.learnAll ws) T := by
  induction ws with
  | nil => exact yields_pure T
  | cons w ws ih =>
    obtain ⟨hw, hnormal⟩ := hP w List.mem_cons_self
    refine (h.learn_yields (hws w List.mem_cons_self) hw hnormal).bind ?_
    exact ih (fun v hv => hws v (List.mem_cons_of_mem w hv)) fun v hv => hP v (List.mem_cons_of_mem w hv)

end Yields

/-- While the generation stays, all words had been learned and the table stays as it is. -/
theorem Settled.learnAll_unchanged (h : Settled f T) {ws : List Word} (hU : (T.learnAll ws).result f = .ok U)
    (hsame : U.generation = T.generation) : U = T ∧ ∀ w ∈ ws, Learned f T w := by
  induction ws with
  | nil =>
    cases hU
    exact ⟨rfl, fun _ hw => nomatch hw⟩
  | cons w ws ih =>
    obtain ⟨V, hV, hrest⟩ := result_bind_eq_ok (d := T.learn w) (k := fun V => V.learnAll ws) hU
    obtain ⟨hsettled, hprogress, -, hiff⟩ := (generation_eq_iff h w).of_ok hV
    have hmore := ((hsettled.learnAll ws).of_ok hrest).2.generation_le
    have hle := hprogress.generation_le
    have hw : Learned f T w := hiff.1 (by omega)
    -- the first word leaves the table alone, so the others meet the same table
    have hVT := (h.learn_yields (P := fun _ => True) hw trivial trivial).result
    rw [hV] at hVT
    cases hVT
    obtain ⟨hUT, hws⟩ := ih hrest
    exact ⟨hUT, List.forall_mem_cons.2 ⟨hw, hws⟩⟩

/-! ## Stable tables -/

/-- The seeds and the first words of the hypothesis have been learned. -/
structure Stable (f : Word → Bool) (T : Observations) (seeds : List Word) (sample : Nat) : Prop where
  settled : Settled f T
  seeds : ∀ w ∈ seeds, Learned f T w
  own : ∀ own, T.dfa.words sample = .ok own → ∀ w ∈ own, Learned f T w

section Stable

variable {seeds : List Word} {sample : Nat}

/-- A pass that raises no generation was made with a stable table. -/
theorem Settled.pass_unchanged (h : Settled f T) (hU : (T.pass seeds sample).result f = .ok U)
    (hsame : U.generation = T.generation) : U = T ∧ Stable f T seeds sample := by
  obtain ⟨V, hV, hrest⟩ := result_bind_eq_ok hU
  obtain ⟨hsettled, hprogress⟩ := (h.learnAll seeds).of_ok hV
  obtain ⟨own, hown, -⟩ := V.dfa.words_first sample
  rw [hown] at hrest
  have hmore := ((hsettled.learnAll own).of_ok hrest).2.generation_le
  have hle := hprogress.generation_le
  obtain ⟨rfl, hseeds⟩ := h.learnAll_unchanged hV (by omega)
  obtain ⟨rfl, hwords⟩ := h.learnAll_unchanged hrest hsame
  refine ⟨rfl, h, hseeds, fun own' hown' => ?_⟩
  rw [hown] at hown'
  cases hown'
  exact hwords

/-- Learning until nothing changes leads to a stable table. -/
theorem stabilize_leads {rounds : Nat} (h : Settled f T) (hU : (stabilize seeds sample rounds T).result f = .ok U) :
    Stable f U seeds sample := by
  induction rounds generalizing T with
  | zero => cases hU
  | succ rounds ih =>
    obtain ⟨next, hnext, hrest⟩ := result_bind_eq_ok hU
    by_cases hsame : next.generation = T.generation
    · rw [if_pos hsame] at hrest
      cases hrest
      obtain ⟨rfl, hstable⟩ := h.pass_unchanged hnext hsame
      exact hstable
    · rw [if_neg hsame] at hrest
      exact ih ((kept_settled.pass h seeds sample).of_ok hnext).1 hrest

/-- The words that learning a stable table again asks about. -/
def Asked (T : Observations) (seeds : List Word) (sample : Nat) (w : Word) : Prop :=
  ∃ v, (v ∈ seeds ∨ ∃ own, T.dfa.words sample = .ok own ∧ v ∈ own) ∧ (w = v ∨ w = T.classes.normalizeWord v)

/-- From a stable table one more pass is made, which changes nothing. -/
theorem Stable.stabilize_yields (h : Stable f T seeds sample) {rounds : Nat} (hpos : 0 < rounds) :
    Yields f (Asked T seeds sample) (stabilize seeds sample rounds T) T := by
  obtain ⟨own, hown, -⟩ := T.dfa.words_first sample
  have hpass : Yields f (Asked T seeds sample) (T.pass seeds sample) T := by
    unfold pass
    apply (h.settled.learnAll_yields h.seeds _).bind
    · rw [hown]
      refine h.settled.learnAll_yields (h.own own hown) fun w hw => ?_
      exact ⟨⟨w, Or.inr ⟨own, hown, hw⟩, Or.inl rfl⟩, ⟨w, Or.inr ⟨own, hown, hw⟩, Or.inr rfl⟩⟩
    · exact fun w hw => ⟨⟨w, Or.inl hw, Or.inl rfl⟩, ⟨w, Or.inl hw, Or.inr rfl⟩⟩
  obtain ⟨rounds, rfl⟩ := Nat.exists_eq_add_one.2 hpos
  unfold stabilize
  apply hpass.bind
  rw [if_pos rfl]
  exact yields_pure T

theorem Stable.learned_of_asked (h : Stable f T seeds sample) (hw : Asked T seeds sample w) :
    f w = T.dfa.accepts w := by
  obtain ⟨v, hv, hwv⟩ := hw
  have hlearned : Learned f T v := by
    rcases hv with hv | ⟨own, hown, hv⟩
    · exact h.seeds v hv
    · exact h.own own hown v hv
  rcases hwv with rfl | rfl
  · exact hlearned.1.symm
  · rw [accepts_normalizeWord h.settled, hlearned.1]
    exact hlearned.2

end Stable

/-! ## Oracles with a state -/

section Oracle

variable {σ : Type} {oracle : Oracle σ} {c d : Cache σ} {seeds : List Word} {sample rounds : Nat}

/-- Learning until nothing changes is a sequence of calls. -/
theorem Reached.of_stabilize (h : Reached oracle T c)
    (hU : oracle.hold (stabilize seeds sample rounds T) c = (.ok U, d)) : Reached oracle U d := by
  induction rounds generalizing T c with
  | zero => cases hU
  | succ rounds ih =>
    obtain ⟨next, e, hnext, hrest⟩ := Oracle.hold_bind_eq_ok hU
    obtain ⟨V, e', hV, hown⟩ := Oracle.hold_bind_eq_ok hnext
    have hreached : Reached oracle next e := by
      cases hwords : V.dfa.words sample with
      | error fault =>
        rw [hwords] at hown
        cases hown
      | ok own =>
        rw [hwords] at hown
        exact (h.of_learnAll hV).of_learnAll hown
    by_cases hsame : next.generation = T.generation
    · rw [if_pos hsame] at hrest
      cases hrest
      exact hreached
    · rw [if_neg hsame] at hrest
      exact ih hreached hrest

/-- The table is stable for all functions that give the answers remembered so far. -/
theorem Reached.stable (h : Reached oracle T c) (hU : oracle.hold (stabilize seeds sample rounds T) c = (.ok U, d))
    (hf : d.Agrees f) : Stable f U seeds sample := by
  obtain ⟨hc, hresult⟩ := Oracle.result_of_hold hU hf
  exact stabilize_leads (h.settled hc) hresult

/-- What a stable table rests on has been asked about. -/
theorem Reached.cached_of_asked (h : Reached oracle T c)
    (hU : oracle.hold (stabilize seeds sample rounds T) c = (.ok U, d)) (hw : Asked U seeds sample w) :
    d.cached w = some (U.dfa.accepts w) :=
  Cache.cached_of_agrees fun _ hf => (h.stable hU hf).learned_of_asked hw

/-- Learning until nothing changes has asked about the seeds and the first words of the hypothesis, and classifies
these as they were answered. To learn again changes nothing and asks nothing. -/
theorem stabilize_stable (h : Reached oracle T c)
    (hU : oracle.hold (stabilize seeds sample rounds T) c = (.ok U, d)) :
    (∀ w ∈ seeds, d.cached w = some (U.dfa.accepts w)) ∧
      (∃ own, U.dfa.words sample = .ok own ∧ First (fun w => U.dfa.accepts w) sample own ∧
        ∀ w ∈ own, d.cached w = some true) ∧
      Reached oracle U d ∧ ∀ more, 0 < more → oracle.hold (stabilize seeds sample more U) d = (.ok U, d) := by
  obtain ⟨own, hown, hfirst⟩ := U.dfa.words_first sample
  refine ⟨fun w hw => h.cached_of_asked hU ⟨w, Or.inl hw, Or.inl rfl⟩, ⟨own, hown, hfirst, fun w hw => ?_⟩,
    h.of_stabilize hU, fun more hmore => ?_⟩
  · rw [h.cached_of_asked hU ⟨w, Or.inr ⟨own, hown, hw⟩, Or.inl rfl⟩, hfirst.kind w hw]
  · have hstable := h.stable hU d.agrees_first
    obtain ⟨hresult, hasked⟩ := hstable.stabilize_yields hmore
    refine Oracle.hold_of_yields ⟨hresult, fun w hw => ?_⟩
    rw [h.cached_of_asked hU (hasked w hw), hstable.learned_of_asked (hasked w hw)]

/-! ### A language of three residuals -/

/-- An oracle that answers as `f` does makes the calls of `f`. -/
theorem Reached.calls (h : Reached oracle T c) (hf : ∀ w s, (oracle w s).1 = f w) : c.Agrees f ∧ Calls f T := by
  induction h with
  | @start s T c h =>
    have hc := Oracle.agrees_hold hf Observations.start (Cache.agrees_empty s f)
    rw [h] at hc
    exact ⟨hc, .start (Oracle.result_of_hold h hc).2⟩
  | @learn T U c d w _ h ih =>
    have hd := Oracle.agrees_hold hf (T.learn w) ih.1
    rw [h] at hd
    exact ⟨hd, .learn ih.2 (Oracle.result_of_hold h hd).2⟩

/-- If the empty word belongs to a language then it is the only one that its hypotheses list first. -/
theorem not_huge_of_listed (hnil : f [] = true) (hw : Listed (Calls f) 1 w) : ¬ Huge w := by
  obtain ⟨U, own, hU, hown, hw⟩ := hw
  have haccepts : U.dfa.accepts [] = true := by
    rw [accepts_eq_label hU.settled.faithful (t := 0) rfl, hU.settled.faithful.root]
    exact hnil
  rw [(Dfa.first_of_words hown).unique (first_of_nil haccepts), List.mem_singleton] at hw
  subst hw
  decide

/-- A regular language that contains the empty word is learned from its first word and from seeds. -/
theorem Reached.exists_stabilize {N : Nat} (h : Reached oracle T c) (hf : ∀ w s, (oracle w s).1 = f w)
    (hN : (Set.range (residual f)).encard = N) (hnil : f [] = true) (hseeds : ∀ w ∈ seeds, ¬ Huge w)
    (hrounds : N + 255 ≤ rounds) : ∃ U d, oracle.hold (stabilize seeds 1 rounds T) c = (.ok U, d) := by
  obtain ⟨hc, hcalls⟩ := h.calls hf
  have hresult := oracle.result_eq_hold _ (Oracle.agrees_hold hf (stabilize seeds 1 rounds T) hc)
  rcases stabilize_spec hN seeds 1 hcalls (show N + 255 ≤ rounds + T.generation by omega) with
    ⟨U, hU, -⟩ | ⟨-, w, hw, hwhere⟩
  · rw [hU] at hresult
    exact ⟨U, _, Prod.ext hresult.symm rfl⟩
  · exact (hwhere.elim (fun hmem => hseeds w hmem hw) fun hlisted => not_huge_of_listed hnil hlisted hw).elim

/-- A further word, behind a call that has split a class and added an experiment. -/
theorem stabilize_stable_byHighs : ∃ T c U d, Reached (counting byHighs) T c ∧ 1 < T.classes.canonical.length ∧
    1 < T.experiments.length ∧ (counting byHighs).hold (stabilize [[7, 150, 250]] 1 258 T) c = (.ok U, d) ∧
      (∀ w ∈ [[7, 150, 250]], d.cached w = some (U.dfa.accepts w)) ∧
      (∃ own, U.dfa.words 1 = .ok own ∧ First (fun w => U.dfa.accepts w) 1 own ∧ ∀ w ∈ own, d.cached w = some true) ∧
      Reached (counting byHighs) U d ∧
      ∀ more, 0 < more → (counting byHighs).hold (stabilize [[7, 150, 250]] 1 more U) d = (.ok U, d) := by
  obtain ⟨T, c, h, hclasses, hexperiments⟩ := exists_reached_counting session_byHighs
  have hseeds : ∀ w ∈ ([[7, 150, 250]] : List Word), ¬ Huge w := by
    intro w hw
    rw [List.mem_singleton.1 hw]
    exact (by decide : ¬ 5 * 2 ^ 61 ≤ ([7, 150, 250] : Word).length)
  obtain ⟨U, d, hU⟩ := h.exists_stabilize (f := byHighs) (fun _ _ => rfl) encard_residual_byHighs rfl hseeds
    (Nat.le_refl 258)
  exact ⟨T, c, U, d, h, hclasses, hexperiments, hU, stabilize_stable h hU⟩

end Oracle

end ByteAutomata.Observations
