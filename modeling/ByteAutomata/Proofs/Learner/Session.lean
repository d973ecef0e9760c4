import ByteAutomata.Proofs.Learner.Learning

/-!
# Sequences of learned words

* `Settled f T` : what holds of a table whenever no call is under way (`settled_start`,
  `Settled.learn`); `Kept f I` : a property that calls keep (`Kept.learnAll`);
* `Settled.exists_step`, `Settled.eq_of_answers` : steps and states of such a table, by the answers for labels;
* `learn_of_learned`, `generation_eq_iff` : learning a word that has been learned changes neither
  classes nor experiments, and learning any other word does;
* `session_byHighs` : a call that splits a class and adds an experiment;
* `Reached oracle T c` : the tables and caches that calls of an oracle lead to (`exists_reached_counting`);
* `learn_classifies` : behind a call the hypothesis gives the oracle's first answer for the word;
* `redirected_iff` : an earlier word stays right exactly if later calls have redirected it between
  labels with one answer; `session_forgets` : a word that does not stay right.
-/

namespace ByteAutomata.Observations

set_option autoImplicit false

open Dialogue

variable {f : Word → Bool} {T U : Observations}

/-! ## Between calls -/

/-- The table between two calls. -/
structure Settled (f : Word → Bool) (T : Observations) : Prop where
  faithful : Faithful f T
  closed : Closed T
  counted : T.generation + 2 ≤ T.classes.canonical.length + T.experiments.length
  varied : T.experiments.length ≤ variety f T

theorem settled_start : Ensures f False start (Settled f) := by
  apply start_spec.imp
  intro T hT
  obtain ⟨hT, hclosed, hclasses, hexperiments, hgeneration⟩ := hT
  refine ⟨hT, hclosed, ?_, ?_⟩
  · rw [hgeneration, hclasses, hexperiments]
    exact Nat.le_refl _
  · rw [hexperiments]
    exact variety_pos hT

theorem Settled.progress (h : Settled f T) (hU : Faithful f U) (hclosed : Closed U) (hprogress : Progress f T U) :
    Settled f U := by
  have hcounted := h.counted
  have hvaried := h.varied
  have hmore := hprogress.counted
  have hrows := hprogress.varied
  exact ⟨hU, hclosed, by omega, by omega⟩

theorem Settled.learn (h : Settled f T) (w : Word) :
    Ensures f (Huge w) (T.learn w) fun U => Settled f U ∧ Progress f T U ∧ Learned f U w :=
  (learn_spec h.faithful w).imp fun _ hU =>
    ⟨h.progress hU.faithful hU.closed hU.progress, hU.progress, hU.learned⟩

/-- What holds of settled tables, and of the tables after each call. -/
structure Kept (f : Word → Bool) (I : Observations → Prop) : Prop where
  settled : ∀ T, I T → Settled f T
  learn : ∀ T w U, I T → (T.learn w).result f = .ok U → I U

theorem kept_settled : Kept f (Settled f) where
  settled _ h := h
  learn _ w _ h hU := ((h.learn w).of_ok hU).1

theorem Kept.learnAll {I : Observations → Prop} (hI : Kept f I) (h : I T) (ws : List Word) :
    Ensures f (∃ w ∈ ws, Huge w) (T.learnAll ws) fun U => I U ∧ Progress f T U := by
  induction ws generalizing T with
  | nil => exact ensures_pure ⟨h, Progress.refl T⟩
  | cons w ws ih =>
    show Ensures f _ (T.learn w >>= fun U => U.learnAll ws) _
    have hfirst := ((hI.settled T h).learn w).keep
    apply (hfirst.mono (fun hw => ⟨w, List.mem_cons_self, hw⟩) fun _ hU => hU).bind
    intro U hU
    obtain ⟨hresult, -, hprogress, -⟩ := hU
    refine (ih (hI.learn T w U h hresult)).mono ?_ fun V hV => ⟨hV.1, hprogress.trans hV.2⟩
    intro h
    obtain ⟨v, hv, hhuge⟩ := h
    exact ⟨v, List.mem_cons_of_mem w hv, hhuge⟩

theorem Settled.learnAll (h : Settled f T) (ws : List Word) :
    Ensures f (∃ w ∈ ws, Huge w) (T.learnAll ws) fun U => Settled f U ∧ Progress f T U :=
  kept_settled.learnAll h ws

/-- The state to which a word leads. -/
theorem Settled.exists_read? (h : Settled f T) (w : Word) : ∃ q < T.size, T.read? 0 w = some q := by
  obtain ⟨q, hq⟩ := h.closed.exists_read? h.faithful h.faithful.pos w
  exact ⟨q, h.faithful.read?_lt h.faithful.pos hq, hq⟩

/-- A step by a canonical byte leads to a state whose label no experiment tells from the longer word. -/
theorem Settled.exists_step (h : Settled f T) {q : Nat} (hq : q < T.size) {b : UInt8} (hb : b ∈ T.classes.canonical) :
    ∃ t < T.size, T.step? q b = some t ∧ ∀ e ∈ T.experiments, f (T.label t ++ e) = f (T.label q ++ [b] ++ e) := by
  obtain ⟨t, ht⟩ := h.closed q hq b hb
  obtain ⟨hlt, hrow⟩ := h.faithful.steps q b t ht
  rw [h.faithful.rows t hlt] at hrow
  exact ⟨t, hlt, ht, List.map_inj_left.1 hrow⟩

/-- States whose labels no experiment tells apart are one. -/
theorem Settled.eq_of_answers (h : Settled f T) {p q : Nat} (hp : p < T.size) (hq : q < T.size)
    (hsame : ∀ e ∈ T.experiments, f (T.label p ++ e) = f (T.label q ++ e)) : p = q := by
  apply h.faithful.eq_of_row hp hq
  rw [h.faithful.rows p hp, h.faithful.rows q hq]
  exact List.map_congr_left hsame

/-- More states do not change the hypothesis once all steps are known. -/
theorem Settled.accepts_of_extends (h : Settled f T) (hU : Faithful f U) (hext : Extends T U) (w : Word) :
    U.dfa.accepts w = T.dfa.accepts w := by
  obtain ⟨q, hq, hread⟩ := h.exists_read? w
  rw [accepts_eq_label h.faithful hread, accepts_eq_label hU (hext.read? hread), hext.label q hq]

/-! ## Words learned before -/

/-- Learning a word again adds neither classes nor experiments. -/
theorem learn_of_learned (h : Settled f T) {w : Word} (hw : Learned f T w) :
    Ensures f False (T.learn w) (Extends T) := by
  obtain ⟨q, hq, hread⟩ := h.exists_read? w
  obtain ⟨haccepts, hnormal⟩ := hw
  unfold Observations.learn
  apply ensures_query_bind
  apply Ensures.bind (ensures_ok (agree_of_eq hnormal) rfl)
  rintro _ rfl
  have hread' := (read?_normalizeWord h.faithful.classes 0 w).trans hread
  have hexplain : Ensures f False (T.explain (f w) (T.classes.normalizeWord w))
      fun U => Faithful f U ∧ Extends T U := by
    unfold explain explainLoop
    apply (follow_spec h.faithful h.faithful.pos _).bind
    rintro ⟨visited, U⟩ ⟨hU, hext, -, hvisited, -⟩
    dsimp only at hU hext hvisited ⊢
    rw [hext.read? hread'] at hvisited
    rw [← Option.some.inj hvisited, if_pos]
    · exact ensures_pure ⟨hU, hext⟩
    · rw [hU.accepting_eq (Nat.lt_of_lt_of_le hq hext.size_le), hext.label q hq, ← haccepts,
        accepts_eq_label h.faithful hread]
  apply hexplain.bind
  intro U hU
  exact (close_spec hU.1).imp fun V hV => hU.2.trans hV.2.1

/-- The generation tells whether a word had been learned. -/
theorem generation_eq_iff (h : Settled f T) (w : Word) :
    Ensures f (Huge w) (T.learn w) fun U => Settled f U ∧ Progress f T U ∧ Learned f U w ∧
      (U.generation = T.generation ↔ Learned f T w) := by
  by_cases hw : Learned f T w
  · apply ((h.learn w).and (learn_of_learned h hw)).imp
    intro U hU
    exact ⟨hU.1.1, hU.1.2.1, hU.1.2.2, iff_of_true hU.2.generation hw⟩
  · apply (h.learn w).imp
    intro U hU
    obtain ⟨hU, hprogress, hlearned⟩ := hU
    refine ⟨hU, hprogress, hlearned, iff_of_false (fun heq => hw ?_) hw⟩
    have hext := hprogress.unchanged heq
    refine ⟨?_, ?_⟩
    · rw [← h.accepts_of_extends hU.faithful hext]
      exact hlearned.1
    · rw [← hext.classes]
      exact hlearned.2

/-! ## Earlier words -/

/-- The table of a new learner behind the given calls. -/
def session (ws : List Word) : Dialogue Word Observations := do (← start).learnAll ws

theorem session_spec (f : Word → Bool) (ws : List Word) :
    Ensures f (∃ w ∈ ws, Huge w) (session ws) (Settled f) :=
  ensures_total_bind settled_start fun _ hT => (hT.learnAll ws).imp fun _ hU => hU.1

/-- The last word has been learned. -/
theorem session_snoc_spec (f : Word → Bool) (ws : List Word) (w : Word) :
    Ensures f (∃ v ∈ ws ++ [w], Huge v) (session (ws ++ [w])) fun T => Settled f T ∧ Learned f T w := by
  have happend : session (ws ++ [w]) = session ws >>= fun T => T.learn w := by
    unfold session Observations.learnAll
    rw [LawfulMonad.bind_assoc]
    refine congrArg (start >>= ·) (funext fun T => ?_)
    rw [List.foldlM_append]
    refine congrArg (_ >>= ·) (funext fun U => ?_)
    rw [List.foldlM_cons]
    exact bind_pure (U.learn w)
  rw [happend]
  refine ((session_spec f ws).mono ?_ fun _ hT => hT).bind fun T hT => ?_
  · intro h
    obtain ⟨v, hv, hhuge⟩ := h
    exact ⟨v, List.mem_append_left _ hv, hhuge⟩
  · refine (hT.learn w).mono (fun hhuge => ⟨w, ?_, hhuge⟩) fun U hU => ⟨hU.1, hU.2.2⟩
    exact List.mem_append_right _ (List.mem_singleton.2 rfl)

/-- A word that was learned is classified rightly after later calls exactly if these have redirected
it between labels with one answer. While the generation stays it is not redirected. Learning it again
shows whether it was. -/
theorem redirected_iff (f : Word → Bool) (us : List Word) (w : Word) (vs : List Word) :
    Ensures f (∃ v ∈ us ++ w :: vs, Huge v)
      (do let T ← session (us ++ [w]); let U ← T.learnAll vs; return (T, U)) fun r =>
        ∃ p q, r.1.read? 0 w = some p ∧ r.2.read? 0 w = some q ∧
          (r.2.dfa.accepts w = f w ↔ f (r.2.label q) = f (r.2.label p)) ∧
          (r.2.generation = r.1.generation → q = p) ∧
          Ensures f (Huge w) (r.2.learn w) fun V => V.generation = r.2.generation ↔ Learned f r.2 w := by
  refine ((session_snoc_spec f us w).mono ?_ fun _ hT => hT).bind fun T hT => ?_
  · intro h
    obtain ⟨v, hv, hhuge⟩ := h
    refine ⟨v, ?_, hhuge⟩
    rw [List.mem_append, List.mem_singleton] at hv
    rw [List.mem_append, List.mem_cons]
    exact hv.imp_right Or.inl
  obtain ⟨hT, hlearned⟩ := hT
  refine ((hT.learnAll vs).mono ?_ fun _ hU => hU).bind fun U hU => ?_
  · intro h
    obtain ⟨v, hv, hhuge⟩ := h
    exact ⟨v, List.mem_append_right us (List.mem_cons_of_mem w hv), hhuge⟩
  obtain ⟨hU, hprogress⟩ := hU
  obtain ⟨p, hp, hreadT⟩ := hT.exists_read? w
  obtain ⟨q, hq, hreadU⟩ := hU.exists_read? w
  refine ensures_pure ⟨p, q, hreadT, hreadU, ?_, fun heq => ?_, ?_⟩
  · have hlabel : f (U.label p) = f w := by
      rw [hprogress.label p hp, ← accepts_eq_label hT.faithful hreadT]
      exact hlearned.1
    rw [accepts_eq_label hU.faithful hreadU, hlabel]
  · have hread := (hprogress.unchanged heq).read? hreadT
    rw [hreadU] at hread
    exact Option.some.inj hread
  · exact (generation_eq_iff hU w).imp fun V hV => hV.2.2.2

/-! ## A word that is forgotten -/

theorem normalizeWord_replicate {C : ByteClasses} (h : C.Wf) (n : Nat) :
    C.normalizeWord (List.replicate n 0) = List.replicate n 0 :=
  h.normalizeWord_of_subset fun b hb => by
    rw [List.eq_of_mem_replicate hb]
    exact h.zero

theorem experiments_eq_singleton (h : Faithful f T) (hall : ∀ e ∈ T.experiments, e = []) : T.experiments = [[]] := by
  obtain ⟨es, hes⟩ := h.experiments
  have hdistinct := h.distinct
  rw [hes] at hall hdistinct ⊢
  have hempty : es = [] := by
    apply List.eq_nil_iff_forall_not_mem.2
    intro e he
    have heq := hall e (List.mem_cons_of_mem _ he)
    rw [heq] at he
    exact (List.nodup_cons.1 hdistinct).1 he
  rw [hempty]

/-- Without other experiments than the empty word all labels are rejected, if a language rejects the
empty word and all single bytes. -/
theorem accepts_of_experiments_nil (h : Settled f T) (hexperiments : T.experiments = [[]]) (hnil : f [] = false)
    (hbyte : ∀ b, f [b] = false) (w : Word) : T.dfa.accepts w = false := by
  have hrow : ∀ q < T.size, T.row q = [f (T.label q)] := by
    intro q hq
    rw [h.faithful.rows q hq, hexperiments]
    show [f (T.label q ++ [])] = _
    rw [List.append_nil]
  have hlabel : ∀ q < T.size, f (T.label q) = false := by
    intro q
    induction q using Nat.strong_induction_on with
    | _ q ih =>
      intro hq
      by_cases hzero : q = 0
      · rw [hzero, h.faithful.root]
        exact hnil
      obtain ⟨p, hp, b, -, hpb⟩ := h.faithful.labels q (by omega) hq
      -- all states before have the row of the first one
      have hfirst : p = 0 := by
        apply h.faithful.eq_of_row (by omega) h.faithful.pos
        rw [hrow p (by omega), hrow 0 h.faithful.pos, ih p hp (by omega), ih 0 (by omega) h.faithful.pos]
      rw [hpb, hfirst, h.faithful.root]
      exact hbyte b
  obtain ⟨q, hq, hread⟩ := h.exists_read? w
  rw [accepts_eq_label h.faithful hread]
  exact hlabel q hq

/-- With one byte as a further experiment, words are counted modulo three instead of up to two. -/
theorem accepts_five_of_experiments (h : Settled (fun w => w.length == 2) T)
    (hexperiments : ∀ e ∈ T.experiments, e = [] ∨ e = [0]) (hone : [0] ∈ T.experiments) :
    T.dfa.accepts [0, 0, 0, 0, 0] = true := by
  have hnil : [] ∈ T.experiments := by
    obtain ⟨es, hes⟩ := h.faithful.experiments
    rw [hes]
    exact List.mem_cons_self
  have hcanonical : T.classes.normalize 0 = 0 := h.faithful.classes.normalize_of_mem h.faithful.classes.zero
  obtain ⟨a, ha, hread₁, hsame₁⟩ := h.exists_step h.faithful.pos h.faithful.classes.zero
  obtain ⟨b, hb, hread₂, hsame₂⟩ := h.exists_step ha h.faithful.classes.zero
  obtain ⟨c, hc, hread₃, hsame₃⟩ := h.exists_step hb h.faithful.classes.zero
  have hlength₁ : (T.label a).length = 1 := by
    have hlong := hsame₁ [0] hone
    rw [h.faithful.root] at hlong
    simpa using hlong
  have hlength₂ : (T.label b).length = 2 := by
    have hshort := hsame₂ [] hnil
    simpa [hlength₁] using hshort
  have hback : c = 0 := by
    refine h.eq_of_answers hc h.faithful.pos fun e he => ?_
    rw [h.faithful.root]
    have hlong := hsame₃ e he
    rcases hexperiments e he with rfl | rfl
    · simpa [hlength₂] using hlong
    · simpa [hlength₂] using hlong
  subst hback
  have hread : T.read? 0 [0, 0, 0, 0, 0] = some b := by
    simp only [read?, List.foldl_cons, List.foldl_nil, hcanonical, Option.bind_some, hread₁, hread₂, hread₃]
  rw [accepts_eq_label h.faithful hread]
  simpa using hlength₂

/-- A language of one length: the first word is classified rightly when it is learned, but no longer
after the second one. -/
theorem session_forgets : ∃ T : Observations,
    (session [[0, 0, 0, 0, 0], [0, 0]]).result (fun w => w.length == 2) = .ok T ∧
      T.dfa.accepts [0, 0, 0, 0, 0] ≠ (([0, 0, 0, 0, 0] : Word).length == 2) := by
  let f : Word → Bool := fun w => w.length == 2
  have hsmall : ∀ w : Word, w.length ≤ 5 → ¬ Huge w := by
    intro w hw hhuge
    have hle : 5 * 2 ^ doublings ≤ 5 := Nat.le_trans hhuge hw
    exact absurd hle (by decide)
  have hsession : Ensures f False (session [[0, 0, 0, 0, 0], [0, 0]]) fun T =>
      T.dfa.accepts [0, 0, 0, 0, 0] = true := by
    unfold session
    apply (settled_start.and start_spec).bind
    intro T hT
    obtain ⟨hT, -, -, -, hexperiments, -⟩ := hT
    have hlearned : Learned f T [0, 0, 0, 0, 0] := by
      refine ⟨?_, congrArg f (normalizeWord_replicate hT.faithful.classes 5)⟩
      rw [accepts_of_experiments_nil hT hexperiments rfl fun _ => rfl]
      rfl
    show Ensures f False (T.learn [0, 0, 0, 0, 0] >>= fun U => U.learn [0, 0] >>= pure) _
    refine (((hT.learn _).and (learn_of_learned hT hlearned)).mono (hsmall _ (by decide)) fun _ hU => hU).bind
      fun U hU => ?_
    obtain ⟨⟨hU, -, -⟩, hext⟩ := hU
    rw [bind_pure]
    refine (((hU.learn [0, 0]).and (learn_spec hU.faithful [0, 0])).mono (hsmall _ (by decide)) fun _ hV => hV).imp
      fun V hV => ?_
    obtain ⟨⟨hV, -, -⟩, hlearns⟩ := hV
    have hsuffixes : ∀ e ∈ V.experiments, e = [] ∨ e = [0] := by
      intro e he
      rcases hlearns.experiments e he with he | ⟨n, hn, rfl⟩
      · rw [hext.experiments, hexperiments] at he
        exact Or.inl (List.mem_singleton.1 he)
      · have hdrop := normalizeWord_replicate hV.faithful.classes 2
        change V.classes.normalizeWord [0, 0] = [0, 0] at hdrop
        rw [hdrop]
        have hn : n = 0 ∨ n = 1 := by
          change n < 2 at hn
          omega
        rcases hn with rfl | rfl
        · exact Or.inr rfl
        · exact Or.inl rfl
    apply accepts_five_of_experiments hV hsuffixes
    by_contra hnot
    have hnil : V.experiments = [[]] := experiments_eq_singleton hV.faithful fun e he =>
      (hsuffixes e he).resolve_right fun heq => hnot (heq ▸ he)
    have haccepts := hlearns.learned.1
    rw [accepts_of_experiments_nil hV hnil rfl fun _ => rfl] at haccepts
    cases haccepts
  obtain ⟨T, hT, haccepts⟩ := hsession.total
  exact ⟨T, hT, by rw [haccepts]; decide⟩

/-! ## A call that splits a class and adds an experiment -/

/-- How many bytes of a word are 100 or more. -/
def highs (w : Word) : Nat := w.countP fun b => 100 ≤ b

/-- The words of which the number of such bytes is not one modulo three. -/
def byHighs (w : Word) : Bool := highs w % 3 != 1

theorem highs_append (u v : Word) : highs (u ++ v) = highs u + highs v := List.countP_append

theorem byHighs_eq_false_iff {w : Word} : byHighs w = false ↔ highs w % 3 = 1 := bne_eq_false_iff_eq

/-- The empty word as the only experiment does not tell no high byte from two, so the hypothesis goes back and forth
between two states. -/
theorem accepts_of_byHighs (h : Settled byHighs T) (hexperiments : T.experiments = [[]])
    (hhigh : 100 ≤ T.classes.normalize 200) : T.dfa.accepts [200, 200, 200, 200] = true := by
  have hcanonical := h.faithful.classes.normalize_mem 200
  have hmore : ∀ u, highs (u ++ [T.classes.normalize 200]) = highs u + 1 := by
    intro u
    rw [highs_append, highs, highs, List.countP_singleton, if_pos (decide_eq_true hhigh)]
  have hnil : [] ∈ T.experiments := by
    rw [hexperiments]
    exact List.mem_singleton.2 rfl
  obtain ⟨p, hp, hstep, hsame⟩ := h.exists_step h.faithful.pos hcanonical
  obtain ⟨q, hq, hstep', hsame'⟩ := h.exists_step hp hcanonical
  have hone : highs (T.label p) % 3 = 1 := by
    have hshort := hsame [] hnil
    rw [List.append_nil, List.append_nil, h.faithful.root] at hshort
    rw [← byHighs_eq_false_iff, hshort, byHighs_eq_false_iff, hmore]
    rfl
  have hback : q = 0 := by
    refine h.eq_of_answers hq h.faithful.pos fun e he => ?_
    have hnone : byHighs [] = true := rfl
    rw [hsame' e he]
    rw [hexperiments, List.mem_singleton] at he
    rw [he, List.append_nil, List.append_nil, h.faithful.root, hnone, byHighs, hmore, bne_iff_ne]
    omega
  subst hback
  have hread : T.read? 0 [200, 200, 200, 200] = some 0 := by
    simp only [read?, List.foldl_cons, List.foldl_nil, Option.bind_some, hstep, hstep']
  rw [accepts_eq_label h.faithful hread, h.faithful.root]
  rfl

/-- To learn four high bytes splits a class, as their normal form has none, and adds an experiment, as otherwise they
would be accepted. -/
theorem session_byHighs : Ensures byHighs False (session [[200, 200, 200, 200]]) fun T =>
    1 < T.classes.canonical.length ∧ 1 < T.experiments.length := by
  unfold session
  apply (settled_start.and start_spec).bind
  intro T hT
  obtain ⟨hT, -, -, hsingle, -⟩ := hT
  show Ensures byHighs False (T.learn [200, 200, 200, 200] >>= pure) _
  rw [bind_pure]
  refine ((learn_spec hT.faithful _).mono (by decide) fun _ hU => hU).imp fun U hU => ⟨?_, ?_⟩
  · by_contra hle
    have hkept := hU.classes_eq_iff.1 ((hU.faithful.classes.eq_single (by omega)).trans hsingle.symm)
    rw [hsingle] at hkept
    exact absurd hkept (by decide)
  · by_contra hle
    obtain ⟨haccepts, hnormal⟩ := hU.learned
    have hexperiments : U.experiments = [[]] := by
      obtain ⟨es, hes⟩ := hU.faithful.experiments
      rw [hes, List.length_cons] at hle
      have hnone : es = [] := List.eq_nil_of_length_eq_zero (by omega)
      rw [hes, hnone]
    -- the canonical byte is high too, as the normal form has the answer of the word
    have hhigh : 100 ≤ U.classes.normalize 200 := by
      by_contra hlow
      have hnone : byHighs (List.replicate 4 (U.classes.normalize 200)) = true := by
        rw [byHighs, highs, List.countP_replicate, if_neg (by simpa using hlow)]
        rfl
      have hnot : byHighs (List.replicate 4 (U.classes.normalize 200)) = false := hnormal
      rw [hnone] at hnot
      cases hnot
    have hsettled := hT.progress hU.faithful hU.closed hU.progress
    rw [accepts_of_byHighs hsettled hexperiments hhigh] at haccepts
    cases haccepts

/-! ## Oracles with a state -/

/-- A table and a cache that calls lead to, from a new learner on. -/
inductive Reached {σ : Type} (oracle : Oracle σ) : Observations → Cache σ → Prop
  | start {s : σ} {T : Observations} {c : Cache σ} (h : oracle.hold start (Cache.empty s) = (.ok T, c)) :
    Reached oracle T c
  | learn {T U : Observations} {c d : Cache σ} {w : Word} (reached : Reached oracle T c)
    (h : oracle.hold (T.learn w) c = (.ok U, d)) : Reached oracle U d

section Oracle

variable {σ : Type} {oracle : Oracle σ} {c d : Cache σ}

/-- The table is settled for all functions that give the answers remembered so far. -/
theorem Reached.settled (h : Reached oracle T c) {f : Word → Bool} (hf : c.Agrees f) : Settled f T := by
  induction h with
  | start h => exact settled_start.of_ok (Oracle.result_of_hold h hf).2
  | learn _ h ih =>
    obtain ⟨hc, hresult⟩ := Oracle.result_of_hold h hf
    exact (((ih hc).learn _).of_ok hresult).1

theorem exists_start (oracle : Oracle σ) (s : σ) : ∃ T c, oracle.hold start (Cache.empty s) = (.ok T, c) := by
  rcases Oracle.hold_spec (c := Cache.empty s) fun f _ => settled_start (f := f) with ⟨T, c, h, -⟩ | ⟨-, hnever⟩
  · exact ⟨T, c, h⟩
  · exact hnever.elim

theorem Reached.of_learnAll (h : Reached oracle T c) {ws : List Word}
    (hU : oracle.hold (T.learnAll ws) c = (.ok U, d)) : Reached oracle U d := by
  induction ws generalizing T c with
  | nil =>
    cases hU
    exact h
  | cons w ws ih =>
    obtain ⟨V, e, hV, hrest⟩ := Oracle.hold_bind_eq_ok (d := T.learn w) (k := fun V => V.learnAll ws) hU
    exact ih (h.learn hV) hrest

theorem Reached.of_session {s : σ} {ws : List Word}
    (hT : oracle.hold (session ws) (Cache.empty s) = (.ok T, c)) : Reached oracle T c := by
  obtain ⟨U, e, hU, hrest⟩ := Oracle.hold_bind_eq_ok hT
  exact (Reached.start hU).of_learnAll hrest

/-- An oracle that counts its calls. -/
def counting (f : Word → Bool) : Oracle Nat := fun w n => (f w, n + 1)

/-- Where calls that are answered by a function lead, its oracle gets as well. -/
theorem exists_reached_counting {ws : List Word} {post : Observations → Prop} (h : Ensures f False (session ws) post) :
    ∃ T c, Reached (counting f) T c ∧ post T := by
  obtain ⟨T, hT, hpost⟩ := h.total
  have hanswers : ∀ w n, (counting f w n).1 = f w := fun _ _ => rfl
  have hc := Oracle.agrees_hold hanswers (session ws) (Cache.agrees_empty 0 f)
  have hresult := (counting f).result_eq_hold (session ws) hc
  rw [hT] at hresult
  exact ⟨T, _, .of_session (Prod.ext hresult.symm rfl), hpost⟩

/-- A call ends, unless it doubles past 64 bits. -/
theorem Reached.learn_ends (h : Reached oracle T c) (w : Word) :
    (∃ U d, oracle.hold (T.learn w) c = (.ok U, d)) ∨
      ((oracle.hold (T.learn w) c).1 = .error .overflow ∧ Huge w) := by
  rcases Oracle.hold_spec fun f hf => (h.settled hf).learn w with ⟨U, d, hU, -⟩ | hoverflow
  · exact Or.inl ⟨U, d, hU⟩
  · exact Or.inr hoverflow

/-- What a call makes of the table, for all functions that give the answers remembered in the end. -/
theorem Reached.learns {w : Word} (h : Reached oracle T c) (hU : oracle.hold (T.learn w) c = (.ok U, d))
    {f : Word → Bool} (hf : d.Agrees f) :
    Settled f T ∧ (T.learn w).result f = .ok U ∧ Learns f T w U := by
  obtain ⟨hc, hresult⟩ := Oracle.result_of_hold hU hf
  have hT := h.settled hc
  exact ⟨hT, hresult, (learn_spec hT.faithful w).of_ok hresult⟩

/-- Behind a call the hypothesis classifies the word as the oracle did, and so did the oracle its
normal form. Only words that no memory holds could make the call fail. -/
theorem learn_classifies (h : Reached oracle T c) (w : Word) :
    (∃ U d a, oracle.hold (T.learn w) c = (.ok U, d) ∧ d.cached w = some a ∧ U.dfa.accepts w = a ∧
      d.cached (U.classes.normalizeWord w) = some a) ∨
    ((oracle.hold (T.learn w) c).1 = .error .overflow ∧ 5 * 2 ^ 61 ≤ w.length) := by
  have hall : ∀ f, (oracle.hold (T.learn w) c).2.Agrees f →
      (T.learn w).result f = (oracle.hold (T.learn w) c).1 ∧
        Ensures f (Huge w) (T.learn w) fun U => Settled f U ∧ Progress f T U ∧ Learned f U w := by
    intro f hf
    exact ⟨oracle.result_eq_hold _ hf, (h.settled (oracle.agrees_of_agrees_hold _ hf)).learn w⟩
  obtain ⟨hresult, hlearn⟩ := hall _ (Cache.agrees_first _)
  rcases hlearn with ⟨U, hU, -⟩ | ⟨hU, hhuge⟩
  · rw [hU] at hresult
    have hlearned : ∀ f, (oracle.hold (T.learn w) c).2.Agrees f → Learned f U w := by
      intro f hf
      obtain ⟨hresult', hlearn⟩ := hall f hf
      exact (hlearn.of_ok (hresult'.trans hresult.symm)).2.2
    refine Or.inl ⟨U, _, U.dfa.accepts w, Prod.ext hresult.symm rfl, ?_, rfl, ?_⟩
    · exact Cache.cached_of_agrees fun f hf => (hlearned f hf).1.symm
    · apply Cache.cached_of_agrees
      intro f hf
      rw [(hlearned f hf).2, (hlearned f hf).1]
  · rw [hU] at hresult
    exact Or.inr ⟨hresult.symm, hhuge⟩

/-- A further word, behind a call that has split a class and added an experiment. -/
theorem learn_classifies_byHighs : ∃ T c, Reached (counting byHighs) T c ∧ 1 < T.classes.canonical.length ∧
    1 < T.experiments.length ∧ ∃ U d a, (counting byHighs).hold (T.learn [7, 150, 250]) c = (.ok U, d) ∧
      d.cached [7, 150, 250] = some a ∧ U.dfa.accepts [7, 150, 250] = a ∧
      d.cached (U.classes.normalizeWord [7, 150, 250]) = some a := by
  obtain ⟨T, c, h, hclasses, hexperiments⟩ := exists_reached_counting session_byHighs
  refine ⟨T, c, h, hclasses, hexperiments, ?_⟩
  rcases learn_classifies h [7, 150, 250] with hlearned | ⟨-, hlong⟩
  · exact hlearned
  · exact absurd hlong (by decide)

end Oracle

end ByteAutomata.Observations
