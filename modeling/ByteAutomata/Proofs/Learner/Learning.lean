import ByteAutomata.Proofs.Learner.Progress

/-!
# Learning a word

* `splitBytes_spec` : either no class is split, and then normalising keeps the answer, or there are
  more classes than before;
* `agreeRound`, `Splitting`, `splitting_spec`, `agree_spec` : classes are split until a word and its normal form have
  the same answer, one in each round at least;
* `breakpoint_spec`, `explainRound`, `Explaining`, `explain_spec` : experiments are added until the hypothesis is
  right about a word in normal form. Each of them is a suffix of the word that was no experiment before;
* `Learns`, `learn_spec` : afterwards the hypothesis is right about the word, and its normal form has the
  same answer. `Course` is the course of the rounds; `Learns.classes_eq_iff` tells whether classes are split.
-/

namespace ByteAutomata.Observations

set_option autoImplicit false

open Dialogue

variable {f : Word → Bool} {T U : Observations} {w : Word}

/-! ## Byte classes -/

theorem replaceByte_self (w : Word) (a : UInt8) : w.replaceByte a a = w := by
  unfold Word.replaceByte
  have hid : (fun c : UInt8 => if c = a then a else c) = id := by
    funext c
    by_cases h : c = a
    · rw [if_pos h, h]
      rfl
    · rw [if_neg h]
      rfl
  rw [hid, List.map_id]

/-- Replacing one byte, and then others, replaces them all, since canonical bytes stay. -/
theorem map_replaceByte {C : ByteClasses} (hC : C.Wf) (w : Word) (a : UInt8) (bs : List UInt8) :
    (w.replaceByte a (C.normalize a)).map (fun c => if c ∈ bs then C.normalize c else c) =
      w.map fun c => if c ∈ a :: bs then C.normalize c else c := by
  unfold Word.replaceByte
  rw [List.map_map]
  apply List.map_congr_left
  intro c _
  rw [Function.comp_apply]
  by_cases hca : c = a
  · have hmem : c ∈ a :: bs := List.mem_cons.2 (Or.inl hca)
    rw [if_pos hca, if_pos hmem, hC.normalize_normalize, ite_self, hca]
  · rw [if_neg hca]
    by_cases hbs : c ∈ bs
    · rw [if_pos hbs, if_pos (List.mem_cons_of_mem a hbs)]
    · rw [if_neg hbs, if_neg fun h => (List.mem_cons.1 h).elim hca hbs]

/-- If no class is split then the given bytes can be normalised without changing the answer. -/
theorem splitBytes_spec {C : ByteClasses} (hC : C.Wf) (w : Word) (bs : List UInt8) :
    Ensures f False (splitBytes w C bs) fun r => r.2.Wf ∧ C.canonical ⊆ r.2.canonical ∧
      ((r.1 = false ∧ r.2 = C ∧ f (w.map fun c => if c ∈ bs then C.normalize c else c) = f w) ∨
        (r.1 = true ∧ C.canonical.length < r.2.canonical.length)) := by
  induction bs generalizing w C with
  | nil =>
    refine ensures_pure ⟨hC, List.Subset.refl _, Or.inl ⟨rfl, rfl, ?_⟩⟩
    have hid : (fun c : UInt8 => if c ∈ [] then C.normalize c else c) = id := by
      funext c
      exact if_neg List.not_mem_nil
    rw [hid, List.map_id]
  | cons a bs ih =>
    unfold splitBytes
    have htest := (ByteClasses.distinguish_refines hC (fun x => f (w.replaceByte a x)) a).relay
      fun x => result_query f (w.replaceByte a x)
    apply htest.bind
    rintro ⟨split, D⟩ ⟨hD, hsub, hanswer, hcases⟩
    rw [replaceByte_self] at hanswer
    apply (ih hD _).bind
    rintro ⟨more, E⟩ ⟨hE, hsub', hrest⟩
    refine ensures_pure ⟨hE, fun c hc => hsub' (hsub hc), ?_⟩
    dsimp only at hcases hrest ⊢
    rcases hcases with ⟨rfl, rfl⟩ | ⟨rfl, hlength⟩
    · rcases hrest with ⟨rfl, rfl, hmap⟩ | ⟨rfl, hlength⟩
      · refine Or.inl ⟨rfl, rfl, ?_⟩
        rw [← map_replaceByte hC]
        exact hmap.trans hanswer
      · exact Or.inr ⟨rfl, hlength⟩
    · refine Or.inr ⟨rfl, ?_⟩
      rcases hrest with ⟨-, rfl, -⟩ | ⟨-, hmore⟩
      · omega
      · omega

theorem mem_bytesOf {b : UInt8} : b ∈ bytesOf w ↔ b ∈ w := by
  unfold bytesOf
  rw [List.mem_filter, List.mem_reverse, List.contains_iff_mem]
  exact and_iff_right (Byte.mem_all b)

theorem map_bytesOf (C : ByteClasses) (w : Word) :
    (w.map fun c => if c ∈ bytesOf w then C.normalize c else c) = C.normalizeWord w := by
  apply List.map_congr_left
  intro c hc
  rw [if_pos (mem_bytesOf.2 hc)]

theorem refined_spec (h : Faithful f T) {C : ByteClasses} (hC : C.Wf) (hsub : T.classes.canonical ⊆ C.canonical)
    (hlength : T.classes.canonical.length < C.canonical.length) :
    Ensures f False (changed { T with classes := C }) fun U =>
      Faithful f U ∧ Progress f T U ∧ U.classes = C ∧ U.experiments = T.experiments := by
  apply (changed_spec (U := { T with classes := C }) h rfl (List.prefix_refl _) h.distinct hC hsub).imp
  intro U hU
  obtain ⟨rfl, hfaithful⟩ := hU
  exact ⟨hfaithful, progress_refine hsub hlength, rfl, rfl⟩

/-- One round of splitting: it stops if the normal form has the expected answer, and splits a class otherwise. -/
def agreeRound (expected : Bool) (w : Word) (T : Observations) : Dialogue Word (Bool × Observations) := do
  if (← Dialogue.query (T.classes.normalizeWord w)) = expected then return (true, T)
  let (refined, C) ← splitBytes w T.classes (bytesOf w)
  if refined then return (false, ← changed { T with classes := C }) else .fail .unsplit

theorem agreeLoop_eq (expected : Bool) (w : Word) (fuel : Nat) (T : Observations) : agreeLoop expected w fuel T =
    (fun U => (U.classes.normalizeWord w, U)) <$> repeatRounds (agreeRound expected w) fuel T := by
  induction fuel generalizing T with
  | zero => rfl
  | succ fuel ih =>
    rw [repeatRounds_succ, agreeRound, agreeLoop, LawfulMonad.bind_assoc, map_bind]
    refine bind_congr fun answer => ?_
    by_cases hsame : answer = expected
    · rw [if_pos hsame, if_pos hsame]
      rfl
    rw [if_neg hsame, if_neg hsame, LawfulMonad.bind_assoc, map_bind]
    refine bind_congr fun ⟨refined, C⟩ => ?_
    cases refined with
    | false => rfl
    | true =>
      dsimp only
      rw [if_pos rfl, if_pos rfl, LawfulMonad.bind_assoc, map_bind]
      exact bind_congr fun U => ih U

/-- A round that goes on has split a class. -/
theorem agreeRound_spec (h : Faithful f T) (w : Word) : Ensures f False (agreeRound (f w) w T) fun r =>
    (r.1 = true → r.2 = T ∧ f (T.classes.normalizeWord w) = f w) ∧
      (r.1 = false → Faithful f r.2 ∧ Progress f T r.2 ∧ r.2.experiments = T.experiments ∧
        T.classes.canonical.length < r.2.classes.canonical.length) := by
  unfold agreeRound
  apply ensures_query_bind
  by_cases hsame : f (T.classes.normalizeWord w) = f w
  · rw [if_pos hsame]
    exact ensures_pure ⟨fun _ => ⟨rfl, hsame⟩, nofun⟩
  rw [if_neg hsame]
  apply (splitBytes_spec h.classes w (bytesOf w)).bind
  rintro ⟨refined, C⟩ ⟨hC, hsub, hcases⟩
  rw [map_bytesOf] at hcases
  dsimp only at hC hsub hcases ⊢
  rcases hcases with ⟨-, -, hkept⟩ | ⟨rfl, hlength⟩
  · exact absurd hkept hsame
  · rw [if_pos rfl]
    apply (refined_spec h hC hsub hlength).bind
    intro U hU
    obtain ⟨hU, hprogress, rfl, hexperiments⟩ := hU
    exact ensures_pure ⟨nofun, fun _ => ⟨hU, hprogress, hexperiments, hlength⟩⟩

/-- A further canonical byte. -/
def Refines (T U : Observations) : Prop :=
  T.classes.canonical ⊆ U.classes.canonical ∧ T.classes.canonical.length < U.classes.canonical.length

/-- The rounds in which classes are split. Each of them adds a canonical byte. -/
structure Splitting (f : Word → Bool) (w : Word) (T : Observations) (splits : List Observations) (V : Observations) :
    Prop where
  rounds : Rounds f (agreeRound (f w) w) T splits V
  finer : (T :: splits).IsChain Refines
  counted : T.classes.canonical.length + splits.length ≤ V.classes.canonical.length
  length_le : splits.length ≤ 255
  answer : f (V.classes.normalizeWord w) = f w

theorem Splitting.result {splits : List Observations} (h : Splitting f w T splits U) :
    (T.agree (f w) w).result f = .ok (U.classes.normalizeWord w, U) := by
  unfold agree
  rw [agreeLoop_eq]
  exact result_map_of_ok _ ((h.rounds.result 256).trans (if_pos (Nat.lt_succ_of_le h.length_le)))

/-- Every round that goes on adds a class, and there are at most 256, so the bound is not reached. -/
theorem splitting_spec (h : Faithful f T) (w : Word) :
    Ensures f False (T.agree (f w) w) fun r => r.1 = r.2.classes.normalizeWord w ∧ Faithful f r.2 ∧ Progress f T r.2 ∧
      r.2.experiments = T.experiments ∧ ∃ splits, Splitting f w T splits r.2 := by
  have hpos := h.classes.length_pos
  unfold agree
  rw [agreeLoop_eq]
  refine (ensures_repeatRounds (Faithful f) (fun S => 256 - S.classes.canonical.length) Refines
    (fun S n V => (f (V.classes.normalizeWord w) = f w ∧ Faithful f V ∧ Progress f S V ∧
      V.experiments = S.experiments) ∧ S.classes.canonical.length + n ≤ V.classes.canonical.length)
    (fun S hS => ?_) h (by omega)).map ?_
  · refine (agreeRound_spec hS w).imp fun r hr => ⟨fun hstop => ?_, fun hnext => ?_⟩
    · obtain ⟨hsame, hanswer⟩ := hr.1 hstop
      rw [hsame]
      exact ⟨⟨hanswer, hS, Progress.refl S, rfl⟩, Nat.le_refl _⟩
    · obtain ⟨hU, hprogress, hexperiments, hlength⟩ := hr.2 hnext
      have hle := hU.classes.length_le
      refine ⟨hU, by omega, ⟨hprogress.classes, hlength⟩, fun n V hV => ?_⟩
      obtain ⟨⟨hanswer, hV, hprogress', hexperiments'⟩, hcounted⟩ := hV
      exact ⟨⟨hanswer, hV, hprogress.trans hprogress', hexperiments'.trans hexperiments⟩, by omega⟩
  · rintro V ⟨splits, hrounds, hfiner, hlength, ⟨hanswer, hV, hprogress, hexperiments⟩, hcounted⟩
    exact ⟨rfl, hV, hprogress, hexperiments, splits, hrounds, hfiner, hcounted, by omega, hanswer⟩

/-- Nothing is split if the normal form has the expected answer. -/
theorem agree_of_eq (h : f (T.classes.normalizeWord w) = f w) :
    (T.agree (f w) w).result f = .ok (T.classes.normalizeWord w, T) := by
  unfold agree agreeLoop
  rw [result_bind, result_query]
  show (if f (T.classes.normalizeWord w) = f w then _ else _ : Dialogue Word (Word × Observations)).result f = _
  rw [if_pos h]
  rfl

theorem agree_spec (h : Faithful f T) (w : Word) :
    Ensures f False (T.agree (f w) w) fun r =>
      Faithful f r.2 ∧ Progress f T r.2 ∧ r.2.experiments = T.experiments ∧
        r.1 = r.2.classes.normalizeWord w ∧ (f (T.classes.normalizeWord w) = f w → r.2 = T) ∧
        ∃ splits, Splitting f w T splits r.2 := by
  refine (splitting_spec h w).keep.imp fun r hr => ?_
  obtain ⟨hresult, hnormal, hU, hprogress, hexperiments, hsplits⟩ := hr
  refine ⟨hU, hprogress, hexperiments, hnormal, fun hsame => ?_, hsplits⟩
  rw [agree_of_eq hsame] at hresult
  cases hresult
  rfl

/-! ## Experiments -/

/-- Along a path that starts at the empty word there is a step behind which the answer changes, or
the answer never changes. -/
theorem breakpoint_spec {path : List Nat} (h : Faithful f T) (hstart : path.getD 0 0 = 0) :
    Ensures f (5 * 2 ^ doublings ≤ w.length) (T.breakpoint (f w) w path) fun n =>
      n ≤ w.length ∧ f (T.label (path.getD n 0) ++ w.drop n) = f w ∧
        (n < w.length → f (T.label (path.getD (n + 1) 0) ++ w.drop (n + 1)) ≠ f w) := by
  unfold breakpoint
  have hanswers : ∀ n, (if n ≤ w.length then do
      return (← query (T.label (path.getD n 0) ++ w.drop n)) == f w else return false : Dialogue Word Bool).result f =
      .ok (decide (n ≤ w.length) && f (T.label (path.getD n 0) ++ w.drop n) == f w) := by
    intro n
    by_cases hn : n ≤ w.length
    · rw [if_pos hn, result_bind, result_query, decide_eq_true hn, Bool.true_and]
      rfl
    · rw [if_neg hn, decide_eq_false hn, Bool.false_and]
      rfl
  have hzero : (decide (0 ≤ w.length) && f (T.label (path.getD 0 0) ++ w.drop 0) == f w) = true := by
    rw [hstart, h.root, decide_eq_true (Nat.zero_le _), List.drop_zero, List.nil_append, beq_self_eq_true]
    rfl
  refine ((boundary_spec hzero).mono (fun hall => ?_) fun n hn => ?_).relay hanswers
  · have hfar := hall.2 doublings (Nat.le_refl _)
    rw [Bool.and_eq_true, decide_eq_true_iff] at hfar
    exact hfar.1
  · obtain ⟨hat, hnext⟩ := hn
    rw [Bool.and_eq_true, decide_eq_true_iff, beq_iff_eq] at hat
    refine ⟨hat.1, hat.2, fun hlt => ?_⟩
    rw [decide_eq_true (by omega), Bool.true_and, beq_eq_false_iff_ne] at hnext
    exact hnext

/-- The suffixes of a word that are no experiments yet. -/
def newSuffixes (T : Observations) (w : Word) : Finset Nat :=
  (Finset.range w.length).filter fun n => w.drop (n + 1) ∉ T.experiments

theorem mem_newSuffixes {n : Nat} : n ∈ T.newSuffixes w ↔ n < w.length ∧ w.drop (n + 1) ∉ T.experiments := by
  unfold newSuffixes
  rw [Finset.mem_filter, Finset.mem_range]

theorem card_newSuffixes_le (T : Observations) (w : Word) : (T.newSuffixes w).card ≤ w.length :=
  (Finset.card_filter_le _ _).trans_eq (Finset.card_range w.length)

/-- A suffix that has become an experiment is no longer new. -/
theorem card_newSuffixes_lt (hsub : T.experiments ⊆ U.experiments) {n : Nat} (hn : n ∈ T.newSuffixes w)
    (hU : w.drop (n + 1) ∈ U.experiments) : (U.newSuffixes w).card < (T.newSuffixes w).card := by
  refine Finset.card_lt_card (Finset.ssubset_iff_of_subset (fun m hm => ?_) |>.2 ⟨n, hn, fun h => ?_⟩)
  · obtain ⟨hlt, hnot⟩ := mem_newSuffixes.1 hm
    exact mem_newSuffixes.2 ⟨hlt, fun h => hnot (hsub h)⟩
  · exact (mem_newSuffixes.1 h).2 hU

/-- The step at which the answer changes. The two words that it compares have the same row, so
that the rest of the word is a new experiment. -/
structure Breaks (f : Word → Bool) (T : Observations) (w : Word) (n : Nat) : Prop where
  lt : n < w.length
  heads : ∃ u ∈ T.heads, ∃ v ∈ T.heads, answers f T.experiments u = answers f T.experiments v ∧
    f (u ++ w.drop (n + 1)) ≠ f (v ++ w.drop (n + 1))

theorem Breaks.not_mem {n : Nat} (h : Breaks f T w n) : w.drop (n + 1) ∉ T.experiments := by
  intro hmem
  obtain ⟨u, -, v, -, hsame, hdiffer⟩ := h.heads
  exact hdiffer (List.map_inj_left.1 hsame _ hmem)

/-- The rest of the word as a further experiment. -/
theorem Breaks.experiment_spec {n : Nat} (hbreaks : Breaks f T w n) (h : Faithful f T) :
    Ensures f False (changed { T with experiments := T.experiments ++ [w.drop (n + 1)] }) fun U =>
      Faithful f U ∧ Progress f T U ∧ U.classes = T.classes ∧ U.experiments = T.experiments ++ [w.drop (n + 1)] := by
  have hdistinct : (T.experiments ++ [w.drop (n + 1)]).Nodup := by
    refine List.nodup_append.2 ⟨h.distinct, List.nodup_singleton _, fun a ha b hb heq => ?_⟩
    rw [List.mem_singleton.1 hb] at heq
    exact hbreaks.not_mem (heq ▸ ha)
  obtain ⟨u, hu, v, hv, hsame, hdiffer⟩ := hbreaks.heads
  refine (changed_spec (U := { T with experiments := T.experiments ++ [w.drop (n + 1)] }) h rfl
    (List.prefix_append _ _) hdistinct h.classes (List.Subset.refl _)).imp fun U hU => ?_
  obtain ⟨rfl, hfaithful⟩ := hU
  exact ⟨hfaithful, progress_experiment hu hv hsame hdiffer, rfl, rfl⟩

/-- Where a misclassified word is explained, an experiment is missing. -/
theorem breaks_of_breakpoint (h : Faithful f T) (hw : ∀ b ∈ w, b ∈ T.classes.canonical) {path : List Nat}
    (hpath : ∀ i ≤ w.length, T.read? 0 (w.take i) = some (path.getD i 0))
    (hwrong : T.accepting (path.getD w.length 0) ≠ f w) {n : Nat} (hle : n ≤ w.length)
    (hat : f (T.label (path.getD n 0) ++ w.drop n) = f w)
    (hnext : n < w.length → f (T.label (path.getD (n + 1) 0) ++ w.drop (n + 1)) ≠ f w) : Breaks f T w n := by
  have hstate : ∀ i ≤ w.length, path.getD i 0 < T.size := fun i hi => h.read?_lt h.pos (hpath i hi)
  have hlt : n < w.length := by
    by_contra hnot
    have hend : n = w.length := by omega
    rw [hend, List.drop_length, List.append_nil, ← h.accepting_eq (hstate _ (Nat.le_refl _))] at hat
    exact hwrong hat
  have hbyte : w[n] ∈ T.classes.canonical := hw _ (List.getElem_mem hlt)
  have hstep : T.step? (path.getD n 0) w[n] = some (path.getD (n + 1) 0) := by
    have hread := hpath (n + 1) hlt
    rw [List.take_add_one, List.getElem?_eq_getElem hlt, Option.toList_some, read?_snoc, hpath n hle,
      Option.bind_some, h.classes.normalize_of_mem hbyte] at hread
    exact hread
  obtain ⟨hto, hrow⟩ := h.steps _ _ _ hstep
  rw [h.rows _ hto] at hrow
  refine ⟨hlt, T.label (path.getD n 0) ++ [w[n]], mem_heads.2 ⟨_, hstate n hle, Or.inr ⟨_, hbyte, rfl⟩⟩,
    T.label (path.getD (n + 1) 0), mem_heads.2 ⟨_, hto, Or.inl rfl⟩, hrow.symm, ?_⟩
  rw [List.append_assoc, List.singleton_append, ← List.drop_eq_getElem_cons hlt, hat]
  exact (hnext hlt).symm

/-- One round of adding experiments: it stops if the hypothesis gives the expected answer, and makes a suffix of the
word an experiment otherwise. -/
def explainRound (expected : Bool) (w : Word) (T : Observations) : Dialogue Word (Bool × Observations) := do
  let (visited, T) ← T.follow 0 w
  if T.accepting (visited.headD 0) = expected then return (true, T)
  let n ← T.breakpoint expected w visited.reverse
  if n < w.length then return (false, ← changed { T with experiments := T.experiments ++ [w.drop (n + 1)] })
  else .fail .noBoundary

theorem explainLoop_eq (expected : Bool) (w : Word) (fuel : Nat) (T : Observations) :
    explainLoop expected w fuel T = repeatRounds (explainRound expected w) fuel T := by
  induction fuel generalizing T with
  | zero => rfl
  | succ fuel ih =>
    rw [repeatRounds_succ, explainRound, explainLoop, LawfulMonad.bind_assoc]
    refine bind_congr fun ⟨visited, U⟩ => ?_
    dsimp only
    by_cases hright : U.accepting (visited.headD 0) = expected
    · rw [if_pos hright, if_pos hright]
      rfl
    rw [if_neg hright, if_neg hright, LawfulMonad.bind_assoc]
    refine bind_congr fun n => ?_
    by_cases hn : n < w.length
    · rw [if_pos hn, if_pos hn, LawfulMonad.bind_assoc]
      exact bind_congr fun U => ih U
    · rw [if_neg hn, if_neg hn]
      rfl

/-- A round that goes on has made a new suffix of the word an experiment. -/
theorem explainRound_spec (h : Faithful f T) (hw : ∀ b ∈ w, b ∈ T.classes.canonical) :
    Ensures f (5 * 2 ^ doublings ≤ w.length) (explainRound (f w) w T) fun r =>
      (Faithful f r.2 ∧ Progress f T r.2 ∧ r.2.classes = T.classes) ∧
        (r.1 = true → r.2.experiments = T.experiments ∧ ∃ t, r.2.read? 0 w = some t ∧ r.2.accepting t = f w) ∧
        (r.1 = false → ∃ n ∈ T.newSuffixes w, r.2.experiments = T.experiments ++ [w.drop (n + 1)]) := by
  unfold explainRound
  apply ensures_total_bind (follow_spec h h.pos w)
  rintro ⟨visited, U⟩ ⟨hU, hext, hlength, hread, hpath⟩
  dsimp only at hU hext hlength hread hpath ⊢
  by_cases hright : U.accepting (visited.headD 0) = f w
  · rw [if_pos hright]
    exact ensures_pure ⟨⟨hU, hext.progress, hext.classes⟩, fun _ => ⟨hext.experiments, _, hread, hright⟩, nofun⟩
  rw [if_neg hright]
  have hstart : visited.reverse.getD 0 0 = 0 := by
    have hzero := hpath 0 (Nat.zero_le _)
    exact (Option.some.inj hzero).symm
  have hend : visited.reverse.getD w.length 0 = visited.headD 0 := by
    have hlast := hpath w.length (Nat.le_refl _)
    rw [List.take_length, hread] at hlast
    exact (Option.some.inj hlast).symm
  have hwU : ∀ b ∈ w, b ∈ U.classes.canonical := by
    rw [hext.classes]
    exact hw
  apply (breakpoint_spec hU hstart).bind
  intro n hn
  obtain ⟨hle, hat, hnext⟩ := hn
  have hbreaks : Breaks f U w n := by
    refine breaks_of_breakpoint hU hwU hpath ?_ hle hat hnext
    rw [hend]
    exact hright
  rw [if_pos hbreaks.lt]
  apply ensures_total_bind (hbreaks.experiment_spec hU)
  intro V hV
  obtain ⟨hV, hgrowth, hclasses, hexperiments⟩ := hV
  have hnew : n ∈ T.newSuffixes w := by
    refine mem_newSuffixes.2 ⟨hbreaks.lt, ?_⟩
    rw [← hext.experiments]
    exact hbreaks.not_mem
  rw [hext.experiments] at hexperiments
  exact ensures_pure ⟨⟨hV, hext.progress.trans hgrowth, hclasses.trans hext.classes⟩, nofun,
    fun _ => ⟨n, hnew, hexperiments⟩⟩

/-- A further experiment, a proper suffix of the word that was none before. -/
def AddsSuffix (w : Word) (T U : Observations) : Prop :=
  ∃ n < w.length, w.drop (n + 1) ∉ T.experiments ∧ U.experiments = T.experiments ++ [w.drop (n + 1)]

/-- The rounds in which experiments are added. -/
structure Explaining (f : Word → Bool) (w : Word) (T : Observations) (added : List Observations) (U : Observations) :
    Prop where
  rounds : Rounds f (explainRound (f w) w) T added U
  suffixes : (T :: added).IsChain (AddsSuffix w)
  experiments : ∃ ns : List Nat, ns.length = added.length ∧ (∀ n ∈ ns, n < w.length) ∧
    U.experiments = T.experiments ++ ns.map fun n => w.drop (n + 1)
  length_le : added.length ≤ w.length
  classes : U.classes = T.classes

theorem Explaining.result {added : List Observations} (h : Explaining f w T added U) :
    (T.explain (f w) w).result f = .ok U := by
  unfold explain
  rw [explainLoop_eq]
  exact (h.rounds.result (w.length + 1)).trans (if_pos (Nat.lt_succ_of_le h.length_le))

/-- Every round makes a suffix of the word an experiment, so the bound is not reached. -/
theorem explain_spec (h : Faithful f T) (hw : ∀ b ∈ w, b ∈ T.classes.canonical) :
    Ensures f (5 * 2 ^ doublings ≤ w.length) (T.explain (f w) w) fun U =>
      Faithful f U ∧ Progress f T U ∧ (∃ t, U.read? 0 w = some t ∧ U.accepting t = f w) ∧
        ∃ added, Explaining f w T added U := by
  unfold explain
  rw [explainLoop_eq]
  refine (ensures_repeatRounds (fun S => Faithful f S ∧ ∀ b ∈ w, b ∈ S.classes.canonical)
    (fun S => (S.newSuffixes w).card) (AddsSuffix w)
    (fun S m U => (Faithful f U ∧ Progress f S U ∧ U.classes = S.classes) ∧
      (∃ t, U.read? 0 w = some t ∧ U.accepting t = f w) ∧
      ∃ ns : List Nat, ns.length = m ∧ (∀ n ∈ ns, n < w.length) ∧
        U.experiments = S.experiments ++ ns.map fun n => w.drop (n + 1))
    (fun S hS => ?_) ⟨h, hw⟩ (Nat.lt_succ_of_le (card_newSuffixes_le T w))).imp fun U hU => ?_
  · obtain ⟨hS, hwS⟩ := hS
    refine (explainRound_spec hS hwS).imp fun r hr => ?_
    obtain ⟨⟨hU, hprogress, hclasses⟩, hstop, hnext⟩ := hr
    refine ⟨fun htrue => ?_, fun hfalse => ?_⟩
    · obtain ⟨hexperiments, hread⟩ := hstop htrue
      exact ⟨⟨hU, hprogress, hclasses⟩, hread, [], rfl, nofun, hexperiments.trans (List.append_nil _).symm⟩
    · obtain ⟨n, hn, hexperiments⟩ := hnext hfalse
      obtain ⟨hlt, hnew⟩ := mem_newSuffixes.1 hn
      have hmem : w.drop (n + 1) ∈ r.2.experiments := by
        rw [hexperiments]
        exact List.mem_append_right _ (List.mem_singleton.2 rfl)
      have hwU : ∀ b ∈ w, b ∈ r.2.classes.canonical := by
        rw [hclasses]
        exact hwS
      refine ⟨⟨hU, hwU⟩, card_newSuffixes_lt hprogress.experiments.subset hn hmem, ⟨n, hlt, hnew, hexperiments⟩,
        fun m V hV => ?_⟩
      obtain ⟨⟨hV, hprogress', hclasses'⟩, hread, ns, hlength, hns, hexperiments'⟩ := hV
      refine ⟨⟨hV, hprogress.trans hprogress', hclasses'.trans hclasses⟩, hread, n :: ns,
        congrArg (· + 1) hlength, List.forall_mem_cons.2 ⟨hlt, hns⟩, ?_⟩
      rw [hexperiments', hexperiments, List.append_assoc]
      rfl
  · obtain ⟨added, hrounds, hchain, hlength, ⟨hU, hprogress, hclasses⟩, hread, hsuffixes⟩ := hU
    exact ⟨hU, hprogress, hread, added, hrounds, hchain, hsuffixes, hlength.trans (card_newSuffixes_le T w), hclasses⟩

/-! ## Words -/

/-- The hypothesis is right about `w`, and normalising `w` does not change the answer. -/
def Learned (f : Word → Bool) (T : Observations) (w : Word) : Prop :=
  T.dfa.accepts w = f w ∧ f (T.classes.normalizeWord w) = f w

/-- The search for an experiment doubles past 64 bits in words of such a length only. -/
def Huge (w : Word) : Prop := 5 * 2 ^ doublings ≤ w.length

instance : DecidablePred Huge := fun w => inferInstanceAs (Decidable (5 * 2 ^ doublings ≤ w.length))

/-- The rounds of learning `w`, which first split classes, then add experiments, and then find all steps. -/
def Course (f : Word → Bool) (T : Observations) (w : Word) (splits : List Observations) (U : Observations) : Prop :=
  ∃ V added X closings, Splitting f w T splits V ∧ Explaining f (V.classes.normalizeWord w) V added X ∧
    Closing f X closings U

/-- What learning `w` makes of the table. -/
structure Learns (f : Word → Bool) (T : Observations) (w : Word) (U : Observations) : Prop where
  faithful : Faithful f U
  closed : Closed U
  progress : Progress f T U
  learned : Learned f U w
  classes : f (T.classes.normalizeWord w) = f w → U.classes = T.classes
  experiments : ∀ e ∈ U.experiments, e ∈ T.experiments ∨
    ∃ n < w.length, e = (U.classes.normalizeWord w).drop (n + 1)
  rounds : ∃ splits, Course f T w splits U

theorem learn_spec (h : Faithful f T) (w : Word) : Ensures f (Huge w) (T.learn w) (Learns f T w) := by
  unfold learn
  apply ensures_query_bind
  apply ensures_total_bind (agree_spec h w)
  rintro ⟨normal, U⟩ ⟨hU, hprogress, hkeeps, hnormal, hkept, splits, hsplitting⟩
  dsimp only at hU hprogress hkeeps hnormal hkept hsplitting ⊢
  subst hnormal
  have hanswer := hsplitting.answer
  rw [← hanswer]
  refine Ensures.bind ((explain_spec hU fun b hb => hU.classes.mem_normalizeWord hb).mono (fun hlong => ?_)
    fun V hV => hV) fun V hV => ?_
  · rw [ByteClasses.length_normalizeWord] at hlong
    exact hlong
  obtain ⟨hV, hprogress', ⟨t, hread, haccepting⟩, added, hexplaining⟩ := hV
  apply ((close_spec hV).mono False.elim fun _ => id).imp
  intro X hX
  obtain ⟨hX, hext, hclosed, closings, hclosing⟩ := hX
  have hsame : X.classes = U.classes := hext.classes.trans hexplaining.classes
  refine ⟨hX, hclosed, (hprogress.trans hprogress').trans hext.progress, ⟨?_, ?_⟩, fun heq => ?_, fun e he => ?_,
    splits, U, added, V, closings, hsplitting, hexplaining, hclosing⟩
  · have hreadX : X.read? 0 w = some t := by
      rw [← read?_normalizeWord hX.classes, hsame]
      exact hext.read? hread
    have ht := hV.read?_lt hV.pos hread
    rw [accepts_of_read? hX hreadX]
    unfold accepting at haccepting ⊢
    rw [hext.row hV hX ht, haccepting, hanswer]
  · rw [hsame]
    exact hanswer
  · rw [hsame, hkept heq]
  · obtain ⟨ns, -, hns, hsuffixes⟩ := hexplaining.experiments
    rw [hext.experiments, hsuffixes, hkeeps] at he
    rw [hsame]
    rcases List.mem_append.1 he with he | he
    · exact Or.inl he
    · obtain ⟨n, hn, rfl⟩ := List.mem_map.1 he
      exact Or.inr ⟨n, (hns n hn).trans_eq (ByteClasses.length_normalizeWord ..), rfl⟩

/-- Classes are split exactly where the normal form has another answer than the word. -/
theorem Learns.classes_eq_iff (h : Learns f T w U) : U.classes = T.classes ↔ f (T.classes.normalizeWord w) = f w := by
  refine ⟨fun heq => ?_, h.classes⟩
  rw [← heq]
  exact h.learned.2

end ByteAutomata.Observations
