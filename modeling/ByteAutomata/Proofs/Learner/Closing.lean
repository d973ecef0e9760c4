import ByteAutomata.Proofs.Canonical
import ByteAutomata.Proofs.Learner.Table
import ByteAutomata.Proofs.Rounds

/-!
# Finding steps

* `result_observe` : completing a row gives the answers of the language;
* `successor_spec` : the step by a canonical byte is found, in a table that extends the old one;
* `closeRound`, `Closing`, `close_spec` : all steps are found, in one round for each state;
* `start_spec` : the table of the empty word;
* `read?`, `follow_spec` : the states visited by a word, as `follow` finds them;
* `accepts_of_read?` : the hypothesis reads a word along the steps of the table.
-/

namespace ByteAutomata.Observations

set_option autoImplicit false

open Dialogue

variable {f : Word → Bool} {T U : Observations}

theorem result_observe {known : List Bool} {u : Word} {k : Nat} (h : known = answers f (T.experiments.take k) u) :
    (T.observe u known).result f = .ok (answers f T.experiments u) := by
  have hlength : known.length = min k T.experiments.length := by
    rw [h, length_answers, List.length_take]
  have hdrop : T.experiments.drop known.length = T.experiments.drop k := by
    rw [hlength]
    by_cases hk : k ≤ T.experiments.length
    · rw [Nat.min_eq_left hk]
    · rw [Nat.min_eq_right (by omega), List.drop_of_length_le (Nat.le_refl _), List.drop_of_length_le (by omega)]
  unfold observe
  rw [result_bind, result_mapM fun e _ => result_query f (u ++ e)]
  show Except.ok (known ++ answers f (T.experiments.drop known.length) u) = _
  rw [hdrop, h, ← answers_append, List.take_append_drop]

theorem successor_of_step? {q t : Nat} {b : UInt8} (h : T.step? q b = some t) : T.successor q b = pure (t, T) := by
  unfold successor
  rw [h]

/-- The step from a state is found, if need be with a new state. -/
theorem successor_spec (h : Faithful f T) {q : Nat} (hq : q < T.size) {b : UInt8} (hb : b ∈ T.classes.canonical) :
    Ensures f False (T.successor q b) fun r => Faithful f r.2 ∧ Extends T r.2 ∧ r.2.step? q b = some r.1 := by
  cases hstep : T.step? q b with
  | some t =>
    rw [successor_of_step? hstep]
    exact ensures_pure ⟨h, Extends.refl T, hstep⟩
  | none =>
    obtain ⟨k, hk⟩ := h.beyond q hq b
    unfold successor
    rw [hstep]
    apply Ensures.bind (ensures_ok (result_observe hk) rfl)
    intro row hrow
    subst hrow
    cases hwith : T.withRow? (answers f T.experiments (T.label q ++ [b])) with
    | some t =>
      obtain ⟨ht, hrow⟩ := (h.index _ t).1 hwith
      refine ensures_pure ⟨faithful_setStep h hq ht hrow, extends_setStep _ hq hstep, ?_⟩
      rw [step?_setStep hq, if_pos ⟨rfl, rfl⟩]
    | none =>
      have hpush := faithful_push h hq hb hwith
      have hext := extends_push (T := T) (T.label q ++ [b]) (answers f T.experiments (T.label q ++ [b]))
      have hq' : q < (T.push (T.label q ++ [b]) (answers f T.experiments (T.label q ++ [b]))).size := by
        rw [size_push]
        omega
      have hstep' : (T.push (T.label q ++ [b]) (answers f T.experiments (T.label q ++ [b]))).step? q b = none := by
        rw [step?_push]
        exact hstep
      have hlabel := hext.label q hq
      have hlast : (T.push (T.label q ++ [b]) (answers f T.experiments (T.label q ++ [b]))).row T.size =
          answers f T.experiments (T.label q ++ [b]) := by
        rw [row_push, if_pos rfl]
      refine ensures_pure ⟨?_, hext.trans (extends_setStep _ hq' hstep'), ?_⟩
      · have hset := faithful_setStep hpush hq' (t := T.size) (b := b) (by rw [size_push]; omega)
        rw [hlabel] at hset
        exact hset hlast
      · rw [step?_setStep hq', if_pos ⟨rfl, rfl⟩]

/-! ## All steps -/

theorem closeSteps_spec (h : Faithful f T) {q : Nat} (hq : q < T.size) {bs : List UInt8}
    (hbs : bs ⊆ T.classes.canonical) :
    Ensures f False (bs.foldlM (fun T b => Prod.snd <$> T.successor q b) T) fun U =>
      Faithful f U ∧ Extends T U ∧ ∀ b ∈ bs, ∃ t, U.step? q b = some t := by
  induction bs generalizing T with
  | nil =>
    refine ensures_pure ⟨h, Extends.refl T, fun b hb => ?_⟩
    cases hb
  | cons b bs ih =>
    rw [List.foldlM_cons]
    have hfirst : Ensures f False (Prod.snd <$> T.successor q b) fun U =>
        Faithful f U ∧ Extends T U ∧ ∃ t, U.step? q b = some t :=
      (successor_spec h hq (hbs List.mem_cons_self)).map fun r hr => ⟨hr.1, hr.2.1, r.1, hr.2.2⟩
    apply hfirst.bind
    intro U hU
    obtain ⟨hU, hext, t, hstep⟩ := hU
    have hrest : bs ⊆ U.classes.canonical := by
      rw [hext.classes]
      exact fun c hc => hbs (List.mem_cons_of_mem b hc)
    apply (ih hU (Nat.lt_of_lt_of_le hq hext.size_le) hrest).imp
    intro V hV
    obtain ⟨hV, hext', hsteps⟩ := hV
    refine ⟨hV, hext.trans hext', fun c hc => ?_⟩
    rcases List.mem_cons.1 hc with rfl | hc
    · exact ⟨t, hext'.step q c t hstep⟩
    · exact hsteps c hc

/-- One round of finding all steps: those from the next state. -/
def closeRound (p : Nat × Observations) : Dialogue Word (Bool × (Nat × Observations)) :=
  if p.1 < p.2.size then do return (false, p.1 + 1, ← p.2.closeState p.1) else return (true, p)

theorem closeFrom_eq (fuel q : Nat) (T : Observations) :
    closeFrom fuel q T = Prod.snd <$> repeatRounds closeRound fuel (q, T) := by
  induction fuel generalizing q T with
  | zero => rfl
  | succ fuel ih =>
    rw [repeatRounds_succ]
    unfold closeFrom closeRound
    by_cases hq : q < T.size
    · rw [if_pos hq, if_pos hq, LawfulMonad.bind_assoc, map_bind]
      exact bind_congr fun U => ih (q + 1) U
    · rw [if_neg hq, if_neg hq]
      rfl

/-- The steps from the states before the next one are known. -/
structure ClosedBelow (f : Word → Bool) (p : Nat × Observations) : Prop where
  faithful : Faithful f p.2
  le : p.1 ≤ p.2.size
  done : ∀ q < p.1, ∀ b ∈ p.2.classes.canonical, ∃ t, p.2.step? q b = some t

theorem closeRound_spec {p : Nat × Observations} (h : ClosedBelow f p) : Ensures f False (closeRound p) fun r =>
    (r.1 = true → r.2 = p ∧ p.1 = p.2.size) ∧
      (r.1 = false → ClosedBelow f r.2 ∧ Extends p.2 r.2.2 ∧ r.2.1 = p.1 + 1 ∧ p.1 < p.2.size) := by
  obtain ⟨q, T⟩ := p
  obtain ⟨hT, hle, hdone⟩ := h
  unfold closeRound
  dsimp only at hT hle hdone ⊢
  by_cases hq : q < T.size
  · rw [if_pos hq]
    apply (closeSteps_spec hT hq (List.Subset.refl _)).bind
    intro U hU
    obtain ⟨hU, hext, hsteps⟩ := hU
    have hdone' : ∀ p < q + 1, ∀ b ∈ U.classes.canonical, ∃ t, U.step? p b = some t := by
      intro p hp b hb
      rw [hext.classes] at hb
      by_cases hlast : p = q
      · rw [hlast]
        exact hsteps b hb
      · obtain ⟨t, ht⟩ := hdone p (by omega) b hb
        exact ⟨t, hext.step p b t ht⟩
    exact ensures_pure ⟨nofun, fun _ => ⟨⟨hU, Nat.lt_of_lt_of_le hq hext.size_le, hdone'⟩, hext, rfl, hq⟩⟩
  · rw [if_neg hq]
    exact ensures_pure ⟨fun _ => ⟨rfl, by omega⟩, nofun⟩

/-- All steps are found, in one round for each state. There are no more states than different rows. -/
structure Closing (f : Word → Bool) (T : Observations) (closings : List (Nat × Observations)) (U : Observations) :
    Prop where
  rounds : Rounds f closeRound (0, T) closings (U.size, U)
  steps : ((0, T) :: closings).IsChain fun p p' => p'.1 = p.1 + 1 ∧ Extends p.2 p'.2
  length_eq : closings.length = U.size
  size_le : U.size ≤ 2 ^ U.experiments.length
  grows : Extends T U

theorem Closing.result {closings : List (Nat × Observations)} (h : Closing f T closings U) :
    T.close.result f = .ok U := by
  have hlength : closings.length < Nat.pow 2 T.experiments.length + 1 := by
    rw [h.length_eq, ← h.grows.experiments]
    exact Nat.lt_succ_of_le h.size_le
  unfold close
  rw [closeFrom_eq]
  exact result_map_of_ok Prod.snd ((h.rounds.result _).trans (if_pos hlength))

theorem close_spec (h : Faithful f T) : Ensures f False T.close fun U =>
    Faithful f U ∧ Extends T U ∧ Closed U ∧ ∃ closings, Closing f T closings U := by
  unfold close
  rw [closeFrom_eq]
  have hbelow : ClosedBelow f (0, T) := ⟨h, Nat.zero_le _, fun q hq => absurd hq (Nat.not_lt_zero q)⟩
  refine (ensures_repeatRounds (fun p => ClosedBelow f p ∧ p.2.experiments = T.experiments)
    (fun p => 2 ^ T.experiments.length - p.1) (fun p p' => p'.1 = p.1 + 1 ∧ Extends p.2 p'.2)
    (fun p n c => p.1 + n = c.1 ∧ c.1 = c.2.size ∧ ClosedBelow f c ∧ Extends p.2 c.2)
    (fun p hp => ?_) ⟨hbelow, rfl⟩ (Nat.lt_succ_of_le (Nat.sub_le _ _))).map ?_
  · obtain ⟨hp, hexperiments⟩ := hp
    refine (closeRound_spec hp).imp fun r hr => ⟨fun hstop => ?_, fun hnext => ?_⟩
    · obtain ⟨hsame, hend⟩ := hr.1 hstop
      rw [hsame]
      exact ⟨rfl, hend, hp, Extends.refl _⟩
    · obtain ⟨hp', hext, hnumber, hlt⟩ := hr.2 hnext
      have hsize := hp.faithful.size_le_two_pow
      rw [hexperiments] at hsize
      refine ⟨⟨hp', hext.experiments.trans hexperiments⟩, by omega, ⟨hnumber, hext⟩, fun n c hc => ?_⟩
      exact ⟨by omega, hc.2.1, hc.2.2.1, hext.trans hc.2.2.2⟩
  · rintro ⟨q, U⟩ ⟨closings, hrounds, hsteps, -, hlength, hend, hU, hext⟩
    obtain rfl : q = U.size := hend
    exact ⟨hU.faithful, hext, hU.done, closings, hrounds, hsteps, (Nat.zero_add _).symm.trans hlength,
      hU.faithful.size_le_two_pow, hext⟩

/-- The table of the empty word before its steps are known. -/
def initial (answer : Bool) : Observations :=
  ⟨.single, [[]], #[⟨[], [answer], ByteMap.const none, ByteMap.const []⟩], {([answer], 0)}, 0⟩

theorem getElem?_initial (answer : Bool) (q : Nat) : (initial answer).states[q]? =
    if q = 0 then some ⟨[], [answer], ByteMap.const none, ByteMap.const []⟩ else none := by
  cases q with
  | zero => rfl
  | succ q => rfl

theorem faithful_initial : Faithful f (initial (f [])) := by
  have hrow : (initial (f [])).row 0 = [f []] := rfl
  have hsize : (initial (f [])).size = 1 := rfl
  have hzero : ∀ {q}, q < (initial (f [])).size → q = 0 := fun hq => by rw [hsize] at hq; omega
  refine ⟨ByteClasses.wf_single, ⟨[], rfl⟩, List.nodup_singleton _, Nat.one_pos, rfl, ?_, ?_, ?_, ?_, ?_⟩
  · intro q hpos hq
    have := hzero hq
    omega
  · intro q hq
    rw [hzero hq]
    rfl
  · intro row q
    have hwith : (initial (f [])).withRow? row = if [f []] = row then some 0 else none := by
      show (({([f []], 0)} : Std.HashMap (List Bool) Nat))[row]? = _
      rw [Std.HashMap.singleton_eq_insert, Std.HashMap.getElem?_insert, Std.HashMap.getElem?_empty]
      simp only [beq_iff_eq]
    rw [hwith]
    constructor
    · intro h
      by_cases hr : [f []] = row
      · rw [if_pos hr] at h
        cases h
        exact ⟨Nat.one_pos, hrow.trans hr⟩
      · rw [if_neg hr] at h
        cases h
    · intro h
      obtain ⟨hq, hr⟩ := h
      have hq := hzero hq
      subst hq
      rw [if_pos (hrow.symm.trans hr)]
  · intro q hq b
    rw [hzero hq]
    exact ⟨0, by unfold beyond; rw [getElem?_initial, if_pos rfl]; exact ByteMap.get_const [] b⟩
  · intro q b t ht
    have hq := hzero (lt_size_of_step? ht)
    subst hq
    unfold step? at ht
    rw [getElem?_initial, if_pos rfl, Option.bind_some, ByteMap.get_const] at ht
    cases ht

theorem start_spec : Ensures f False start fun T =>
    Faithful f T ∧ Closed T ∧ T.classes = .single ∧ T.experiments = [[]] ∧ T.generation = 0 := by
  unfold start
  apply ensures_query_bind
  apply (close_spec faithful_initial).imp
  intro T hT
  obtain ⟨hT, hext, hclosed, -⟩ := hT
  exact ⟨hT, hclosed, hext.classes, hext.experiments, hext.generation⟩

/-! ## Reading words -/

/-- The state to which known steps lead from `q`. -/
def read? (T : Observations) (q : Nat) (w : Word) : Option Nat :=
  w.foldl (fun q b => q.bind fun q => T.step? q (T.classes.normalize b)) (some q)

theorem read?_snoc (q : Nat) (w : Word) (b : UInt8) :
    T.read? q (w ++ [b]) = (T.read? q w).bind fun q => T.step? q (T.classes.normalize b) := List.foldl_append

theorem Faithful.read?_lt (h : Faithful f T) {q t : Nat} (hq : q < T.size) {w : Word} (ht : T.read? q w = some t) :
    t < T.size := by
  induction w using List.reverseRecOn with
  | nil =>
    cases ht
    exact hq
  | append_singleton w b _ =>
    rw [read?_snoc] at ht
    obtain ⟨p, -, hp⟩ := Option.bind_eq_some_iff.1 ht
    exact (h.steps _ _ _ hp).1

theorem Extends.read? (h : Extends T U) {q t : Nat} {w : Word} (ht : T.read? q w = some t) :
    U.read? q w = some t := by
  induction w using List.reverseRecOn generalizing t with
  | nil => exact ht
  | append_singleton w b ih =>
    rw [read?_snoc] at ht ⊢
    obtain ⟨p, hp, hstep⟩ := Option.bind_eq_some_iff.1 ht
    rw [ih hp, h.classes]
    exact h.step _ _ _ hstep

/-- Only canonical bytes count. -/
theorem read?_normalizeWord (h : T.classes.Wf) (q : Nat) (w : Word) :
    T.read? q (T.classes.normalizeWord w) = T.read? q w := by
  unfold read? ByteClasses.normalizeWord
  rw [List.foldl_map]
  simp only [h.normalize_normalize]

theorem Closed.exists_read? (hclosed : Closed T) (h : Faithful f T) {q : Nat} (hq : q < T.size) (w : Word) :
    ∃ t, T.read? q w = some t := by
  induction w using List.reverseRecOn with
  | nil => exact ⟨q, rfl⟩
  | append_singleton w b ih =>
    obtain ⟨p, hp⟩ := ih
    obtain ⟨t, ht⟩ := hclosed p (h.read?_lt hq hp) _ (h.classes.normalize_mem b)
    refine ⟨t, ?_⟩
    rw [read?_snoc, hp]
    exact ht

/-- The states that a word visits, the last one first, are those to which its beginnings lead. -/
theorem follow_spec (h : Faithful f T) {q : Nat} (hq : q < T.size) (w : Word) :
    Ensures f False (T.follow q w) fun r => Faithful f r.2 ∧ Extends T r.2 ∧ r.1.length = w.length + 1 ∧
      r.2.read? q w = some (r.1.headD q) ∧ ∀ i ≤ w.length, r.2.read? q (w.take i) = some (r.1.reverse.getD i 0) := by
  induction w using List.reverseRecOn with
  | nil =>
    refine ensures_pure ⟨h, Extends.refl T, rfl, rfl, fun i hi => ?_⟩
    have hi : i = 0 := by simpa using hi
    rw [hi]
    rfl
  | append_singleton w b ih =>
    unfold follow at ih ⊢
    rw [List.foldlM_append]
    apply ih.bind
    rintro ⟨visited, U⟩ ⟨hU, hext, hlength, hread, hpath⟩
    have hlength : visited.length = w.length + 1 := hlength
    rw [List.foldlM_cons]
    have hp := hU.read?_lt (Nat.lt_of_lt_of_le hq hext.size_le) hread
    have hlast : Ensures f False (U.successor (visited.headD q) (U.classes.normalize b) >>= fun r =>
        pure (r.1 :: visited, r.2)) fun r => Faithful f r.2 ∧ Extends U r.2 ∧
          ∃ t, r.1 = t :: visited ∧ r.2.step? (visited.headD q) (U.classes.normalize b) = some t := by
      apply (successor_spec hU hp (hU.classes.normalize_mem b)).bind
      intro r hr
      exact ensures_pure ⟨hr.1, hr.2.1, r.1, rfl, hr.2.2⟩
    apply hlast.bind
    rintro ⟨_, V⟩ ⟨hV, hext', t, rfl, hstep⟩
    have hwhole : V.read? q (w ++ [b]) = some t := by
      rw [read?_snoc, hext'.read? hread, hext'.classes]
      exact hstep
    refine ensures_pure ⟨hV, hext.trans hext', ?_, hwhole, fun i hi => ?_⟩
    · rw [List.length_cons, List.length_append, hlength]
      rfl
    · rw [List.length_append, List.length_singleton] at hi
      by_cases hlast : i = w.length + 1
      · have hall : (w ++ [b]).take i = w ++ [b] := List.take_of_length_le (by simp [hlast])
        have hend : (visited.reverse ++ [t]).getD i 0 = t := by simp [List.getD, hlast, hlength]
        rw [hall, hwhole, List.reverse_cons, hend]
      · have hfront : (w ++ [b]).take i = w.take i := List.take_append_of_le_length (by omega)
        have hsame : (visited.reverse ++ [t]).getD i 0 = visited.reverse.getD i 0 := by
          rw [List.getD_eq_getElem?_getD, List.getD_eq_getElem?_getD,
            List.getElem?_append_left (by rw [List.length_reverse]; omega)]
        rw [hfront, List.reverse_cons, hsame]
        exact hext'.read? (hpath i (by omega))

/-! ## The hypothesis -/

theorem read_automaton (h : Faithful f T) {w : Word} {t : Nat} (ht : T.read? 0 w = some t) :
    T.automaton.read T.automaton.start w = toState? T.size t := by
  induction w using List.reverseRecOn generalizing t with
  | nil =>
    cases ht
    rfl
  | append_singleton w b ih =>
    rw [read?_snoc] at ht
    obtain ⟨p, hp, hstep⟩ := Option.bind_eq_some_iff.1 ht
    have hlt := h.read?_lt h.pos hp
    rw [Automaton.read_snoc, ih hp]
    have hstate : toState? T.size p = some ⟨p, hlt⟩ := dif_pos hlt
    rw [hstate]
    show (T.step? p (T.classes.normalize b)).bind (toState? T.size) = _
    rw [hstep]
    rfl

/-- The hypothesis accepts a word if the state to which the table leads does. -/
theorem accepts_of_read? (h : Faithful f T) {w : Word} {t : Nat} (ht : T.read? 0 w = some t) :
    T.dfa.accepts w = T.accepting t := by
  unfold dfa
  rw [Dfa.accepts_ofAutomaton]
  unfold Automaton.accepts Automaton.acceptsFrom
  rw [read_automaton h ht]
  have hstate : toState? T.size t = some ⟨t, h.read?_lt h.pos ht⟩ := dif_pos _
  rw [hstate]
  rfl

/-- The hypothesis classifies a word like the label of the state to which it leads. -/
theorem accepts_eq_label (h : Faithful f T) {w : Word} {t : Nat} (ht : T.read? 0 w = some t) :
    T.dfa.accepts w = f (T.label t) := by
  rw [accepts_of_read? h ht]
  exact h.accepting_eq (h.read?_lt h.pos ht)

end ByteAutomata.Observations
