import ByteAutomata.Proofs.Memory.Comparing
import ByteAutomata.Proofs.Memory.Places

/-!
# Questions do not see what is remembered

* `Automaton.answer` : what every question should be answered, from states and steps alone. Only three
  questions ask how steps are stored, and have no such answer;
* `Query.LooksUp A p q` : the question `q` needs a step from the state `p`;
* `Exact.ask_eq`, `Exact.leaves_ask` : this is what is answered whatever is remembered, and these are the
  states of which tables may become dense.
-/

namespace ByteAutomata

set_option autoImplicit false

namespace Automaton

variable (M : Automaton)

/-- The state of a reference: the sink, or a state that exists. -/
def find : StateRef → Except Fault (Option (Fin M.size))
  | .sink => .ok none
  | .state i => if h : i < M.size then .ok (some ⟨i, h⟩) else .error (.outOfBounds M.size i)

/-- The answer to a question, unless it asks how steps are stored. -/
def answer : Query → Option (Except Fault Answer)
  | .size => some (.ok (.number (Dfa.ofAutomaton M).size))
  | .start => some (.ok (.number (Dfa.ofAutomaton M).start))
  | .accepting => some (.ok (.numbers (Dfa.ofAutomaton M).acceptingStates))
  | .text => some (.ok (.text (Dfa.ofAutomaton M).text))
  | .density => none
  | .isDense _ => none
  | .copy => none
  | .step q b => some ((M.find q).map fun q => .state (.ofState? (M.advance q b)))
  | .isAccepting q => some (.ok (.flag (M.acceptsHere (q.resolve? M.size))))
  | .isDead q => some (.ok (.flag (match M.find q with
    | .ok none => true
    | .ok (some q) => !M.alive.get q
    | .error _ => false)))
  | .accepts w => some (.ok (.flag (M.accepts w)))
  | .edges q => some ((M.find q).map fun q => .edges ((q.elim [] M.edges).map fun e => (e.1, e.2.val)))
  | .liveEdges q => some ((M.find q).map fun q =>
    .edges (((q.elim [] M.edges).filter fun e => M.alive.get e.2).map fun e => (e.1, e.2.val)))
  | .entries q => some ((M.find q).map fun q =>
    .entries ((q.elim [] fun q => runs (M.step q)).map (Run.map Fin.val)))
  | .maxLength q => some ((M.find q).map fun q => .length (M.longestFrom q))
  | .count q length => some ((M.find q).map fun q => .count (q.elim 0 (M.countFrom length)))
  | .nth q length rank => some ((M.find q).bind fun q =>
    match (q.elim [] (M.wordsFrom length))[rank]? with
    | some w => .ok (.word w)
    | none => .error (.rankTooLarge rank length))
  | .words number => some (((Dfa.ofAutomaton M).words number).map .words)
  | .canonical => some (.ok (.text M.canonical.text))
  | .same B => some (.ok (.flag ((Dfa.ofAutomaton M).same B)))
  | .equivalent B => some (.ok (.flag (M.equivalent B.toAutomaton)))
  | .distinguishing B => some (.ok (match M.distinguishing B.toAutomaton with
    | some w => .word w
    | none => .noWord))

end Automaton

/-- Whether a question is answered without a look at how steps are stored. -/
def Query.Plain : Query → Prop
  | .density | .isDense _ | .copy => False
  | _ => True

theorem Query.Plain.exists_answer {q : Query} (h : q.Plain) (M : Automaton) : ∃ a, M.answer q = some a := by
  cases q with
  | density => exact h.elim
  | isDense => exact h.elim
  | copy => exact h.elim
  | _ => exact ⟨_, rfl⟩

/-- Whether a question needs a step from the state `p`. -/
def Query.LooksUp (A : Dfa) (p : Fin A.size) : Query → Prop
  | .size | .start | .accepting | .density | .isDense _ | .isAccepting _ => False
  | .step q _ | .edges q | .entries q => q = .state p
  | .liveEdges q => q = .state p ∨ ∃ i : Fin A.size, q = .state i ∧ A.toAutomaton.edges i ≠ []
  | .isDead q | .maxLength q => q ≠ .sink
  | .count q length | .nth q length _ => q ≠ .sink ∧ 0 < length
  | .accepts w => A.toAutomaton.Passes (some A.start) w p
  | .text | .words _ | .copy => True
  | .canonical => ∃ w, A.toAutomaton.read A.toAutomaton.start w = some p
  | .same B => A.Compared B p
  | .equivalent B | .distinguishing B =>
    ∃ r, (some p, r) ∈ (A.toAutomaton.difference B.toAutomaton).expanded

theorem Dfa.toAutomaton_ofAutomaton_self (A : Dfa) : (ofAutomaton A.toAutomaton).toAutomaton = A.toAutomaton :=
  toAutomaton_ofAutomaton rfl

namespace Memo

variable {A : Dfa} {m : Memo A}

theorem resolve_eq (A : Dfa) (q : StateRef) : resolve A q = A.toAutomaton.find q := by
  cases q <;> rfl

/-- A reference names the sink, a state that exists, or nothing. -/
theorem resolve_cases (A : Dfa) (q : StateRef) : (q = .sink ∧ resolve A q = .ok none) ∨
    (∃ i : Fin A.size, q = .state i ∧ resolve A q = .ok (some i)) ∨
      ∃ e, q ≠ .sink ∧ (∀ i : Fin A.size, q ≠ .state i) ∧ resolve A q = .error e := by
  cases q with
  | sink => exact Or.inl ⟨rfl, rfl⟩
  | state i =>
    by_cases hi : i < A.size
    · exact Or.inr (Or.inl ⟨⟨i, hi⟩, rfl, dif_pos hi⟩)
    · exact Or.inr (Or.inr ⟨_, nofun, fun j hj => hi (StateRef.state.inj hj ▸ j.isLt), dif_neg hi⟩)

/-- A question about a state is answered as its parts are. -/
theorem atState_eq {q : StateRef} {f : Memo A → Option (Fin A.size) → Except Fault Answer × Memo A}
    {g : Option (Fin A.size) → Answer} (h : ∀ p, (f m p).1 = .ok (g p)) :
    (m.atState q f).1 = (A.toAutomaton.find q).map g := by
  unfold atState
  rw [resolve_eq]
  cases A.toAutomaton.find q with
  | ok p => exact h p
  | error e => rfl

theorem Exact.leaves_atState (hm : m.Exact) {q : StateRef}
    {f : Memo A → Option (Fin A.size) → Except Fault Answer × Memo A} {P : Fin A.size → Prop}
    (hsink : (f m none).2 = m) (hstate : ∀ i : Fin A.size, q = .state i → m.Leaves (f m (some i)).2 P)
    (hnone : (∀ i : Fin A.size, q ≠ .state i) → ∀ p, ¬ P p) : m.Leaves (m.atState q f).2 P := by
  have hstay : (∀ i : Fin A.size, q ≠ .state i) → m.Leaves m P :=
    fun hq => (Leaves.refl hm).congr fun p => (iff_false_intro (hnone hq p)).symm
  unfold atState
  rcases resolve_cases A q with ⟨rfl, hr⟩ | ⟨i, rfl, hr⟩ | ⟨e, -, hq, hr⟩
  all_goals rw [hr]
  · show m.Leaves (f m none).2 P
    rw [hsink]
    exact hstay nofun
  · exact hstate i rfl
  · exact hstay hq

/-- Some questions need the steps of all states, or none if they are about the sink. -/
theorem leaves_resolved {m' : Memo A} {q : StateRef} {P : Prop}
    (hok : ∀ i, resolve A q = .ok i → m.Leaves m' fun _ => i.isSome = true ∧ P)
    (herror : ∀ e, resolve A q = .error e → m.Leaves m' fun _ => P) : m.Leaves m' fun _ => q ≠ .sink ∧ P := by
  rcases resolve_cases A q with ⟨rfl, hr⟩ | ⟨i, rfl, hr⟩ | ⟨e, hq, -, hr⟩
  · exact (hok none hr).congr fun p => ⟨fun hnone => (nomatch hnone.1), fun hsink => absurd rfl hsink.1⟩
  · exact (hok (some i) hr).congr fun p => and_congr_left fun _ => ⟨fun _ => nofun, fun _ => rfl⟩
  · exact (herror e hr).congr fun p => (and_iff_right hq).symm

theorem Exact.stepsFrom_touch (h : m.Exact) (q : Fin A.size) : (m.touch q).stepsFrom q = A.toAutomaton.edges q := by
  show (withSteps A (m.touch q).step).edges q = _
  rw [m.step_touch, h.step]
  rfl

theorem acceptsHere_automaton (m : Memo A) (q : Option (Fin A.size)) :
    m.automaton.acceptsHere q = A.toAutomaton.acceptsHere q := by
  cases q <;> rfl

/-- The steps to live states need all steps, if there are any. -/
theorem Exact.leaves_liveSteps (h : m.Exact) (q : Fin A.size) :
    m.Leaves (m.liveSteps q).2 fun p => p = q ∨ A.toAutomaton.edges q ≠ [] := by
  have htouch := h.leaves_touch q
  have hedges := h.stepsFrom_touch q
  unfold liveSteps
  dsimp only
  rw [hedges]
  cases hes : A.toAutomaton.edges q with
  | nil => exact htouch.congr fun p => (or_iff_left fun hne => hne rfl).symm
  | cons e es =>
    exact (htouch.trans htouch.exact.leaves_shape.1).congr fun p =>
      or_congr_right ⟨fun _ => List.cons_ne_nil e es, fun _ => trivial⟩

/-! ## Answers -/

/-- What is answered does not depend on what is remembered. -/
theorem Exact.ask_eq (h : m.Exact) {q : Query} {a : Except Fault Answer} (ha : A.toAutomaton.answer q = some a) :
    (m.ask q).1 = a := by
  have hself := A.toAutomaton_ofAutomaton_self
  have htouch : ∀ q, (m.touch q).step = A.step := fun q => (m.step_touch q).trans h.step
  have hedges := h.stepsFrom_touch
  cases q with
  | density => cases ha
  | isDense => cases ha
  | copy => cases ha
  | size =>
    cases ha
    rfl
  | start =>
    cases ha
    rfl
  | accepting =>
    cases ha
    show Except.ok (Answer.numbers A.acceptingStates) = _
    rw [((Dfa.toAutomaton_eq_iff _ _).1 hself).2.1]
  | text =>
    cases ha
    show Except.ok (Answer.text m.text.1) = _
    rw [h.text_eq, (Dfa.text_eq_iff_toAutomaton _ _).2 hself]
  | step q b =>
    cases ha
    refine atState_eq fun p => ?_
    cases p with
    | none => rfl
    | some p => exact congrArg (fun step => Except.ok (Answer.state (.ofState? (step p b)))) (htouch p)
  | isAccepting q =>
    cases ha
    exact congrArg (fun b => Except.ok (Answer.flag b)) (m.acceptsHere_automaton (q.resolve? A.size))
  | isDead q =>
    cases ha
    rw [ask, ← resolve_eq]
    cases resolve A q with
    | error e => rfl
    | ok p =>
      show Except.ok (Answer.flag (m.isDead p).1) = _
      rw [h.isDead_eq]
      cases p <;> rfl
  | accepts w =>
    cases ha
    show Except.ok (Answer.flag (m.automaton.accepts w)) = _
    rw [h.automaton]
  | edges q =>
    cases ha
    refine atState_eq fun p => ?_
    cases p with
    | none => rfl
    | some p => exact congrArg (fun es => Except.ok (Answer.edges (es.map fun e => (e.1, e.2.val)))) (hedges p)
  | liveEdges q =>
    cases ha
    refine atState_eq fun p => ?_
    cases p with
    | none => rfl
    | some p =>
      have hlive : (m.touch p).shape.1.live = A.toAutomaton.alive := by
        rw [(sound_shape (h.leaves_touch p).exact.toSound).1]
        rfl
      have hsteps : (m.liveSteps p).1 = (A.toAutomaton.edges p).filter fun e => A.toAutomaton.alive.get e.2 := by
        unfold liveSteps
        dsimp only
        rw [hedges p]
        cases A.toAutomaton.edges p with
        | nil => rfl
        | cons e es =>
          dsimp only
          rw [hlive]
          rfl
      exact congrArg (fun es => Except.ok (Answer.edges (es.map fun e => (e.1, e.2.val)))) hsteps
  | entries q =>
    cases ha
    refine atState_eq fun p => ?_
    cases p with
    | none => rfl
    | some p =>
      exact congrArg (fun step => Except.ok (Answer.entries ((runs (step p)).map (Run.map Fin.val)))) (htouch p)
  | maxLength q =>
    cases ha
    rw [ask, ← resolve_eq]
    cases resolve A q with
    | error e => rfl
    | ok p => exact congrArg (fun l => Except.ok (Answer.length l)) (h.maxLength_eq p)
  | count q length =>
    cases ha
    rw [ask, ← resolve_eq]
    cases resolve A q with
    | error e => rfl
    | ok p =>
      show Except.ok (Answer.count (m.count p length).1) = _
      rw [h.count_eq]
      cases p <;> rfl
  | nth q length rank =>
    cases ha
    rw [ask, ← resolve_eq]
    cases resolve A q with
    | error e => rfl
    | ok p =>
      show (m.nth p length rank).1.map Answer.word = _
      rw [h.nth_eq]
      show _ = match (p.elim [] (A.toAutomaton.wordsFrom length))[rank]? with
        | some w => Except.ok (Answer.word w)
        | none => Except.error (Fault.rankTooLarge rank length)
      cases (p.elim [] (A.toAutomaton.wordsFrom length))[rank]? <;> rfl
  | words number =>
    cases ha
    show ((Words.first m).1.take number (Words.first m).2).1.map Answer.words = _
    rw [Words.take_first_eq h, Dfa.words_eq_of_accepts fun w => congrArg (·.accepts w) hself]
  | canonical =>
    cases ha
    show Except.ok (Answer.text m.canonical.1.text) = _
    rw [h.canonical_eq]
    rfl
  | same B =>
    cases ha
    show Except.ok (Answer.flag (m.same (fresh B)).1) = _
    rw [same_eq h.step rfl, Dfa.same_congr hself]
  | equivalent B =>
    cases ha
    show Except.ok (Answer.flag (m.difference (fresh B)).1.isNone) = _
    rw [h.difference_eq (exact_fresh B)]
    rfl
  | distinguishing B =>
    cases ha
    show Except.ok (match (m.difference (fresh B)).1 with
      | some w => Answer.word w
      | none => Answer.noWord) = _
    rw [h.difference_eq (exact_fresh B)]

/-- Questions leave exact memories, and tables that have settled where steps are needed. -/
theorem Exact.leaves_ask (h : m.Exact) (q : Query) : m.Leaves (m.ask q).2 fun p => q.LooksUp A p := by
  have hnothing : ∀ {P : Fin A.size → Prop}, (∀ p, ¬ P p) → m.Leaves m P :=
    fun hP => (Leaves.refl h).congr fun p => (iff_false_intro (hP p)).symm
  have hshape := h.leaves_shape.1
  have htouch : ∀ i q, q = StateRef.state i.val → m.Leaves (m.touch i) fun p : Fin A.size => q = .state p := by
    intro i q hq
    refine (h.leaves_touch i).congr fun p => ?_
    rw [hq, StateRef.state.injEq, Fin.val_inj, eq_comm]
  have hmissing : ∀ {q : StateRef}, (∀ i : Fin A.size, q ≠ .state i) → ∀ p : Fin A.size, ¬ q = .state p := fun hq => hq
  cases q with
  | size => exact hnothing fun p => id
  | start => exact hnothing fun p => id
  | accepting => exact hnothing fun p => id
  | density => exact hnothing fun p => id
  | isAccepting q => exact hnothing fun p => id
  | isDense q =>
    have hstay : (m.ask (.isDense q)).2 = m := by
      unfold ask
      dsimp only
      split <;> rfl
    rw [hstay]
    exact hnothing fun p => id
  | text => exact h.leaves_touchAll
  | step q b => exact h.leaves_atState rfl (fun i hi => htouch i q hi) hmissing
  | edges q => exact h.leaves_atState rfl (fun i hi => htouch i q hi) hmissing
  | entries q => exact h.leaves_atState rfl (fun i hi => htouch i q hi) hmissing
  | liveEdges q =>
    refine h.leaves_atState rfl (fun i hi => ?_) fun hq p => ?_
    · refine (h.leaves_liveSteps i).congr fun p => ?_
      rw [hi]
      show _ ↔ StateRef.state i = .state p ∨ ∃ j : Fin A.size, StateRef.state i = .state j ∧ _
      simp only [StateRef.state.injEq, Fin.val_inj, exists_eq_left', eq_comm]
    · rintro (hp | ⟨i, hi, -⟩)
      · exact hq p hp
      · exact hq i hi
  | isDead q =>
    refine (leaves_resolved (fun i hi => ?_) fun e he => ?_).congr fun p => and_iff_left trivial
    · rw [ask, hi]
      exact (h.leaves_isDead i).congr fun p => (and_iff_left trivial).symm
    · rw [ask, he]
      exact hshape
  | maxLength q =>
    refine (leaves_resolved (fun i hi => ?_) fun e he => ?_).congr fun p => and_iff_left trivial
    · rw [ask, hi]
      exact (h.leaves_maxLength i).congr fun p => (and_iff_left trivial).symm
    · rw [ask, he]
      exact hshape
  | count q length =>
    refine leaves_resolved (fun i hi => ?_) fun e he => ?_
    · rw [ask, hi]
      exact h.leaves_count i length
    · rw [ask, he]
      exact h.leaves_fill length
  | nth q length rank =>
    refine leaves_resolved (fun i hi => ?_) fun e he => ?_
    · rw [ask, hi]
      exact h.leaves_nth i length rank
    · rw [ask, he]
      exact h.leaves_fill length
  | accepts w => exact h.leaves_of_touched (touched_touchWord m h.step (some A.start) w)
  | words number =>
    obtain ⟨hfirst, hknown⟩ := Words.leaves_first h
    have htake := Words.leaves_take number (Words.first m).1 hfirst.exact hknown
    exact (hfirst.trans htake).congr fun p => or_iff_left id
  | canonical => exact h.leaves_canonical
  | copy => exact h.leaves_copy
  | same B => exact (h.leaves_same (exact_fresh B)).1
  | equivalent B => exact (h.leaves_difference (exact_fresh B)).1
  | distinguishing B => exact (h.leaves_difference (exact_fresh B)).1

end Memo
end ByteAutomata
