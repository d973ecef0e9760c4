import ByteAutomata.Shrink.Session

/-!
# Learning from two outcomes

* `bind_of_ok`, `bind_of_error` : a part of a session behind another one; `permit_cases`, `checkCore_cases`,
  `learnFrom_cases`, `register_cases`, `refresh_apply` : what the parts of learning do;
* `Lesson` : two outcomes of one origin that differ, and the world in which they were found to; its buffers
  (`Lesson.ranked`), where these differ (`Lesson.divergence`), the oracle that is asked (`Lesson.oracle`), the states
  of the engine on the way (`Lesson.compared`, `Lesson.checkedSmaller`, `Lesson.checked`) and what the learner makes
  of it (`Lesson.held`);
* `Teaches` : what must hold for a lesson to succeed; `Lesson.after` : the world behind it;
* `learn_spec` : a lesson that fails changes the state of the engine only.
-/

namespace ByteAutomata

set_option autoImplicit false

/-- The world with the engine in another state. -/
def World.setEngine {ε κ σ : Type} (w : World ε κ σ) (e : ε) : World ε κ σ := { w with engine := e }

theorem World.setEngine_setEngine {ε κ σ : Type} (w : World ε κ σ) (d e : ε) :
    (w.setEngine d).setEngine e = w.setEngine e := rfl

namespace Session

variable {ε κ σ : Type} {E : Engine ε κ} {settings : Settings} {base : String} {rounds : Nat}

/-! ## Parts of a session -/

section Parts

variable {α β : Type} {act : Action ε κ σ α} {k : α → Action ε κ σ β} {v w : World ε κ σ}

theorem bind_of_ok {a : α} (h : act w = (.ok a, v)) : (act >>= k) w = k a v := by
  change ExceptT.bindCont k (act w).1 (act w).2 = _
  rw [h]
  rfl

theorem bind_of_error {e : SessionError} (h : act w = (.error e, v)) : (act >>= k) w = (.error e, v) := by
  change ExceptT.bindCont k (act w).1 (act w).2 = _
  rw [h]
  rfl

theorem withEngine_apply (act : StateM ε α) (w : World ε κ σ) :
    withEngine act w = (.ok (act w.engine).1, w.setEngine (act w.engine).2) := rfl

theorem get_apply (w : World ε κ σ) : (get : Action ε κ σ _) w = (.ok w, w) := rfl

theorem modify_apply (f : World ε κ σ → World ε κ σ) (w : World ε κ σ) :
    (modify f : Action ε κ σ Unit) w = (.ok (), f w) := rfl

end Parts

theorem permit_cases (settings : Settings) (smaller larger : Word) (w : World ε κ σ) :
    (∃ e, permit settings smaller larger w = (.error e, w) ∧ ¬ (settings.allowedToUpdate = true ∧
      w.report.learned.length < settings.maxDfas ∧ smaller.isPrefixOf larger = false)) ∨
    (permit settings smaller larger w = (.ok (), w) ∧ settings.allowedToUpdate = true ∧
      w.report.learned.length < settings.maxDfas ∧ smaller.isPrefixOf larger = false) := by
  unfold permit
  cases settings.allowedToUpdate with
  | false => exact Or.inl ⟨_, rfl, fun h => Bool.false_ne_true h.1⟩
  | true =>
    simp only [Bool.not_true, Bool.false_eq_true, if_false]
    rw [bind_of_ok (get_apply w)]
    by_cases hbudget : settings.maxDfas ≤ w.report.learned.length
    · rw [if_pos hbudget]
      exact Or.inl ⟨_, rfl, by omega⟩
    rw [if_neg hbudget]
    cases smaller.isPrefixOf larger with
    | false => exact Or.inr ⟨rfl, trivial, by omega, rfl⟩
    | true => exact Or.inl ⟨_, rfl, fun h => Bool.noConfusion h.2.2⟩

theorem checkCore_cases (oracle : Oracle ε) (smaller larger core : Word) (w : World ε κ σ) :
    (∃ e, checkCore oracle smaller larger core w = (.error e, w.setEngine (oracle core w.engine).2) ∧
      (oracle core w.engine).1 = false) ∨
    (checkCore oracle smaller larger core w = (.ok (), w.setEngine (oracle core w.engine).2) ∧
      (oracle core w.engine).1 = true) := by
  unfold checkCore
  rw [bind_of_ok (withEngine_apply _ _)]
  cases (oracle core w.engine).1 with
  | false => exact Or.inl ⟨_, rfl, rfl⟩
  | true => exact Or.inr ⟨rfl, rfl⟩

theorem learnFrom_cases (oracle : Oracle ε) (seeds : List Word) (sample rounds : Nat) (w : World ε κ σ)
    {r : Except LearnFault Observations × Cache ε}
    (h : oracle.hold (do (← Observations.start).stabilize seeds sample rounds) (Cache.empty w.engine) = r) :
    (∃ e, learnFrom oracle seeds sample rounds w = (.error (.learner e), w.setEngine r.2.state) ∧ r.1 = .error e) ∨
      ∃ T, learnFrom oracle seeds sample rounds w = (.ok T.dfa.canonical, w.setEngine r.2.state) ∧ r.1 = .ok T := by
  unfold learnFrom
  dsimp only
  rw [h]
  obtain ⟨result, cache⟩ := r
  cases result with
  | error e => exact Or.inl ⟨e, rfl, rfl⟩
  | ok T => exact Or.inr ⟨T, rfl, rfl⟩

theorem register_cases (base : String) (A : Dfa) (w : World ε κ σ) :
    (∃ e, register base A w = (.error e, w) ∧ w.registry.catalogue.find? (nameFor base A) ≠ none) ∨
    (register base A w = (.ok (), { w with
        registry := { w.registry with catalogue := w.registry.catalogue.put (nameFor base A) A },
        report := { w.report with learned := w.report.learned ++ [nameFor base A] } }) ∧
      w.registry.catalogue.find? (nameFor base A) = none) := by
  unfold register Catalogue.insert
  rw [bind_of_ok (get_apply w)]
  cases w.registry.catalogue.find? (nameFor base A) with
  | none => exact Or.inr ⟨rfl, rfl⟩
  | some B => exact Or.inl ⟨_, rfl, Option.some_ne_none B⟩

/-- The record with the best outcome of an origin, if there is one. -/
def refreshed [DecidableEq κ] (origin : κ) (best : Option (Outcome κ)) (seen : List (κ × Outcome κ)) :
    List (κ × Outcome κ) :=
  match best with
  | some r => record origin r seen
  | none => seen

theorem refresh_apply [DecidableEq κ] (E : Engine ε κ) (origin : κ) (w : World ε κ σ) :
    refresh E origin w = (.ok (), { w with
      engine := (E.best origin w.engine).2, seen := refreshed origin (E.best origin w.engine).1 w.seen }) := by
  unfold refresh refreshed
  rw [bind_of_ok (withEngine_apply _ _)]
  cases (E.best origin w.engine).1 <;> rfl

/-! ## Lessons -/

/-- Two outcomes of one origin that differ, and the world in which they were found to. -/
structure Lesson (ε κ σ : Type) where
  origin : κ
  shrunk : Outcome κ
  existing : Outcome κ
  before : World ε κ σ

namespace Lesson

variable (E) (l : Lesson ε κ σ)

/-- The buffers, the preferred one first. -/
def ranked : Word × Word :=
  if (E.compare l.shrunk.buffer l.existing.buffer l.before.engine).1 = .gt then
    (l.existing.buffer, l.shrunk.buffer)
  else (l.shrunk.buffer, l.existing.buffer)

/-- Where the buffers differ. -/
def divergence : Divergence := .split (l.ranked E).1 (l.ranked E).2

/-- Whether outcomes may have discards. -/
def allowDiscards : Bool := l.shrunk.hasDiscards || l.existing.hasDiscards

/-- The state of the engine when the buffers have been compared. -/
def compared : ε := (E.compare l.shrunk.buffer l.existing.buffer l.before.engine).2

theorem rank_apply :
    rank E l.shrunk l.existing l.before = (.ok (l.ranked E), l.before.setEngine (l.compared E)) := by
  unfold rank ranked compared
  rw [bind_of_ok (withEngine_apply _ _)]
  split <;> rfl

variable [DecidableEq κ]

/-- The oracle that is asked about cores. -/
def oracle : Oracle ε := coreOracle E (l.divergence E) l.origin l.allowDiscards

/-- The state of the engine when the smaller core has been checked. -/
def checkedSmaller : ε := (l.oracle E (l.divergence E).smallerCore (l.compared E)).2

/-- The state of the engine when both cores have been checked. -/
def checked : ε := (l.oracle E (l.divergence E).largerCore (l.checkedSmaller E)).2

/-- What the learner does. -/
def dialogue (sample rounds : Nat) : Dialogue Word Observations := do
  (← Observations.start).stabilize [(l.divergence E).smallerCore, (l.divergence E).largerCore] sample rounds

/-- What becomes of it, and the answers that it was given. -/
def held (sample rounds : Nat) : Except LearnFault Observations × Cache ε :=
  (l.oracle E).hold (l.dialogue E sample rounds) (Cache.empty (l.checked E))

end Lesson

variable [DecidableEq κ]

/-- What must hold for a lesson to succeed. -/
structure Teaches (E : Engine ε κ) (settings : Settings) (base : String) (rounds : Nat) (l : Lesson ε κ σ)
    (T : Observations) : Prop where
  allowed : settings.allowedToUpdate = true
  budget : l.before.report.learned.length < settings.maxDfas
  proper : (l.ranked E).1.isPrefixOf (l.ranked E).2 = false
  smaller : (l.oracle E (l.divergence E).smallerCore (l.compared E)).1 = true
  larger : (l.oracle E (l.divergence E).largerCore (l.checkedSmaller E)).1 = true
  held : (l.held E settings.selfCheckSample rounds).1 = .ok T
  fresh : l.before.registry.catalogue.find? (nameFor base T.dfa.canonical) = none

/-- The world behind a lesson that succeeds with this table. -/
def Lesson.after (E : Engine ε κ) (settings : Settings) (base : String) (rounds : Nat) (l : Lesson ε κ σ)
    (T : Observations) : World ε κ σ :=
  let best := E.best l.origin (l.held E settings.selfCheckSample rounds).2.state
  { l.before with
    engine := best.2
    registry := { l.before.registry with
      catalogue := l.before.registry.catalogue.put (nameFor base T.dfa.canonical) T.dfa.canonical }
    report := { l.before.report with
      learned := l.before.report.learned ++ [nameFor base T.dfa.canonical] }
    seen := refreshed l.origin best.1 l.before.seen }

/-- Behind the comparison of the buffers. -/
theorem learn_apply (E : Engine ε κ) (settings : Settings) (base : String) (rounds : Nat) (l : Lesson ε κ σ) :
    learn E settings base rounds l.origin l.shrunk l.existing l.before = (do
      permit settings (l.ranked E).1 (l.ranked E).2
      checkCore (l.oracle E) (l.ranked E).1 (l.ranked E).2 (l.divergence E).smallerCore
      checkCore (l.oracle E) (l.ranked E).1 (l.ranked E).2 (l.divergence E).largerCore
      let A ← learnFrom (l.oracle E) [(l.divergence E).smallerCore, (l.divergence E).largerCore]
        settings.selfCheckSample rounds
      register base A
      refresh E l.origin) (l.before.setEngine (l.compared E)) := bind_of_ok (l.rank_apply E)

/-- A lesson succeeds if all holds that it takes, and otherwise changes the state of the engine only. -/
theorem learn_spec (E : Engine ε κ) (settings : Settings) (base : String) (rounds : Nat) (l : Lesson ε κ σ) :
    (∃ e v, learn E settings base rounds l.origin l.shrunk l.existing l.before = (.error e, l.before.setEngine v) ∧
      ∀ T, ¬ Teaches E settings base rounds l T) ∨
    ∃ T, learn E settings base rounds l.origin l.shrunk l.existing l.before =
      (.ok (), l.after E settings base rounds T) ∧ Teaches E settings base rounds l T := by
  rw [learn_apply]
  rcases permit_cases settings (l.ranked E).1 (l.ranked E).2 (l.before.setEngine (l.compared E)) with
    ⟨e, hpermit, hnot⟩ | ⟨hpermit, hallowed, hbudget, hproper⟩
  · exact Or.inl ⟨e, _, bind_of_error hpermit, fun T hT => hnot ⟨hT.allowed, hT.budget, hT.proper⟩⟩
  rw [bind_of_ok hpermit]
  rcases checkCore_cases (l.oracle E) (l.ranked E).1 (l.ranked E).2 (l.divergence E).smallerCore
    (l.before.setEngine (l.compared E)) with ⟨e, hcheck, hnot⟩ | ⟨hcheck, hsmaller⟩
  · exact Or.inl ⟨e, _, bind_of_error hcheck, fun T hT => Bool.false_ne_true (hnot.symm.trans hT.smaller)⟩
  have hcheck : _ = (_, l.before.setEngine (l.checkedSmaller E)) := hcheck
  rw [bind_of_ok hcheck]
  rcases checkCore_cases (l.oracle E) (l.ranked E).1 (l.ranked E).2 (l.divergence E).largerCore
    (l.before.setEngine (l.checkedSmaller E)) with ⟨e, hcheck', hnot⟩ | ⟨hcheck', hlarger⟩
  · exact Or.inl ⟨e, _, bind_of_error hcheck', fun T hT => Bool.false_ne_true (hnot.symm.trans hT.larger)⟩
  have hcheck' : _ = (_, l.before.setEngine (l.checked E)) := hcheck'
  rw [bind_of_ok hcheck']
  rcases learnFrom_cases (l.oracle E) [(l.divergence E).smallerCore, (l.divergence E).largerCore]
    settings.selfCheckSample rounds (l.before.setEngine (l.checked E))
    (r := l.held E settings.selfCheckSample rounds) rfl with ⟨e, hlearn, hnot⟩ | ⟨T, hlearn, hheld⟩
  · exact Or.inl ⟨_, _, bind_of_error hlearn, fun T hT => nomatch hnot.symm.trans hT.held⟩
  rw [bind_of_ok hlearn, World.setEngine_setEngine]
  rcases register_cases base T.dfa.canonical (l.before.setEngine (l.held E settings.selfCheckSample rounds).2.state)
    with ⟨e, hregister, hnot⟩ | ⟨hregister, hfresh⟩
  · refine Or.inl ⟨e, _, bind_of_error hregister, fun U hU => hnot ?_⟩
    have hsame : T = U := Except.ok.inj (hheld.symm.trans hU.held)
    rw [hsame]
    exact hU.fresh
  · rw [bind_of_ok hregister, refresh_apply]
    refine Or.inr ⟨T, ?_, hallowed, hbudget, hproper, hsmaller, hlarger, hheld, hfresh⟩
    unfold Lesson.after
    generalize l.held E settings.selfCheckSample rounds = held
    rfl

end Session
end ByteAutomata
