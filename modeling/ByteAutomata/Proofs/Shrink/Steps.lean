import ByteAutomata.Proofs.Shrink.Learning

/-!
# Steps of a session

* `Moves` : all that a step can do which does not fail; `step_spec` : a step that fails registers nothing;
* `states` : the phases of a session that are due, one after the other, each with the world it starts from;
* `loop_spec` : what every step keeps, the states so far included, holds in the end; `normalize_cases`,
  `loop_of_normalize` : what follows the last step.
-/

namespace ByteAutomata
namespace Session

set_option autoImplicit false

variable {ε κ σ : Type} [DecidableEq κ] {E : Engine ε κ} {settings : Settings} {base : String} {rounds : Nat}

/-- What a step does that does not fail. -/
inductive Moves (E : Engine ε κ) (settings : Settings) (base : String) (rounds : Nat) :
    Phase κ → World ε κ σ → Phase κ → World ε κ σ → Prop
  | enough {w : World ε κ σ} (reached : settings.requiredSuccesses ≤ w.successes) : Moves E settings base rounds
      .seeking w .finished w
  | found {w : World ε κ σ} {attempt : Outcome κ} {origin : κ} {e : ε}
      (missing : w.successes < settings.requiredSuccesses) (generated : E.generate w.engine = (attempt, e))
      (interesting : attempt.isInterestingWith origin = true) : Moves E settings base rounds
      .seeking w (.shrinking attempt origin) { w with
        engine := e, foundInteresting := true, report := { w.report with examined := w.report.examined + 1 } }
  | missed {w : World ε κ σ} {attempt : Outcome κ} {e : ε}
      (missing : w.successes < settings.requiredSuccesses) (generated : E.generate w.engine = (attempt, e)) :
      Moves E settings base rounds .seeking w .seeking { w with
        engine := e, failures := w.failures + 1,
        report := { w.report with uninteresting := w.report.uninteresting + 1 } }
  | shrunk {w : World ε κ σ} {attempt shrunk : Outcome κ} {origin : κ} {e : ε}
      (shrinks : E.shrink attempt (w.registry.catalogue.entries.map Prod.snd)
        (fun r => r.isInterestingWith origin) w.engine = (shrunk, e)) : Moves E settings base rounds
      (.shrinking attempt origin) w (.comparing attempt origin shrunk) (w.setEngine e)
  | first {w : World ε κ σ} {attempt shrunk : Outcome κ} {origin : κ}
      (new : recorded? origin w.seen = none) : Moves E settings base rounds
      (.comparing attempt origin shrunk) w .seeking { w with seen := record origin shrunk w.seen }
  | matched {w : World ε κ σ} {attempt shrunk existing : Outcome κ} {origin : κ}
      (known : recorded? origin w.seen = some existing) (same : existing.buffer = shrunk.buffer) :
      Moves E settings base rounds
      (.comparing attempt origin shrunk) w .seeking { w with successes := w.successes + 1 }
  | diverged {w : World ε κ σ} {attempt shrunk existing : Outcome κ} {origin : κ}
      (known : recorded? origin w.seen = some existing) (differ : existing.buffer ≠ shrunk.buffer) :
      Moves E settings base rounds
      (.comparing attempt origin shrunk) w (.learning attempt origin shrunk existing) { w with successes := 0 }
  | learned {w : World ε κ σ} {attempt shrunk existing : Outcome κ} {origin : κ} {T : Observations}
      (learns : learn E settings base rounds origin shrunk existing w =
        (.ok (), Lesson.after E settings base rounds ⟨origin, shrunk, existing, w⟩ T))
      (teaches : Teaches E settings base rounds ⟨origin, shrunk, existing, w⟩ T) : Moves E settings base rounds
      (.learning attempt origin shrunk existing) w (.shrinking attempt origin)
      (Lesson.after E settings base rounds ⟨origin, shrunk, existing, w⟩ T)
  | rest {w : World ε κ σ} : Moves E settings base rounds .finished w .finished w

/-- Nothing has been registered. -/
structure Unregistered (w w' : World ε κ σ) : Prop where
  registry : w'.registry = w.registry
  learned : w'.report.learned = w.report.learned

/-- How a step ends: it fails without having registered anything, or it moves on. -/
def Ends (E : Engine ε κ) (settings : Settings) (base : String) (rounds : Nat) (phase : Phase κ) (w : World ε κ σ) :
    Except SessionError (Phase κ) × World ε κ σ → Prop
  | (.error _, w') => Unregistered w w'
  | (.ok phase', w') => Moves E settings base rounds phase w phase' w'

section Step

variable (E) (settings) (base) (rounds) (w : World ε κ σ)

theorem seek_ends : Ends E settings base rounds .seeking w (seek E settings w) := by
  unfold seek
  rw [bind_of_ok (get_apply w)]
  by_cases hreached : settings.requiredSuccesses ≤ w.successes
  · rw [if_pos hreached]
    exact .enough hreached
  have hmissing : w.successes < settings.requiredSuccesses := by omega
  rw [if_neg hreached, bind_of_ok (withEngine_apply _ _)]
  generalize hgenerate : E.generate w.engine = generated
  obtain ⟨⟨status, origin, buffer, discards⟩, e⟩ := generated
  cases status <;> cases origin
  case interesting.some origin =>
    exact .found hmissing hgenerate (by simp [Outcome.isInterestingWith])
  all_goals
    dsimp only
    rw [bind_of_ok (modify_apply _ _), bind_of_ok (get_apply _)]
    split
    · exact ⟨rfl, rfl⟩
    · exact .missed hmissing hgenerate

theorem compare_ends (attempt : Outcome κ) (origin : κ) (shrunk : Outcome κ) :
    Ends E settings base rounds (.comparing attempt origin shrunk) w (compare attempt origin shrunk w) := by
  unfold compare
  rw [bind_of_ok (get_apply w)]
  cases hrecorded : recorded? origin w.seen with
  | none => exact .first hrecorded
  | some existing =>
    dsimp only
    split
    next hsame => exact .matched hrecorded hsame
    next hdiffer => exact .diverged hrecorded hdiffer

omit w in
theorem step_learning (attempt : Outcome κ) (origin : κ) (shrunk existing : Outcome κ) :
    (step E settings base rounds (.learning attempt origin shrunk existing) : Action ε κ σ (Phase κ)) =
      learn E settings base rounds origin shrunk existing >>= fun _ => pure (.shrinking attempt origin) := rfl

theorem step_ends (phase : Phase κ) :
    Ends E settings base rounds phase w (step E settings base rounds phase w) := by
  cases phase with
  | seeking => exact seek_ends E settings base rounds w
  | shrinking attempt origin => exact .shrunk rfl
  | comparing attempt origin shrunk => exact compare_ends E settings base rounds w attempt origin shrunk
  | learning attempt origin shrunk existing =>
    rw [step_learning]
    rcases learn_spec E settings base rounds ⟨origin, shrunk, existing, w⟩ with
      ⟨e, v, hlearn, -⟩ | ⟨T, hlearn, hteaches⟩
    · rw [bind_of_error hlearn]
      exact ⟨rfl, rfl⟩
    · rw [bind_of_ok hlearn]
      exact .learned hlearn hteaches
  | finished => exact .rest

end Step

/-! ## Runs -/

/-- The phases that are due one after the other, each with the world that it starts from. -/
def states (E : Engine ε κ) (settings : Settings) (base : String) (rounds : Nat) :
    Nat → Phase κ → World ε κ σ → List (Phase κ × World ε κ σ)
  | _, .finished, _ => []
  | 0, _, _ => []
  | steps + 1, phase, w => (phase, w) :: match step E settings base rounds phase w with
    | (.ok phase', w') => states E settings base rounds steps phase' w'
    | (.error _, _) => []

section Run

variable {phase : Phase κ} {w : World ε κ σ}

section

variable (E) (settings) (base) (rounds)

theorem loop_finished (steps : Nat) (w : World ε κ σ) :
    loop E settings base rounds steps .finished w = (.ok (), w) := by
  cases steps <;> rfl

theorem loop_zero (hphase : phase ≠ .finished) (w : World ε κ σ) :
    loop E settings base rounds 0 phase w = (.error .outOfSteps, w) := by
  cases phase with
  | finished => exact absurd rfl hphase
  | _ => rfl

theorem loop_succ (hphase : phase ≠ .finished) (steps : Nat) (w : World ε κ σ) :
    loop E settings base rounds (steps + 1) phase w = (step E settings base rounds phase >>= fun phase =>
      loop E settings base rounds steps phase) w := by
  cases phase with
  | finished => exact absurd rfl hphase
  | _ => rfl

end

/-- What every step keeps holds of all states in the end, if the session is finished; what follows from it, also when
a step fails, holds in any case. -/
theorem loop_spec {P : List (Phase κ × World ε κ σ) → Phase κ → World ε κ σ → Prop}
    {Q : List (Phase κ × World ε κ σ) → World ε κ σ → Prop} {steps : Nat} {r : Except SessionError Unit}
    {w' : World ε κ σ} (hloop : loop E settings base rounds steps phase w = (r, w'))
    (hmove : ∀ past phase w phase' w', P past phase w → Moves E settings base rounds phase w phase' w' →
      P (past ++ [(phase, w)]) phase' w')
    (hfail : ∀ past phase w e w', P past phase w → step E settings base rounds phase w = (.error e, w') →
      Unregistered w w' → Q (past ++ [(phase, w)]) w')
    (hstop : ∀ past phase w, P past phase w → Q past w)
    (past : List (Phase κ × World ε κ σ)) (h : P past phase w) :
    Q (past ++ states E settings base rounds steps phase w) w' ∧
      (r = .ok () → P (past ++ states E settings base rounds steps phase w) .finished w') := by
  fun_induction states E settings base rounds steps phase w generalizing past with
  | case1 steps w =>
    rw [loop_finished] at hloop
    cases hloop
    rw [List.append_nil]
    exact ⟨hstop _ _ _ h, fun _ => h⟩
  | case2 phase w hphase =>
    rw [loop_zero E settings base rounds hphase] at hloop
    cases hloop
    rw [List.append_nil]
    exact ⟨hstop _ _ _ h, nofun⟩
  | case3 steps phase w hphase ih =>
    rw [loop_succ E settings base rounds hphase] at hloop
    have hends := step_ends E settings base rounds w phase
    obtain ⟨⟨answer, v⟩, hstep⟩ : ∃ s, step E settings base rounds phase w = s := ⟨_, rfl⟩
    rw [hstep] at hends ⊢
    cases answer with
    | error e =>
      rw [bind_of_error hstep] at hloop
      cases hloop
      exact ⟨hfail _ _ _ e _ h hstep hends, nofun⟩
    | ok phase' =>
      rw [bind_of_ok hstep] at hloop
      have hrest := ih phase' v hloop _ (hmove _ _ _ _ _ h hends)
      rw [List.append_assoc] at hrest
      exact hrest

end Run

/-! ## Saving -/

section Save

variable [Store σ] {w : World ε κ σ}

omit [DecidableEq κ] in
theorem save_of_nothing (h : w.report.learned = []) : (save : Action ε κ σ Unit) w = (.ok (), w) := by
  unfold save
  rw [bind_of_ok (get_apply w), if_pos h]
  rfl

omit [DecidableEq κ] in
theorem save_of_learned (h : w.report.learned ≠ []) : (save : Action ε κ σ Unit) w =
    ((w.registry.flush.1.mapError SessionError.registry).map fun _ => (),
      { w with registry := w.registry.flush.2 }) := by
  unfold save
  rw [bind_of_ok (get_apply w), if_neg h]
  obtain ⟨result, registry⟩ := w.registry.flush
  cases result <;> rfl

/-- A session ends with the error of a step, or the registry is flushed if something was learned. -/
theorem normalize_cases (E : Engine ε κ) (settings : Settings) (base : String) (rounds steps : Nat)
    (w : World ε κ σ) {r : Except SessionError Unit} {v : World ε κ σ}
    (h : loop E settings base rounds steps .seeking w = (r, v)) :
    (∃ e, r = .error e ∧ normalize E settings base rounds steps w = (.error e, v)) ∨
    (r = .ok () ∧ v.report.learned = [] ∧ normalize E settings base rounds steps w = (.ok v.report, v)) ∨
    (r = .ok () ∧ v.report.learned ≠ [] ∧ normalize E settings base rounds steps w =
      ((v.registry.flush.1.mapError SessionError.registry).map fun _ => v.report,
        { v with registry := v.registry.flush.2 })) := by
  unfold normalize
  cases r with
  | error e => exact Or.inl ⟨e, rfl, bind_of_error h⟩
  | ok u =>
    rw [bind_of_ok h]
    by_cases hlearned : v.report.learned = []
    · exact Or.inr (Or.inl ⟨rfl, hlearned, bind_of_ok (save_of_nothing hlearned)⟩)
    · have hsave := save_of_learned hlearned
      refine Or.inr (Or.inr ⟨rfl, hlearned, ?_⟩)
      cases hflush : v.registry.flush.1 with
      | error e =>
        rw [hflush] at hsave
        exact bind_of_error hsave
      | ok written =>
        rw [hflush] at hsave
        exact bind_of_ok hsave

/-- The steps of a session that succeeds have come to their end, with its report. -/
theorem loop_of_normalize {steps : Nat} {report : Report} {v : World ε κ σ}
    (h : normalize E settings base rounds steps w = (.ok report, v)) :
    ∃ u, loop E settings base rounds steps .seeking w = (.ok (), u) ∧ report = u.report ∧ v.seen = u.seen := by
  obtain ⟨⟨r, u⟩, hloop⟩ : ∃ ended, loop E settings base rounds steps .seeking w = ended := ⟨_, rfl⟩
  rcases normalize_cases E settings base rounds steps w hloop with
    ⟨e, rfl, hnormalize⟩ | ⟨rfl, -, hnormalize⟩ | ⟨rfl, -, hnormalize⟩
  · rw [h] at hnormalize
    cases hnormalize
  · rw [h] at hnormalize
    cases hnormalize
    exact ⟨v, hloop, rfl, rfl⟩
  · rw [h] at hnormalize
    obtain ⟨hreport, rfl⟩ := Prod.mk.inj hnormalize
    refine ⟨u, hloop, ?_, rfl⟩
    cases hflush : u.registry.flush.1 with
    | error e =>
      rw [hflush] at hreport
      cases hreport
    | ok written =>
      rw [hflush] at hreport
      exact Except.ok.inj hreport

end Save

end Session
end ByteAutomata
