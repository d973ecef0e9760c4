import ByteAutomata.Proofs.Learner.Session

/-!
# How many rounds learning takes

* `Course.result` : what the rounds of a call lead to is what the call gives; `Course.counted` : every round in which
  classes are split adds a canonical byte;
* `Refined f n T` : calls answered by `f` lead to `T`, with `n` rounds in which classes were split. There are fewer
  of them than canonical bytes (`Refined.lt`);
* `learn_terminates` : a call ends, after rounds that are bounded by the bytes, by the word and by the states.
-/

namespace ByteAutomata.Observations

set_option autoImplicit false

open Dialogue

variable {f : Word → Bool} {T U : Observations} {w : Word}

/-! ## Rounds of a call -/

section Course

variable {splits : List Observations}

theorem Course.result (h : Course f T w splits U) : (T.learn w).result f = .ok U := by
  obtain ⟨V, added, X, closings, hsplitting, hexplaining, hclosing⟩ := h
  have hexplain := hexplaining.result
  rw [hsplitting.answer] at hexplain
  unfold learn
  rw [result_bind, result_query]
  show ((T.agree (f w) w) >>= fun r => r.2.explain (f w) r.1 >>= close).result f = _
  rw [result_bind, hsplitting.result]
  show (V.explain (f w) (V.classes.normalizeWord w) >>= close).result f = _
  rw [result_bind, hexplain]
  exact hclosing.result

theorem Course.counted (h : Course f T w splits U) :
    T.classes.canonical.length + splits.length ≤ U.classes.canonical.length := by
  obtain ⟨V, added, X, closings, hsplitting, hexplaining, hclosing⟩ := h
  rw [hclosing.grows.classes, hexplaining.classes]
  exact hsplitting.counted

end Course

/-! ## Rounds of all calls -/

/-- Calls that are answered by `f` lead to the table, with `n` rounds in which classes were split. -/
inductive Refined (f : Word → Bool) : Nat → Observations → Prop
  | start {T : Observations} (h : start.result f = .ok T) : Refined f 0 T
  | learn {n : Nat} {T U : Observations} {w : Word} {splits : List Observations} (before : Refined f n T)
    (course : Course f T w splits U) : Refined f (n + splits.length) U

theorem Refined.settled {n : Nat} (h : Refined f n T) : Settled f T := by
  induction h with
  | start h => exact settled_start.of_ok h
  | learn _ course ih => exact ((ih.learn _).of_ok course.result).1

/-- Every round has added a canonical byte. -/
theorem Refined.lt {n : Nat} (h : Refined f n T) : n < T.classes.canonical.length := by
  induction h with
  | start h => exact (settled_start.of_ok h).faithful.classes.length_pos
  | learn _ course ih =>
    have hcounted := course.counted
    omega

theorem Refined.le {n : Nat} (h : Refined f n T) : n ≤ 255 := by
  have hlt := h.lt
  have hle := h.settled.faithful.classes.length_le
  omega

section Oracle

variable {σ : Type} {oracle : Oracle σ} {c : Cache σ}

theorem Reached.refined (h : Reached oracle T c) (hf : c.Agrees f) : ∃ n, Refined f n T := by
  induction h with
  | start h => exact ⟨0, .start (Oracle.result_of_hold h hf).2⟩
  | learn reached h ih =>
    obtain ⟨splits, hcourse⟩ := (reached.learns h hf).2.2.rounds
    obtain ⟨n, hn⟩ := ih (Oracle.result_of_hold h hf).1
    exact ⟨_, hn.learn hcourse⟩

/-- A call ends with a table, unless it doubles past 64 bits in a word that no memory holds: some byte class splits
whenever normalising changes an answer, and some position explains every word that is misclassified. Each of its first
rounds adds a canonical byte, so from a new learner on there are 255 of them at most. Each of the next rounds makes a
proper suffix of the normal form an experiment that was none before, and each of the last rounds finds the steps from
one more state. -/
theorem learn_terminates (h : Reached oracle T c) (w : Word) :
    (∃ U d, oracle.hold (T.learn w) c = (.ok U, d) ∧ ∀ f, d.Agrees f → ∃ splits, Course f T w splits U ∧
      (∃ n, Refined f n T) ∧ ∀ n, Refined f n T → Refined f (n + splits.length) U ∧ n + splits.length ≤ 255) ∨
    ((oracle.hold (T.learn w) c).1 = .error .overflow ∧ 5 * 2 ^ 61 ≤ w.length) := by
  rcases h.learn_ends w with ⟨U, d, hU⟩ | hoverflow
  · refine Or.inl ⟨U, d, hU, fun f hf => ?_⟩
    obtain ⟨splits, hcourse⟩ := (h.learns hU hf).2.2.rounds
    obtain ⟨hc, -⟩ := Oracle.result_of_hold hU hf
    exact ⟨splits, hcourse, h.refined hc, fun n hn => ⟨hn.learn hcourse, (hn.learn hcourse).le⟩⟩
  · exact Or.inr hoverflow

/-- A further word, behind a call that has split a class and added an experiment. -/
theorem learn_terminates_byHighs : ∃ T c, Reached (counting byHighs) T c ∧ 1 < T.classes.canonical.length ∧
    1 < T.experiments.length ∧ ∃ U d, (counting byHighs).hold (T.learn [7, 150, 250]) c = (.ok U, d) ∧
      ∀ f, d.Agrees f → ∃ splits, Course f T [7, 150, 250] splits U ∧
        (∃ n, Refined f n T) ∧ ∀ n, Refined f n T → Refined f (n + splits.length) U ∧ n + splits.length ≤ 255 := by
  obtain ⟨T, c, h, hclasses, hexperiments⟩ := exists_reached_counting session_byHighs
  refine ⟨T, c, h, hclasses, hexperiments, ?_⟩
  rcases learn_terminates h [7, 150, 250] with hends | ⟨-, hlong⟩
  · exact hends
  · exact absurd hlong (by decide)

end Oracle

end ByteAutomata.Observations
