import ByteAutomata.Proofs.Learner.Stable

/-!
# What the generation tells

* `mem_asked_learn` : learning asks about the word and about its normal form;
* `learn_generation` : the generation stays exactly if the word had been learned before the call, and then the call
  leaves the whole table as it is; otherwise there are more experiments or classes. To learn the word again changes
  nothing and asks nothing.
-/

namespace ByteAutomata.Observations

set_option autoImplicit false

open Dialogue

variable {f : Word → Bool} {T U : Observations} {w : Word}

theorem mem_asked_learn (f : Word → Bool) (T : Observations) (w : Word) :
    w ∈ (T.learn w).asked f ∧ T.classes.normalizeWord w ∈ (T.learn w).asked f := by
  have hnormal : T.classes.normalizeWord w ∈ (T.agree (f w) w).asked f := List.mem_cons_self
  unfold learn
  rw [asked_query_bind, asked_bind]
  exact ⟨List.mem_cons_self, List.mem_cons_of_mem w (List.mem_append_left _ hnormal)⟩

/-- Where a word had been learned, a call leaves the table as it is. -/
theorem Settled.eq_of_learned (h : Settled f T) (hw : Learned f T w) (hU : (T.learn w).result f = .ok U) : U = T := by
  have hresult := (h.learn_yields (P := fun _ => True) hw trivial trivial).result
  rw [hU] at hresult
  exact Except.ok.inj hresult

theorem Progress.grown (h : Progress f T U) (hchanged : U.generation ≠ T.generation) :
    T.experiments.length + T.classes.canonical.length < U.experiments.length + U.classes.canonical.length := by
  have hle := h.generation_le
  have hcounted := h.counted
  omega

section Oracle

variable {σ : Type} {oracle : Oracle σ} {c d : Cache σ}

/-- To learn a word again changes nothing and asks nothing. -/
theorem Reached.learn_again (h : Reached oracle T c) (hU : oracle.hold (T.learn w) c = (.ok U, d)) :
    oracle.hold (U.learn w) d = (.ok U, d) := by
  have hcached : ∀ v, (∀ f, d.Agrees f → Learned f U w → f v = U.dfa.accepts w) → d.cached v = some (d.first v) := by
    intro v hv
    have hlearned : ∀ f, d.Agrees f → f v = U.dfa.accepts w := fun f hf => hv f hf (h.learns hU hf).2.2.learned
    rw [hlearned _ d.agrees_first]
    exact Cache.cached_of_agrees hlearned
  obtain ⟨-, -, hlearns⟩ := h.learns hU d.agrees_first
  have hsettled := (h.learn hU).settled d.agrees_first
  refine Oracle.hold_of_yields (hsettled.learn_yields hlearns.learned ?_ ?_)
  · exact hcached w fun f _ hlearned => hlearned.1.symm
  · exact hcached _ fun f _ hlearned => hlearned.2.trans hlearned.1.symm

/-- The generation stays exactly if the hypothesis was right about the word before the call, and so was the answer for
its normal form. Then the table is the same as before, and otherwise there are more experiments or classes. To learn
the word again changes nothing, not even the number of questions. -/
theorem learn_generation (h : Reached oracle T c) (w : Word) :
    (∃ U d a b, oracle.hold (T.learn w) c = (.ok U, d) ∧ d.cached w = some a ∧
      d.cached (T.classes.normalizeWord w) = some b ∧
      (U.generation = T.generation ↔ T.dfa.accepts w = a ∧ b = a) ∧
      (U.generation = T.generation → U = T) ∧
      (U.generation ≠ T.generation →
        T.experiments.length + T.classes.canonical.length < U.experiments.length + U.classes.canonical.length) ∧
      oracle.hold (U.learn w) d = (.ok U, d)) ∨
    ((oracle.hold (T.learn w) c).1 = .error .overflow ∧ 5 * 2 ^ 61 ≤ w.length) := by
  rcases h.learn_ends w with ⟨U, d, hU⟩ | hoverflow
  · obtain ⟨hT, hresult, hlearns⟩ := h.learns hU d.agrees_first
    have hcached : ∀ v ∈ (T.learn w).asked d.first, d.cached v = some (d.first v) :=
      fun v hv => Oracle.cached_of_mem_asked hU d.agrees_first hv
    obtain ⟨hword, hnormal⟩ := mem_asked_learn d.first T w
    obtain ⟨-, -, -, hiff⟩ := (generation_eq_iff hT w).of_ok hresult
    exact Or.inl ⟨U, d, _, _, hU, hcached w hword, hcached _ hnormal, hiff,
      fun hsame => hT.eq_of_learned (hiff.1 hsame) hresult, hlearns.progress.grown, h.learn_again hU⟩
  · exact Or.inr hoverflow

/-- A further word, behind a call that has split a class and added an experiment. -/
theorem learn_generation_byHighs : ∃ T c, Reached (counting byHighs) T c ∧ 1 < T.classes.canonical.length ∧
    1 < T.experiments.length ∧ ∃ U d a b, (counting byHighs).hold (T.learn [7, 150, 250]) c = (.ok U, d) ∧
      d.cached [7, 150, 250] = some a ∧ d.cached (T.classes.normalizeWord [7, 150, 250]) = some b ∧
      (U.generation = T.generation ↔ T.dfa.accepts [7, 150, 250] = a ∧ b = a) ∧
      (U.generation = T.generation → U = T) ∧
      (U.generation ≠ T.generation →
        T.experiments.length + T.classes.canonical.length < U.experiments.length + U.classes.canonical.length) ∧
      (counting byHighs).hold (U.learn [7, 150, 250]) d = (.ok U, d) := by
  obtain ⟨T, c, h, hclasses, hexperiments⟩ := exists_reached_counting session_byHighs
  refine ⟨T, c, h, hclasses, hexperiments, ?_⟩
  rcases learn_generation h [7, 150, 250] with hends | ⟨-, hlong⟩
  · exact hends
  · exact absurd hlong (by decide)

end Oracle

end ByteAutomata.Observations
