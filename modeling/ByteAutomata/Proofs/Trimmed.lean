import ByteAutomata.Proofs.Provider

/-!
# The canonical form is the minimal trimmed automaton

* `Dfa.MinimalTrimmed C language` : `C` accepts the language, with the fewest states, all of them reached, live and
  told apart by words, and numbered in the order of the least words that lead to them, from the start on;
* `Automaton.canonical_eq_empty_iff`, `Automaton.minimalTrimmed_canonical` : the canonical form is the empty automaton
  if no word is accepted, and of this kind otherwise;
* `Provider.canonical_minimalTrimmed` : so it is for automata that callers provide.
-/

namespace ByteAutomata

set_option autoImplicit false

/-- The minimal trimmed automaton of a language, numbered by the least words of its states. -/
structure Dfa.MinimalTrimmed (C : Dfa) (language : Word → Bool) : Prop where
  accepts : ∀ w, C.accepts w = language w
  start : C.start.val = 0
  reachable : ∀ q, ∃ w, C.toAutomaton.read C.toAutomaton.start w = some q
  live : ∀ q, C.toAutomaton.Live q
  separated : ∀ p q, p ≠ q → ∃ w, C.toAutomaton.acceptsFrom (some p) w ≠ C.toAutomaton.acceptsFrom (some q) w
  fewest : ∀ B : Dfa, (∀ w, B.accepts w = language w) → C.size ≤ B.size
  /-- Every state has a least word that leads to it, and these words ascend with the numbers of the states. -/
  numbered : ∃ word, C.toAutomaton.LeastWords word

namespace Automaton

variable {M : Automaton}

/-- The empty word leads to the start, and no word comes before it. -/
theorem LeastWords.start_val {word : Fin M.size → Word} (h : LeastWords M word) {q : Fin M.size}
    (hq : M.start = some q) : q.val = 0 := by
  by_contra hne
  have hbefore : shortlex (word ⟨0, q.pos⟩) (word q) = .lt := h.ascending _ q (Nat.pos_of_ne_zero hne)
  have hlt : shortlex (word ⟨0, q.pos⟩) [] = .lt := Std.TransCmp.lt_of_lt_of_isLE hbefore (h.least q [] hq)
  cases hw : word ⟨0, q.pos⟩ with
  | nil =>
    rw [hw, shortlex_self] at hlt
    cases hlt
  | cons b w =>
    have hgt : shortlex [] (b :: w) = .lt := shortlex_of_length_lt (Nat.succ_pos _)
    rw [hw, ← shortlex_swap, hgt] at hlt
    cases hlt

/-- The start of the minimal automaton is live, so there is none if no word is accepted. -/
theorem start_minimal_eq_none (h : ∀ w, M.accepts w = false) : M.minimal.start = none := by
  cases hs : M.minimal.start with
  | none => rfl
  | some q =>
    obtain ⟨w, hw⟩ := M.canonical_minimal.live q
    rw [← hs] at hw
    exact absurd (hw.symm.trans ((M.accepts_minimal w).trans (h w))) Bool.true_eq_false_eq_False

variable (M) in
theorem canonical_eq_empty_iff : M.canonical = Dfa.empty ↔ ∀ w, M.accepts w = false := by
  constructor
  · intro h w
    rw [← accepts_canonical, h, Dfa.accepts_empty]
  · intro h
    exact Dfa.ofAutomaton_eq_empty (start_minimal_eq_none h)

/-- The canonical form has the states and steps of the minimal automaton. -/
theorem toAutomaton_canonical (h : ∃ w, M.accepts w = true) : M.canonical.toAutomaton = M.minimal := by
  obtain ⟨w, hw⟩ := h
  rw [← accepts_minimal] at hw
  obtain ⟨q, hq⟩ := M.minimal.exists_of_acceptsFrom hw
  exact Dfa.toAutomaton_ofAutomaton hq

theorem minimalTrimmed_canonical (h : ∃ w, M.accepts w = true) : M.canonical.MinimalTrimmed M.accepts := by
  have hcanonical : ∃ word, Canonical M.canonical.toAutomaton word := by
    rw [toAutomaton_canonical h]
    exact ⟨M.minimalWord, M.canonical_minimal⟩
  obtain ⟨word, hword⟩ := hcanonical
  refine ⟨M.accepts_canonical, hword.start_val rfl, fun q => ⟨word q, hword.reads q⟩, hword.live, fun p q hne => ?_,
    fun B hB => ?_, word, hword.toLeastWords⟩
  · by_contra hsame
    exact hne (hword.separated p q fun w => by_contra fun hw => hsame ⟨w, hw⟩)
  · have hfewest := Dfa.size_canonical_le fun w => (M.accepts_canonical w).trans (hB w).symm
    rwa [canonical_canonical] at hfewest

end Automaton

namespace Provider

/-- Where words lead to finitely many states, the canonical form is the empty automaton exactly if no word is
accepted, and otherwise the minimal trimmed automaton of the accepted words. It is found from any number of states
that is large enough, and there is such a number. -/
theorem canonical_minimalTrimmed (N : Provider) (h : {q | N.Reached q}.Finite) :
    (∃ size, N.Within size) ∧ ∀ size, N.Within size →
      ((N.automaton size).canonical = Dfa.empty ↔ ∀ w, N.accepts w = false) ∧
        ((∃ w, N.accepts w = true) → (N.automaton size).canonical.MinimalTrimmed N.accepts) := by
  refine ⟨exists_within h, fun size hsize => ?_⟩
  have haccepts : (N.automaton size).accepts = N.accepts := funext (accepts_automaton hsize)
  rw [Automaton.canonical_eq_empty_iff, ← haccepts]
  exact ⟨Iff.rfl, Automaton.minimalTrimmed_canonical⟩

/-- Up to three zeros, of which the third leads to a dead state. -/
theorem canonical_minimalTrimmed_fewZeros : {q | (fewZeros 3).Reached q}.Finite ∧
    ∃ size, (fewZeros 3).Within size ∧ (fewZeros 3).accepts [0, 0] = true ∧
      ((fewZeros 3).automaton size).canonical.MinimalTrimmed (fewZeros 3).accepts := by
  have hfinite := reached_fewZeros_finite 3
  obtain ⟨⟨size, hsize⟩, hcanonical⟩ := canonical_minimalTrimmed (fewZeros 3) hfinite
  have htwo : (fewZeros 3).accepts [0, 0] = true := rfl
  exact ⟨hfinite, size, hsize, htwo, (hcanonical size hsize).2 ⟨[0, 0], htwo⟩⟩

end Provider
end ByteAutomata
