import ByteAutomata.Dfa.Build
import ByteAutomata.Proofs.Canonical
import Mathlib.Data.Set.Finite.Lattice

/-!
# Automata that callers provide

* `Provider` : a start, accepting states and steps by reference, with a dead sink that accepts nothing and
  is never left; `Provider.accepts` reads a word and gives up at the sink;
* `Provider.automaton` : the automaton on the numbers below a size. Where these are enough for all states
  that words lead to (`Provider.Within`), reading by number is reading by reference (`ofState?_read`), and so
  both accept the same words (`accepts_automaton`);
* `exists_within` : such a size exists if words lead to finitely many states, as they do where no step leaves a finite
  set (`reached_finite`);
* `canonical_keeps_language` : the canonical form accepts what the provider accepts.

Two providers stand for the rest: the numbers of `evenZeros` leave gaps, and `fewZeros` accepts finitely many words.
-/

namespace ByteAutomata

set_option autoImplicit false

/-- What is provided of an automaton whose states only their references tell apart. -/
structure Provider where
  start : StateRef
  accepting : StateRef → Bool
  step : StateRef → UInt8 → StateRef
  sink_rejects : accepting .sink = false
  sink_absorbs : ∀ b, step .sink b = .sink

/-- The number of a state, and none of the sink. -/
def StateRef.index? : StateRef → Option Nat
  | sink => none
  | state i => some i

namespace Provider

variable (N : Provider)

/-- The state that a word leads to. -/
def read (w : Word) : StateRef := w.foldl N.step N.start

/-- Whether a state accepts a word. The rest of the word is not read behind the sink. -/
def acceptsFrom : StateRef → Word → Bool
  | q, [] => N.accepting q
  | q, b :: w => if N.step q b = .sink then false else acceptsFrom (N.step q b) w

def accepts (w : Word) : Bool := N.acceptsFrom N.start w

/-- A word leads to the state. -/
def Reached (q : StateRef) : Prop := ∃ w, N.read w = q

/-- All states that words lead to have smaller numbers. -/
def Within (size : Nat) : Prop := ∀ i, N.Reached (.state i) → i < size

/-- The automaton on the states of smaller numbers. -/
def automaton (size : Nat) : Automaton :=
  Automaton.ofNumbers size N.start.index? (fun i => N.accepting (.state i)) fun i b => (N.step (.state i) b).index?

/-! ## Giving up at the sink -/

theorem read_snoc (w : Word) (b : UInt8) : N.read (w ++ [b]) = N.step (N.read w) b := List.foldl_append

theorem foldl_sink (w : Word) : w.foldl N.step .sink = .sink := by
  induction w with
  | nil => rfl
  | cons b w ih => rw [List.foldl_cons, N.sink_absorbs, ih]

/-- Nothing is missed by giving up at the sink. -/
theorem acceptsFrom_eq (q : StateRef) (w : Word) : N.acceptsFrom q w = N.accepting (w.foldl N.step q) := by
  induction w generalizing q with
  | nil => rfl
  | cons b w ih =>
    unfold acceptsFrom
    rw [List.foldl_cons]
    by_cases hsink : N.step q b = .sink
    · rw [if_pos hsink, hsink, foldl_sink, N.sink_rejects]
    · rw [if_neg hsink, ih]

/-! ## Reading by number -/

variable {N} {size : Nat}

open StateRef (ofState?)

/-- A state that words lead to is one of the automaton. -/
theorem ofState?_bind (h : N.Within size) {q : StateRef} (hq : N.Reached q) :
    ofState? (q.index?.bind (toState? size)) = q := by
  cases q with
  | sink => rfl
  | state i =>
    have hstate : toState? size i = some ⟨i, h i hq⟩ := toState?_eq_some.2 rfl
    show ofState? (toState? size i) = .state i
    rw [hstate]
    rfl

/-- Step by step both readings are at the same state. -/
theorem ofState?_read (h : N.Within size) (w : Word) :
    ofState? ((N.automaton size).read (N.automaton size).start w) = N.read w := by
  induction w using List.reverseRecOn with
  | nil => exact ofState?_bind h ⟨[], rfl⟩
  | append_singleton w b ih =>
    rw [Automaton.read_snoc, read_snoc]
    cases hp : (N.automaton size).read (N.automaton size).start w with
    | none =>
      rw [hp] at ih
      rw [← ih]
      exact (N.sink_absorbs b).symm
    | some p =>
      rw [hp] at ih
      have hreached : N.Reached (N.step (N.read w) b) := ⟨w ++ [b], N.read_snoc w b⟩
      rw [← ih] at hreached ⊢
      exact ofState?_bind h hreached

theorem acceptsHere_eq (q : Option (Fin (N.automaton size).size)) :
    (N.automaton size).acceptsHere q = N.accepting (ofState? q) := by
  cases q with
  | none => exact N.sink_rejects.symm
  | some p => rfl

theorem accepts_automaton (h : N.Within size) (w : Word) : (N.automaton size).accepts w = N.accepts w := by
  rw [Automaton.accepts, Automaton.acceptsFrom, acceptsHere_eq, ofState?_read h, accepts, acceptsFrom_eq, read]

/-- Finitely many states have a bound on their numbers. -/
theorem exists_within (h : {q | N.Reached q}.Finite) : ∃ size, N.Within size := by
  have hnumbers : {i | N.Reached (.state i)}.Finite :=
    h.preimage (f := StateRef.state) fun i _ j _ hij => StateRef.state.inj hij
  obtain ⟨bound, hbound⟩ := hnumbers.bddAbove
  exact ⟨bound + 1, fun i hi => Nat.lt_succ_of_le (hbound hi)⟩

/-- Words lead only to states of a set that no step leaves. -/
theorem reached_finite {s : Set StateRef} (hs : s.Finite) (hstart : N.start ∈ s) (hstep : ∀ q ∈ s, ∀ b, N.step q b ∈ s) :
    {q | N.Reached q}.Finite := by
  refine hs.subset fun q hq => ?_
  obtain ⟨w, rfl⟩ := hq
  induction w using List.reverseRecOn with
  | nil => exact hstart
  | append_singleton w b ih =>
    rw [read_snoc]
    exact hstep _ ih b

/-- Where words lead to finitely many states, the canonical form accepts the words that the provider
accepts. It is found from any number of states that is large enough, and there is such a number. -/
theorem canonical_keeps_language (N : Provider) (h : {q | N.Reached q}.Finite) :
    (∃ size, N.Within size) ∧
      ∀ size, N.Within size → ∀ w, (N.automaton size).canonical.accepts w = N.accepts w := by
  refine ⟨exists_within h, fun size hsize w => ?_⟩
  calc (N.automaton size).canonical.accepts w = (N.automaton size).accepts w := (N.automaton size).accepts_canonical w
    _ = N.accepts w := accepts_automaton hsize w

/-- Two states with numbers that leave gaps, of which the first is the start and accepts: the words of an even
number of zeros. -/
def evenZeros : Provider where
  start := .state 3
  accepting q := q == .state 3
  step
    | .state i, b => if b = 0 then .state (10 - i) else .sink
    | .sink, _ => .sink
  sink_rejects := rfl
  sink_absorbs _ := rfl

theorem reached_evenZeros (w : Word) : evenZeros.read w ∈ ({.sink, .state 3, .state 7} : Set StateRef) := by
  induction w using List.reverseRecOn with
  | nil => exact Or.inr (Or.inl rfl)
  | append_singleton w b ih =>
    rw [read_snoc]
    rcases ih with h | h | h
    · rw [h]
      exact Or.inl rfl
    all_goals
      rw [h]
      by_cases hb : b = 0
      · rw [hb]
        decide
      · exact Or.inl (if_neg hb)

theorem canonical_keeps_language_evenZeros : {q | evenZeros.Reached q}.Finite ∧ ∃ size, evenZeros.Within size ∧
    ∀ w, (evenZeros.automaton size).canonical.accepts w = evenZeros.accepts w := by
  have hfinite : {q | evenZeros.Reached q}.Finite := by
    refine Set.Finite.subset (Set.toFinite {.sink, .state 3, .state 7}) fun q hq => ?_
    obtain ⟨w, rfl⟩ := hq
    exact reached_evenZeros w
  obtain ⟨⟨size, hsize⟩, haccepts⟩ := canonical_keeps_language evenZeros hfinite
  exact ⟨hfinite, size, hsize, haccepts size hsize⟩

/-- The words of an even number of zeros, and no more than `most`. -/
def fewZeros (most : Nat) : Provider where
  start := .state 0
  accepting
    | .state i => i % 2 == 0
    | .sink => false
  step
    | .state i, b => if b = 0 ∧ i < most then .state (i + 1) else .sink
    | .sink, _ => .sink
  sink_rejects := rfl
  sink_absorbs _ := rfl

theorem reached_fewZeros_finite (most : Nat) : {q | (fewZeros most).Reached q}.Finite := by
  refine reached_finite (s := insert .sink (StateRef.state '' {i | i ≤ most}))
    (((Set.finite_le_nat most).image _).insert _)
    (Or.inr ⟨0, Nat.zero_le _, rfl⟩) fun q _ b => ?_
  cases q with
  | sink => exact Or.inl rfl
  | state i =>
    by_cases hb : b = 0 ∧ i < most
    · exact Or.inr ⟨i + 1, hb.2, (if_pos hb).symm⟩
    · exact Or.inl (if_neg hb)

theorem step_fewZeros {most i : Nat} {q : StateRef} {b : UInt8} :
    (fewZeros most).step q b = .state i ↔ ∃ j, q = .state j ∧ b = 0 ∧ j < most ∧ i = j + 1 := by
  cases q with
  | sink => exact iff_of_false nofun fun ⟨j, hj, _⟩ => nomatch hj
  | state j =>
    have hstep : (fewZeros most).step (.state j) b = if b = 0 ∧ j < most then .state (j + 1) else .sink := rfl
    rw [hstep]
    by_cases hb : b = 0 ∧ j < most
    · rw [if_pos hb]
      constructor
      · intro h
        cases h
        exact ⟨j, rfl, hb.1, hb.2, rfl⟩
      · rintro ⟨_, hj, -, -, rfl⟩
        cases hj
        rfl
    · rw [if_neg hb]
      refine iff_of_false nofun ?_
      rintro ⟨_, hj, hzero, hlt, -⟩
      cases hj
      exact hb ⟨hzero, hlt⟩

theorem read_fewZeros (most : Nat) (w : Word) (i : Nat) : (fewZeros most).read w = .state i ↔
    (∀ b ∈ w, b = 0) ∧ w.length = i ∧ i ≤ most := by
  induction w using List.reverseRecOn generalizing i with
  | nil =>
    constructor
    · intro h
      cases h
      exact ⟨nofun, rfl, Nat.zero_le most⟩
    · rintro ⟨-, rfl, -⟩
      rfl
  | append_singleton w b ih =>
    rw [read_snoc, step_fewZeros, List.forall_mem_append, List.forall_mem_singleton, List.length_append,
      List.length_singleton]
    constructor
    · rintro ⟨j, hread, hb, hlt, rfl⟩
      obtain ⟨hw, rfl, -⟩ := (ih j).1 hread
      exact ⟨⟨hw, hb⟩, rfl, hlt⟩
    · rintro ⟨⟨hw, hb⟩, rfl, hlt⟩
      exact ⟨w.length, (ih w.length).2 ⟨hw, rfl, Nat.le_of_lt hlt⟩, hb, hlt, rfl⟩

theorem accepts_fewZeros (most : Nat) (w : Word) : (fewZeros most).accepts w = true ↔
    (∀ b ∈ w, b = 0) ∧ w.length ≤ most ∧ w.length % 2 = 0 := by
  have haccepts : (fewZeros most).accepts w = (fewZeros most).accepting ((fewZeros most).read w) :=
    acceptsFrom_eq _ _ w
  rw [haccepts]
  cases hread : (fewZeros most).read w with
  | sink =>
    refine iff_of_false nofun ?_
    rintro ⟨hw, hle, -⟩
    cases hread.symm.trans ((read_fewZeros most w w.length).2 ⟨hw, rfl, hle⟩)
  | state i =>
    obtain ⟨hw, rfl, hle⟩ := (read_fewZeros most w i).1 hread
    rw [and_iff_right hw, and_iff_right hle]
    exact beq_iff_eq

end Provider
end ByteAutomata
