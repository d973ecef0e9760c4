import ByteAutomata.Proofs.Memory.Usage
import Mathlib.Data.Set.Card
import Mathlib.Order.Bounds.Basic

/-!
# What ranks and lengths say about the accepted words

* `Automaton.Longest M q l` : `l` is the length of the longest word accepted from a state or the sink, without a
  bound if their lengths are not bounded, and zero if there is no word (`longest_none`, `longest_some`);
* `Automaton.ranked` : the words of a length that are accepted from a state or the sink, in lexicographic order.
  A rank is a position among them (`bijOn_wordAt`, `compare_wordAt`), and there are as many as words (`encard_ranked`);
* `Usage.maxLength_longest`, `Usage.nth_ranks`, `Usage.count_encard` : so `maxLength`, `count` and `nth` answer,
  whatever was asked before.
-/

namespace ByteAutomata

set_option autoImplicit false

namespace Automaton

/-! ## Longest words -/

/-- The lengths of the words that are accepted from a state or the sink. -/
def lengths (M : Automaton) (q : Option (Fin M.size)) : Set Nat := {n | ∃ w, M.acceptsFrom q w = true ∧ w.length = n}

/-- The length of the longest word accepted from a state or the sink. -/
structure Longest (M : Automaton) (q : Option (Fin M.size)) (l : MaxLength) : Prop where
  infinite_iff : l = .infinite ↔ ¬ BddAbove (M.lengths q)
  finite : (M.lengths q).Nonempty → BddAbove (M.lengths q) → ∃ n, l = .finite n ∧ IsGreatest (M.lengths q) n
  dead : M.lengths q = ∅ → l = .finite 0

variable {M : Automaton}

theorem lengths_none (M : Automaton) : M.lengths none = ∅ := by
  refine Set.eq_empty_iff_forall_notMem.2 fun n hn => ?_
  obtain ⟨w, hw, -⟩ := hn
  rw [acceptsFrom_none] at hw
  cases hw

theorem longest_none (M : Automaton) : M.Longest none (.finite 0) where
  infinite_iff := by
    rw [lengths_none]
    exact iff_of_false nofun (not_not.2 bddAbove_empty)
  finite hne := by
    rw [lengths_none] at hne
    exact absurd hne Set.not_nonempty_empty
  dead _ := rfl

variable {q : Fin M.size}

/-- Words of every length or longer are words without a bound. -/
theorem not_bddAbove_lengths (h : M.Attained q .infinite) : ¬ BddAbove (M.lengths (some q)) := by
  rintro ⟨n, hn⟩
  obtain ⟨w, hw, hlong⟩ := h (n + 1)
  have hle : w.length ≤ n := hn ⟨w, hw, rfl⟩
  omega

theorem mem_upperBounds_lengths {n : Nat} (h : M.Bounded q (.finite n)) : n ∈ upperBounds (M.lengths (some q)) := by
  rintro _ ⟨w, hw, rfl⟩
  exact h w hw

/-- A bound that a word reaches is the greatest length. -/
theorem isGreatest_lengths {n : Nat} (hattained : M.Attained q (.finite n)) (hbounded : M.Bounded q (.finite n)) :
    IsGreatest (M.lengths (some q)) n := by
  obtain ⟨w, hw, hlong⟩ := hattained
  have hle : w.length ≤ n := hbounded w hw
  exact ⟨⟨w, hw, Nat.le_antisymm hle hlong⟩, mem_upperBounds_lengths hbounded⟩

theorem lengths_nonempty_iff : (M.lengths (some q)).Nonempty ↔ M.Live q := by
  constructor
  · rintro ⟨_, w, hw, -⟩
    exact ⟨w, hw⟩
  · rintro ⟨w, hw⟩
    exact ⟨w.length, w, hw, rfl⟩

theorem IsLongest.longest {l : MaxLength} (h : M.IsLongest q l) : M.Longest (some q) l := by
  have hlive : l = .infinite → M.Live q := by
    rintro rfl
    by_contra hdead
    cases h.dead hdead
  refine ⟨⟨fun hl => ?_, fun hunbounded => ?_⟩, fun hne hbounded => ?_, fun hempty => ?_⟩
  · have hattained := h.attained (hlive hl)
    rw [hl] at hattained
    exact not_bddAbove_lengths hattained
  · cases l with
    | infinite => rfl
    | finite n => exact absurd ⟨n, mem_upperBounds_lengths h.bounded⟩ hunbounded
  · have hattained := h.attained (lengths_nonempty_iff.1 hne)
    cases l with
    | infinite => exact absurd hbounded (not_bddAbove_lengths hattained)
    | finite n => exact ⟨n, rfl, isGreatest_lengths hattained h.bounded⟩
  · refine h.dead fun hq => ?_
    rw [← lengths_nonempty_iff, hempty] at hq
    exact Set.not_nonempty_empty hq

/-! ## Words by rank -/

/-- The words of a length that are accepted from a state or the sink, in lexicographic order. -/
def ranked (M : Automaton) (n : Nat) (q : Option (Fin M.size)) : List Word := q.elim [] (M.wordsFrom n)

/-- The word of a rank, and no letters behind the last one. -/
def wordAt (M : Automaton) (n : Nat) (q : Option (Fin M.size)) (k : Nat) : Word := (M.ranked n q).getD k []

section Ranked

variable {n k i j : Nat} {q : Option (Fin M.size)} {w : Word}

theorem mem_ranked : w ∈ M.ranked n q ↔ w.length = n ∧ M.acceptsFrom q w = true := by
  cases q with
  | none =>
    rw [acceptsFrom_none]
    exact iff_of_false List.not_mem_nil fun h => nomatch h.2
  | some q => exact M.mem_wordsFrom

theorem pairwise_ranked (M : Automaton) (n : Nat) (q : Option (Fin M.size)) :
    (M.ranked n q).Pairwise fun v w => shortlex v w = .lt := by
  cases q with
  | none => exact List.Pairwise.nil
  | some q => exact M.pairwise_wordsFrom n q

theorem wordAt_eq (hk : k < (M.ranked n q).length) : M.wordAt n q k = (M.ranked n q)[k] := by
  rw [wordAt, List.getD_eq_getElem?_getD, List.getElem?_eq_getElem hk, Option.getD_some]

theorem wordAt_mem (hk : k < (M.ranked n q).length) : M.wordAt n q k ∈ M.ranked n q := by
  rw [wordAt_eq hk]
  exact List.getElem_mem hk

theorem shortlex_wordAt (hij : i < j) (hj : j < (M.ranked n q).length) :
    shortlex (M.wordAt n q i) (M.wordAt n q j) = .lt := by
  have hi := Nat.lt_trans hij hj
  rw [wordAt_eq hi, wordAt_eq hj]
  exact List.pairwise_iff_getElem.1 (M.pairwise_ranked n q) i j hi hj hij

/-- Among words of one length the order is lexicographic. -/
theorem compare_wordAt (hij : i < j) (hj : j < (M.ranked n q).length) :
    compare (M.wordAt n q i) (M.wordAt n q j) = .lt := by
  have hlt := shortlex_wordAt hij hj
  have hi : (M.wordAt n q i).length = n := (mem_ranked.1 (wordAt_mem (Nat.lt_trans hij hj))).1
  have hj' : (M.wordAt n q j).length = n := (mem_ranked.1 (wordAt_mem hj)).1
  rwa [shortlex, hi, hj', Nat.compare_eq_eq.2 rfl, Ordering.eq_then] at hlt

theorem bijOn_wordAt (M : Automaton) (n : Nat) (q : Option (Fin M.size)) :
    Set.BijOn (M.wordAt n q) (Set.Iio (M.ranked n q).length) {w | w.length = n ∧ M.acceptsFrom q w = true} := by
  refine ⟨fun k hk => mem_ranked.1 (wordAt_mem hk), fun i hi j hj hij => ?_, fun w hw => ?_⟩
  · rcases Nat.lt_trichotomy i j with hlt | heq | hgt
    · exact absurd hij (ne_of_shortlex (shortlex_wordAt hlt hj))
    · exact heq
    · exact absurd hij.symm (ne_of_shortlex (shortlex_wordAt hgt hi))
  · obtain ⟨k, hk, hget⟩ := List.mem_iff_getElem.1 (mem_ranked.2 hw)
    exact ⟨k, hk, (wordAt_eq hk).trans hget⟩

/-- Each accepted word of the length is listed once. -/
theorem encard_ranked (M : Automaton) (n : Nat) (q : Option (Fin M.size)) :
    {w : Word | w.length = n ∧ M.acceptsFrom q w = true}.encard = (M.ranked n q).length := by
  have hset : {w : Word | w.length = n ∧ M.acceptsFrom q w = true} = ((M.ranked n q).toFinset : Set Word) := by
    ext w
    rw [Finset.mem_coe, List.mem_toFinset, mem_ranked]
    rfl
  have hnodup : (M.ranked n q).Nodup := (M.pairwise_ranked n q).imp ne_of_shortlex
  rw [hset, Set.encard_coe_eq_coe_finsetCard, List.toFinset_card_of_nodup hnodup]

end Ranked

end Automaton

namespace Memo

variable {A : Dfa} {m : Memo A}

theorem Exact.longest_maxLength (h : m.Exact) (q : Option (Fin A.size)) : A.toAutomaton.Longest q (m.maxLength q).1 := by
  cases q with
  | none => exact A.toAutomaton.longest_none
  | some q => exact (h.isLongest q).longest

theorem Exact.count_eq_length (h : m.Exact) (q : Option (Fin A.size)) (n : Nat) :
    (m.count q n).1 = (A.toAutomaton.ranked n q).length := by
  rw [h.count_eq]
  cases q with
  | none => rfl
  | some q => exact (A.toAutomaton.length_wordsFrom n q).symm

theorem Exact.nth_eq_wordAt (h : m.Exact) (q : Option (Fin A.size)) (n k : Nat) : (m.nth q n k).1 =
    if k < (A.toAutomaton.ranked n q).length then .ok (A.toAutomaton.wordAt n q k) else .error (.rankTooLarge k n) := by
  by_cases hk : k < (A.toAutomaton.ranked n q).length
  · have hget : (q.elim [] (A.toAutomaton.wordsFrom n))[k]? = some (A.toAutomaton.wordAt n q k) := by
      rw [Automaton.wordAt_eq hk]
      exact List.getElem?_eq_getElem hk
    rw [if_pos hk, h.nth_eq, hget]
  · have hget : (q.elim [] (A.toAutomaton.wordsFrom n))[k]? = none := List.getElem?_eq_none (Nat.le_of_not_lt hk)
    rw [if_neg hk, h.nth_eq, hget]

end Memo

namespace Usage

/-- Below the total, every rank has a word, and ranks and words of the length correspond in lexicographic order,
whatever was asked before. -/
structure Ranks (A : Dfa) (q : Option (Fin A.size)) (n total : Nat) (word : Nat → Word) : Prop where
  counted : ∀ ops, ((run A ops).memory.count q n).1 = total
  found : ∀ ops k, k < total → ((run A ops).memory.nth q n k).1 = .ok (word k)
  bijective : Set.BijOn word (Set.Iio total) {w | w.length = n ∧ A.toAutomaton.acceptsFrom q w = true}
  ascending : ∀ i j, i < j → j < total → compare (word i) (word j) = .lt
  refused_iff : ∀ ops k, ((run A ops).memory.nth q n k).1 = .error (.rankTooLarge k n) ↔ total ≤ k
  consistent : ∀ ops k, ((run A ops).memory.nth q n k).1 ≠ .error .inconsistentCounts
  sink : q = none → total = 0

/-- The ranks below the count of a length are in bijection with the accepted words of the length. -/
theorem nth_ranks (A : Dfa) (q : Option (Fin A.size)) (n : Nat) : ∃ total word, Ranks A q n total word := by
  have hexact : ∀ ops, (run A ops).memory.Exact := fun ops => (valid_run A ops).1.exact
  refine ⟨(A.toAutomaton.ranked n q).length, A.toAutomaton.wordAt n q, fun ops => (hexact ops).count_eq_length q n,
    fun ops k hk => ?_, A.toAutomaton.bijOn_wordAt n q, fun i j hij hj => Automaton.compare_wordAt hij hj,
    fun ops k => ?_, fun ops k => ?_, ?_⟩
  · rw [(hexact ops).nth_eq_wordAt, if_pos hk]
  · rw [(hexact ops).nth_eq_wordAt]
    by_cases hk : k < (A.toAutomaton.ranked n q).length
    · rw [if_pos hk]
      exact iff_of_false nofun (Nat.not_le_of_lt hk)
    · rw [if_neg hk]
      exact iff_of_true rfl (Nat.le_of_not_lt hk)
  · rw [(hexact ops).nth_eq_wordAt]
    by_cases hk : k < (A.toAutomaton.ranked n q).length
    · rw [if_pos hk]
      nofun
    · rw [if_neg hk]
      nofun
  · rintro rfl
    rfl

/-- Layers that earlier questions have left behind change no count: it is the number of the accepted words of the
length, none for the sink. -/
theorem count_encard (A : Dfa) (ops : List Operation) (q : Option (Fin A.size)) (n : Nat) :
    {w : Word | w.length = n ∧ A.toAutomaton.acceptsFrom q w = true}.encard = ((run A ops).memory.count q n).1 := by
  have hexact : (run A ops).memory.Exact := (valid_run A ops).1.exact
  rw [hexact.count_eq_length]
  exact A.toAutomaton.encard_ranked n q

/-- Lengths that earlier questions noted down, also behind open cycles, change no answer: it is the length of the
longest accepted word. -/
theorem maxLength_longest (A : Dfa) (ops : List Operation) (q : Option (Fin A.size)) :
    A.toAutomaton.Longest q ((run A ops).memory.maxLength q).1 := (valid_run A ops).1.exact.longest_maxLength q

end Usage
end ByteAutomata
