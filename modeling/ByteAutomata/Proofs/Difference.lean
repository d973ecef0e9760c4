import ByteAutomata.Automaton.Difference
import ByteAutomata.Proofs.Provider
import Mathlib.Data.Fintype.Option
import Mathlib.Data.Fintype.Prod

/-!
# The least word that exactly one of two automata accepts

* `Automaton.readBoth` : the pair of states that a word leads to. The product has a walk of the word to it, unless
  it is the pair of sinks, where both sides reject (`readBoth_of_walk`, `walk_of_readBoth`);
* `Automaton.SearchFinds` : what the search of the product ends with, when nothing bounds its rounds. The bound of
  the search does not cut it short (`searchFinds_distinguishing`);
* `distinguishing_eq_none_iff`, `distinguishing_least` : it finds the shortlex least word on which the sides differ,
  or there is none, because the pairs are found in the order of their least words;
* `Provider.compared_of_finite` : so it does for automata that callers provide, and equivalence decides whether they
  accept the same words.
-/

namespace ByteAutomata

set_option autoImplicit false

namespace Automaton

variable (L R : Automaton)

/-! ## Walks in the product -/

/-- The pair of states that a word leads to. -/
def readBoth (w : Word) : Option (Fin L.size) × Option (Fin R.size) := (L.read L.start w, R.read R.start w)

theorem readBoth_snoc (w : Word) (b : UInt8) :
    L.readBoth R (w ++ [b]) = (L.advance (L.readBoth R w).1 b, R.advance (L.readBoth R w).2 b) := by
  rw [readBoth, read_snoc, read_snoc]
  rfl

theorem disagree_readBoth (w : Word) : L.disagree R (L.readBoth R w) = true ↔ L.accepts w ≠ R.accepts w := bne_iff_ne

theorem mem_pairEdges {s t : Option (Fin L.size) × Option (Fin R.size)} {b : UInt8} :
    (b, t) ∈ L.pairEdges R s ↔ s ≠ (none, none) ∧ t = (L.advance s.1 b, R.advance s.2 b) := by
  have hall : (b, t) ∈ Byte.all.map (fun b => (b, (L.advance s.1 b, R.advance s.2 b))) ↔
      t = (L.advance s.1 b, R.advance s.2 b) := by
    rw [List.mem_map]
    constructor
    · rintro ⟨c, -, hc⟩
      cases hc
      rfl
    · rintro rfl
      exact ⟨b, Byte.mem_all b, rfl⟩
  unfold pairEdges
  split
  next => exact ⟨fun h => (nomatch h), fun h => absurd rfl h.1⟩
  next p q hne => exact hall.trans (and_iff_right fun h => hne (congrArg Prod.fst h) (congrArg Prod.snd h)).symm

theorem pairwise_pairEdges (s : Option (Fin L.size) × Option (Fin R.size)) :
    (L.pairEdges R s).Pairwise fun e e' => e.1 < e'.1 := by
  unfold pairEdges
  split
  next => exact List.Pairwise.nil
  next => exact List.pairwise_map.2 Byte.pairwise_all

variable {L R}

theorem readBoth_of_walk {w : Word} {s : Option (Fin L.size) × Option (Fin R.size)}
    (h : Search.Walk (L.pairEdges R) [(L.start, R.start)] w s) : L.readBoth R w = s := by
  induction h with
  | start h => exact (List.mem_singleton.1 h).symm
  | step _ he ih =>
    rw [readBoth_snoc, ih]
    exact ((L.mem_pairEdges R).1 he).2.symm

/-- No walk leaves the pair of sinks, and no word does. -/
theorem walk_of_readBoth {w : Word} (h : L.readBoth R w ≠ (none, none)) :
    Search.Walk (L.pairEdges R) [(L.start, R.start)] w (L.readBoth R w) := by
  induction w using List.reverseRecOn with
  | nil => exact .start (List.mem_singleton.2 rfl)
  | append_singleton w b ih =>
    rw [readBoth_snoc] at h ⊢
    have hw : L.readBoth R w ≠ (none, none) := by
      intro hsinks
      rw [hsinks] at h
      exact h rfl
    exact (ih hw).step ((L.mem_pairEdges R).2 ⟨hw, rfl⟩)

/-- A word on which the sides differ leads to a goal of the search. -/
theorem exists_walk_of_ne {w : Word} (h : L.accepts w ≠ R.accepts w) :
    ∃ s, Search.Walk (L.pairEdges R) [(L.start, R.start)] w s ∧ L.disagree R s = true := by
  have hgoal := (L.disagree_readBoth R w).2 h
  refine ⟨L.readBoth R w, walk_of_readBoth fun hsinks => ?_, hgoal⟩
  rw [hsinks] at hgoal
  cases hgoal

/-! ## The search -/

variable (L R)

/-- Without a bound on its rounds the search of the product ends with this word, or without a word. -/
def SearchFinds (word : Option Word) : Prop :=
  ∃ s goal, Search.Ends (L.pairEdges R) (L.disagree R) 0 (Search.empty.discover [] (L.start, R.start)) (s, goal) ∧
    word = goal.bind fun i => s.nodes[i]?.map fun node => node.2.reverse

/-- What the search of the product finds, up to the bound on its rounds. -/
def product : Search (Option (Fin L.size) × Option (Fin R.size)) UInt8 × Option Nat :=
  Search.seek (L.pairEdges R) (L.disagree R) ((L.size + 1) * (R.size + 1)) [(L.start, R.start)]

theorem distinguishing_eq :
    L.distinguishing R = (L.product R).2.bind fun i => (L.product R).1.nodes[i]?.map fun node => node.2.reverse := rfl

theorem card_pairs : Fintype.card (Option (Fin L.size) × Option (Fin R.size)) ≤ (L.size + 1) * (R.size + 1) := by
  rw [Fintype.card_prod, Fintype.card_option, Fintype.card_option, Fintype.card_fin, Fintype.card_fin]

theorem searchFinds_distinguishing : L.SearchFinds R (L.distinguishing R) :=
  ⟨(L.product R).1, (L.product R).2,
    Search.seek_ends (L.pairEdges R) [(L.start, R.start)] (L.disagree R) (L.card_pairs R), L.distinguishing_eq R⟩

/-- The search finds a word on which the sides differ, before which there is none, or there is none at all. -/
theorem distinguishing_cases :
    (L.distinguishing R = none ∧ ∀ w, L.accepts w = R.accepts w) ∨
      ∃ w, L.distinguishing R = some w ∧ L.accepts w ≠ R.accepts w ∧
        ∀ v, L.accepts v ≠ R.accepts v → (shortlex w v).isLE = true := by
  have hsearch := Search.seek_least (L.pairEdges R) [(L.start, R.start)] (L.disagree R) (L.card_pairs R)
    (L.pairwise_pairEdges R) (Nat.le_refl 1)
  rw [distinguishing_eq]
  rcases hsearch with ⟨hnone, hmissed⟩ | ⟨k, s, w, hk, hnode, hwalk, hgoal, hleast⟩
  · refine Or.inl ⟨?_, fun w => ?_⟩
    · rw [product, hnone]
      rfl
    · by_contra hne
      obtain ⟨s, hwalk, hgoal⟩ := exists_walk_of_ne hne
      rw [hmissed w s hwalk] at hgoal
      cases hgoal
  · refine Or.inr ⟨w, ?_, ?_, fun v hv => ?_⟩
    · have hword : (L.product R).1.nodes[k]? = some (s, w.reverse) := hnode
      rw [show (L.product R).2 = some k from hk, Option.bind_some, hword, Option.map_some, List.reverse_reverse]
    · rw [← disagree_readBoth, readBoth_of_walk hwalk]
      exact hgoal
    · obtain ⟨t, htwalk, ht⟩ := exists_walk_of_ne hv
      exact hleast v t htwalk ht

theorem distinguishing_eq_none_iff : L.distinguishing R = none ↔ ∀ w, L.accepts w = R.accepts w := by
  rcases L.distinguishing_cases R with ⟨hnone, hsame⟩ | ⟨w, hw, hne, -⟩
  · exact iff_of_true hnone hsame
  · rw [hw]
    exact iff_of_false (Option.some_ne_none w) fun hsame => hne (hsame w)

theorem distinguishing_least (w : Word) (h : L.distinguishing R = some w) :
    L.accepts w ≠ R.accepts w ∧ ∀ v, L.accepts v ≠ R.accepts v → (shortlex w v).isLE = true := by
  rcases L.distinguishing_cases R with ⟨hnone, -⟩ | ⟨v, hv, hleast⟩
  · rw [hnone] at h
    cases h
  · obtain rfl := Option.some.inj (hv.symm.trans h)
    exact hleast

theorem equivalent_iff : L.equivalent R = true ↔ ∀ w, L.accepts w = R.accepts w := by
  rw [equivalent, Option.isNone_iff_eq_none, distinguishing_eq_none_iff]

theorem equivalent_comm : L.equivalent R = R.equivalent L := by
  rw [Bool.eq_iff_iff, equivalent_iff, equivalent_iff]
  exact forall_congr' fun w => eq_comm

end Automaton

/-! ## Automata that callers provide -/

namespace Provider

/-- The automata `A` and `B` of two providers are searched for the shortlex least word that exactly one of the
providers accepts. -/
structure Compared (L R : Provider) (A B : Automaton) : Prop where
  /-- The search ends by itself. -/
  ends : A.SearchFinds B (A.distinguishing B)
  none_iff : A.distinguishing B = none ↔ ∀ w, L.accepts w = R.accepts w
  least : ∀ w, A.distinguishing B = some w →
    L.accepts w ≠ R.accepts w ∧ ∀ v, L.accepts v ≠ R.accepts v → (shortlex w v).isLE = true
  equivalent_iff : A.equivalent B = true ↔ ∀ w, L.accepts w = R.accepts w
  symmetric : A.equivalent B = B.equivalent A

/-- Automata whose words lead to finitely many states are compared by the words that they accept. They are numbered
by any sizes that are large enough, and there are such sizes. -/
theorem compared_of_finite (L R : Provider) (hL : {q | L.Reached q}.Finite) (hR : {q | R.Reached q}.Finite) :
    (∃ m, L.Within m) ∧ (∃ n, R.Within n) ∧
      ∀ m n, L.Within m → R.Within n → Compared L R (L.automaton m) (R.automaton n) := by
  refine ⟨exists_within hL, exists_within hR, fun m n hm hn => ?_⟩
  have hdiffer := (L.automaton m).distinguishing_least (R.automaton n)
  have hnone := (L.automaton m).distinguishing_eq_none_iff (R.automaton n)
  have hequivalent := (L.automaton m).equivalent_iff (R.automaton n)
  simp only [accepts_automaton hm, accepts_automaton hn] at hdiffer hnone hequivalent
  exact ⟨Automaton.searchFinds_distinguishing _ _, hnone, hdiffer, hequivalent, Automaton.equivalent_comm _ _⟩

/-- Up to four zeros are told from up to two by four zeros, where the second side has long been dead. -/
theorem compared_of_finite_fewZeros : {q | (fewZeros 4).Reached q}.Finite ∧ {q | (fewZeros 2).Reached q}.Finite ∧
    ∃ m n, (fewZeros 4).Within m ∧ (fewZeros 2).Within n ∧
      ((fewZeros 4).automaton m).distinguishing ((fewZeros 2).automaton n) = some [0, 0, 0, 0] := by
  have hL := reached_fewZeros_finite 4
  have hR := reached_fewZeros_finite 2
  obtain ⟨⟨m, hm⟩, ⟨n, hn⟩, hcompared⟩ := compared_of_finite (fewZeros 4) (fewZeros 2) hL hR
  have hsearch := hcompared m n hm hn
  refine ⟨hL, hR, m, n, hm, hn, ?_⟩
  have honly : ∀ w, (fewZeros 4).accepts w ≠ (fewZeros 2).accepts w ↔ w = [0, 0, 0, 0] := by
    intro w
    have hlist : ([0, 0, 0, 0] : Word) = List.replicate 4 0 := rfl
    rw [ne_eq, Bool.eq_iff_iff, accepts_fewZeros, accepts_fewZeros, hlist, List.eq_replicate_iff]
    by_cases hzeros : ∀ b ∈ w, b = 0
    · rw [and_iff_right hzeros, and_iff_right hzeros, and_iff_left hzeros]
      omega
    · exact iff_of_false (not_not.2 (iff_of_false (fun h => hzeros h.1) fun h => hzeros h.1)) fun h => hzeros h.2
  cases hword : ((fewZeros 4).automaton m).distinguishing ((fewZeros 2).automaton n) with
  | none => exact absurd (hsearch.none_iff.1 hword [0, 0, 0, 0]) ((honly _).2 rfl)
  | some w => rw [(honly w).1 (hsearch.least w hword).1]

end Provider
end ByteAutomata
