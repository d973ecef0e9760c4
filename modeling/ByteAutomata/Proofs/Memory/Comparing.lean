import ByteAutomata.Proofs.Memory.Exact
import ByteAutomata.Proofs.Canonical
import ByteAutomata.Dfa.Query

/-!
# Comparing and printing with memory

* `Dfa.Compared A B i` : comparing `A` with `B` comes as far as state `i`, that is, no state before it differs
  (`le_alike_iff`);
* `same_eq`, `difference_eq`, `canonical_eq`, `text_eq`, `copy_eq` : the answers depend on the automata alone,
  with a `leaves` lemma beside each. Two memories take part in a comparison and both stay exact.
-/

namespace ByteAutomata

set_option autoImplicit false

/-- The equal pairs in front tell how far two lists agree. -/
theorem le_alike_iff {α : Type} [BEq α] [LawfulBEq α] {xs ys : List α} (hlength : xs.length = ys.length) {k : Nat}
    (hk : k ≤ xs.length) : k ≤ ((xs.zip ys).takeWhile fun p => p.1 == p.2).length ↔ xs.take k = ys.take k := by
  induction xs generalizing ys k with
  | nil =>
    obtain rfl : k = 0 := Nat.le_zero.1 hk
    simp
  | cons x xs ih =>
    cases ys with
    | nil => cases hlength
    | cons y ys =>
      cases k with
      | zero => simp
      | succ k =>
        have hrest := ih (Nat.succ.inj hlength) (Nat.le_of_succ_le_succ hk)
        rw [List.zip_cons_cons, List.take_succ_cons, List.take_succ_cons, List.cons.injEq, ← hrest]
        by_cases hxy : x = y
        · have hpair : (x == y) = true := beq_iff_eq.2 hxy
          rw [List.takeWhile_cons_of_pos (p := fun p : α × α => p.1 == p.2) hpair, List.length_cons,
            Nat.succ_le_succ_iff, and_iff_right hxy]
        · have hpair : ¬ (x == y) = true := fun heq => hxy (beq_iff_eq.1 heq)
          rw [List.takeWhile_cons_of_neg (p := fun p : α × α => p.1 == p.2) hpair]
          exact ⟨fun h => absurd h (Nat.not_succ_le_zero k), fun h => absurd h.1 hxy⟩

theorem mem_take_finRange {n k : Nat} {p : Fin n} : p ∈ (List.finRange n).take k ↔ p.val < k := by
  rw [List.mem_take_iff_getElem]
  constructor
  · rintro ⟨i, hi, rfl⟩
    rw [List.getElem_finRange]
    exact Nat.lt_of_lt_of_le hi (Nat.min_le_left _ _)
  · intro hp
    refine ⟨p.val, ?_, List.getElem_finRange _⟩
    rw [List.length_finRange]
    exact Nat.lt_min.2 ⟨hp, p.isLt⟩

theorem Search.mem_found {σ ℓ : Type} [BEq σ] [Hashable σ] (s : Search σ ℓ) (q : σ) : q ∈ s.found ↔ s.Knows q := by
  unfold found
  rw [List.mem_map]
  constructor
  · rintro ⟨⟨p, path⟩, hnode, rfl⟩
    obtain ⟨i, hi⟩ := Array.mem_iff_getElem?.1 (Array.mem_toList_iff.1 hnode)
    exact ⟨i, path.reverse, by rw [Node, List.reverse_reverse]; exact hi⟩
  · rintro ⟨i, w, hi⟩
    exact ⟨(q, w.reverse), Array.mem_toList_iff.2 (Array.mem_of_getElem? hi), rfl⟩

namespace Dfa

theorem same_congr {A B : Dfa} (h : A.toAutomaton = B.toAutomaton) (C : Dfa) : A.same C = B.same C := by
  rw [Bool.eq_iff_iff, same_iff, same_iff, h]

/-- Start, accepting states and size are the same, and so are the entries of all states before `i`. -/
def Compared (A B : Dfa) (i : Nat) : Prop :=
  (A.start.val = B.start.val ∧ A.acceptingStates = B.acceptingStates ∧ A.size = B.size) ∧
    A.rows.take i = B.rows.take i

end Dfa

namespace Memo

variable {A B : Dfa} {m : Memo A} {k : Memo B}

theorem Exact.snapshot (h : m.Exact) : m.snapshot.toAutomaton = A.toAutomaton := h.automaton

theorem rows_snapshot (h : m.step = A.step) : m.snapshot.rows = A.rows :=
  congrArg (fun step : Fin A.size → UInt8 → Option (Fin A.size) =>
    (List.finRange A.size).map fun q => (runs (step q)).map (Run.map Fin.val)) h

/-! ## Equality -/

/-- How many states have the same entries, up to the first that differs. -/
def alike (A B : Dfa) : Nat := ((A.rows.zip B.rows).takeWhile fun p => p.1 == p.2).length

theorem same_unfold (hm : m.step = A.step) (hk : k.step = B.step) : m.same k =
    if A.start.val = B.start.val ∧ A.acceptingStates = B.acceptingStates ∧ A.size = B.size then
      (alike A B == A.size, m.touchList ((List.finRange A.size).take (alike A B + 1)),
        k.touchList ((List.finRange B.size).take (alike A B + 1)))
    else (false, m, k) := by
  unfold same
  rw [rows_snapshot hm, rows_snapshot hk]
  rfl

theorem alike_le (A B : Dfa) : alike A B ≤ A.size := by
  refine (List.takeWhile_prefix _).length_le.trans ?_
  rw [List.length_zip, Dfa.length_rows]
  exact Nat.min_le_left _ _

theorem le_alike (hsize : A.size = B.size) {i : Nat} (hi : i ≤ A.size) :
    i ≤ alike A B ↔ A.rows.take i = B.rows.take i :=
  le_alike_iff (by rw [Dfa.length_rows, Dfa.length_rows, hsize]) (by rwa [Dfa.length_rows])

theorem alike_eq_size (hsize : A.size = B.size) : alike A B = A.size ↔ A.rows = B.rows := by
  have hle := alike_le A B
  have hall := le_alike hsize (Nat.le_refl A.size)
  rw [List.take_of_length_le (Dfa.length_rows A).le, hsize, List.take_of_length_le (Dfa.length_rows B).le] at hall
  rw [← hall, ← hsize]
  exact ⟨fun h => h.ge, fun h => Nat.le_antisymm hle h⟩

theorem same_eq (hm : m.step = A.step) (hk : k.step = B.step) : (m.same k).1 = A.same B := by
  rw [same_unfold hm hk, Bool.eq_iff_iff]
  unfold Dfa.same
  split
  next h =>
    obtain ⟨hstart, haccepting, hsize⟩ := h
    rw [beq_iff_eq, alike_eq_size hsize, beq_iff_eq.2 hstart, beq_iff_eq.2 haccepting, beq_iff_eq.2 hsize]
    exact beq_iff_eq.symm
  next h =>
    refine ⟨fun hfalse => (nomatch hfalse), fun htrue => ?_⟩
    rw [Bool.and_eq_true, Bool.and_eq_true, Bool.and_eq_true, beq_iff_eq, beq_iff_eq, beq_iff_eq] at htrue
    exact absurd ⟨htrue.1.1.1, htrue.1.1.2, htrue.1.2⟩ h

/-- Comparing looks up steps on both sides, as far as it comes. -/
theorem Exact.leaves_same (hm : m.Exact) (hk : k.Exact) :
    m.Leaves (m.same k).2.1 (fun p => A.Compared B p) ∧ k.Leaves (m.same k).2.2 fun p => A.Compared B p := by
  rw [same_unfold hm.step hk.step]
  unfold Dfa.Compared
  split
  next h =>
    refine ⟨(hm.leaves_of_touched (touched_touchList m _)).congr fun p => ?_,
      (hk.leaves_of_touched (touched_touchList k _)).congr fun p => ?_⟩
    all_goals rw [mem_take_finRange, Nat.lt_succ_iff, and_iff_right h]
    · exact le_alike h.2.2 p.isLt.le
    · exact le_alike h.2.2 (by rw [h.2.2]; exact p.isLt.le)
  next h =>
    exact ⟨(Leaves.refl hm).congr fun p => ⟨False.elim, fun hp => absurd hp.1 h⟩,
      (Leaves.refl hk).congr fun p => ⟨False.elim, fun hp => absurd hp.1 h⟩⟩

/-! ## Differences -/

theorem Exact.difference_eq (hm : m.Exact) (hk : k.Exact) :
    (m.difference k).1 = A.toAutomaton.distinguishing B.toAutomaton := by
  show m.automaton.distinguishing k.automaton = _
  rw [hm.automaton, hk.automaton]

/-- The automaton of `A` with other steps. -/
def withSteps (A : Dfa) (step : Fin A.size → UInt8 → Option (Fin A.size)) : Automaton :=
  ⟨A.size, some A.start, A.accepting.get, step⟩

theorem Exact.leaves_difference (hm : m.Exact) (hk : k.Exact) :
    m.Leaves (m.difference k).2.1
        (fun p => ∃ r, (some p, r) ∈ (A.toAutomaton.difference B.toAutomaton).expanded) ∧
      k.Leaves (m.difference k).2.2
        fun p => ∃ r, (r, some p) ∈ (A.toAutomaton.difference B.toAutomaton).expanded := by
  have hmem : ∀ {α β : Type} {l : List (Option α × Option β)} {a : α},
      a ∈ l.filterMap Prod.fst ↔ ∃ r, (some a, r) ∈ l := by simp
  have hmem' : ∀ {α β : Type} {l : List (Option α × Option β)} {b : β},
      b ∈ l.filterMap Prod.snd ↔ ∃ r, (r, some b) ∈ l := by simp
  have hleft : (m.difference k).2.1 =
      m.touchList ((A.toAutomaton.difference B.toAutomaton).expanded.filterMap Prod.fst) := by
    show (fun step step' => m.touchList (((withSteps A step).difference (withSteps B step')).expanded.filterMap Prod.fst))
      m.step k.step = _
    rw [hm.step, hk.step]
    rfl
  have hright : (m.difference k).2.2 =
      k.touchList ((A.toAutomaton.difference B.toAutomaton).expanded.filterMap Prod.snd) := by
    show (fun step step' => k.touchList (((withSteps A step).difference (withSteps B step')).expanded.filterMap Prod.snd))
      m.step k.step = _
    rw [hm.step, hk.step]
    rfl
  rw [hleft, hright]
  exact ⟨(hm.leaves_of_touched (touched_touchList m _)).congr fun p => hmem,
    (hk.leaves_of_touched (touched_touchList k _)).congr fun p => hmem'⟩

/-! ## Canonical forms, texts and copies -/

theorem Exact.canonical_eq (h : m.Exact) : m.canonical.1 = A.canonical := by
  show m.automaton.canonical = A.toAutomaton.canonical
  rw [h.automaton]

/-- The canonical form needs the steps of the states that words lead to. -/
theorem Exact.leaves_canonical (h : m.Exact) :
    m.Leaves m.canonical.2 fun p => ∃ w, A.toAutomaton.read A.toAutomaton.start w = some p := by
  have hfound : m.canonical.2 = m.touchList A.toAutomaton.explore.found := by
    show (fun step => m.touchList (withSteps A step).explore.found) m.step = _
    rw [h.step]
    rfl
  rw [hfound]
  refine (h.leaves_of_touched (touched_touchList m _)).congr fun p => (Search.mem_found _ _).trans ?_
  refine (Search.explore_knows (by rw [Fintype.card_fin]; rfl) p).trans ?_
  exact exists_congr fun w => A.toAutomaton.walk_iff

theorem Exact.leaves_touchAll (h : m.Exact) : m.Leaves m.touchAll fun _ => True :=
  h.leaves_of_touched (touched_touchAll m)

theorem Exact.text_eq (h : m.Exact) : m.text.1 = A.text :=
  (Dfa.text_eq_iff_toAutomaton _ _).2 h.leaves_touchAll.exact.snapshot

/-- A copy is the same automaton and has its text. It is stored as the tables are now. -/
theorem Exact.copy_eq (h : m.Exact) : m.copy.1 = .copy m.density true A.text := by
  have hsame : ((fresh m.snapshot).same m).1 = true := by
    rw [same_eq rfl h.step, Dfa.same_iff]
    exact h.snapshot
  have htext : ((fresh m.snapshot).same m).2.1.text.1 = A.text := by
    rw [((exact_fresh m.snapshot).leaves_same h).1.exact.text_eq]
    exact (Dfa.text_eq_iff_toAutomaton _ _).2 h.snapshot
  unfold copy
  dsimp only
  rw [hsame, htext]
  rfl

theorem Exact.leaves_copy (h : m.Exact) : m.Leaves m.copy.2 fun _ => True := by
  refine ((exact_fresh m.snapshot).leaves_same h).2.congr fun p => ⟨fun _ => trivial, fun _ => ?_⟩
  obtain ⟨hrows, haccepting, hstart⟩ := (Dfa.toAutomaton_eq_iff _ _).1 h.snapshot
  exact ⟨⟨hstart, haccepting, rfl⟩, by rw [hrows]⟩

end Memo
end ByteAutomata
