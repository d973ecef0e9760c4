import ByteAutomata.Proofs.Memory.Tables
import ByteAutomata.Proofs.WordOrder

/-!
# What is remembered does not show

* `Automaton.IsLongest`, `Automaton.longestFrom` : the length of a longest accepted word, of which there is
  one only (`IsLongest.unique`);
* `Memo.Exact` : what is remembered is right, and no table is crowded once successors are remembered;
* `Memo.Leaves m k P` : `k` is a memory that a question leaves behind `m` if it looks up steps of the states
  `P`. It is as exact, so one question after the other leaves exact memories (`Leaves.trans`);
* `isDead_eq`, `maxLength_eq`, `count_eq`, `nth_eq` : the answers depend on the automaton alone, with a
  `leaves` lemma beside each.
-/

namespace ByteAutomata

set_option autoImplicit false

namespace Automaton

variable {M : Automaton}

/-- The length of a longest word accepted from a state, which is zero if there is none. -/
structure IsLongest (M : Automaton) (q : Fin M.size) (l : MaxLength) : Prop where
  attained : M.Live q → M.Attained q l
  bounded : M.Bounded q l
  dead : ¬ M.Live q → l = .finite 0

/-- Words get no longer than a bound. -/
theorem Attained.covers {q : Fin M.size} {l k : MaxLength} (hl : M.Attained q l) (hk : M.Bounded q k) :
    k = .infinite ∨ ∃ i j, l = .finite i ∧ k = .finite j ∧ i ≤ j := by
  cases k with
  | infinite => exact Or.inl rfl
  | finite j =>
    cases l with
    | finite i =>
      obtain ⟨w, hw, hi⟩ := hl
      exact Or.inr ⟨i, j, rfl, rfl, Nat.le_trans hi (hk w hw)⟩
    | infinite =>
      obtain ⟨w, hw, hj⟩ := hl (j + 1)
      have hle : w.length ≤ j := hk w hw
      omega

theorem IsLongest.unique {q : Fin M.size} {l k : MaxLength} (hl : M.IsLongest q l) (hk : M.IsLongest q k) : l = k := by
  by_cases hlive : M.Live q
  · rcases (hl.attained hlive).covers hk.bounded with rfl | ⟨i, j, rfl, rfl, hij⟩
    · rcases (hk.attained hlive).covers hl.bounded with rfl | ⟨i, j, hi, -, -⟩
      · rfl
      · cases hi
    · rcases (hk.attained hlive).covers hl.bounded with hinfinite | ⟨i', j', hi', hj', hji⟩
      · cases hinfinite
      · cases hi'
        cases hj'
        exact congrArg MaxLength.finite (Nat.le_antisymm hij hji)
  · rw [hl.dead hlive, hk.dead hlive]

/-- The length of a longest word accepted from a state or the sink, searched for from scratch. -/
def longestFrom (M : Automaton) : Option (Fin M.size) → MaxLength
  | none => .finite 0
  | some q =>
    if M.alive.get q then
      (longest (fun p => ((M.shape.successors.get p).map Prod.fst).filter M.alive.get) M.size q
        (Vector.replicate M.size .unvisited)).1
    else .finite 0

end Automaton

namespace Memo

variable {A : Dfa} {m k l : Memo A} {P Q : Fin A.size → Prop}

/-- What is remembered is right, steps are looked up in no crowded table once successors are remembered, and
counts of positive lengths are remembered with the successors only. -/
structure Exact (m : Memo A) : Prop extends Sound m where
  bounds : A.toAutomaton.BoundNoted m.visits
  ready : m.known.isSome = true → m.Ready
  counted : 1 < m.layers.size → m.known.isSome = true

theorem exact_fresh (A : Dfa) : (fresh A).Exact where
  toSound := sound_fresh A
  bounds := boundNoted_fresh A
  ready h := nomatch h
  counted h := absurd h (Nat.not_lt_zero 1)

theorem Exact.automaton (h : m.Exact) : m.automaton = A.toAutomaton := automaton_congr (k := fresh A) h.step

/-- What a question that looks up steps of the states `P` leaves behind. -/
structure Leaves (m k : Memo A) (P : Fin A.size → Prop) : Prop extends LookedUp m k P where
  exact : k.Exact
  keeps : m.known.isSome = true → k.known.isSome = true

namespace Leaves

theorem refl (h : m.Exact) : Leaves m m fun _ => False := ⟨.refl m, h, id⟩

theorem trans (h : Leaves m k P) (h' : Leaves k l Q) : Leaves m l fun p => P p ∨ Q p :=
  ⟨h.toLookedUp.trans h'.toLookedUp, h'.exact, fun hm => h'.keeps (h.keeps hm)⟩

theorem congr (h : Leaves m k P) (hiff : ∀ p, P p ↔ Q p) : Leaves m k Q :=
  ⟨h.toLookedUp.congr hiff, h.exact, h.keeps⟩

/-- Once successors are remembered, it does not matter which steps are looked up. -/
theorem of_known (h : Leaves m k P) (hm : m.Exact) (hknown : m.known.isSome = true) (Q : Fin A.size → Prop) :
    Leaves m k Q := ⟨h.toLookedUp.of_ready (hm.ready hknown) Q, h.exact, h.keeps⟩

end Leaves

/-- Looking up steps, and nothing else, leaves an exact memory. -/
theorem Exact.leaves_of_touched (h : m.Exact) (ht : Touched m k P) : Leaves m k P := by
  obtain ⟨hlooked, hknown, hvisits, hlayers⟩ := ht
  have hsound : k.Sound := by
    refine ⟨hlooked.step.trans h.step, fun s hs => h.known s (hknown ▸ hs), ?_, fun p => ?_, fun i counts hi => ?_⟩
    · rw [hvisits]
      exact h.noted
    · rw [hvisits]
      exact h.idle p
    · exact h.layers i counts (hlayers ▸ hi)
  refine ⟨hlooked, ⟨hsound, ?_, fun hk => ?_, fun hk => ?_⟩, fun hm => ?_⟩
  · rw [hvisits]
    exact h.bounds
  · rw [hknown] at hk
    exact hlooked.ready (h.ready hk)
  · rw [hknown]
    exact h.counted (hlayers ▸ hk)
  · rw [hknown]
    exact hm

theorem Exact.leaves_touch (h : m.Exact) (q : Fin A.size) : Leaves m (m.touch q) (· = q) :=
  h.leaves_of_touched (touched_touch m q)

/-! ## Successors and live states -/

/-- The first question about whole words looks up all steps. -/
theorem Exact.leaves_shape (h : m.Exact) :
    Leaves m m.shape.2 (fun _ => True) ∧ m.shape.2.known.isSome = true := by
  obtain ⟨-, hsound, hlayers, hvisits⟩ := sound_shape h.toSound
  have hlooked : LookedUp m m.shape.2 (fun _ => True) ∧ m.shape.2.known.isSome = true ∧ m.shape.2.Ready := by
    unfold shape
    cases hk : m.known with
    | some s =>
      have hknown : m.known.isSome = true := by
        rw [hk]
        rfl
      exact ⟨(LookedUp.refl m).of_ready (h.ready hknown) _, hknown, h.ready hknown⟩
    | none =>
      have hall := touched_touchAll m
      refine ⟨⟨hall.settled, hall.kept⟩, rfl, fun p => ?_⟩
      show (m.touchAll.tables.get p).isCrowded = false
      rw [hall.settled p trivial, Table.isCrowded_settled]
  obtain ⟨hlooked, hknown, hready⟩ := hlooked
  refine ⟨⟨hlooked, ⟨hsound, ?_, fun _ => hready, fun _ => hknown⟩, fun _ => hknown⟩, hknown⟩
  rw [hvisits]
  exact h.bounds

/-! ## Dead states and longest words -/

theorem Exact.isDead_eq (h : m.Exact) (q : Option (Fin A.size)) :
    (m.isDead q).1 = match q with
      | none => true
      | some q => !A.toAutomaton.alive.get q := by
  cases q with
  | none => rfl
  | some q =>
    show (!m.shape.1.live.get q) = _
    rw [(sound_shape h.toSound).1]
    rfl

/-- Nothing is looked up for the sink. -/
theorem Exact.leaves_isDead (h : m.Exact) (q : Option (Fin A.size)) : Leaves m (m.isDead q).2 fun _ => q.isSome = true := by
  cases q with
  | none => exact (Leaves.refl h).congr fun p => ⟨False.elim, fun hq => nomatch hq⟩
  | some q => exact h.leaves_shape.1.congr fun p => ⟨fun _ => rfl, fun _ => trivial⟩

/-- Looking for a longest word leaves the tables, the successors and the counts. -/
theorem maxLength_rest (m : Memo A) (q : Fin A.size) : (m.maxLength (some q)).2.tables = m.shape.2.tables ∧
    (m.maxLength (some q)).2.known = m.shape.2.known ∧ (m.maxLength (some q)).2.layers = m.shape.2.layers ∧
      (m.shape.1.live.get q = false → (m.maxLength (some q)).1 = .finite 0 ∧ (m.maxLength (some q)).2 = m.shape.2) := by
  unfold maxLength
  dsimp only
  by_cases hlive : m.shape.1.live.get q = true
  · rw [if_pos hlive]
    refine ⟨?_, ?_, ?_, fun hdead => absurd (hlive.symm.trans hdead) Bool.true_eq_false_eq_False⟩
    all_goals cases m.shape.2.visits.get q <;> rfl
  · rw [if_neg hlive]
    exact ⟨rfl, rfl, rfl, fun _ => ⟨rfl, rfl⟩⟩

theorem Exact.isLongest (h : m.Exact) (q : Fin A.size) : A.toAutomaton.IsLongest q (m.maxLength (some q)).1 where
  attained hlive := (maxLength_spec h.toSound hlive).1
  bounded := (maxLength_bounds h.toSound h.bounds q).1
  dead hdead := by
    have hlive : m.shape.1.live.get q = false := by
      rw [(sound_shape h.toSound).1]
      exact Bool.eq_false_of_not_eq_true fun hq => hdead ((A.toAutomaton.alive_iff q).1 hq)
    exact ((maxLength_rest m q).2.2.2 hlive).1

theorem maxLength_fresh (A : Dfa) (q : Option (Fin A.size)) :
    ((fresh A).maxLength q).1 = A.toAutomaton.longestFrom q := by
  cases q with
  | none => rfl
  | some q =>
    have hget : (fresh A).shape.2.visits.get q = .unvisited := Vector.getElem_replicate q.isLt
    unfold maxLength
    dsimp only
    rw [hget, (sound_shape (sound_fresh A)).1]
    by_cases hlive : A.toAutomaton.alive.get q = true
    · exact (congrArg Prod.fst (if_pos hlive)).trans (if_pos hlive).symm
    · exact (congrArg Prod.fst (if_neg hlive)).trans (if_neg hlive).symm

/-- Lengths noted down on the way to other states change no answer. -/
theorem Exact.maxLength_eq (h : m.Exact) (q : Option (Fin A.size)) :
    (m.maxLength q).1 = A.toAutomaton.longestFrom q := by
  rw [← maxLength_fresh]
  cases q with
  | none => rfl
  | some q => exact (h.isLongest q).unique ((exact_fresh A).isLongest q)

theorem Exact.leaves_maxLength (h : m.Exact) (q : Option (Fin A.size)) :
    Leaves m (m.maxLength q).2 fun _ => q.isSome = true := by
  cases q with
  | none => exact h.leaves_isDead none
  | some q =>
    obtain ⟨hshape, hknown⟩ := h.leaves_shape
    obtain ⟨htables, hknown', hlayers, hdead⟩ := maxLength_rest m q
    have hsound : (m.maxLength (some q)).2.Sound := by
      by_cases hlive : A.toAutomaton.Live q
      · exact (maxLength_spec h.toSound hlive).2
      · have hlive' : m.shape.1.live.get q = false := by
          rw [(sound_shape h.toSound).1]
          exact Bool.eq_false_of_not_eq_true fun hq => hlive ((A.toAutomaton.alive_iff q).1 hq)
        rw [(hdead hlive').2]
        exact hshape.exact.toSound
    refine ⟨⟨fun p _ => ?_, fun p hp => absurd rfl hp⟩, ⟨hsound, ?_, fun _ => ?_, fun _ => ?_⟩, fun _ => ?_⟩
    · rw [htables]
      exact hshape.settled p trivial
    · exact (maxLength_bounds h.toSound h.bounds q).2
    · intro p
      rw [htables]
      exact hshape.exact.ready hknown p
    all_goals
      rw [hknown']
      exact hknown

/-! ## Counts and ranks -/

/-- Counts of positive lengths need all steps, unless they are remembered, and then all steps have been looked
up before. -/
theorem Exact.leaves_fill (h : m.Exact) (length : Nat) : Leaves m (m.fill length) fun _ => 0 < length := by
  have hsound := (sound_fill h.toSound length).1
  obtain ⟨hprimed, hpos⟩ := sound_primed h.toSound
  -- counts of length zero are taken without a look at any step
  have hrest : m.primed.tables = m.tables ∧ m.primed.known = m.known ∧ m.primed.visits = m.visits := by
    unfold primed
    split <;> exact ⟨rfl, rfl, rfl⟩
  have hcounted : 1 < m.primed.layers.size → m.known.isSome = true := by
    unfold primed
    split
    · exact fun hlayers => absurd hlayers (Nat.lt_irrefl 1)
    · exact h.counted
  obtain ⟨htables, hknown, hvisits⟩ := hrest
  have hexact : m.primed.Exact := by
    refine ⟨hprimed, ?_, fun hk p => ?_, fun hlayers => ?_⟩
    · rw [hvisits]
      exact h.bounds
    · rw [htables]
      exact h.ready (hknown ▸ hk) p
    · rw [hknown]
      exact hcounted hlayers
  have hstay : Leaves m m.primed fun _ => False :=
    ⟨⟨fun _ hp => hp.elim, fun p _ => by rw [htables]⟩, hexact, fun hm => hknown ▸ hm⟩
  rw [fill_eq] at hsound ⊢
  by_cases hlen : length < m.primed.layers.size
  · rw [if_pos hlen]
    by_cases hzero : 0 < length
    · exact hstay.of_known h (hcounted (by omega)) _
    · exact hstay.congr fun p => ⟨False.elim, fun hpositive => absurd hpositive hzero⟩
  · rw [if_neg hlen] at hsound ⊢
    obtain ⟨hshape, hknown'⟩ := hexact.leaves_shape
    have hmore : Leaves m.primed (m.primed.more length) fun _ => True :=
      ⟨⟨hshape.settled, hshape.kept⟩, ⟨hsound, hshape.exact.bounds, hshape.exact.ready, fun _ => hknown'⟩,
        hshape.keeps⟩
    exact (hstay.trans hmore).congr fun p => ⟨fun _ => by omega, fun _ => Or.inr trivial⟩

theorem Exact.count_eq (h : m.Exact) (q : Option (Fin A.size)) (length : Nat) :
    (m.count q length).1 = match q with
      | none => 0
      | some q => A.toAutomaton.countFrom length q := by
  cases q with
  | none => rfl
  | some q => exact (count_spec h.toSound q length).1

theorem Exact.leaves_count (h : m.Exact) (q : Option (Fin A.size)) (length : Nat) :
    Leaves m (m.count q length).2 fun _ => q.isSome = true ∧ 0 < length := by
  cases q with
  | none => exact (Leaves.refl h).congr fun p => ⟨False.elim, fun hq => nomatch hq.1⟩
  | some q => exact (h.leaves_fill length).congr fun p => (and_iff_right rfl).symm

/-- Finding a word by rank remembers what counting the words does. -/
theorem nth_snd (m : Memo A) (q : Option (Fin A.size)) (length rank : Nat) :
    (m.nth q length rank).2 = (m.count q length).2 := by
  unfold nth
  cases q with
  | none => rfl
  | some q =>
    dsimp only
    split
    · split <;> rfl
    · rfl

/-- The word of a rank, if there are that many. -/
theorem Exact.nth_eq (h : m.Exact) (q : Option (Fin A.size)) (length rank : Nat) :
    (m.nth q length rank).1 =
      match (q.elim [] (A.toAutomaton.wordsFrom length))[rank]? with
      | some w => .ok w
      | none => .error (.rankTooLarge rank length) := by
  cases q with
  | none => rfl
  | some q =>
    have hlength := A.toAutomaton.length_wordsFrom length q
    by_cases hrank : rank < A.toAutomaton.countFrom length q
    · obtain ⟨w, hw, -⟩ := nth_spec h.toSound hrank
      have hget : ((some q).elim [] (A.toAutomaton.wordsFrom length))[rank]? = some w :=
        nth_getElem? h.toSound hrank hw
      rw [hw, hget]
    · have hget : ((some q).elim [] (A.toAutomaton.wordsFrom length))[rank]? = none :=
        List.getElem?_eq_none (by show (A.toAutomaton.wordsFrom length q).length ≤ rank; omega)
      have hcount := (count_spec h.toSound q length).1
      rw [hget]
      unfold nth
      dsimp only
      rw [hcount, if_neg hrank]

theorem Exact.leaves_nth (h : m.Exact) (q : Option (Fin A.size)) (length rank : Nat) :
    Leaves m (m.nth q length rank).2 fun _ => q.isSome = true ∧ 0 < length := by
  rw [nth_snd]
  exact h.leaves_count q length

end Memo
end ByteAutomata
