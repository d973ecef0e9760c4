import ByteAutomata.Proofs.Nerode
import Mathlib.Data.Fintype.EquivFin

/-!
# Sorting states until no class is added

* `number`, `Numbers` : keys are numbered in the order in which they first occur. A key that occurs again gets the
  number that it has (`numbers_number`, `numbers_mapM`);
* `Counts c n` : the classes are the numbers below `n`; finer classes are more classes, unless they are the same
  (`Counts.le_of_finer`, `Counts.eq_of_finer`);
* `Automaton.sortRound`, `Automaton.sortLoop` : live states are sorted by their classes and by those of the states
  behind them, until a round ends with as many classes as the one before. No bound on the rounds is needed;
* `Automaton.Sorts` : what every round keeps (`Sorts.round`); `Automaton.Nerode` : what the last one ends with;
* `Automaton.sortLoop_decides` : the loop ends with the classes of the languages, which are those of `classes`.
-/

namespace ByteAutomata

set_option autoImplicit false

/-! ## Numbers in the order of first occurrence -/

section Numbers

variable {κ : Type} [BEq κ] [Hashable κ]

/-- The number of a key, the next one if the key is new. What has no key gets no number. -/
def number (key : Option κ) : StateM (Std.HashMap κ Nat) (Option Nat) := fun m =>
  match key with
  | none => (none, m)
  | some k =>
    match m[k]? with
    | some i => (some i, m)
    | none => (some m.size, m.insert k m.size)

/-- No two keys have one number, and the numbers are those below the number of keys. -/
structure Numbered (m : Std.HashMap κ Nat) : Prop where
  injective : ∀ (j k : κ) (i : Nat), m[j]? = some i → m[k]? = some i → j = k
  used : ∀ i, i < m.size ↔ ∃ k : κ, m[k]? = some i

/-- The keys get these numbers, which turn the known numbers `m` into `m'`. -/
structure Numbers (keys : List (Option κ)) (m m' : Std.HashMap κ Nat) (numbers : List (Option Nat)) : Prop where
  numbered : Numbered m'
  grows : ∀ (k : κ) (i : Nat), m[k]? = some i → m'[k]? = some i
  found : ∀ (k : κ) (i : Nat), m'[k]? = some i → m[k]? = some i ∨ some k ∈ keys
  all : List.Forall₂ (fun key n => n = key.bind (m'[·]?) ∧ (n = none → key = none)) keys numbers

section Steps

variable {m : Std.HashMap κ Nat}

theorem number_known {k : κ} {i : Nat} (hk : m[k]? = some i) : number (some k) m = (some i, m) := by
  simp only [number, hk]

theorem number_new {k : κ} (hk : m[k]? = none) : number (some k) m = (some m.size, m.insert k m.size) := by
  simp only [number, hk]

/-- Numbers that were given stay. -/
theorem Numbers.cons {key : Option κ} {keys : List (Option κ)} {m₁ m₂ : Std.HashMap κ Nat} {n : Option Nat}
    {ns : List (Option Nat)} (h : Numbers [key] m m₁ [n]) (h' : Numbers keys m₁ m₂ ns) :
    Numbers (key :: keys) m m₂ (n :: ns) := by
  refine ⟨h'.numbered, fun k i hk => h'.grows k i (h.grows k i hk), fun k i hk => ?_, .cons ?_ h'.all⟩
  · rcases h'.found k i hk with hk | hk
    · rcases h.found k i hk with hk | hk
      · exact Or.inl hk
      · exact Or.inr (List.mem_cons.2 (Or.inl (List.mem_singleton.1 hk)))
    · exact Or.inr (List.mem_cons_of_mem _ hk)
  · obtain ⟨⟨hn, hnone⟩, -⟩ := List.forall₂_cons.1 h.all
    refine ⟨?_, hnone⟩
    cases key with
    | none => exact hn
    | some k =>
      cases n with
      | none => cases hnone rfl
      | some i => exact (h'.grows k i hn.symm).symm

end Steps

variable [LawfulBEq κ] {m : Std.HashMap κ Nat}

theorem numbered_empty : Numbered (∅ : Std.HashMap κ Nat) where
  injective j k i hj := by
    rw [Std.HashMap.getElem?_empty] at hj
    cases hj
  used i := by simp

theorem getElem?_insert_size {k : κ} (hk : m[k]? = none) {j : κ} {i : Nat} :
    (m.insert k m.size)[j]? = some i ↔ (j = k ∧ i = m.size) ∨ m[j]? = some i := by
  rw [Std.HashMap.getElem?_insert]
  by_cases hjk : k = j
  · subst hjk
    simp [hk, eq_comm]
  · simp [hjk, Ne.symm hjk]

/-- A new key gets a new number. -/
theorem Numbered.insert (h : Numbered m) {k : κ} (hk : m[k]? = none) : Numbered (m.insert k m.size) := by
  have hnew : ∀ j : κ, m[j]? ≠ some m.size := fun j hj => Nat.lt_irrefl _ ((h.used _).2 ⟨j, hj⟩)
  refine ⟨fun j l i hj hl => ?_, fun i => ?_⟩
  · rw [getElem?_insert_size hk] at hj hl
    rcases hj with ⟨rfl, rfl⟩ | hj
    · exact (hl.resolve_right (hnew l)).1.symm
    · rcases hl with ⟨rfl, rfl⟩ | hl
      · exact absurd hj (hnew j)
      · exact h.injective j l i hj hl
  · have hsize : (m.insert k m.size).size = m.size + 1 := by
      rw [Std.HashMap.size_insert, if_neg]
      rw [Std.HashMap.mem_iff_isSome_getElem?, hk]
      nofun
    simp only [hsize, getElem?_insert_size hk, exists_or, exists_eq_left, ← h.used]
    omega

theorem numbers_number (h : Numbered m) (key : Option κ) : Numbers [key] m (number key m).2 [(number key m).1] := by
  cases key with
  | none => exact ⟨h, fun _ _ => id, fun _ _ => Or.inl, .cons ⟨rfl, fun _ => rfl⟩ .nil⟩
  | some k =>
    cases hk : m[k]? with
    | some i =>
      rw [number_known hk]
      exact ⟨h, fun _ _ => id, fun _ _ => Or.inl, .cons ⟨hk.symm, nofun⟩ .nil⟩
    | none =>
      rw [number_new hk]
      have hget : (m.insert k m.size)[k]? = some m.size := (getElem?_insert_size hk).2 (Or.inl ⟨rfl, rfl⟩)
      refine ⟨h.insert hk, fun j i hj => (getElem?_insert_size hk).2 (Or.inr hj), fun j i hj => ?_,
        .cons ⟨hget.symm, nofun⟩ .nil⟩
      rcases (getElem?_insert_size hk).1 hj with ⟨rfl, -⟩ | hj
      · exact Or.inr (List.mem_singleton_self _)
      · exact Or.inl hj

theorem numbers_mapM (h : Numbered m) (keys : List (Option κ)) :
    Numbers keys m (keys.mapM number m).2 (keys.mapM number m).1 := by
  induction keys generalizing m with
  | nil => exact ⟨h, fun _ _ => id, fun _ _ => Or.inl, .nil⟩
  | cons key keys ih =>
    rw [List.mapM_cons]
    have hkey := numbers_number h key
    exact hkey.cons (ih hkey.numbered)

end Numbers

/-! ## Counting classes -/

section Counts

variable {σ : Type} {c d : σ → Option Nat} {m n : Nat}

/-- The classes are the numbers below `n`. -/
def Counts (c : σ → Option Nat) (n : Nat) : Prop := ∀ i, i < n ↔ ∃ q, c q = some i

/-- The classes `d` are classes of parts of the classes `c`. -/
structure Finer (d c : σ → Option Nat) : Prop where
  same : ∀ p q, d p = d q → c p = c q
  none_iff : ∀ q, d q = none ↔ c q = none

/-- Every class has a member, and these have different classes if those are finer. -/
theorem Counts.exists_injective (hc : Counts c m) (hd : Counts d n) (h : Finer d c) :
    ∃ (f : Fin m → Fin n) (r : Fin m → σ), Function.Injective f ∧
      ∀ i, c (r i) = some i.val ∧ d (r i) = some (f i).val := by
  have hmember : ∀ i : Fin m, ∃ (j : Fin n) (q : σ), c q = some i.val ∧ d q = some j.val := by
    intro i
    obtain ⟨q, hq⟩ := (hc i).1 i.isLt
    cases hj : d q with
    | none =>
      rw [(h.none_iff q).1 hj] at hq
      cases hq
    | some j => exact ⟨⟨j, (hd j).2 ⟨q, hj⟩⟩, q, hq, hj⟩
  choose f r hr using hmember
  refine ⟨f, r, fun i j hij => ?_, hr⟩
  have hsame : d (r i) = d (r j) := by
    rw [(hr i).2, (hr j).2, hij]
  have hclass := h.same _ _ hsame
  rw [(hr i).1, (hr j).1] at hclass
  exact Fin.ext (Option.some.inj hclass)

theorem Counts.le_of_finer (hc : Counts c m) (hd : Counts d n) (h : Finer d c) : m ≤ n := by
  obtain ⟨f, -, hf, -⟩ := hc.exists_injective hd h
  simpa using Fintype.card_le_of_injective f hf

/-- As many finer classes are the same classes. -/
theorem Counts.eq_of_finer (hc : Counts c n) (hd : Counts d n) (h : Finer d c) {p q : σ} (hpq : c p = c q) :
    d p = d q := by
  obtain ⟨f, r, hf, hr⟩ := hc.exists_injective hd h
  -- the class of a state is that of the member of its class
  have hmember : ∀ q i, c q = some i → ∃ hi : i < n, d q = d (r ⟨i, hi⟩) := by
    intro q i hq
    cases hj : d q with
    | none =>
      rw [(h.none_iff q).1 hj] at hq
      cases hq
    | some j =>
      obtain ⟨k, hk⟩ := Finite.injective_iff_surjective.1 hf ⟨j, (hd j).2 ⟨q, hj⟩⟩
      have hsame : d q = d (r k) := by
        rw [hj, (hr k).2, hk]
      have hclass := h.same _ _ hsame
      rw [hq, (hr k).1] at hclass
      obtain rfl := Option.some.inj hclass
      exact ⟨k.isLt, hj.symm.trans hsame⟩
  cases hp : c p with
  | none => rw [(h.none_iff p).2 hp, (h.none_iff q).2 (hpq ▸ hp)]
  | some i =>
    obtain ⟨_, hmp⟩ := hmember p i hp
    obtain ⟨_, hmq⟩ := hmember q i (hpq ▸ hp)
    rw [hmp, hmq]

theorem Counts.le {N : Nat} {c : Fin N → Option Nat} (h : Counts c n) : n ≤ N := by
  have hmember : ∀ i : Fin n, ∃ q, c q = some i.val := fun i => (h i).1 i.isLt
  choose r hr using hmember
  have hinj : Function.Injective r := by
    intro i j hij
    have hclass := hr i
    rw [hij, hr j] at hclass
    exact (Fin.ext (Option.some.inj hclass)).symm
  simpa using Fintype.card_le_of_injective r hinj

end Counts

/-! ## Rounds -/

namespace Automaton

variable (A : Automaton)

/-- The class of a state, if it has one. -/
def classOf (C : List (Option Nat)) (q : Fin A.size) : Option Nat := C[q.val]?.join

/-- The class of a state and the classes of the states behind it. A state that is not live looks like none. -/
def mark (live : Vector Bool A.size) (C : List (Option Nat)) (q : Fin A.size) : Option (Nat × List (Option Nat)) :=
  (A.classOf C q).map fun c =>
    (c, Byte.all.map fun b => (A.step q b).bind fun t => if live.get t then A.classOf C t else none)

/-- Numbers the states by their marks, and counts the numbers. -/
def sortRound (live : Vector Bool A.size) (C : List (Option Nat)) : List (Option Nat) × Nat :=
  let (D, marks) := ((List.finRange A.size).map (A.mark live C)).mapM number ∅
  (D, marks.size)

/-- Sorts until a round ends with as many classes as the one before, unless this takes too many rounds. -/
def sortLoop (live : Vector Bool A.size) : Nat → Option Nat → List (Option Nat) → Option (List (Option Nat))
  | 0, _, _ => none
  | fuel + 1, count, C =>
    let (D, n) := A.sortRound live C
    if some n = count then some D else sortLoop live fuel (some n) D

/-- The live states, sorted by whether they accept. -/
def halves (live : Vector Bool A.size) : List (Option Nat) :=
  (List.finRange A.size).map fun q => if live.get q then some (A.accepting q).toNat else none

/-- What holds of the classes between rounds. -/
structure Sorts (C : List (Option Nat)) : Prop where
  length : C.length = A.size
  none_iff : ∀ q, A.classOf C q = none ↔ A.alive.get q = false
  language : ∀ p q, A.SameLanguage p q → A.classOf C p = A.classOf C q
  accepting : ∀ p q, A.classOf C p = A.classOf C q → A.alive.get p = true → A.accepting p = A.accepting q

/-- The classes are the languages of live states. -/
structure Nerode (C : List (Option Nat)) : Prop where
  length : C.length = A.size
  none_iff : ∀ q, A.classOf C q = none ↔ ∀ w, A.acceptsFrom (some q) w = false
  eq_iff : ∀ p q, A.classOf C p = A.classOf C q ↔ A.SameLanguage p q

variable {A} {C D : List (Option Nat)}

theorem classOf_map_finRange (f : Fin A.size → Option Nat) (q : Fin A.size) :
    A.classOf ((List.finRange A.size).map f) q = f q := by
  simp [classOf]

theorem not_alive_iff {q : Fin A.size} : A.alive.get q = false ↔ ∀ w, A.acceptsFrom (some q) w = false := by
  rw [← Bool.not_eq_true, alive_iff, not_exists]
  simp only [Bool.not_eq_true]

theorem sorts_halves : A.Sorts (A.halves A.alive) := by
  have hclass : ∀ q, A.classOf (A.halves A.alive) q =
      if A.alive.get q then some (A.accepting q).toNat else none := classOf_map_finRange _
  refine ⟨by simp [halves], fun q => ?_, fun p q hpq => ?_, fun p q hpq hp => ?_⟩
  · rw [hclass]
    cases A.alive.get q <;> simp
  · have halive : A.alive.get p = A.alive.get q := by
      rw [Bool.eq_iff_iff, alive_iff, alive_iff]
      simp only [hpq _]
    have haccepting : A.accepting p = A.accepting q := hpq []
    rw [hclass, hclass, halive, haccepting]
  · rw [hclass, hclass, hp, if_pos rfl] at hpq
    cases hq : A.alive.get q with
    | false =>
      rw [hq] at hpq
      cases hpq
    | true =>
      rw [hq, if_pos rfl] at hpq
      revert hpq
      cases A.accepting p <;> cases A.accepting q <;> simp

/-- Marks see the class of every state behind, which is none for a state that is not live. -/
theorem Sorts.mark_eq (h : A.Sorts C) (q : Fin A.size) : A.mark A.alive C q =
    (A.classOf C q).map fun c => (c, Byte.all.map fun b => (A.step q b).bind (A.classOf C)) := by
  have hkeep : (fun t => if A.alive.get t then A.classOf C t else none) = A.classOf C := by
    funext t
    cases ht : A.alive.get t with
    | true => rfl
    | false => exact ((h.none_iff t).2 ht).symm
  rw [mark, hkeep]

theorem Sorts.mark_eq_iff (h : A.Sorts C) {p q : Fin A.size} : A.mark A.alive C p = A.mark A.alive C q ↔
    A.classOf C p = A.classOf C q ∧
      (A.alive.get p = true → ∀ b, (A.step p b).bind (A.classOf C) = (A.step q b).bind (A.classOf C)) := by
  have hsteps : (Byte.all.map fun b => (A.step p b).bind (A.classOf C)) =
      (Byte.all.map fun b => (A.step q b).bind (A.classOf C)) ↔
        ∀ b, (A.step p b).bind (A.classOf C) = (A.step q b).bind (A.classOf C) := by
    rw [List.map_inj_left]
    exact forall_congr' fun b => imp_iff_right (Byte.mem_all b)
  have hlive : A.classOf C p ≠ none ↔ A.alive.get p = true := by
    rw [Ne, h.none_iff, Bool.not_eq_false]
  rw [h.mark_eq, h.mark_eq, ← hlive]
  cases A.classOf C p with
  | none => simp [eq_comm]
  | some c =>
    cases A.classOf C q with
    | none => simp
    | some d => simp [hsteps]

/-- Live states behind two states of one language are in one class. -/
theorem Sorts.bind_classOf_eq (h : A.Sorts C) {s t : Option (Fin A.size)}
    (hst : ∀ w, A.acceptsFrom s w = A.acceptsFrom t w) : s.bind (A.classOf C) = t.bind (A.classOf C) := by
  have hdead : ∀ {q}, (∀ w, A.acceptsFrom (some q) w = A.acceptsFrom none w) → A.classOf C q = none :=
    fun hq => (h.none_iff _).2 (not_alive_iff.2 fun w => (hq w).trans (A.acceptsFrom_none w))
  cases s with
  | none =>
    cases t with
    | none => rfl
    | some q => exact (hdead fun w => (hst w).symm).symm
  | some p =>
    cases t with
    | none => exact hdead hst
    | some q => exact h.language p q hst

/-! ## What a round does -/

/-- The classes behind a round: they refine those before it by the marks, and are numbered from 0 on. -/
structure Round (A : Automaton) (C D : List (Option Nat)) (n : Nat) : Prop where
  length : D.length = A.size
  counts : Counts (A.classOf D) n
  none_iff : ∀ q, A.classOf D q = none ↔ A.classOf C q = none
  eq_iff : ∀ p q, A.classOf D p = A.classOf D q ↔ A.mark A.alive C p = A.mark A.alive C q

theorem round_sortRound (C : List (Option Nat)) :
    Round A C (A.sortRound A.alive C).1 (A.sortRound A.alive C).2 := by
  have h := numbers_mapM numbered_empty ((List.finRange A.size).map (A.mark A.alive C))
  unfold sortRound
  generalize ((List.finRange A.size).map (A.mark A.alive C)).mapM number ∅ = r at h
  obtain ⟨D, marks⟩ := r
  dsimp only at h ⊢
  have hlength : D.length = A.size := by
    rw [← h.all.length_eq, List.length_map, List.length_finRange]
  have hclass : ∀ q, A.classOf D q = (A.mark A.alive C q).bind (marks[·]?) ∧
      (A.classOf D q = none → A.mark A.alive C q = none) := by
    intro q
    have hD : q.val < D.length := hlength.symm ▸ q.isLt
    have hget := (List.forall₂_iff_get.1 h.all).2 q.val (by simp) hD
    have hkey : ((List.finRange A.size).map (A.mark A.alive C)).get ⟨q.val, by simp⟩ = A.mark A.alive C q := by simp
    rw [hkey] at hget
    have hclass : A.classOf D q = D.get ⟨q.val, hD⟩ := by simp [classOf, hD]
    rw [hclass]
    exact hget
  have hnone : ∀ q, A.classOf D q = none ↔ A.mark A.alive C q = none := by
    intro q
    refine ⟨(hclass q).2, fun hq => ?_⟩
    rw [(hclass q).1, hq]
    rfl
  have hsome : ∀ q i, A.classOf D q = some i ↔ ∃ k, A.mark A.alive C q = some k ∧ marks[k]? = some i := by
    intro q i
    rw [(hclass q).1, Option.bind_eq_some_iff]
  refine ⟨hlength, fun i => ?_, fun q => ?_, fun p q => ⟨fun hpq => ?_, fun hpq => ?_⟩⟩
  · simp only [h.numbered.used, hsome]
    constructor
    · intro hk
      obtain ⟨k, hk⟩ := hk
      have hmem := (h.found k i hk).resolve_left (by simp)
      obtain ⟨q, -, hq⟩ := List.mem_map.1 hmem
      exact ⟨q, k, hq, hk⟩
    · intro hq
      obtain ⟨q, k, -, hk⟩ := hq
      exact ⟨k, hk⟩
  · rw [hnone, mark, Option.map_eq_none_iff]
  · cases hp : A.classOf D p with
    | none => rw [(hnone p).1 hp, (hnone q).1 (hpq ▸ hp)]
    | some i =>
      obtain ⟨j, hj, hji⟩ := (hsome p i).1 hp
      obtain ⟨k, hk, hki⟩ := (hsome q i).1 (hpq ▸ hp)
      rw [hj, hk, h.numbered.injective j k i hji hki]
  · rw [(hclass p).1, (hclass q).1, hpq]

/-- Every round keeps the classes above the languages. -/
theorem Sorts.round {n : Nat} (h : A.Sorts C) (hD : Round A C D n) : A.Sorts D := by
  refine ⟨hD.length, fun q => (hD.none_iff q).trans (h.none_iff q), fun p q hpq => ?_, fun p q hpq => ?_⟩
  · rw [hD.eq_iff, h.mark_eq_iff]
    exact ⟨h.language p q hpq, fun _ b => h.bind_classOf_eq fun w => hpq (b :: w)⟩
  · rw [hD.eq_iff, h.mark_eq_iff] at hpq
    exact h.accepting p q hpq.1

theorem Round.finer {n : Nat} (h : A.Sorts C) (hD : Round A C D n) : Finer (A.classOf D) (A.classOf C) where
  same p q hpq := (h.mark_eq_iff.1 ((hD.eq_iff p q).1 hpq)).1
  none_iff := hD.none_iff

/-- States of one class are live, or nothing is accepted from either. -/
theorem Sorts.bind_cases (h : A.Sorts C) {s t : Option (Fin A.size)}
    (hst : s.bind (A.classOf C) = t.bind (A.classOf C)) :
    (∀ w, A.acceptsFrom s w = A.acceptsFrom t w) ∨
      ∃ p q, s = some p ∧ t = some q ∧ A.alive.get p = true ∧ A.classOf C p = A.classOf C q := by
  have hdead : ∀ {s : Option (Fin A.size)}, s.bind (A.classOf C) = none → ∀ w, A.acceptsFrom s w = false := by
    intro s hs w
    cases s with
    | none => exact A.acceptsFrom_none w
    | some q => exact not_alive_iff.1 ((h.none_iff q).1 hs) w
  cases hs : s.bind (A.classOf C) with
  | none => exact Or.inl fun w => (hdead hs w).trans (hdead (hst ▸ hs) w).symm
  | some i =>
    obtain ⟨p, rfl, hp⟩ := Option.bind_eq_some_iff.1 hs
    obtain ⟨q, rfl, hq⟩ := Option.bind_eq_some_iff.1 (hst ▸ hs)
    refine Or.inr ⟨p, q, rfl, rfl, ?_, hp.trans hq.symm⟩
    rw [← Bool.not_eq_false, ← h.none_iff, hp]
    nofun

/-- If a round adds no class, states of one class have one language: what is behind them is again in one class. -/
theorem Sorts.acceptsFrom_eq {n : Nat} (h : A.Sorts C) (hC : Counts (A.classOf C) n) (hD : Round A C D n)
    {s t : Option (Fin A.size)} (hst : s.bind (A.classOf C) = t.bind (A.classOf C)) (w : Word) :
    A.acceptsFrom s w = A.acceptsFrom t w := by
  induction w generalizing s t with
  | nil =>
    rcases h.bind_cases hst with hsame | ⟨p, q, rfl, rfl, hp, hpq⟩
    · exact hsame []
    · exact h.accepting p q hpq hp
  | cons b w ih =>
    rcases h.bind_cases hst with hsame | ⟨p, q, rfl, rfl, hp, hpq⟩
    · exact hsame (b :: w)
    · have hmark := (hD.eq_iff p q).1 (hC.eq_of_finer hD.counts (hD.finer h) hpq)
      exact ih ((h.mark_eq_iff.1 hmark).2 hp b)

/-- A round that adds no class ends with the classes of the languages. -/
theorem Sorts.nerode {n : Nat} (h : A.Sorts C) (hC : Counts (A.classOf C) n) (hD : Round A C D n) : A.Nerode D := by
  have hsorts := h.round hD
  refine ⟨hD.length, fun q => (hsorts.none_iff q).trans not_alive_iff, fun p q => ⟨fun hpq => ?_, hsorts.language p q⟩⟩
  have hclass : A.classOf C p = A.classOf C q := (hD.finer h).same p q hpq
  exact h.acceptsFrom_eq hC hD (s := some p) (t := some q) hclass

/-! ## The loop -/

theorem sortLoop_succ (fuel : Nat) (count : Option Nat) (C : List (Option Nat)) :
    A.sortLoop A.alive (fuel + 1) count C =
      if some (A.sortRound A.alive C).2 = count then some (A.sortRound A.alive C).1
      else A.sortLoop A.alive fuel (some (A.sortRound A.alive C).2) (A.sortRound A.alive C).1 := rfl

/-- Every round but the last adds a class, and there are no more classes than states. -/
theorem Sorts.sortLoop {m : Nat} (h : A.Sorts C) (hC : Counts (A.classOf C) m) :
    ∃ D, A.Nerode D ∧ ∀ fuel, A.size < fuel + m → A.sortLoop A.alive fuel (some m) C = some D := by
  induction hrest : A.size - m using Nat.strong_induction_on generalizing C m with
  | _ rest ih =>
    have hround := A.round_sortRound C
    have hle := hC.le_of_finer hround.counts (hround.finer h)
    have hn := hround.counts.le
    have hm := hC.le
    by_cases hsame : (A.sortRound A.alive C).2 = m
    · rw [hsame] at hround
      refine ⟨_, h.nerode hC hround, fun fuel hfuel => ?_⟩
      obtain ⟨fuel, rfl⟩ := Nat.exists_eq_add_one_of_ne_zero (show fuel ≠ 0 by omega)
      rw [sortLoop_succ, if_pos (congrArg some hsame)]
    · obtain ⟨D, hD, hloop⟩ := ih _ (by omega) (h.round hround) hround.counts rfl
      refine ⟨D, hD, fun fuel hfuel => ?_⟩
      obtain ⟨fuel, rfl⟩ := Nat.exists_eq_add_one_of_ne_zero (show fuel ≠ 0 by omega)
      rw [sortLoop_succ, if_neg fun heq => hsame (Option.some.inj heq)]
      exact hloop fuel (by omega)

/-- Sorting ends, whatever the automaton, after no more rounds than one for each state and two more. It ends with the
classes of the languages, which tell the same states apart as those of the automaton that is merged. -/
theorem sortLoop_decides (A : Automaton) : ∃ C, A.Nerode C ∧
    (∀ fuel, A.size + 2 ≤ fuel → A.sortLoop A.alive fuel none (A.halves A.alive) = some C) ∧
    (∀ q, A.classOf C q = none ↔ A.alive.get q = false) ∧
    ∀ p q, A.classOf C p = A.classOf C q ↔ A.trim.classes.get p = A.trim.classes.get q := by
  have hround := A.round_sortRound (A.halves A.alive)
  obtain ⟨C, hC, hloop⟩ := (sorts_halves.round hround).sortLoop hround.counts
  refine ⟨C, hC, fun fuel hfuel => ?_, fun q => (hC.none_iff q).trans not_alive_iff.symm, fun p q => ?_⟩
  · obtain ⟨fuel, rfl⟩ := Nat.exists_eq_add_one_of_ne_zero (show fuel ≠ 0 by omega)
    rw [sortLoop_succ, if_neg nofun]
    exact hloop fuel (by omega)
  · have htrim : A.trim.SameLanguage p q ↔ A.SameLanguage p q :=
      forall_congr' fun w => by rw [A.acceptsFrom_trim p, A.acceptsFrom_trim q]
    exact (hC.eq_iff p q).trans (htrim.symm.trans (get_classes_eq_iff (fun _ _ _ => A.live_of_step_trim) p q).symm)

end Automaton
end ByteAutomata
