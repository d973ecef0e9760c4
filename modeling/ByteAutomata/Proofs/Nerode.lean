import ByteAutomata.Automaton.Merge
import ByteAutomata.Proofs.Reachable
import Mathlib.Data.Finset.Card

/-!
# The classes of states are the languages

* `get_leaders_eq_iff`, `leaders_congr` : the leaders of a key tell apart what the key tells apart;
* `Automaton.SameLanguage` : two states accept the same words;
* `refineLoop_spec` : refining ends with classes that another round does not change, since every
  other round adds a class (`refine_eq_of_card_le`);
* `get_classes_eq_iff` : in an automaton with live steps only, two states are in one class exactly
  if they accept the same words;
* `acceptsFrom_merge`, `eq_leader_of_read_merge` : merging keeps every language, and only first
  states of classes can be reached.
-/

namespace ByteAutomata

set_option autoImplicit false

section Leaders

variable {n : Nat} {κ : Type} [BEq κ] [Hashable κ] [LawfulBEq κ]

theorem getElem?_foldl_insertIfNew (key : Fin n → κ) (qs : List (Fin n)) (m : Std.HashMap κ (Fin n)) (k : κ) :
    (qs.foldl (fun m q => m.insertIfNew (key q) q) m)[k]? = (m[k]?).or (qs.find? fun q => key q == k) := by
  induction qs generalizing m with
  | nil => simp
  | cons q qs ih =>
    rw [List.foldl_cons, ih, Std.HashMap.getElem?_insertIfNew, List.find?_cons]
    by_cases hk : key q = k
    · subst hk
      by_cases hm : key q ∈ m
      · rw [if_neg (by simp [hm]), Std.HashMap.getElem?_eq_some_getElem hm]
        rfl
      · rw [if_pos ⟨beq_self_eq_true _, hm⟩, Std.HashMap.getElem?_eq_none hm, beq_self_eq_true]
        rfl
    · rw [if_neg fun h => hk (eq_of_beq h.1), (beq_eq_false_iff_ne).2 hk]

theorem get_leaders (key : Fin n → κ) (q : Fin n) :
    (leaders key).get q = ((List.finRange n).find? fun p => key p == key q).getD q := by
  unfold leaders
  simp only [get_ofFn]
  rw [Std.HashMap.getD_eq_getD_getElem?, getElem?_foldl_insertIfNew, Std.HashMap.getElem?_empty, Option.none_or]

/-- A state has the key of its leader. -/
theorem key_leaders (key : Fin n → κ) (q : Fin n) : key ((leaders key).get q) = key q := by
  rw [get_leaders]
  cases h : (List.finRange n).find? fun p => key p == key q with
  | none => rfl
  | some p =>
    have hp := List.find?_some h
    exact eq_of_beq hp

theorem get_leaders_eq_iff (key : Fin n → κ) (p q : Fin n) :
    (leaders key).get p = (leaders key).get q ↔ key p = key q := by
  constructor
  · intro h
    exact (key_leaders key p).symm.trans ((congrArg key h).trans (key_leaders key q))
  · intro h
    rw [get_leaders, get_leaders, h]
    have hsome : ((List.finRange n).find? fun p => key p == key q).isSome = true :=
      List.find?_isSome.2 ⟨q, List.mem_finRange q, beq_self_eq_true _⟩
    obtain ⟨r, hr⟩ := Option.isSome_iff_exists.1 hsome
    rw [hr]; rfl

/-- Keys that tell the same states apart have the same leaders. -/
theorem leaders_congr {κ' : Type} [BEq κ'] [Hashable κ'] [LawfulBEq κ'] {key : Fin n → κ} {key' : Fin n → κ'}
    (h : ∀ p q, key p = key q ↔ key' p = key' q) : leaders key = leaders key' := by
  apply Vector.ext
  intro i hi
  change (leaders key).get ⟨i, hi⟩ = (leaders key').get ⟨i, hi⟩
  rw [get_leaders, get_leaders]
  have hpred : (fun p => key p == key ⟨i, hi⟩) = fun p => key' p == key' ⟨i, hi⟩ := by
    funext p
    rw [Bool.eq_iff_iff, beq_iff_eq, beq_iff_eq]
    exact h p _
  rw [hpred]

end Leaders

/-- Every state of a class is named by one state, which names itself. -/
def IsClasses {n : Nat} (C : Vector (Fin n) n) : Prop := C = leaders C.get

theorem isClasses_leaders {n : Nat} {κ : Type} [BEq κ] [Hashable κ] [LawfulBEq κ] (key : Fin n → κ) :
    IsClasses (leaders key) := leaders_congr fun p q => (get_leaders_eq_iff key p q).symm

theorem IsClasses.get_get {n : Nat} {C : Vector (Fin n) n} (h : IsClasses C) (q : Fin n) :
    C.get (C.get q) = C.get q := by
  have hkey := key_leaders C.get q
  rwa [← h] at hkey

namespace Automaton

variable (A : Automaton)

/-- The states `p` and `q` accept the same words. -/
def SameLanguage (p q : Fin A.size) : Prop := ∀ w, A.acceptsFrom (some p) w = A.acceptsFrom (some q) w

theorem isClasses_refine (C : Vector (Fin A.size) A.size) : IsClasses (A.refine (Vector.ofFn A.edges) C) :=
  isClasses_leaders _

theorem get_refine_eq_iff (C : Vector (Fin A.size) A.size) (p q : Fin A.size) :
    (A.refine (Vector.ofFn A.edges) C).get p = (A.refine (Vector.ofFn A.edges) C).get q ↔
      C.get p = C.get q ∧ ∀ b, (A.step p b).map C.get = (A.step q b).map C.get := by
  rw [refine, get_leaders_eq_iff]
  exact A.signature_ofFn_eq_iff C

/-! ## Refining until nothing changes -/

/-- The names of the classes. -/
def names {n : Nat} (C : Vector (Fin n) n) : Finset (Fin n) := Finset.univ.image C.get

theorem card_names_le {n : Nat} (C : Vector (Fin n) n) : (names C).card ≤ n :=
  (Finset.card_le_univ _).trans_eq (Fintype.card_fin n)

/-- A round that adds no class changes nothing. -/
theorem refine_eq_of_card_le {C : Vector (Fin A.size) A.size} (hC : IsClasses C)
    (hcard : (names (A.refine (Vector.ofFn A.edges) C)).card ≤ (names C).card) :
    A.refine (Vector.ofFn A.edges) C = C := by
  have hD := A.isClasses_refine C
  have hfiner : ∀ p q, (A.refine (Vector.ofFn A.edges) C).get p = (A.refine (Vector.ofFn A.edges) C).get q →
      C.get p = C.get q := fun p q h => ((A.get_refine_eq_iff C p q).1 h).1
  generalize A.refine (Vector.ofFn A.edges) C = D at hcard hD hfiner
  have himage : (names D).image C.get = names C := by
    unfold names
    rw [Finset.image_image]
    exact Finset.image_congr fun q _ => hfiner _ _ (hD.get_get q)
  have hinj : Set.InjOn C.get (names D) := by
    rw [← Finset.card_image_iff, himage]
    refine le_antisymm ?_ hcard
    rw [← himage]
    exact Finset.card_image_le
  have hkernel : ∀ p q, D.get p = D.get q ↔ C.get p = C.get q := by
    intro p q
    refine ⟨hfiner p q, fun h => ?_⟩
    apply hinj (Finset.mem_image_of_mem _ (Finset.mem_univ p)) (Finset.mem_image_of_mem _ (Finset.mem_univ q))
    rw [hfiner _ _ (hD.get_get p), hfiner _ _ (hD.get_get q), h]
  rw [hD, leaders_congr hkernel, ← hC]

/-- Refining ends with classes that another round does not change. A property that each round keeps
holds of them. -/
theorem refineLoop_spec {P : Vector (Fin A.size) A.size → Prop}
    (hP : ∀ C, P C → P (A.refine (Vector.ofFn A.edges) C)) (fuel : Nat) {C : Vector (Fin A.size) A.size}
    (hC : IsClasses C) (h : P C) (hfuel : A.size ≤ fuel + (names C).card) :
    let D := A.refineLoop (Vector.ofFn A.edges) fuel C
    IsClasses D ∧ P D ∧ A.refine (Vector.ofFn A.edges) D = D := by
  induction fuel generalizing C with
  | zero =>
    have hle := card_names_le (A.refine (Vector.ofFn A.edges) C)
    have hfix : A.refine (Vector.ofFn A.edges) C = C := A.refine_eq_of_card_le hC (by omega)
    exact ⟨hC, h, hfix⟩
  | succ fuel ih =>
    unfold refineLoop
    simp only
    by_cases hfix : A.refine (Vector.ofFn A.edges) C = C
    · rw [if_pos hfix]
      exact ⟨hC, h, hfix⟩
    · rw [if_neg hfix]
      apply ih (A.isClasses_refine C) (hP C h)
      have hmore : ¬ (names (A.refine (Vector.ofFn A.edges) C)).card ≤ (names C).card :=
        fun hle => hfix (A.refine_eq_of_card_le hC hle)
      omega

/-- Classes that no round tells further apart than languages do, and that agree on acceptance. -/
structure Between (C : Vector (Fin A.size) A.size) : Prop where
  language : ∀ p q, A.SameLanguage p q → C.get p = C.get q
  accepting : ∀ p q, C.get p = C.get q → A.accepting p = A.accepting q

variable {A}

/-- Steps from two states of one language lead to one class. -/
theorem Between.refine (hlive : ∀ q b t, A.step q b = some t → A.Live t) {C : Vector (Fin A.size) A.size}
    (h : Between A C) : Between A (A.refine (Vector.ofFn A.edges) C) where
  language p q hpq := by
    rw [get_refine_eq_iff]
    refine ⟨h.language p q hpq, fun b => ?_⟩
    have hstep : ∀ w, A.acceptsFrom (A.step p b) w = A.acceptsFrom (A.step q b) w := fun w => hpq (b :: w)
    cases hp : A.step p b with
    | none =>
      cases hq : A.step q b with
      | none => rfl
      | some u =>
        -- a live state has a word, the dead sink has none
        obtain ⟨w, hw⟩ := hlive q b u hq
        rw [← hq, ← hstep w, hp, acceptsFrom_none] at hw
        cases hw
    | some t =>
      obtain ⟨w, hw⟩ := hlive p b t hp
      rw [← hp, hstep w] at hw
      obtain ⟨u, hu⟩ := A.exists_of_acceptsFrom hw
      rw [hu, Option.map_some, Option.map_some]
      refine congrArg some (h.language t u fun v => ?_)
      rw [← hp, ← hu]
      exact hstep v
  accepting p q hpq := h.accepting p q ((A.get_refine_eq_iff C p q).1 hpq).1

theorem classes_spec (hlive : ∀ q b t, A.step q b = some t → A.Live t) :
    IsClasses A.classes ∧ Between A A.classes ∧ A.refine (Vector.ofFn A.edges) A.classes = A.classes := by
  refine A.refineLoop_spec (fun C h => h.refine hlive) A.size (isClasses_leaders A.accepting) ?_ (by omega)
  refine ⟨fun p q h => (get_leaders_eq_iff _ p q).2 (h []), fun p q h => (get_leaders_eq_iff _ p q).1 h⟩

theorem sameLanguage_of_refine_eq {C : Vector (Fin A.size) A.size}
    (hacc : ∀ p q, C.get p = C.get q → A.accepting p = A.accepting q)
    (hfix : A.refine (Vector.ofFn A.edges) C = C) {p q : Fin A.size} (h : C.get p = C.get q) :
    A.SameLanguage p q := by
  intro w
  induction w generalizing p q with
  | nil => exact hacc p q h
  | cons b w ih =>
    rw [← hfix, get_refine_eq_iff] at h
    have hb := h.2 b
    rw [acceptsFrom_cons, acceptsFrom_cons, advance_some, advance_some]
    cases hp : A.step p b with
    | none =>
      rw [hp, Option.map_none] at hb
      rw [Option.map_eq_none_iff.1 hb.symm]
    | some t =>
      rw [hp, Option.map_some] at hb
      obtain ⟨u, hu, htu⟩ := Option.map_eq_some_iff.1 hb.symm
      rw [hu]
      exact ih htu.symm

/-- If only live steps are left, two states are in one class exactly if they accept the same words. -/
theorem get_classes_eq_iff (hlive : ∀ q b t, A.step q b = some t → A.Live t) (p q : Fin A.size) :
    A.classes.get p = A.classes.get q ↔ A.SameLanguage p q := by
  obtain ⟨-, hb, hfix⟩ := classes_spec hlive
  exact ⟨fun h => sameLanguage_of_refine_eq hb.accepting hfix h, hb.language p q⟩

/-! ## Merging -/

variable (hlive : ∀ q b t, A.step q b = some t → A.Live t)
include hlive

theorem sameLanguage_leader (q : Fin A.size) : A.SameLanguage (A.classes.get q) q :=
  (get_classes_eq_iff hlive _ _).1 ((classes_spec hlive).1.get_get q)

/-- Merging keeps the language of every state. -/
theorem acceptsFrom_merge (q : Fin A.size) (w : Word) :
    A.merge.acceptsFrom (some q) w = A.acceptsFrom (some q) w := by
  induction w generalizing q with
  | nil => rfl
  | cons b w ih =>
    change A.merge.acceptsFrom ((A.step q b).map A.classes.get) w = A.acceptsFrom (A.step q b) w
    cases A.step q b with
    | none => exact (A.merge.acceptsFrom_none w).trans (A.acceptsFrom_none w).symm
    | some t => exact (ih (A.classes.get t)).trans (sameLanguage_leader hlive t w)

theorem accepts_merge (w : Word) : A.merge.accepts w = A.accepts w := by
  change A.merge.acceptsFrom (A.start.map A.classes.get) w = A.acceptsFrom A.start w
  cases A.start with
  | none => exact (A.merge.acceptsFrom_none w).trans (A.acceptsFrom_none w).symm
  | some q => exact (acceptsFrom_merge hlive _ w).trans (sameLanguage_leader hlive q w)

/-- What a merged automaton reaches is the first state of the class of a live state. -/
theorem eq_leader_of_read_merge (hstart : ∀ t, A.start = some t → A.Live t) {w : Word} {q : Fin A.size}
    (h : A.merge.read A.merge.start w = some q) : ∃ t, A.Live t ∧ q = A.classes.get t := by
  induction w using List.reverseRecOn with
  | nil =>
    obtain ⟨t, ht, rfl⟩ := Option.map_eq_some_iff.1 (show A.start.map A.classes.get = some q from h)
    exact ⟨t, hstart t ht, rfl⟩
  | append_singleton w b _ =>
    rw [read_snoc] at h
    cases hp : A.merge.read A.merge.start w with
    | none => rw [hp] at h; cases h
    | some p =>
      rw [hp] at h
      obtain ⟨t, ht, rfl⟩ := Option.map_eq_some_iff.1 (show (A.step p b).map A.classes.get = some q from h)
      exact ⟨t, hlive p b t ht, rfl⟩

end Automaton
end ByteAutomata
