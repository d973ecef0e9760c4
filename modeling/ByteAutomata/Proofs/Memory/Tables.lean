import ByteAutomata.Proofs.Reachable
import ByteAutomata.Dfa.Memo

/-!
# Looking up steps settles tables

* `Memo.LookedUp m k P` : from `m` to `k` the tables of the states `P` have settled, and no others have
  changed. So no step has changed (`LookedUp.step`), and a table is dense exactly if it was, or was crowded
  and is one of these (`LookedUp.isDense_iff`);
* `Memo.Touched` : besides, nothing was remembered. This is what looking up the steps of one state, of some
  and of all states does (`touched_touch`, `touched_touchList`, `touched_touchAll`);
* `Automaton.Passes M q w p` : a byte of the word `w`, read from `q`, is read at `p`. These are the states at
  which reading a word looks up a step (`touched_touchWord`).
-/

namespace ByteAutomata

set_option autoImplicit false

namespace Automaton

variable (M : Automaton) (q : Option (Fin M.size))

/-- While a word is read from `q`, a byte of it is read at `p`. -/
def Passes (w : Word) (p : Fin M.size) : Prop := ∃ v b u, w = v ++ b :: u ∧ M.read q v = some p

theorem not_passes_nil (p : Fin M.size) : ¬ M.Passes q [] p := by
  rintro ⟨v, b, u, hw, -⟩
  cases v <;> cases hw

theorem passes_cons (b : UInt8) (w : Word) (p : Fin M.size) :
    M.Passes q (b :: w) p ↔ q = some p ∨ M.Passes (M.advance q b) w p := by
  constructor
  · rintro ⟨v, c, u, hw, hread⟩
    cases v with
    | nil => exact Or.inl hread
    | cons d v =>
      obtain ⟨rfl, rfl⟩ := List.cons.inj hw
      exact Or.inr ⟨v, c, u, rfl, hread⟩
  · rintro (hq | ⟨v, c, u, rfl, hread⟩)
    · exact ⟨[], b, w, rfl, hq⟩
    · exact ⟨b :: v, c, u, rfl, hread⟩

theorem not_passes_none (w : Word) (p : Fin M.size) : ¬ M.Passes none w p := by
  rintro ⟨v, b, u, -, hread⟩
  rw [read_none] at hread
  cases hread

end Automaton

namespace Memo

variable {A : Dfa} {m k l : Memo A} {P Q : Fin A.size → Prop}

/-- From `m` to `k` steps of the states `P` have been looked up. -/
structure LookedUp (m k : Memo A) (P : Fin A.size → Prop) : Prop where
  settled : ∀ p, P p → k.tables.get p = (m.tables.get p).settled
  kept : ∀ p, ¬ P p → k.tables.get p = m.tables.get p

/-- No table is crowded, so that looking up steps does not change any. -/
def Ready (m : Memo A) : Prop := ∀ p, (m.tables.get p).isCrowded = false

namespace LookedUp

theorem refl (m : Memo A) : LookedUp m m fun _ => False := ⟨fun _ hp => hp.elim, fun _ _ => rfl⟩

theorem trans (h : LookedUp m k P) (h' : LookedUp k l Q) : LookedUp m l fun p => P p ∨ Q p where
  settled p hp := by
    by_cases hQ : Q p
    · rw [h'.settled p hQ]
      by_cases hP : P p
      · rw [h.settled p hP, Table.settled_settled]
      · rw [h.kept p hP]
    · rw [h'.kept p hQ, h.settled p (hp.resolve_right hQ)]
  kept p hp := by rw [h'.kept p fun hQ => hp (Or.inr hQ), h.kept p fun hP => hp (Or.inl hP)]

theorem congr (h : LookedUp m k P) (hiff : ∀ p, P p ↔ Q p) : LookedUp m k Q :=
  ⟨fun p hp => h.settled p ((hiff p).2 hp), fun p hp => h.kept p fun hP => hp ((hiff p).1 hP)⟩

/-- Where no table is crowded, it does not matter which steps are looked up. -/
theorem of_ready (hm : m.Ready) (h : LookedUp m k P) (Q : Fin A.size → Prop) : LookedUp m k Q := by
  have hsame : ∀ p, (m.tables.get p).settled = m.tables.get p := by
    intro p
    unfold Table.settled
    rw [hm p]
    rfl
  have hkept : ∀ p, k.tables.get p = m.tables.get p := by
    intro p
    by_cases hP : P p
    · rw [h.settled p hP, hsame]
    · exact h.kept p hP
  exact ⟨fun p _ => (hkept p).trans (hsame p).symm, fun p _ => hkept p⟩

theorem step (h : LookedUp m k P) : k.step = m.step := by
  funext p b
  unfold Memo.step
  by_cases hp : P p
  · rw [h.settled p hp, Table.lookup_settled]
  · rw [h.kept p hp]

/-- A table is dense if it was, or was crowded and a step of its state has been looked up. -/
theorem isDense_iff (h : LookedUp m k P) (p : Fin A.size) : (k.tables.get p).isDense = true ↔
    (m.tables.get p).isDense = true ∨ (m.tables.get p).isCrowded = true ∧ P p := by
  by_cases hp : P p
  · rw [h.settled p hp, Table.isDense_settled, Bool.or_eq_true, and_iff_left hp]
  · rw [h.kept p hp]
    exact ⟨Or.inl, fun hor => hor.resolve_right fun hcrowded => hp hcrowded.2⟩

theorem ready (h : LookedUp m k P) (hm : m.Ready) : k.Ready := by
  intro p
  by_cases hp : P p
  · rw [h.settled p hp, Table.isCrowded_settled]
  · rw [h.kept p hp, hm p]

end LookedUp

/-- Besides, nothing has been remembered. -/
structure Touched (m k : Memo A) (P : Fin A.size → Prop) : Prop extends LookedUp m k P where
  known : k.known = m.known
  visits : k.visits = m.visits
  layers : k.layers = m.layers

theorem Touched.trans (h : Touched m k P) (h' : Touched k l Q) : Touched m l fun p => P p ∨ Q p :=
  ⟨h.toLookedUp.trans h'.toLookedUp, h'.known.trans h.known, h'.visits.trans h.visits, h'.layers.trans h.layers⟩

theorem Touched.congr (h : Touched m k P) (hiff : ∀ p, P p ↔ Q p) : Touched m k Q :=
  ⟨h.toLookedUp.congr hiff, h.known, h.visits, h.layers⟩

theorem touched_refl (m : Memo A) : Touched m m fun _ => False := ⟨.refl m, rfl, rfl, rfl⟩

theorem touched_touch (m : Memo A) (q : Fin A.size) : Touched m (m.touch q) (· = q) where
  settled p hp := by rw [tables_touch, if_pos hp]
  kept p hp := by rw [tables_touch, if_neg hp]
  known := rfl
  visits := rfl
  layers := rfl

theorem touched_touchAll (m : Memo A) : Touched m m.touchAll fun _ => True where
  settled p _ := Vector.getElem_map Table.settled p.isLt
  kept _ hp := absurd trivial hp
  known := rfl
  visits := rfl
  layers := rfl

theorem touched_touchList (m : Memo A) (qs : List (Fin A.size)) : Touched m (m.touchList qs) (· ∈ qs) := by
  induction qs generalizing m with
  | nil => exact (touched_refl m).congr fun p => (iff_false_intro List.not_mem_nil).symm
  | cons q qs ih => exact ((touched_touch m q).trans (ih (m.touch q))).congr fun p => List.mem_cons.symm

/-- Reading a word looks up a step of every state at which a byte is read. -/
theorem touched_touchWord (m : Memo A) (hm : m.step = A.step) (q : Option (Fin A.size)) (w : Word) :
    Touched m (m.touchWord q w) (A.toAutomaton.Passes q w) := by
  induction w generalizing m q with
  | nil =>
    have hstop : m.touchWord q [] = m := by cases q <;> rfl
    rw [hstop]
    exact (touched_refl m).congr fun p => (iff_false_intro (A.toAutomaton.not_passes_nil q p)).symm
  | cons b w ih =>
    cases q with
    | none => exact (touched_refl m).congr fun p => (iff_false_intro (A.toAutomaton.not_passes_none _ p)).symm
    | some q =>
      have htouch : (m.touch q).step = A.step := (m.step_touch q).trans hm
      have hstep : (m.touch q).step q b = A.toAutomaton.advance (some q) b := congrFun (congrFun htouch q) b
      have hrest := ih (m.touch q) htouch ((m.touch q).step q b)
      rw [hstep] at hrest
      show Touched m ((m.touch q).touchWord ((m.touch q).step q b) w) _
      rw [hstep]
      refine ((touched_touch m q).trans hrest).congr fun p => ?_
      refine Iff.trans ?_ (A.toAutomaton.passes_cons (some q) b w p).symm
      exact or_congr_left ⟨fun h => congrArg some h.symm, fun h => (Option.some.inj h).symm⟩

end Memo
end ByteAutomata
