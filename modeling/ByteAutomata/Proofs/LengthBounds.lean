import ByteAutomata.Proofs.Counting
import Mathlib.Data.Finset.Card

/-!
# Lengths that no accepted word exceeds

* `MaxLength.Covers` : a length is at most this (`Covers.max_left`, `Covers.max_right`, `Covers.successor`);
* `Bounded M q length` : no word accepted from `q` is longer; `BoundNoted` : lengths noted down are bounds;
* `unvisited` : the states that a search has not entered yet, the measure that the bound on calls
  inside each other must reach;
* `longest_bounds` : what the search for the longest word finds is a bound. A state that is still
  entered makes it unbounded, so that nothing is missed there (`Scanned`);
* `Memo.maxLength_bounds` : so is the answer that is remembered.
-/

namespace ByteAutomata

set_option autoImplicit false

/-- Whether a length is at most this. -/
def MaxLength.Covers : MaxLength → Nat → Prop
  | .finite k, n => n ≤ k
  | .infinite, _ => True

namespace MaxLength

variable {l k : MaxLength} {n : Nat}

theorem covers_zero (l : MaxLength) : l.Covers 0 := by
  cases l with
  | finite k => exact Nat.zero_le k
  | infinite => trivial

theorem Covers.max_left (h : l.Covers n) (k : MaxLength) : (l.max k).Covers n := by
  cases l with
  | infinite =>
    rw [infinite_max]
    trivial
  | finite m =>
    cases k with
    | infinite => trivial
    | finite k => exact Nat.le_trans h (Nat.le_max_left m k)

theorem Covers.max_right (h : k.Covers n) (l : MaxLength) : (l.max k).Covers n := by
  rw [max_comm]
  exact h.max_left l

theorem Covers.successor (h : l.Covers n) : l.successor.Covers (n + 1) := by
  cases l with
  | finite k => exact Nat.succ_le_succ h
  | infinite => trivial

end MaxLength

namespace Automaton

variable {M : Automaton}

/-- No word accepted from `q` is longer than this. -/
def Bounded (M : Automaton) (q : Fin M.size) (l : MaxLength) : Prop :=
  ∀ w, M.acceptsFrom (some q) w = true → l.Covers w.length

/-- Lengths that are noted down are bounds. -/
def BoundNoted (M : Automaton) (visits : Vector Visit M.size) : Prop :=
  ∀ p l, visits.get p = .done l → M.Bounded p l

/-- The states that a search has not entered yet. -/
def unvisited {n : Nat} (visits : Vector Visit n) : Finset (Fin n) :=
  Finset.univ.filter fun p => visits.get p = .unvisited

theorem mem_unvisited {n : Nat} {visits : Vector Visit n} {p : Fin n} :
    p ∈ unvisited visits ↔ visits.get p = .unvisited := by simp [unvisited]

/-- Entering or leaving a state makes no other state unvisited. -/
theorem unvisited_set_subset {n : Nat} (visits : Vector Visit n) (q : Fin n) {v : Visit} (hv : v ≠ .unvisited) :
    unvisited (visits.set q v q.isLt) ⊆ (unvisited visits).erase q := by
  intro p hp
  rw [mem_unvisited, get_set] at hp
  by_cases hpq : p = q
  · rw [if_pos hpq] at hp
    exact absurd hp hv
  · rw [if_neg hpq] at hp
    exact Finset.mem_erase.2 ⟨hpq, mem_unvisited.2 hp⟩

theorem BoundNoted.set {visits : Vector Visit M.size} (h : M.BoundNoted visits) {q : Fin M.size} {v : Visit}
    (hv : ∀ l, v = .done l → M.Bounded q l) : M.BoundNoted (visits.set q v q.isLt) := by
  intro p l hp
  rw [get_set] at hp
  by_cases hpq : p = q
  · rw [if_pos hpq] at hp
    rw [hpq]
    exact hv l hp
  · rw [if_neg hpq] at hp
    exact h p l hp

/-! ## The search -/

/-- While the search is at `q`, with the children `cs` behind it: words through these children are
no longer than the best length. -/
structure Scanned (M : Automaton) (q : Fin M.size) (visits : Vector Visit M.size) (cs : List (Fin M.size))
    (acc : MaxLength × Vector Visit M.size) : Prop where
  best : ∀ c ∈ cs, ∀ w, M.acceptsFrom (some c) w = true → acc.1.Covers (w.length + 1)
  noted : M.BoundNoted acc.2
  fewer : unvisited acc.2 ⊆ (unvisited visits).erase q

/-- Searches with this bound on calls inside each other, started in a state that was not visited while no more
states than this are unvisited, note down and give bounds. -/
def SearchBounds (M : Automaton) (next : Fin M.size → List (Fin M.size)) (fuel : Nat) : Prop :=
  ∀ (q : Fin M.size) (visits : Vector Visit M.size), visits.get q = .unvisited →
    (unvisited visits).card ≤ fuel → M.BoundNoted visits →
      M.Bounded q (longest next fuel q visits).1 ∧ M.BoundNoted (longest next fuel q visits).2 ∧
      unvisited (longest next fuel q visits).2 ⊆ unvisited visits

section Children

variable {next : Fin M.size → List (Fin M.size)} {fuel : Nat} {q : Fin M.size} {visits : Vector Visit M.size}

theorem Scanned.child (h : M.SearchBounds next fuel) (hq : visits.get q = .unvisited)
    (hfuel : (unvisited visits).card ≤ fuel + 1) {cs : List (Fin M.size)} {acc : MaxLength × Vector Visit M.size}
    (hacc : M.Scanned q visits cs acc) (c : Fin M.size) :
    M.Scanned q visits (cs ++ [c]) (visitChild next fuel acc c) := by
  obtain ⟨best, seen⟩ := acc
  obtain ⟨hbest, hnoted, hopen⟩ := hacc
  dsimp only at hbest hnoted hopen
  -- a better length covers what the best length did
  have hmax : ∀ {l : MaxLength}, M.Bounded c l → ∀ d ∈ cs ++ [c], ∀ w, M.acceptsFrom (some d) w = true →
      (best.max l.successor).Covers (w.length + 1) := by
    intro l hl d hd w hw
    rcases List.mem_append.1 hd with hd | hd
    · exact (hbest d hd w hw).max_left _
    · rw [List.mem_singleton.1 hd] at hw
      exact (hl w hw).successor.max_right _
  unfold visitChild
  dsimp only
  cases hv : seen.get c with
  | done length => exact ⟨hmax (hnoted c length hv), hnoted, hopen⟩
  | entered => exact ⟨fun _ _ _ _ => trivial, hnoted, hopen⟩
  | unvisited =>
    have hcard : (unvisited seen).card ≤ fuel := by
      have hle := Finset.card_le_card hopen
      have herase := Finset.card_erase_lt_of_mem (mem_unvisited.2 hq)
      omega
    obtain ⟨hbounded, hnoted', hopen'⟩ := h c seen hv hcard hnoted
    exact ⟨hmax hbounded, hnoted', hopen'.trans hopen⟩

theorem Scanned.children (h : M.SearchBounds next fuel) (hq : visits.get q = .unvisited)
    (hfuel : (unvisited visits).card ≤ fuel + 1) (ds : List (Fin M.size)) {cs : List (Fin M.size)}
    {acc : MaxLength × Vector Visit M.size} (hacc : M.Scanned q visits cs acc) :
    M.Scanned q visits (cs ++ ds) (ds.foldl (visitChild next fuel) acc) := by
  induction ds generalizing cs acc with
  | nil =>
    rw [List.append_nil]
    exact hacc
  | cons d ds ih =>
    have hrest := ih (hacc.child h hq hfuel d)
    rw [List.append_assoc] at hrest
    exact hrest

end Children

/-- A word goes through a live child, so no word is missed. -/
theorem longest_bounds {next : Fin M.size → List (Fin M.size)}
    (hnext : ∀ p b c, M.step p b = some c → M.Live c → c ∈ next p) (fuel : Nat) : M.SearchBounds next fuel := by
  induction fuel with
  | zero =>
    intro q visits hq hcard _
    have hpos := Finset.card_pos.2 ⟨q, mem_unvisited.2 hq⟩
    omega
  | succ fuel ih =>
    intro q visits hq hcard hnoted
    have hstart : M.Scanned q visits [] (.finite 0, visits.set q .entered) :=
      ⟨fun _ hc => (nomatch hc), hnoted.set fun _ hl => (nomatch hl), unvisited_set_subset visits q (by decide)⟩
    have hall : M.Scanned q visits (next q) (visitChildren next fuel q visits) :=
      hstart.children ih hq hcard (next q)
    have hbounded : M.Bounded q (visitChildren next fuel q visits).1 := by
      intro w hw
      cases w with
      | nil => exact MaxLength.covers_zero _
      | cons b w =>
        rw [acceptsFrom_cons, advance_some] at hw
        obtain ⟨c, hc⟩ := M.exists_of_acceptsFrom hw
        rw [hc] at hw
        exact hall.best c (hnext q b c hc ⟨w, hw⟩) w hw
    rw [longest_succ]
    refine ⟨hbounded, hall.noted.set fun l hl => ?_, ?_⟩
    · cases hl
      exact hbounded
    · refine (unvisited_set_subset _ q ?_).trans ((Finset.erase_subset _ _).trans ?_)
      · exact fun hv => nomatch hv
      · exact hall.fewer.trans (Finset.erase_subset _ _)

end Automaton

namespace Memo

variable {A : Dfa} {m : Memo A}

/-- No accepted word is longer than the length that is found, nor than those that are noted down on the way. -/
theorem maxLength_bounds (h : m.Sound) (hnoted : A.toAutomaton.BoundNoted m.visits) (q : Fin A.size) :
    A.toAutomaton.Bounded q (m.maxLength (some q)).1 ∧
      A.toAutomaton.BoundNoted (m.maxLength (some q)).2.visits := by
  obtain ⟨hshape, -, -, hvisits⟩ := sound_shape h
  have hlive : m.shape.1.live.get q = true ↔ A.toAutomaton.Live q := by
    rw [hshape]
    exact A.toAutomaton.alive_iff q
  have hnext : ∀ p b c, A.toAutomaton.step p b = some c → A.toAutomaton.Live c →
      c ∈ ((m.shape.1.successors.get p).map Prod.fst).filter m.shape.1.live.get := by
    intro p b c hstep hc
    rw [hshape]
    exact List.mem_filter.2 ⟨(A.toAutomaton.mem_successors p c).2 ⟨b, hstep⟩, (A.toAutomaton.alive_iff c).2 hc⟩
  have hcard : (Automaton.unvisited m.visits).card ≤ A.size :=
    (Finset.card_le_univ _).trans_eq (Fintype.card_fin A.size)
  have hnoted' : A.toAutomaton.BoundNoted m.shape.2.visits := by
    rw [hvisits]
    exact hnoted
  unfold maxLength
  dsimp only
  by_cases hq : m.shape.1.live.get q = true
  · rw [if_pos hq]
    cases hv : m.shape.2.visits.get q with
    | done length => exact ⟨hnoted' q length hv, hnoted'⟩
    | entered =>
      rw [hvisits] at hv
      exact absurd hv (h.idle q)
    | unvisited =>
      rw [hvisits] at hv ⊢
      obtain ⟨hbounded, hvisited, -⟩ := A.toAutomaton.longest_bounds hnext A.size q m.visits hv hcard hnoted
      exact ⟨hbounded, hvisited⟩
  · rw [if_neg hq]
    refine ⟨fun w hw => ?_, hnoted'⟩
    exact absurd (hlive.2 ⟨w, hw⟩) hq

theorem boundNoted_fresh (A : Dfa) : A.toAutomaton.BoundNoted (fresh A).visits := by
  intro p l hp
  have hget : (fresh A).visits.get p = .unvisited := Vector.getElem_replicate p.isLt
  have hp := hget.symm.trans hp
  cases hp

end Memo
end ByteAutomata
