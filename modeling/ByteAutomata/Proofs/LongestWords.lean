import ByteAutomata.Dfa.Memo
import ByteAutomata.Proofs.Reachable

/-!
# Lengths that accepted words reach

* `Attained M q length` : words of this length or longer are accepted from `q`, and words of any
  length if it is unbounded (`Attained.max`, `Attained.successor`, `attained_of_cycle`);
* `Visiting M q visits acc` : the state of the search while it is at `q`, kept by every child
  (`Visiting.child`, `Visiting.children`);
* `longest_attained` : what the search for the longest word finds is attained. A state met again
  while the search is below it leads back to it, and so to words of any length.
-/

namespace ByteAutomata

set_option autoImplicit false

namespace Automaton

variable {M : Automaton}

/-- A word with at least `n` bytes is accepted from `q`. -/
def AcceptsLong (M : Automaton) (q : Fin M.size) (n : Nat) : Prop :=
  ∃ w, M.acceptsFrom (some q) w = true ∧ n ≤ w.length

/-- Accepted words become as long as this. -/
def Attained (M : Automaton) (q : Fin M.size) : MaxLength → Prop
  | .finite k => M.AcceptsLong q k
  | .infinite => ∀ n, M.AcceptsLong q n

theorem attained_zero {q : Fin M.size} (h : M.Live q) : M.Attained q (.finite 0) := by
  obtain ⟨w, hw⟩ := h
  exact ⟨w, hw, Nat.zero_le _⟩

theorem Attained.max {q : Fin M.size} {l k : MaxLength} (hl : M.Attained q l) (hk : M.Attained q k) :
    M.Attained q (l.max k) := by
  cases l with
  | infinite =>
    rw [MaxLength.infinite_max]
    exact hl
  | finite m =>
    cases k with
    | infinite =>
      rw [MaxLength.max_infinite]
      exact hk
    | finite n =>
      show M.AcceptsLong q (Nat.max m n)
      rcases Nat.le_total m n with h | h
      · rw [show Nat.max m n = n from Nat.max_eq_right h]
        exact hk
      · rw [show Nat.max m n = m from Nat.max_eq_left h]
        exact hl

theorem AcceptsLong.cons {q c : Fin M.size} {b : UInt8} (hstep : M.step q b = some c) {n : Nat}
    (h : M.AcceptsLong c n) : M.AcceptsLong q (n + 1) := by
  obtain ⟨w, hw, hn⟩ := h
  refine ⟨b :: w, ?_, Nat.succ_le_succ hn⟩
  rw [acceptsFrom_cons, advance_some, hstep]
  exact hw

theorem Attained.successor {q c : Fin M.size} {b : UInt8} (hstep : M.step q b = some c) {l : MaxLength}
    (h : M.Attained c l) : M.Attained q l.successor := by
  cases l with
  | finite k => exact AcceptsLong.cons hstep h
  | infinite =>
    intro n
    obtain ⟨w, hw, hn⟩ := (h n).cons hstep
    exact ⟨w, hw, by omega⟩

/-- Words of any length pass through a cycle. -/
theorem attained_of_cycle {q : Fin M.size} (hlive : M.Live q) {w : Word} (hne : w ≠ [])
    (hcycle : M.read (some q) w = some q) : M.Attained q .infinite := by
  intro n
  induction n with
  | zero => exact attained_zero hlive
  | succ n ih =>
    obtain ⟨v, hv, hn⟩ := ih
    have hpos := List.length_pos_of_ne_nil hne
    refine ⟨w ++ v, ?_, ?_⟩
    · rw [acceptsFrom_append, hcycle]
      exact hv
    · rw [List.length_append]
      omega

/-! ## The search -/

/-- Lengths that are noted down are attained. -/
def Noted (M : Automaton) (visits : Vector Visit M.size) : Prop :=
  ∀ p l, visits.get p = .done l → M.Attained p l

theorem Noted.set {visits : Vector Visit M.size} (h : M.Noted visits) {q : Fin M.size} {v : Visit}
    (hv : ∀ l, v = .done l → M.Attained q l) : M.Noted (visits.set q v) := by
  intro p l hp
  rw [get_set] at hp
  by_cases hpq : p = q
  · rw [if_pos hpq] at hp
    rw [hpq]
    exact hv l hp
  · rw [if_neg hpq] at hp
    exact h p l hp

/-- What the search does with a child of the state that it is at. -/
def visitChild {n : Nat} (next : Fin n → List (Fin n)) (fuel : Nat) (acc : MaxLength × Vector Visit n)
    (child : Fin n) : MaxLength × Vector Visit n :=
  match acc.2.get child with
  | .done length => (acc.1.max length.successor, acc.2)
  | .entered => (.infinite, acc.2)
  | .unvisited =>
    let (length, visits) := longest next fuel child acc.2
    (acc.1.max length.successor, visits)

/-- The best length and the visits behind all children. -/
def visitChildren {n : Nat} (next : Fin n → List (Fin n)) (fuel : Nat) (q : Fin n) (visits : Vector Visit n) :
    MaxLength × Vector Visit n :=
  (next q).foldl (visitChild next fuel) (.finite 0, visits.set q .entered q.isLt)

theorem longest_succ {n : Nat} (next : Fin n → List (Fin n)) (fuel : Nat) (q : Fin n) (visits : Vector Visit n) :
    longest next (fuel + 1) q visits =
      ((visitChildren next fuel q visits).1,
        (visitChildren next fuel q visits).2.set q (.done (visitChildren next fuel q visits).1) q.isLt) := rfl

/-- While the search is at `q`: lengths are attained, and all entered states lead to `q`. -/
structure Visiting (M : Automaton) (q : Fin M.size) (visits : Vector Visit M.size)
    (acc : MaxLength × Vector Visit M.size) : Prop where
  best : M.Attained q acc.1
  noted : M.Noted acc.2
  entered : ∀ p, acc.2.get p = .entered → p = q ∨ visits.get p = .entered

theorem visiting_start {q : Fin M.size} {visits : Vector Visit M.size} (hq : M.Live q) (hnoted : M.Noted visits) :
    M.Visiting q visits (.finite 0, visits.set q .entered) where
  best := attained_zero hq
  noted := hnoted.set fun _ hl => nomatch hl
  entered p hp := by
    dsimp only at hp
    rw [get_set] at hp
    by_cases hpq : p = q
    · exact Or.inl hpq
    · rw [if_neg hpq] at hp
      exact Or.inr hp

/-- Searches with this bound on calls inside each other, started in a live state to which all states lead
that are entered, note down and give lengths that are attained. No other state is entered in the end. -/
def SearchAttains (M : Automaton) (next : Fin M.size → List (Fin M.size)) (fuel : Nat) : Prop :=
  ∀ (q : Fin M.size) (visits : Vector Visit M.size), M.Live q → M.Noted visits →
    (∀ p, visits.get p = .entered → ∃ w, M.read (some p) w = some q) →
    M.Attained q (longest next fuel q visits).1 ∧ M.Noted (longest next fuel q visits).2 ∧
      ∀ p, (longest next fuel q visits).2.get p = .entered → visits.get p = .entered

section Children

variable {next : Fin M.size → List (Fin M.size)} {fuel : Nat} {q : Fin M.size} {visits : Vector Visit M.size}

theorem Visiting.child (h : M.SearchAttains next fuel) (hq : M.Live q)
    (hback : ∀ p, p = q ∨ visits.get p = .entered → ∃ w, M.read (some p) w = some q)
    {acc : MaxLength × Vector Visit M.size} (hacc : M.Visiting q visits acc) {c : Fin M.size} (hc : M.Live c)
    {b : UInt8} (hstep : M.step q b = some c) : M.Visiting q visits (visitChild next fuel acc c) := by
  obtain ⟨best, seen⟩ := acc
  obtain ⟨hbest, hseen, hopen⟩ := hacc
  dsimp only at hbest hseen hopen
  unfold visitChild
  dsimp only
  cases hv : seen.get c with
  | done length => exact ⟨hbest.max ((hseen c length hv).successor hstep), hseen, hopen⟩
  | entered =>
    obtain ⟨w, hw⟩ := hback c (hopen c hv)
    refine ⟨attained_of_cycle hq (List.cons_ne_nil b w) ?_, hseen, hopen⟩
    rw [read_cons, advance_some, hstep]
    exact hw
  | unvisited =>
    have hdown : ∀ p, seen.get p = .entered → ∃ w, M.read (some p) w = some c := by
      intro p hp
      obtain ⟨w, hw⟩ := hback p (hopen p hp)
      refine ⟨w ++ [b], ?_⟩
      rw [read_snoc, hw]
      exact hstep
    obtain ⟨hlength, hseen', hopen'⟩ := h c seen hc hseen hdown
    exact ⟨hbest.max (hlength.successor hstep), hseen', fun p hp => hopen p (hopen' p hp)⟩

theorem Visiting.children (h : M.SearchAttains next fuel) (hq : M.Live q)
    (hback : ∀ p, p = q ∨ visits.get p = .entered → ∃ w, M.read (some p) w = some q) {cs : List (Fin M.size)}
    (hcs : ∀ c ∈ cs, M.Live c ∧ ∃ b, M.step q b = some c) {acc : MaxLength × Vector Visit M.size}
    (hacc : M.Visiting q visits acc) : M.Visiting q visits (cs.foldl (visitChild next fuel) acc) := by
  induction cs generalizing acc with
  | nil => exact hacc
  | cons c cs ih =>
    obtain ⟨hc, b, hstep⟩ := hcs c List.mem_cons_self
    exact ih (fun d hd => hcs d (List.mem_cons_of_mem c hd)) (hacc.child h hq hback hc hstep)

end Children

theorem longest_attained {next : Fin M.size → List (Fin M.size)}
    (hnext : ∀ p, ∀ c ∈ next p, M.Live c ∧ ∃ b, M.step p b = some c) (fuel : Nat) : M.SearchAttains next fuel := by
  induction fuel with
  | zero =>
    intro q visits hq hnoted _
    exact ⟨attained_zero hq, hnoted, fun p hp => hp⟩
  | succ fuel ih =>
    intro q visits hq hnoted hentered
    have hback : ∀ p, p = q ∨ visits.get p = .entered → ∃ w, M.read (some p) w = some q := by
      rintro p (rfl | hp)
      · exact ⟨[], rfl⟩
      · exact hentered p hp
    have hall : M.Visiting q visits (visitChildren next fuel q visits) :=
      (visiting_start hq hnoted).children ih hq hback (hnext q)
    rw [longest_succ]
    refine ⟨hall.best, hall.noted.set fun l hl => ?_, fun p hp => ?_⟩
    · cases hl
      exact hall.best
    · dsimp only at hp
      rw [get_set] at hp
      by_cases hpq : p = q
      · rw [if_pos hpq] at hp
        cases hp
      · rw [if_neg hpq] at hp
        exact (hall.entered p hp).resolve_left hpq

end Automaton
end ByteAutomata
