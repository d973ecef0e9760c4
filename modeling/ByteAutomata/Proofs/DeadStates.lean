import ByteAutomata.Proofs.Memory.Meaning
import ByteAutomata.Proofs.Partition

/-!
# States from which nothing is accepted

* `Marking` : marked states, and a stack of those whose sources have not been looked at; `Marking.drain` : takes states
  from the stack and marks their sources until the stack is empty;
* `Marking.Draining` : what every state taken from the stack keeps (`Draining.pop`); `Marking.Closure` : what is marked
  in the end, after one round for each state at most (`Draining.drain`);
* `Automaton.markLive` : marks backwards from the accepting states, along the grouped successors turned round. Exactly
  the live states are marked (`markLive_eq_alive`);
* `Automaton.deadAt`, `Automaton.liveEdges` : what is answered about a state or the sink, in terms of the words that
  are accepted from it (`deadAt_eq_true`, `deadAt_iff_ranked`, `mem_liveEdges`, `mem_map_liveEdges`);
* `Deadness`, `Usage.isDead_decides` : so dead states and the steps to others are told, whatever was asked before.
-/

namespace ByteAutomata

set_option autoImplicit false

/-! ## Marking with a stack -/

/-- States that are marked, and those of them whose sources have not been looked at. -/
structure Marking (n : Nat) where
  marks : Vector Bool n
  stack : List (Fin n)

namespace Marking

variable {n : Nat}

def blank : Marking n := ⟨Vector.replicate n false, []⟩

/-- Marks a state and puts it on the stack, unless it is marked. -/
def visit (m : Marking n) (q : Fin n) : Marking n :=
  if m.marks.get q then m else ⟨m.marks.set q true q.isLt, q :: m.stack⟩

def visitAll (m : Marking n) (qs : List (Fin n)) : Marking n := qs.foldl visit m

/-- Takes states from the stack and visits those before them, until the stack is empty or this takes too many
rounds. -/
def drain (before : Fin n → List (Fin n)) : Nat → Marking n → Option (Vector Bool n)
  | 0, _ => none
  | _ + 1, ⟨marks, []⟩ => some marks
  | fuel + 1, ⟨marks, q :: stack⟩ => drain before fuel (visitAll ⟨marks, stack⟩ (before q))

/-- The rounds that are left: every state is put on the stack once. -/
def work (m : Marking n) : Nat := m.stack.length + (Finset.univ.filter fun q => m.marks.get q = false).card

variable {m : Marking n} {p q : Fin n} {qs : List (Fin n)}

theorem visit_of_marked (h : m.marks.get q = true) : m.visit q = m := if_pos h

theorem visit_of_unmarked (h : m.marks.get q = false) : m.visit q = ⟨m.marks.set q true q.isLt, q :: m.stack⟩ :=
  if_neg (Bool.eq_false_iff.1 h)

theorem marked_visit_iff : (m.visit q).marks.get p = true ↔ m.marks.get p = true ∨ p = q := by
  cases hq : m.marks.get q with
  | true =>
    rw [visit_of_marked hq]
    exact (or_iff_left_of_imp fun hpq => hpq ▸ hq).symm
  | false =>
    rw [visit_of_unmarked hq, get_set]
    by_cases hpq : p = q
    · rw [if_pos hpq]
      exact iff_of_true rfl (Or.inr hpq)
    · rw [if_neg hpq]
      exact (or_iff_left hpq).symm

theorem mem_stack_visit : p ∈ (m.visit q).stack ↔ p ∈ m.stack ∨ p = q ∧ m.marks.get p = false := by
  cases hq : m.marks.get q with
  | true =>
    rw [visit_of_marked hq]
    refine (or_iff_left ?_).symm
    rintro ⟨rfl, hp⟩
    rw [hq] at hp
    cases hp
  | false =>
    rw [visit_of_unmarked hq, List.mem_cons, or_comm]
    exact or_congr_right ⟨fun hpq => ⟨hpq, hpq ▸ hq⟩, And.left⟩

/-- A state that is put on the stack is no longer unmarked. -/
theorem work_visit (m : Marking n) (q : Fin n) : (m.visit q).work = m.work := by
  cases hq : m.marks.get q with
  | true => rw [visit_of_marked hq]
  | false =>
    have hunmarked : (Finset.univ.filter fun p => (m.marks.set q true q.isLt).get p = false) =
        (Finset.univ.filter fun p => m.marks.get p = false).erase q := by
      ext p
      rw [Finset.mem_erase, Finset.mem_filter_univ, Finset.mem_filter_univ, get_set]
      by_cases hpq : p = q
      · simp [hpq]
      · simp [hpq]
    have hmem : q ∈ Finset.univ.filter fun p => m.marks.get p = false := (Finset.mem_filter_univ q).2 hq
    have hcard := Finset.card_erase_add_one hmem
    rw [visit_of_unmarked hq, work, work, hunmarked, List.length_cons]
    omega

theorem marked_visitAll_iff : (m.visitAll qs).marks.get p = true ↔ m.marks.get p = true ∨ p ∈ qs := by
  induction qs generalizing m with
  | nil => exact (or_iff_left List.not_mem_nil).symm
  | cons q qs ih =>
    show ((m.visit q).visitAll qs).marks.get p = true ↔ _
    rw [ih, marked_visit_iff, List.mem_cons, or_assoc]

theorem mem_stack_visitAll : p ∈ (m.visitAll qs).stack ↔ p ∈ m.stack ∨ p ∈ qs ∧ m.marks.get p = false := by
  induction qs generalizing m with
  | nil => exact (or_iff_left fun h => List.not_mem_nil h.1).symm
  | cons q qs ih =>
    have hunmarked : (m.visit q).marks.get p = false ↔ m.marks.get p = false ∧ p ≠ q := by
      rw [← Bool.not_eq_true, marked_visit_iff, not_or, Bool.not_eq_true]
    show p ∈ ((m.visit q).visitAll qs).stack ↔ _
    rw [ih, mem_stack_visit, hunmarked, List.mem_cons]
    tauto

theorem work_visitAll (m : Marking n) (qs : List (Fin n)) : (m.visitAll qs).work = m.work := by
  induction qs generalizing m with
  | nil => rfl
  | cons q qs ih => exact (ih (m.visit q)).trans (m.work_visit q)

theorem get_blank (q : Fin n) : (blank : Marking n).marks.get q = false := Vector.getElem_replicate q.isLt

theorem work_blank : (blank : Marking n).work = n := by
  unfold work
  rw [Finset.filter_true_of_mem fun q _ => get_blank q, Finset.card_univ, Fintype.card_fin]
  exact Nat.zero_add n

/-! ## What is marked in the end -/

/-- Whatever holds of the first states, and of all states before one of which it holds, holds of the marked ones. -/
def Needed (before : Fin n → List (Fin n)) (starts : List (Fin n)) (marks : Vector Bool n) : Prop :=
  ∀ P : Fin n → Prop, (∀ q ∈ starts, P q) → (∀ q, P q → ∀ p ∈ before q, P p) → ∀ q, marks.get q = true → P q

/-- The least marks that contain the first states and all states before a marked one. -/
structure Closure (before : Fin n → List (Fin n)) (starts : List (Fin n)) (marks : Vector Bool n) : Prop where
  contains : ∀ q ∈ starts, marks.get q = true
  closed : ∀ q, marks.get q = true → ∀ p ∈ before q, marks.get p = true
  needed : Needed before starts marks

/-- What holds between rounds. -/
structure Draining (before : Fin n → List (Fin n)) (starts : List (Fin n)) (m : Marking n) : Prop where
  contains : ∀ q ∈ starts, m.marks.get q = true
  stacked : ∀ q ∈ m.stack, m.marks.get q = true
  passed : ∀ q, m.marks.get q = true → q ∉ m.stack → ∀ p ∈ before q, m.marks.get p = true
  needed : Needed before starts m.marks

variable {before : Fin n → List (Fin n)} {starts : List (Fin n)}

theorem draining_start (before : Fin n → List (Fin n)) (starts : List (Fin n)) :
    Draining before starts (blank.visitAll starts) := by
  have hmarked : ∀ q, (blank.visitAll starts).marks.get q = true ↔ q ∈ starts := by
    intro q
    rw [marked_visitAll_iff, get_blank]
    exact or_iff_right nofun
  have hstack : ∀ q, q ∈ (blank.visitAll starts).stack ↔ q ∈ starts := by
    intro q
    rw [mem_stack_visitAll, and_iff_left (get_blank q)]
    exact or_iff_right List.not_mem_nil
  refine ⟨fun q => (hmarked q).2, fun q hq => ?_, fun q hq hnot => ?_, fun P hP _ q hq => hP q ((hmarked q).1 hq)⟩
  · rw [hmarked, ← hstack]
    exact hq
  · rw [hmarked, ← hstack] at hq
    exact absurd hq hnot

/-- The states before the one that is taken from the stack are marked. -/
theorem Draining.pop {marks : Vector Bool n} {stack : List (Fin n)} (h : Draining before starts ⟨marks, q :: stack⟩) :
    Draining before starts (visitAll ⟨marks, stack⟩ (before q)) := by
  have hq : marks.get q = true := h.stacked q List.mem_cons_self
  refine ⟨fun p hp => ?_, fun p hp => ?_, fun r hr hnot p hp => ?_, fun P hstarts hbefore p hp => ?_⟩
  · exact marked_visitAll_iff.2 (Or.inl (h.contains p hp))
  · rw [marked_visitAll_iff]
    rcases mem_stack_visitAll.1 hp with hp | ⟨hp, -⟩
    · exact Or.inl (h.stacked p (List.mem_cons_of_mem q hp))
    · exact Or.inr hp
  · rw [marked_visitAll_iff]
    rw [mem_stack_visitAll, not_or] at hnot
    by_cases hrq : r = q
    · exact Or.inr (hrq ▸ hp)
    -- a state that is marked just now is on the stack
    have hold : marks.get r = true := by
      rcases marked_visitAll_iff.1 hr with hr | hr
      · exact hr
      · exact Bool.not_eq_false _ ▸ fun hunmarked => hnot.2 ⟨hr, hunmarked⟩
    exact Or.inl (h.passed r hold (fun hmem => (List.mem_cons.1 hmem).elim hrq hnot.1) p hp)
  · rcases marked_visitAll_iff.1 hp with hp | hp
    · exact h.needed P hstarts hbefore p hp
    · exact hbefore q (h.needed P hstarts hbefore q hq) p hp

theorem work_cons {marks : Vector Bool n} {stack : List (Fin n)} :
    (⟨marks, q :: stack⟩ : Marking n).work = (⟨marks, stack⟩ : Marking n).work + 1 := by
  exact Nat.succ_add stack.length _

/-- Every round takes one state from the stack, and no state is put there twice. -/
theorem Draining.drain (h : Draining before starts m) :
    ∃ marks, Closure before starts marks ∧ ∀ fuel, m.work < fuel → m.drain before fuel = some marks := by
  induction hwork : m.work using Nat.strong_induction_on generalizing m with
  | _ work ih =>
    obtain ⟨marks, stack⟩ := m
    cases stack with
    | nil =>
      refine ⟨marks, ⟨h.contains, fun q hq => h.passed q hq List.not_mem_nil, h.needed⟩, fun fuel hfuel => ?_⟩
      obtain ⟨fuel, rfl⟩ := Nat.exists_eq_add_one_of_ne_zero (Nat.ne_zero_of_lt hfuel)
      rfl
    | cons q stack =>
      have hnext : (visitAll ⟨marks, stack⟩ (before q)).work + 1 = work := by
        rw [work_visitAll, ← hwork, work_cons]
      obtain ⟨final, hfinal, hdrain⟩ := ih _ (Nat.lt_of_succ_le hnext.le) h.pop rfl
      refine ⟨final, hfinal, fun fuel hfuel => ?_⟩
      obtain ⟨fuel, rfl⟩ := Nat.exists_eq_add_one_of_ne_zero (Nat.ne_zero_of_lt hfuel)
      exact hdrain fuel (by omega)

end Marking

/-! ## Marking backwards from the accepting states -/

namespace Automaton

/-- The states with a step to a state, in order, found from the grouped successors. -/
def callers (M : Automaton) (q : Fin M.size) : List (Fin M.size) :=
  ((sources Prod.fst M.shape.successors.get).get q).reverse

/-- Marks backwards from the accepting states, unless this takes too many rounds. -/
def markLive (M : Automaton) (fuel : Nat) : Option (Vector Bool M.size) :=
  (Marking.blank.visitAll M.finals).drain M.callers fuel

variable {M : Automaton}

theorem mem_callers {p q : Fin M.size} : p ∈ M.callers q ↔ ∃ b, M.step p b = some q := by
  rw [callers, List.mem_reverse, mem_sources, ← mem_successors, List.mem_map]

/-- The least marks are those of the live states. -/
theorem eq_alive_of_closure {marks : Vector Bool M.size} (h : Marking.Closure M.callers M.finals marks) :
    marks = M.alive := by
  have hlive : ∀ q, marks.get q = true → M.Live q := by
    refine h.needed M.Live (fun q hq => ⟨[], (List.mem_filter.1 hq).2⟩) fun q hq p hp => ?_
    obtain ⟨w, hw⟩ := hq
    obtain ⟨b, hb⟩ := mem_callers.1 hp
    refine ⟨b :: w, ?_⟩
    rw [acceptsFrom_cons, advance_some, hb]
    exact hw
  have hmarked : ∀ (w : Word) q, M.acceptsFrom (some q) w = true → marks.get q = true := by
    intro w
    induction w with
    | nil => exact fun q hq => h.contains q (List.mem_filter.2 ⟨List.mem_finRange q, hq⟩)
    | cons b w ih =>
      intro q hq
      rw [acceptsFrom_cons, advance_some] at hq
      obtain ⟨t, ht⟩ := M.exists_of_acceptsFrom hq
      rw [ht] at hq
      exact h.closed t (ih t hq) q (mem_callers.2 ⟨b, ht⟩)
  refine Vector.ext fun i hi => ?_
  show marks.get ⟨i, hi⟩ = M.alive.get ⟨i, hi⟩
  rw [Bool.eq_iff_iff, alive_iff]
  exact ⟨hlive _, fun ⟨w, hw⟩ => hmarked w _ hw⟩

/-- Marking ends, and exactly the live states are marked, also those that are not reachable. -/
theorem markLive_eq_alive {fuel : Nat} (hfuel : M.size < fuel) : M.markLive fuel = some M.alive := by
  obtain ⟨marks, hmarks, hdrain⟩ := (Marking.draining_start M.callers M.finals).drain
  rw [Marking.work_visitAll, Marking.work_blank] at hdrain
  rw [markLive, hdrain fuel hfuel, eq_alive_of_closure hmarks]

end Automaton

/-! ## What is answered -/

namespace Automaton

variable {M : Automaton}

/-- Whether nothing is accepted from a state or the sink. -/
def deadAt (M : Automaton) (q : Option (Fin M.size)) : Bool := q.elim true fun p => !M.alive.get p

/-- The steps from a state or the sink that lead to live states. -/
def liveEdges (M : Automaton) (q : Option (Fin M.size)) : List (UInt8 × Fin M.size) :=
  (q.elim [] M.edges).filter fun e => M.alive.get e.2

theorem deadAt_eq_true {q : Option (Fin M.size)} : M.deadAt q = true ↔ ∀ w, M.acceptsFrom q w = false := by
  cases q with
  | none => exact iff_of_true rfl fun w => M.acceptsFrom_none w
  | some p =>
    show (!M.alive.get p) = true ↔ _
    rw [Bool.not_eq_true', not_alive_iff]

theorem mem_liveEdges {q : Option (Fin M.size)} {b : UInt8} {t : Fin M.size} :
    (b, t) ∈ M.liveEdges q ↔ M.advance q b = some t ∧ M.Live t := by
  rw [liveEdges, List.mem_filter, alive_iff]
  refine and_congr_left fun _ => ?_
  cases q with
  | none => exact iff_of_false List.not_mem_nil nofun
  | some p => exact M.mem_edges

/-- The listed bytes are those behind which a word is accepted. -/
theorem mem_map_liveEdges {q : Option (Fin M.size)} {b : UInt8} :
    b ∈ (M.liveEdges q).map Prod.fst ↔ ∃ w, M.acceptsFrom q (b :: w) = true := by
  rw [List.mem_map]
  constructor
  · rintro ⟨⟨b, t⟩, he, rfl⟩
    obtain ⟨ht, w, hw⟩ := mem_liveEdges.1 he
    refine ⟨w, ?_⟩
    rw [acceptsFrom_cons, ht]
    exact hw
  · rintro ⟨w, hw⟩
    rw [acceptsFrom_cons] at hw
    obtain ⟨t, ht⟩ := M.exists_of_acceptsFrom hw
    rw [ht] at hw
    exact ⟨(b, t), mem_liveEdges.2 ⟨ht, w, hw⟩, rfl⟩

theorem pairwise_liveEdges (M : Automaton) (q : Option (Fin M.size)) :
    (M.liveEdges q).Pairwise fun e e' => e.1 < e'.1 := by
  refine List.Pairwise.filter _ ?_
  cases q with
  | none => exact List.Pairwise.nil
  | some p => exact M.pairwise_edges p

/-- Nothing is accepted exactly if there is no accepted word of any length. -/
theorem deadAt_iff_ranked {q : Option (Fin M.size)} : M.deadAt q = true ↔ ∀ n, (M.ranked n q).length = 0 := by
  rw [deadAt_eq_true]
  constructor
  · intro h n
    refine List.length_eq_zero_iff.2 (List.eq_nil_iff_forall_not_mem.2 fun w hw => ?_)
    have haccepted := (mem_ranked.1 hw).2
    rw [h w] at haccepted
    cases haccepted
  · intro h w
    refine Bool.eq_false_of_not_eq_true fun hw => ?_
    have hmem : w ∈ M.ranked w.length q := mem_ranked.2 ⟨rfl, hw⟩
    rw [List.length_eq_zero_iff.1 (h w.length)] at hmem
    cases hmem

theorem find_ofState? (M : Automaton) (q : Option (Fin M.size)) : M.find (.ofState? q) = .ok q := by
  cases q with
  | none => rfl
  | some p => exact dif_pos p.isLt

theorem answer_isDead (M : Automaton) (q : Option (Fin M.size)) :
    M.answer (.isDead (.ofState? q)) = some (.ok (.flag (M.deadAt q))) := by
  rw [answer, find_ofState?]
  cases q <;> rfl

theorem answer_liveEdges (M : Automaton) (q : Option (Fin M.size)) :
    M.answer (.liveEdges (.ofState? q)) = some (.ok (.edges ((M.liveEdges q).map fun e => (e.1, e.2.val)))) := by
  rw [answer, find_ofState?]
  rfl

end Automaton

/-- The answers about a state or the sink: whether it is dead, and its steps to states that are not. -/
structure Deadness (A : Dfa) (m : Memo A) (q : Option (Fin A.size)) (dead : Bool) (es : List (UInt8 × Fin A.size)) :
    Prop where
  asked : (m.ask (.isDead (.ofState? q))).1 = .ok (.flag dead)
  marked : ∀ fuel, A.size < fuel →
    (A.toAutomaton.markLive fuel).map (fun marks => q.elim true fun p => !marks.get p) = some dead
  dead_iff : dead = true ↔ ∀ w, A.toAutomaton.acceptsFrom q w = false
  count_iff : dead = true ↔ ∀ n, (m.count q n).1 = 0
  listed : (m.ask (.liveEdges (.ofState? q))).1 = .ok (.edges (es.map fun e => (e.1, e.2.val)))
  ascending : es.Pairwise fun e e' => e.1 < e'.1
  mem_iff : ∀ b t, (b, t) ∈ es ↔ A.toAutomaton.advance q b = some t ∧ A.toAutomaton.Live t
  byte_iff : ∀ b, b ∈ es.map Prod.fst ↔ ∃ w, A.toAutomaton.acceptsFrom q (b :: w) = true

/-- Whatever was asked before, a state is said to be dead exactly if no word is accepted from it, reachable or not,
and the steps that are listed are those behind which some word is. -/
theorem Usage.isDead_decides (A : Dfa) (ops : List Operation) (q : Option (Fin A.size)) :
    ∃ dead es, Deadness A (run A ops).memory q dead es := by
  have hexact : (run A ops).memory.Exact := (valid_run A ops).1.exact
  refine ⟨A.toAutomaton.deadAt q, A.toAutomaton.liveEdges q, hexact.ask_eq (A.toAutomaton.answer_isDead q),
    fun fuel hfuel => ?_, Automaton.deadAt_eq_true, ?_, hexact.ask_eq (A.toAutomaton.answer_liveEdges q),
    A.toAutomaton.pairwise_liveEdges q, fun _ _ => Automaton.mem_liveEdges,
    fun _ => Automaton.mem_map_liveEdges (M := A.toAutomaton)⟩
  · rw [Automaton.markLive_eq_alive hfuel]
    rfl
  · simp only [hexact.count_eq_length]
    exact Automaton.deadAt_iff_ranked

end ByteAutomata
