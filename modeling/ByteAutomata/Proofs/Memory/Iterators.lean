import ByteAutomata.Proofs.Memory.Usage

/-!
# Iterators over the accepted words

* `Usage.calls?`, `Usage.nextOf` : how often an iterator was asked for a word, and what it answers next;
* `calls?_perform`, `calls?_runFrom` : an iterator moves when it is asked itself, and only then;
* `Usage.Iterates A s` : iterators list the sequence `s`, a clone from where its original stood, each on its own
  whatever else is done with `A` between two calls;
* `iterates_words` : they list the accepted words, each once and in shortlex order, and end exactly if there are
  finitely many.
-/

namespace ByteAutomata

set_option autoImplicit false

namespace Usage

variable {A : Dfa} {u : Usage A} {i k : Nat}

/-- How often an iterator was asked for the next word. -/
def calls? (u : Usage A) (i : Nat) : Option Nat := u.iterators[i]?.map WordIterator.calls

/-- What an iterator answers if it is asked for the next word. -/
def nextOf (u : Usage A) (i : Nat) : Option (Except Fault (Option Word)) := u.iterators[i]?.map u.answerOf

theorem calls?_append {c d : WordIterator} {m : Memo A} (hi : u.iterators[i]? = some c) :
    calls? ⟨m, u.iterators ++ [d]⟩ i = some c.calls := by
  unfold calls?
  rw [List.getElem?_append_left (List.getElem?_eq_some_iff.1 hi).1, hi]
  rfl

theorem calls?_last (u : Usage A) (d : WordIterator) (m : Memo A) :
    calls? ⟨m, u.iterators ++ [d]⟩ u.iterators.length = some d.calls := by
  unfold calls?
  rw [List.getElem?_concat_length]
  rfl

/-- An iterator that is not asked for a word stays where it is. -/
theorem calls?_perform (hi : u.calls? i = some k) (op : Operation) :
    (u.perform op).calls? i = some (if op.advances i then k + 1 else k) := by
  obtain ⟨c, hc, rfl⟩ := Option.map_eq_some_iff.1 hi
  cases op with
  | ask q => exact hi
  | comparedWith B => exact hi
  | searchedWith B => exact hi
  | iterate => exact calls?_append hc
  | fork j =>
    cases hj : u.iterators[j]? with
    | none =>
      rw [perform, hj]
      exact hi
    | some d =>
      rw [perform_fork hj]
      exact calls?_append hc
  | next j =>
    by_cases hij : i = j
    · subst hij
      have hlt := (List.getElem?_eq_some_iff.1 hc).1
      have hadvances : (Operation.next i).advances i = true := beq_self_eq_true i
      rw [perform_next hc, if_pos hadvances]
      unfold calls?
      rw [List.getElem?_set_self hlt]
      rfl
    · have hadvances : ¬ (Operation.next j).advances i = true := fun heq => hij (eq_of_beq heq)
      rw [if_neg hadvances]
      cases hj : u.iterators[j]? with
      | none =>
        rw [perform, hj]
        exact hi
      | some d =>
        rw [perform_next hj]
        unfold calls?
        rw [List.getElem?_set_ne (Ne.symm hij), hc]
        rfl

/-- Behind many operations an iterator has moved by its own calls. -/
theorem calls?_runFrom (hi : u.calls? i = some k) (ops : List Operation) :
    (u.runFrom ops).calls? i = some (k + ops.countP (Operation.advances i)) := by
  induction ops generalizing u k with
  | nil => exact hi
  | cons op ops ih =>
    rw [List.countP_cons]
    refine (ih (calls?_perform hi op)).trans (congrArg some ?_)
    split <;> omega

theorem Valid.nextOf_eq (h : u.Valid) (hi : u.calls? i = some k) : u.nextOf i = some (.ok (A.word? k)) := by
  obtain ⟨c, hc, rfl⟩ := Option.map_eq_some_iff.1 hi
  unfold nextOf
  rw [hc]
  exact congrArg some (h.answerOf_eq (List.mem_of_getElem? hc))

/-- Iterators over the words of `A` list the sequence `s`, and whatever else is done with `A` does not disturb
them. -/
structure Iterates (A : Dfa) (s : Nat → Option Word) : Prop where
  /-- The sequence has the accepted words, each once, in shortlex order, and ends if they are finitely many. -/
  enumerates : Enumerates s fun w => A.accepts w
  /-- A new iterator begins with the first word. -/
  created : ∀ ops, (run A (ops ++ [.iterate])).calls? (run A ops).iterators.length = some 0
  /-- A clone stands where its original stood. -/
  cloned : ∀ ops i k, (run A ops).calls? i = some k →
    (run A (ops ++ [.fork i])).calls? (run A ops).iterators.length = some k
  /-- Behind `k` calls and later operations, among them `n` calls, the next word is the one at position `k + n`.
  In particular every call returns. -/
  continues : ∀ ops later i k, (run A ops).calls? i = some k →
    (run A (ops ++ later)).nextOf i = some (.ok (s (k + later.countP (Operation.advances i))))

theorem iterates_words (A : Dfa) : Iterates A A.word? := by
  refine ⟨A.enumerates, fun ops => ?_, fun ops i k hi => ?_, fun ops later i k hi => ?_⟩
  · rw [run_append]
    exact calls?_last (run A ops) _ _
  · obtain ⟨c, hc, rfl⟩ := Option.map_eq_some_iff.1 hi
    rw [run_append]
    show ((run A ops).perform (.fork i)).calls? _ = _
    rw [perform_fork hc]
    exact calls?_last (run A ops) c _
  · refine (valid_run A (ops ++ later)).1.nextOf_eq ?_
    rw [run_append]
    exact calls?_runFrom hi later

end Usage
end ByteAutomata
