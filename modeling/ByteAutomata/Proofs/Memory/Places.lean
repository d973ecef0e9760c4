import ByteAutomata.Proofs.Enumeration
import ByteAutomata.Proofs.Memory.Exact

/-!
# Listing words looks up steps once

* `leaves_first` : finding the place before the first word looks up all steps;
* `leaves_seek`, `leaves_next`, `leaves_take` : going on from a place looks up no step for the first time;
* `take_first_eq` : so the first words do not depend on what is remembered.
-/

namespace ByteAutomata.Words

set_option autoImplicit false

variable {A : Dfa} {m : Memo A}

theorem leaves_first (h : m.Exact) : m.Leaves (first m).2 (fun _ => True) ∧ (first m).2.known.isSome = true := by
  have hdead := h.leaves_isDead (some A.start)
  have hknown : (m.isDead (some A.start)).2.known.isSome = true := h.leaves_shape.2
  unfold first
  dsimp only
  split
  · exact ⟨hdead.congr fun p => ⟨fun _ => trivial, fun _ => rfl⟩, hknown⟩
  · have hlength := hdead.exact.leaves_maxLength (some A.start)
    exact ⟨(hdead.trans hlength).congr fun p => ⟨fun _ => trivial, fun _ => Or.inl rfl⟩, hlength.keeps hknown⟩

/-- All steps have been looked up before. -/
theorem leaves_seek (fuel : Nat) (w : Words) (h : m.Exact) (hknown : m.known.isSome = true) :
    m.Leaves (seek fuel w m).2.2 fun _ => False := by
  induction fuel generalizing w m with
  | zero => exact .refl h
  | succ fuel ih =>
    have hcount := (h.leaves_count (some A.start) w.length).of_known h hknown fun _ => False
    have hknown' := hcount.keeps hknown
    unfold seek
    split
    · exact .refl h
    · dsimp only
      split
      · have hnth := (hcount.exact.leaves_nth (some A.start) w.length w.rank).of_known hcount.exact hknown'
          fun _ => False
        have hboth := (hcount.trans hnth).congr fun p => or_self_iff
        generalize (m.count (some A.start) w.length).2.nth (some A.start) w.length w.rank = r at hboth
        obtain ⟨answer, k⟩ := r
        cases answer <;> exact hboth
      · exact (hcount.trans (ih _ hcount.exact hknown')).congr fun p => or_self_iff

theorem leaves_next (w : Words) (h : m.Exact) (hknown : m.known.isSome = true) :
    m.Leaves (w.next m).2.2 fun _ => False := leaves_seek (A.size + 2) w h hknown

theorem leaves_take (n : Nat) (w : Words) (h : m.Exact) (hknown : m.known.isSome = true) :
    m.Leaves (w.take n m).2.2 fun _ => False := by
  induction n generalizing w m with
  | zero => exact .refl h
  | succ n ih =>
    have hnext := leaves_next w h hknown
    unfold take
    generalize w.next m = r at hnext
    obtain ⟨answer, w', k⟩ := r
    dsimp only at hnext
    cases answer with
    | error e => exact hnext
    | ok found =>
      cases found with
      | none => exact hnext
      | some word =>
        have hboth := (hnext.trans (ih w' hnext.exact (hnext.keeps hknown))).congr fun p => or_self_iff
        dsimp only
        generalize w'.take n k = rest at hboth
        obtain ⟨answer, w'', l⟩ := rest
        cases answer <;> exact hboth

/-- The first words do not depend on what is remembered. -/
theorem take_first_eq (h : m.Exact) (n : Nat) : ((first m).1.take n (first m).2).1 = A.words n := by
  obtain ⟨hattains, hsound⟩ := first_spec h.toSound
  obtain ⟨ws, hws, hfirst⟩ := take_first n hsound hattains (limits_first h.toSound h.bounds)
  obtain ⟨vs, hvs, hfirst'⟩ := A.words_first n
  have hremains : (first m).1.Remains A = fun w => A.accepts w = true := funext fun w => propext (remains_first w)
  rw [hremains] at hfirst
  rw [hws, hvs, hfirst.unique hfirst']

end ByteAutomata.Words
