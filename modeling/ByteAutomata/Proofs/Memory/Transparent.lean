import ByteAutomata.Proofs.Memory.Usage

/-!
# Use does not show

* `Usage.Transparent A ops` : behind the operations `ops` all answers are those of a fresh copy of `A`, and
  copies answer alike. Only how steps are stored shows: tables with enough entries become dense where a step of
  their state is looked up, and stay so;
* `ask_eq_fresh`, `exists_iterator_fresh`, `isDense_run_iff`, `ask_copy` : its parts;
* `run_transparent` : this holds behind any operations, in any order.
-/

namespace ByteAutomata

set_option autoImplicit false

theorem Table.isDense_iff {α : Type} (t : Table α) : t.isDense = true ↔ ∃ targets, t = .dense targets := by
  cases t with
  | sparse entries ordered => exact ⟨fun h => (nomatch h), fun ⟨_, h⟩ => nomatch h⟩
  | dense targets => exact ⟨fun _ => ⟨targets, rfl⟩, fun _ => rfl⟩

theorem Table.isCrowded_iff {α : Type} (t : Table α) :
    t.isCrowded = true ↔ ∃ entries ordered, t = .sparse entries ordered ∧ denseThreshold ≤ entries.length := by
  cases t with
  | sparse entries ordered =>
    refine ⟨fun h => ⟨entries, ordered, rfl, of_decide_eq_true h⟩, ?_⟩
    rintro ⟨_, _, h, hlength⟩
    cases h
    exact decide_eq_true hlength
  | dense targets => exact ⟨fun h => (nomatch h), fun ⟨_, _, h, _⟩ => nomatch h⟩

namespace Memo

variable {A B : Dfa} {m : Memo A} {k : Memo B}

/-- Memories of automata with the same states and steps answer alike. -/
theorem Exact.ask_congr (hm : m.Exact) (hk : k.Exact) (h : A.toAutomaton = B.toAutomaton) {q : Query} (hq : q.Plain) :
    (m.ask q).1 = (k.ask q).1 := by
  obtain ⟨a, ha⟩ := hq.exists_answer A.toAutomaton
  rw [hm.ask_eq ha, hk.ask_eq (h ▸ ha)]

theorem ask_isDense (m : Memo A) (p : Fin A.size) :
    (m.ask (.isDense (.state p))).1 = .ok (.flag (m.tables.get p).isDense) := by
  have hresolve : resolve A (.state p) = .ok (some p) := dif_pos p.isLt
  rw [ask, hresolve]

/-- A copy answers every question like the automaton it was made of. -/
theorem Exact.ask_copy (h : m.Exact) (q : Query) : ((fresh m.snapshot).ask q).1 = (m.ask q).1 := by
  cases q with
  | density => rfl
  | isDense q =>
    rw [ask, ask]
    rcases resolve_cases A q with ⟨rfl, hr⟩ | ⟨i, rfl, hr⟩ | ⟨e, -, -, hr⟩
    · rfl
    · have hcopy : resolve m.snapshot (.state i) = .ok (some i) := hr
      rw [hr, hcopy]
      rfl
    · have hcopy : resolve m.snapshot q = .error e := hr
      rw [hr, hcopy]
      rfl
  | copy =>
    show Except.ok (fresh m.snapshot).copy.1 = Except.ok m.copy.1
    rw [(exact_fresh m.snapshot).copy_eq, h.copy_eq, (Dfa.text_eq_iff_toAutomaton _ _).2 h.snapshot]
    rfl
  | _ => exact (exact_fresh m.snapshot).ask_congr h h.snapshot trivial

/-- A copy and the automaton it was made of are equal. -/
theorem Exact.same_copy_eq (h : m.Exact) :
    ((fresh m.snapshot).same m).1 = true ∧ (m.same (fresh m.snapshot)).1 = true := by
  rw [same_eq rfl h.step, same_eq h.step rfl, Dfa.same_iff, Dfa.same_iff]
  exact ⟨h.snapshot, h.snapshot.symm⟩

end Memo

namespace Usage

variable {A : Dfa} {u : Usage A}

theorem ask_eq_fresh (A : Dfa) (ops : List Operation) {q : Query} (hq : q.Plain) :
    ((run A ops).memory.ask q).1 = ((Memo.fresh A).ask q).1 :=
  (valid_run A ops).1.exact.ask_congr (Memo.exact_fresh A) rfl hq

/-- A single iterator that is asked for words, and nothing else. -/
theorem exists_iterator_runFrom {c : WordIterator} (hc : u.iterators = [c]) (n : Nat) :
    ∃ d, (u.runFrom (List.replicate n (.next 0))).iterators = [d] ∧ d.calls = c.calls + n := by
  induction n generalizing u c with
  | zero => exact ⟨c, hc, rfl⟩
  | succ n ih =>
    have hfirst : u.iterators[0]? = some c := by
      rw [hc]
      rfl
    have hnext : (u.perform (.next 0)).iterators = [⟨(c.place.next u.memory).2.1, c.calls + 1⟩] := by
      rw [perform_next hfirst, hc]
      rfl
    obtain ⟨d, hd, hcalls⟩ := ih hnext
    exact ⟨d, hd, by rw [hcalls]; dsimp only; omega⟩

/-- The only iterator over a fresh copy. -/
theorem exists_iterator_fresh (A : Dfa) (n : Nat) : ∃ d,
    (run A (.iterate :: List.replicate n (.next 0))).iterators = [d] ∧
      (run A (.iterate :: List.replicate n (.next 0))).answerOf d = .ok (A.word? n) := by
  have hfirst : ((start A).perform .iterate).iterators = [⟨(Words.first (start A).memory).1, 0⟩] := rfl
  obtain ⟨d, hd, hcalls⟩ := exists_iterator_runFrom hfirst n
  have hiterators : (run A (.iterate :: List.replicate n (.next 0))).iterators = [d] := hd
  have hmem : d ∈ (run A (.iterate :: List.replicate n (.next 0))).iterators := by
    rw [hiterators]
    exact List.mem_singleton_self d
  refine ⟨d, hiterators, ?_⟩
  rw [(valid_run A _).1.answerOf_eq hmem, hcalls, Nat.zero_add]

/-- A table is dense if it was given so, or has enough entries and a step of its state has been looked up. -/
theorem isDense_run_iff (A : Dfa) (ops : List Operation) (p : Fin A.size) :
    ((run A ops).memory.tables.get p).isDense = true ↔ (∃ targets, A.tables.get p = .dense targets) ∨
      (∃ entries ordered, A.tables.get p = .sparse entries ordered ∧ denseThreshold ≤ entries.length) ∧
        ∃ op ∈ ops, op.LooksUp A p := by
  rw [(valid_run A ops).2.isDense_iff, ← Table.isDense_iff, ← Table.isCrowded_iff]
  rfl

/-- What is remembered of `A` behind operations does not show. -/
structure Transparent (A : Dfa) (ops : List Operation) : Prop where
  /-- Questions are answered as by a fresh copy, unless they ask how steps are stored. -/
  answers : ∀ q : Query, q.Plain → ((run A ops).memory.ask q).1 = ((Memo.fresh A).ask q).1
  /-- An iterator gives the word that the only iterator over a fresh copy gives behind as many calls. -/
  iterators : ∀ c ∈ (run A ops).iterators, ∃ d,
    (run A (.iterate :: List.replicate c.calls (.next 0))).iterators = [d] ∧
      (run A ops).answerOf c = (run A (.iterate :: List.replicate c.calls (.next 0))).answerOf d
  /-- So are comparisons of two automata in use. -/
  comparisons : ∀ (B : Dfa) (others : List Operation),
    ((run A ops).memory.same (run B others).memory).1 = ((Memo.fresh A).same (Memo.fresh B)).1 ∧
      ((run A ops).memory.difference (run B others).memory).1 = ((Memo.fresh A).difference (Memo.fresh B)).1
  canonical : (run A ops).memory.canonical.1 = (Memo.fresh A).canonical.1
  /-- Tables are dense that were given so, and those with enough entries of which a step has been looked up. -/
  dense : ∀ p : Fin A.size, ((run A ops).memory.ask (.isDense (.state p))).1 = .ok (.flag true) ↔
    (∃ targets, A.tables.get p = .dense targets) ∨
      (∃ entries ordered, A.tables.get p = .sparse entries ordered ∧ denseThreshold ≤ entries.length) ∧
        ∃ op ∈ ops, op.LooksUp A p
  /-- A dense table stays dense. -/
  stays : ∀ (later : List Operation) (p : Fin A.size),
    ((run A ops).memory.ask (.isDense (.state p))).1 = .ok (.flag true) →
      ((run A (ops ++ later)).memory.ask (.isDense (.state p))).1 = .ok (.flag true)
  /-- A copy answers every question alike, also those about how steps are stored, and is equal on both sides. -/
  copy_answers : ∀ q : Query,
    ((Memo.fresh (run A ops).memory.snapshot).ask q).1 = ((run A ops).memory.ask q).1
  copy_same : ((Memo.fresh (run A ops).memory.snapshot).same (run A ops).memory).1 = true ∧
    ((run A ops).memory.same (Memo.fresh (run A ops).memory.snapshot)).1 = true
  /-- The copy goes on to answer as a fresh copy does, whatever is asked of it. -/
  copy_used : ∀ (later : List Operation) (q : Query), q.Plain →
    ((run (run A ops).memory.snapshot later).memory.ask q).1 = ((Memo.fresh A).ask q).1

/-- Whatever is done with an automaton, and in whatever order, does not show, except in how steps are stored. -/
theorem run_transparent (A : Dfa) (ops : List Operation) : Transparent A ops := by
  have hvalid := (valid_run A ops).1
  have hexact := hvalid.exact
  have hfresh := Memo.exact_fresh A
  have hdense : ∀ ops (p : Fin A.size), ((run A ops).memory.ask (.isDense (.state p))).1 = .ok (.flag true) ↔
      ((run A ops).memory.tables.get p).isDense = true := by
    intro ops p
    rw [Memo.ask_isDense, Except.ok.injEq, Answer.flag.injEq]
  refine ⟨fun q hq => ask_eq_fresh A ops hq, fun c hc => ?_, fun B others => ?_, ?_, fun p => ?_, fun later p hp => ?_,
    hexact.ask_copy, hexact.same_copy_eq, fun later q hq => ?_⟩
  · obtain ⟨d, hd, hanswer⟩ := exists_iterator_fresh A c.calls
    exact ⟨d, hd, (hvalid.answerOf_eq hc).trans hanswer.symm⟩
  · have hother := (valid_run B others).1.exact
    constructor
    · rw [Memo.same_eq hexact.step hother.step, Memo.same_eq rfl rfl]
    · rw [hexact.difference_eq hother, hfresh.difference_eq (Memo.exact_fresh B)]
  · rw [hexact.canonical_eq, hfresh.canonical_eq]
  · rw [hdense, isDense_run_iff]
  · rw [hdense, isDense_run_iff] at hp ⊢
    refine hp.imp_right fun ⟨hcrowded, op, hop, hlooks⟩ => ⟨hcrowded, op, List.mem_append_left later hop, hlooks⟩
  · exact (valid_run _ later).1.exact.ask_congr hfresh hexact.snapshot hq

end Usage
end ByteAutomata
