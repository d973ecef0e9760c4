import ByteAutomata.Proofs.Minimal
import ByteAutomata.Proofs.Text
import ByteAutomata.Registry.Naming

/-!
# Canonical texts decide equivalence

* `Table.lookup_runs` : a table of maximal runs reads the steps it was made of;
* `toAutomaton_ofAutomaton`, `accepts_canonical` : the canonical form keeps the language;
* `toAutomaton_eq_iff`, `text_eq_iff_toAutomaton`, `same_iff` : the text of an automaton shows its states
  and steps, but not how they are stored, and these are what is compared;
* `canonical_text_decides` : canonical texts agree exactly if the languages do, and so do names;
* `Dfa.size_canonical_le` : the canonical form has the fewest states.
-/

namespace ByteAutomata

set_option autoImplicit false

theorem Table.lookup_runs {α : Type} [DecidableEq α] (f : UInt8 → Option α) (b : UInt8) :
    (Table.sparse (runs f) (runs_ordered f)).lookup b = f b := by
  change ((runs f).find? (·.covers b)).map Run.value = f b
  cases h : (runs f).find? (·.covers b) with
  | some r =>
    have hcovers := List.find?_some h
    exact ((mem_runs_covers f b r.value).1 ⟨r, List.mem_of_find?_eq_some h, hcovers, rfl⟩).symm
  | none =>
    cases hf : f b with
    | none => rfl
    | some x =>
      obtain ⟨r, hr, hcovers, -⟩ := (mem_runs_covers f b x).2 hf
      exact absurd hcovers (List.find?_eq_none.1 h r hr)

namespace Dfa

theorem toAutomaton_ofAutomaton {M : Automaton} {q : Fin M.size} (h : M.start = some q) :
    (ofAutomaton M).toAutomaton = M := by
  obtain ⟨size, start, accepting, step⟩ := M
  simp only at q h
  subst h
  have haccepting : (Vector.ofFn accepting).get = accepting := funext fun p => get_ofFn _ p
  have hstep : (fun p b => ((Vector.ofFn fun p => Table.sparse (runs (step p)) (runs_ordered _)).get p).lookup b) =
      step := by
    funext p b
    rw [get_ofFn]
    exact Table.lookup_runs (step p) b
  change Automaton.mk size (some q) (Vector.ofFn accepting).get (fun p b =>
    ((Vector.ofFn fun p => Table.sparse (runs (step p)) (runs_ordered _)).get p).lookup b) = _
  rw [haccepting, hstep]

theorem accepts_empty (w : Word) : empty.accepts w = false := by
  cases w with
  | nil => rfl
  | cons b w => exact Automaton.acceptsFrom_none _ w

theorem ofAutomaton_eq_empty {M : Automaton} (h : M.start = none) : ofAutomaton M = empty := by
  unfold ofAutomaton
  rw [h]

theorem accepts_ofAutomaton (M : Automaton) (w : Word) : (ofAutomaton M).accepts w = M.accepts w := by
  cases h : M.start with
  | some q => rw [accepts, toAutomaton_ofAutomaton h]
  | none => rw [ofAutomaton_eq_empty h, accepts_empty, Automaton.accepts, h, Automaton.acceptsFrom_none]

/-! ## What the text shows -/

theorem mem_acceptingStates (A : Dfa) (q : Fin A.size) : q.val ∈ A.acceptingStates ↔ A.accepting.get q = true := by
  unfold acceptingStates
  rw [List.mem_map]
  constructor
  · intro h
    obtain ⟨p, hp, hpq⟩ := h
    rw [← Fin.ext hpq]
    exact (List.mem_filter.1 hp).2
  · intro h
    exact ⟨q, List.mem_filter.2 ⟨List.mem_finRange q, h⟩, rfl⟩

/-- The entries of a state show where each byte leads. -/
theorem map_val_eq_some_iff {n : Nat} (f : UInt8 → Option (Fin n)) (b : UInt8) (x : Nat) :
    (f b).map Fin.val = some x ↔ ∃ r ∈ (runs f).map (Run.map Fin.val), r.covers b = true ∧ r.value = x := by
  rw [Option.map_eq_some_iff]
  constructor
  · rintro ⟨t, ht, rfl⟩
    obtain ⟨r, hr, hb, rfl⟩ := (mem_runs_covers f b t).2 ht
    exact ⟨_, List.mem_map_of_mem hr, hb, rfl⟩
  · intro h
    obtain ⟨r', hr', hb, hx⟩ := h
    obtain ⟨r, hr, rfl⟩ := List.mem_map.1 hr'
    exact ⟨r.value, (mem_runs_covers f b _).1 ⟨r, hr, hb, rfl⟩, hx⟩

theorem step_of_entries {m n : Nat} {f : UInt8 → Option (Fin m)} {g : UInt8 → Option (Fin n)}
    (h : (runs f).map (Run.map Fin.val) = (runs g).map (Run.map Fin.val)) (b : UInt8) :
    (f b).map Fin.val = (g b).map Fin.val := by
  apply Option.ext
  intro x
  rw [map_val_eq_some_iff, map_val_eq_some_iff, h]

/-- Entries, accepting states and start are all there is besides the way it is stored. -/
theorem toAutomaton_eq_iff (A B : Dfa) : A.toAutomaton = B.toAutomaton ↔
    A.rows = B.rows ∧ A.acceptingStates = B.acceptingStates ∧ A.start.val = B.start.val := by
  obtain ⟨m, startA, acceptingA, tablesA⟩ := A
  obtain ⟨n, startB, acceptingB, tablesB⟩ := B
  constructor
  · intro h
    simp only [toAutomaton, Automaton.mk.injEq] at h
    obtain ⟨rfl, hstart, haccepting, hstep⟩ := h
    have hstart := Option.some.inj (eq_of_heq hstart)
    have haccepting := eq_of_heq haccepting
    have hstep := eq_of_heq hstep
    refine ⟨?_, ?_, congrArg Fin.val hstart⟩
    · unfold rows entries
      exact congrArg (fun step => (List.finRange m).map fun q => (runs (step q)).map (Run.map Fin.val)) hstep
    · unfold acceptingStates
      exact congrArg (fun final => ((List.finRange m).filter final).map Fin.val) haccepting
  · intro h
    obtain ⟨hrows, hacc, hstart⟩ := h
    have hsize : m = n := by
      have hlength := congrArg List.length hrows
      simpa [rows] using hlength
    subst hsize
    have hstart : startA = startB := Fin.ext hstart
    have haccepting : acceptingA.get = acceptingB.get := by
      funext q
      have hA := mem_acceptingStates ⟨m, startA, acceptingA, tablesA⟩ q
      have hB := mem_acceptingStates ⟨m, startB, acceptingB, tablesB⟩ q
      rw [hacc] at hA
      exact Bool.eq_iff_iff.2 (hA.symm.trans hB)
    have hstep : (fun q b => (tablesA.get q).lookup b) = fun q b => (tablesB.get q).lookup b := by
      funext q b
      have hrow := List.map_inj_left.1 hrows q (List.mem_finRange q)
      have hval := step_of_entries hrow b
      exact Option.map_injective Fin.val_injective hval
    simp only [toAutomaton]
    rw [hstart, haccepting]
    exact congrArg (Automaton.mk m (some startB) acceptingB.get) hstep

theorem length_rows (A : Dfa) : A.rows.length = A.size := by simp [rows]

theorem same_iff (A B : Dfa) : A.same B = true ↔ A.toAutomaton = B.toAutomaton := by
  rw [toAutomaton_eq_iff]
  simp only [same, Bool.and_eq_true, beq_iff_eq]
  constructor
  · rintro ⟨⟨⟨hstart, haccepting⟩, -⟩, hrows⟩
    exact ⟨hrows, haccepting, hstart⟩
  · rintro ⟨hrows, haccepting, hstart⟩
    exact ⟨⟨⟨hstart, haccepting⟩, by rw [← A.length_rows, hrows, B.length_rows]⟩, hrows⟩

/-- Automata with one text differ in the way they are stored at most. -/
theorem text_eq_iff_toAutomaton (A B : Dfa) : A.text = B.text ↔ A.toAutomaton = B.toAutomaton :=
  (text_eq_iff A B).trans (toAutomaton_eq_iff A B).symm

end Dfa

namespace Automaton

theorem accepts_canonical (A : Automaton) (w : Word) : A.canonical.accepts w = A.accepts w := by
  rw [canonical, Dfa.accepts_ofAutomaton, accepts_minimal]

/-- The canonical form of a canonical form is the same. -/
theorem canonical_canonical (A : Automaton) : A.canonical.canonical = A.canonical := by
  have hminimal := (minimal_eq_iff A.canonical.toAutomaton A).2 A.accepts_canonical
  exact congrArg Dfa.ofAutomaton hminimal

theorem canonical_text_eq_of_accepts {A B : Automaton} (h : ∀ w, A.accepts w = B.accepts w) :
    A.canonical.text = B.canonical.text := by
  rw [canonical, canonical, (minimal_eq_iff A B).2 h]

theorem accepts_eq_of_canonical_text {A B : Automaton} (h : A.canonical.text = B.canonical.text) (w : Word) :
    A.accepts w = B.accepts w := by
  have hsame := (Dfa.text_eq_iff_toAutomaton _ _).1 h
  rw [← A.accepts_canonical, ← B.accepts_canonical, Dfa.accepts, Dfa.accepts, hsame]

/-- Canonical texts agree exactly if the languages do. So the canonical form of a canonical form has
the same text, and the name of an automaton depends on its language only, whatever the digest. -/
theorem canonical_text_decides (A B : Automaton) :
    (A.canonical.text = B.canonical.text ↔ ∀ w, A.accepts w = B.accepts w) ∧
      A.canonical.canonical.text = A.canonical.text ∧
      ∀ (digest : List UInt8 → List UInt8) (base : String) (C D : Dfa),
        (∀ w, C.accepts w = D.accepts w) → nameBy digest base C = nameBy digest base D := by
  refine ⟨⟨accepts_eq_of_canonical_text, canonical_text_eq_of_accepts⟩, ?_, ?_⟩
  · exact canonical_text_eq_of_accepts A.accepts_canonical
  · intro digest base C D h
    exact nameBy_congr digest base (canonical_text_eq_of_accepts h)

end Automaton

/-- The canonical form has the fewest states of all automata of the language. -/
theorem Dfa.size_canonical_le {A B : Dfa} (h : ∀ w, A.accepts w = B.accepts w) : A.canonical.size ≤ B.size := by
  have hminimal := A.toAutomaton.canonical_minimal
  have haccepts : ∀ w, A.toAutomaton.minimal.accepts w = B.toAutomaton.accepts w :=
    fun w => (Automaton.accepts_minimal _ w).trans (h w)
  choose f _ hf using fun i => hminimal.follow haccepts (hminimal.reads i)
  have hinjective : Function.Injective f :=
    fun i j hij => hminimal.separated i j fun x => (hf i x).trans (hij ▸ (hf j x).symm)
  unfold canonical Automaton.canonical ofAutomaton
  split
  · exact Fin.pos B.start
  · have hcard := Fintype.card_le_of_injective f hinjective
    rwa [Fintype.card_fin, Fintype.card_fin] at hcard

end ByteAutomata
