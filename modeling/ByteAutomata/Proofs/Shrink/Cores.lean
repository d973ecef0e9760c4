import ByteAutomata.Proofs.Learner.Stable
import ByteAutomata.Proofs.Canonical
import ByteAutomata.Proofs.Shrink.Registering

/-!
# What a learned automaton accepts

* `Lesson.valid` : what the outcome of an embedded core must be; `Lesson.runs`, `runs` : the buffers that are run
  to learn, each with the state of the engine;
* `Lesson.valid_of_asked`, `Teaches.accepts_smaller`, `Teaches.accepts_larger` : an engine that runs a buffer always
  alike has confirmed what the hypothesis says of the cores and of its first words;
* `Teaches.size_le` : a learned automaton has no more states than the language has residuals;
* `Due`, `states_due` : lessons are due where outcomes differ from what is recorded;
* `aided` : an engine that needs an automaton to shrink its cases alike, and its session (`aided_normalizes`);
* `normalize_teaches` : the automata that a session registers (`Taught`).
-/

namespace ByteAutomata
namespace Session

set_option autoImplicit false

open Observations

variable {ε κ σ : Type} [DecidableEq κ] {E : Engine ε κ} {settings : Settings} {base : String}
  {sample rounds steps : Nat} {outcome : Word → Outcome κ}

/-! ## Runs of embedded cores -/

namespace Lesson

variable (E) (l : Lesson ε κ σ)

/-- What the outcome of an embedded core must be: a failure of the origin that is consumed as it is. -/
def valid (core : Word) (r : Outcome κ) : Bool :=
  r.isInterestingWith l.origin && r.buffer == (l.divergence E).embed core && (l.allowDiscards || !r.hasDiscards)

theorem oracle_apply (core : Word) (e : ε) : l.oracle E core e =
    (l.valid E core (E.run ((l.divergence E).embed core) e).1, (E.run ((l.divergence E).embed core) e).2) := rfl

/-- The cores that are run, each with the state of the engine. -/
def cores (sample rounds : Nat) : List (Word × ε) :=
  ((l.divergence E).smallerCore, l.compared E) :: ((l.divergence E).largerCore, l.checkedSmaller E) ::
    (l.oracle E).passed (l.dialogue E sample rounds) (Cache.empty (l.checked E))

/-- The buffers that are run, each with the state of the engine. -/
def runs (sample rounds : Nat) : List (Word × ε) :=
  (l.cores E sample rounds).map fun c => ((l.divergence E).embed c.1, c.2)

/-- The engine has given these outcomes to all buffers that were run. -/
def Alike (sample rounds : Nat) (outcome : Word → Outcome κ) : Prop :=
  ∀ r ∈ l.runs E sample rounds, (E.run r.1 r.2).1 = outcome r.1

end Lesson

section Alike

variable {l : Lesson ε κ σ} {T : Observations} {w : Word}

theorem Lesson.Alike.oracle (h : l.Alike E sample rounds outcome) {e : ε} (hw : (w, e) ∈ l.cores E sample rounds) :
    (l.oracle E w e).1 = l.valid E w (outcome ((l.divergence E).embed w)) := by
  rw [← h _ (List.mem_map_of_mem hw)]
  rfl

/-- What the hypothesis says of the words that it rests on, the engine has said. -/
theorem Lesson.valid_of_asked (h : l.Alike E sample rounds outcome) (hheld : (l.held E sample rounds).1 = .ok T)
    (hw : Asked T [(l.divergence E).smallerCore, (l.divergence E).largerCore] sample w) :
    l.valid E w (outcome ((l.divergence E).embed w)) = T.dfa.accepts w := by
  obtain ⟨⟨result, d⟩, hend⟩ : ∃ r, l.held E sample rounds = r := ⟨_, rfl⟩
  obtain rfl : result = .ok T := by
    rw [hend] at hheld
    exact hheld
  obtain ⟨T₀, c₀, hstart, hstabilize⟩ := Oracle.hold_bind_eq_ok hend
  have hcached : (l.held E sample rounds).2.cached w = some (T.dfa.accepts w) := by
    rw [hend]
    exact (Reached.start hstart).cached_of_asked hstabilize hw
  rcases Oracle.exists_passed hcached with hempty | ⟨e, hpassed, hanswer⟩
  · simp at hempty
  · rw [← hanswer]
    exact (h.oracle (List.mem_cons_of_mem _ (List.mem_cons_of_mem _ hpassed))).symm

theorem Teaches.accepts_smaller (h : Teaches E settings base rounds l T)
    (halike : l.Alike E settings.selfCheckSample rounds outcome) :
    T.dfa.accepts (l.divergence E).smallerCore = true := by
  rw [← Lesson.valid_of_asked halike h.held ⟨_, Or.inl List.mem_cons_self, Or.inl rfl⟩,
    ← halike.oracle List.mem_cons_self]
  exact h.smaller

theorem Teaches.accepts_larger (h : Teaches E settings base rounds l T)
    (halike : l.Alike E settings.selfCheckSample rounds outcome) :
    T.dfa.accepts (l.divergence E).largerCore = true := by
  rw [← Lesson.valid_of_asked halike h.held ⟨_, Or.inl (List.mem_cons_of_mem _ List.mem_cons_self), Or.inl rfl⟩,
    ← halike.oracle (List.mem_cons_of_mem _ List.mem_cons_self)]
  exact h.larger

end Alike

/-- What is learned has no more states than the language of the cores has residuals. -/
theorem Teaches.size_le {l : Lesson ε κ σ} {T : Observations} {f : Word → Bool} {N : Nat}
    (h : Teaches E settings base rounds l T) (hf : ∀ w e, (l.oracle E w e).1 = f w)
    (hN : (Set.range (residual f)).encard = N) : T.dfa.canonical.size ≤ N := by
  obtain ⟨⟨result, d⟩, hend⟩ : ∃ r, l.held E settings.selfCheckSample rounds = r := ⟨_, rfl⟩
  obtain rfl : result = .ok T := by
    have hheld := h.held
    rw [hend] at hheld
    exact hheld
  obtain ⟨T₀, c₀, hstart, hstabilize⟩ := Oracle.hold_bind_eq_ok hend
  have hcalls := (((Reached.start hstart).of_stabilize hstabilize).calls hf).2
  have hfaithful := hcalls.settled.faithful
  calc T.dfa.canonical.size ≤ T.dfa.size := Dfa.size_canonical_le fun _ => rfl
    _ = T.size := size_dfa hfaithful
    _ ≤ N := size_le_of_residuals hfaithful hN

theorem encard_residual_true : (Set.range (residual fun _ => true)).encard = (1 : Nat) := by
  have hconst : residual (fun _ => true) = fun _ => fun _ => true := rfl
  rw [hconst, Set.range_const, Set.encard_singleton]
  rfl

/-- If all cores are accepted then the lesson comes to an end. -/
theorem Lesson.exists_held (l : Lesson ε κ σ) (h : ∀ w e, (l.oracle E w e).1 = true)
    (hsmaller : ¬ Huge (l.divergence E).smallerCore) (hlarger : ¬ Huge (l.divergence E).largerCore)
    (hrounds : 256 ≤ rounds) : ∃ T, (l.held E 1 rounds).1 = .ok T := by
  obtain ⟨T₀, c₀, hstart⟩ := exists_start (l.oracle E) (l.checked E)
  have hseeds : ∀ w ∈ [(l.divergence E).smallerCore, (l.divergence E).largerCore], ¬ Huge w := by
    simp [hsmaller, hlarger]
  obtain ⟨T, d, hstabilize⟩ := (Reached.start hstart).exists_stabilize h encard_residual_true rfl hseeds hrounds
  refine ⟨T, ?_⟩
  unfold Lesson.held Lesson.dialogue
  rw [Oracle.hold_bind_of_ok hstart, hstabilize]

/-! ## Lessons that are due -/

/-- What is recorded differs from the outcome, if there is something to learn. -/
def Due : Phase κ → World ε κ σ → Prop
  | .learning _ origin shrunk existing, w =>
    recorded? origin w.seen = some existing ∧ existing.buffer ≠ shrunk.buffer
  | _, _ => True

theorem due_move {phase phase' : Phase κ} {w w' : World ε κ σ}
    (hmove : Moves E settings base rounds phase w phase' w') : Due phase' w' := by
  cases hmove with
  | diverged known differ => exact ⟨known, differ⟩
  | _ => trivial

theorem states_due (E : Engine ε κ) (settings : Settings) (base : String) (rounds steps : Nat) (w : World ε κ σ) :
    ∀ s ∈ states E settings base rounds steps .seeking w, Due s.1 s.2 := by
  let Q (past : List (Phase κ × World ε κ σ)) (_ : World ε κ σ) := ∀ s ∈ past, Due s.1 s.2
  have hsnoc : ∀ past phase w w', (Q past w ∧ Due phase w) → Q (past ++ [(phase, w)]) w' := by
    intro past phase w w' h s hs
    rcases List.mem_append.1 hs with hs | hs
    · exact h.1 s hs
    · rw [List.mem_singleton.1 hs]
      exact h.2
  have hbegin : Q [] w ∧ Due .seeking w := ⟨fun _ hs => (nomatch hs), trivial⟩
  refine (loop_spec (P := fun past phase w => Q past w ∧ Due phase w) (Q := Q) rfl ?_ ?_ (fun _ _ _ h => h.1) []
    hbegin).1
  · exact fun past phase w phase' w' h hmove => ⟨hsnoc past phase w w' h, due_move hmove⟩
  · exact fun past phase w _ w' h _ _ => hsnoc past phase w w' h

theorem due_of_mem_lessons {l : Lesson ε κ σ} {w : World ε κ σ} (hl : l ∈ lessons E settings base rounds steps w) :
    recorded? l.origin l.before.seen = some l.existing ∧ l.existing.buffer ≠ l.shrunk.buffer := by
  obtain ⟨⟨phase, v⟩, hstate, hlesson⟩ := List.mem_filterMap.1 hl
  have hdue := states_due E settings base rounds steps w _ hstate
  cases phase with
  | learning attempt origin shrunk existing =>
    unfold lesson? at hlesson
    dsimp only at hlesson
    split at hlesson
    · cases hlesson
      exact hdue
    · cases hlesson
  | _ => cases hlesson

/-! ## Automata that are registered -/

/-- What is known of the automaton that is registered behind a lesson. -/
structure Taught (E : Engine ε κ) (sample : Nat) (base : String) (outcome : Word → Outcome κ) (l : Lesson ε κ σ)
    (name : String) (D : Dfa) : Prop where
  recorded : recorded? l.origin l.before.seen = some l.existing
  differ : l.existing.buffer ≠ l.shrunk.buffer
  smaller : D.accepts (l.divergence E).smallerCore = true
  larger : D.accepts (l.divergence E).largerCore = true
  /-- The first words, put into the divergence, give failures of the origin that are consumed as they are, and without
  discards unless an outcome that differed had discards. -/
  sampled : ∃ ws, D.words sample = .ok ws ∧ First (fun w => D.accepts w) sample ws ∧ ∀ w ∈ ws,
    (outcome ((l.divergence E).embed w)).status = .interesting ∧
    (outcome ((l.divergence E).embed w)).origin = some l.origin ∧
    (outcome ((l.divergence E).embed w)).buffer = (l.divergence E).embed w ∧
    ((outcome ((l.divergence E).embed w)).hasDiscards = true →
      l.shrunk.hasDiscards = true ∨ l.existing.hasDiscards = true)
  canonical : D.canonical = D
  named : name = nameFor base D
  fresh : l.before.registry.catalogue.find? name = none

omit [DecidableEq κ] in
theorem Lesson.allowDiscards_iff (l : Lesson ε κ σ) :
    l.allowDiscards = true ↔ l.shrunk.hasDiscards = true ∨ l.existing.hasDiscards = true := by
  simp [Lesson.allowDiscards]

theorem Lesson.valid_iff (E : Engine ε κ) (l : Lesson ε κ σ) (w : Word) (r : Outcome κ) : l.valid E w r = true ↔
    r.status = .interesting ∧ r.origin = some l.origin ∧ r.buffer = (l.divergence E).embed w ∧
      (r.hasDiscards = true → l.shrunk.hasDiscards = true ∨ l.existing.hasDiscards = true) := by
  rw [← l.allowDiscards_iff]
  cases hdiscards : r.hasDiscards <;> simp [Lesson.valid, Outcome.isInterestingWith, hdiscards, and_assoc]

theorem Teaches.taught {l : Lesson ε κ σ} {T : Observations} (h : Teaches E settings base rounds l T)
    (halike : l.Alike E settings.selfCheckSample rounds outcome)
    (hdue : recorded? l.origin l.before.seen = some l.existing ∧ l.existing.buffer ≠ l.shrunk.buffer) :
    Taught E settings.selfCheckSample base outcome l (nameFor base T.dfa.canonical) T.dfa.canonical where
  recorded := hdue.1
  differ := hdue.2
  smaller := (T.dfa.toAutomaton.accepts_canonical _).trans (h.accepts_smaller halike)
  larger := (T.dfa.toAutomaton.accepts_canonical _).trans (h.accepts_larger halike)
  sampled := by
    obtain ⟨ws, hws, hfirst⟩ := T.dfa.canonical.words_first settings.selfCheckSample
    have hown : T.dfa.words settings.selfCheckSample = .ok ws := by
      rw [← hws]
      exact Dfa.words_eq_of_accepts (fun w => (T.dfa.toAutomaton.accepts_canonical w).symm) _
    refine ⟨ws, hws, hfirst, fun w hw => (Lesson.valid_iff E l w _).1 ?_⟩
    rw [Lesson.valid_of_asked halike h.held ⟨w, Or.inr ⟨ws, hown, hw⟩, Or.inl rfl⟩]
    exact (Dfa.first_of_words hown).kind w hw
  canonical := T.dfa.toAutomaton.canonical_canonical
  named := rfl
  fresh := h.fresh

/-- The buffers that are run for the lessons of a session, each with the state of the engine. -/
def runs (E : Engine ε κ) (settings : Settings) (base : String) (rounds steps : Nat) (w : World ε κ σ) :
    List (Word × ε) :=
  (lessons E settings base rounds steps w).flatMap fun l => l.runs E settings.selfCheckSample rounds

/-- Every new entry comes from a lesson. -/
theorem Registered.exists_lesson {registry : Registry σ} {ls : List (Lesson ε κ σ)} {As : List Dfa}
    {w : World ε κ σ} (h : Registered E settings base rounds registry ls As w) {name : String} {D : Dfa}
    (hD : w.registry.catalogue.find? name = some D) (hnew : registry.catalogue.find? name = none) :
    ∃ l ∈ ls, l.automaton E settings.selfCheckSample rounds = .ok D ∧ name = nameFor base D := by
  have hmem := h.entries.mem_iff.1 ((Catalogue.mem_entries_iff _).2 hD)
  rcases List.mem_append.1 hmem with hold | hmem
  · rw [Catalogue.mem_entries_iff, hnew] at hold
    cases hold
  · obtain ⟨A, hA, hentry⟩ := List.mem_map.1 hmem
    cases hentry
    have hlesson : Except.ok D ∈ ls.map (Lesson.automaton E settings.selfCheckSample rounds) := by
      rw [h.automata]
      exact List.mem_map_of_mem hA
    obtain ⟨l, hl, hautomaton⟩ := List.mem_map.1 hlesson
    exact ⟨l, hl, hautomaton, rfl⟩

/-! ### An engine that needs help -/

/-- A test case that fails. -/
def failing (w : Word) : Outcome Unit := ⟨.interesting, some (), w, false⟩

/-- All test cases fail. The first is shorter, and the others shrink to it only with the help of an automaton. -/
def aided : Engine Bool Unit where
  generate later := (failing [if later then 1 else 0], true)
  run w := pure (failing w)
  shrink r automata _ := pure (if automata.isEmpty then r else failing [0])
  best _ := pure (some (failing [0]))
  compare := shortlexOrder

def aidedSettings : Settings :=
  { requiredSuccesses := 1, allowedToUpdate := true, maxDfas := 1, selfCheckSample := 1 }

/-- Nothing is registered yet. -/
def aidedRegistry : Registry MemoryStore := ⟨.new "", .empty⟩

/-- What there is to learn from the second test case. -/
def aidedLesson : Lesson Bool Unit MemoryStore where
  origin := ()
  shrunk := failing [1]
  existing := failing [0]
  before := ⟨true, aidedRegistry, [((), failing [0])], 0, true, 0, ⟨[], 2, 0⟩⟩

theorem oracle_aidedLesson (w : Word) (e : Bool) : (aidedLesson.oracle aided w e).1 = true := by
  rw [Lesson.oracle_apply]
  exact (Lesson.valid_iff aided aidedLesson w _).2 ⟨rfl, rfl, rfl, nofun⟩

theorem aided_teaches (base : String) : ∃ T, Teaches aided aidedSettings base 256 aidedLesson T := by
  obtain ⟨T, hT⟩ := aidedLesson.exists_held oracle_aidedLesson (by decide) (by decide) (Nat.le_refl 256)
  exact ⟨T, rfl, Nat.one_pos, by decide, oracle_aidedLesson _ _, oracle_aidedLesson _ _, hT, rfl⟩

theorem aided_loop {T : Observations} (hT : Teaches aided aidedSettings base 256 aidedLesson T) :
    ∃ w, loop aided aidedSettings base 256 11 .seeking (begin false aidedRegistry) = (.ok (), w) ∧
      w.registry.catalogue = Catalogue.empty.put (nameFor base T.dfa.canonical) T.dfa.canonical ∧
      w.report.learned ≠ [] := by
  have hbefore : loop aided aidedSettings base 256 11 .seeking (begin false aidedRegistry) =
      (step aided aidedSettings base 256 (.learning (failing [1]) () (failing [1]) (failing [0])) >>=
        fun phase => loop aided aidedSettings base 256 4 phase) aidedLesson.before := rfl
  have hlearn : step aided aidedSettings base 256 (.learning (failing [1]) () (failing [1]) (failing [0]))
      aidedLesson.before =
        (.ok (.shrinking (failing [1]) ()), aidedLesson.after aided aidedSettings base 256 T) := by
    rcases learn_spec aided aidedSettings base 256 aidedLesson with ⟨-, -, -, hnot⟩ | ⟨U, hU, hteaches⟩
    · exact absurd hT (hnot T)
    · obtain rfl : T = U := Except.ok.inj (hT.held.symm.trans hteaches.held)
      exact bind_of_ok hU
  rw [hbefore, bind_of_ok hlearn]
  exact ⟨_, rfl, rfl, List.cons_ne_nil _ _⟩

/-- The session learns an automaton and succeeds, whatever the base of its name. -/
theorem exists_normalize_aided (base : String) : ∃ T report w, Teaches aided aidedSettings base 256 aidedLesson T ∧
    normalize aided aidedSettings base 256 11 (begin false aidedRegistry) = (.ok report, w) ∧
    w.registry.catalogue = Catalogue.empty.put (nameFor base T.dfa.canonical) T.dfa.canonical ∧
    report.learned ≠ [] := by
  obtain ⟨T, hT⟩ := aided_teaches base
  obtain ⟨v, hloop, hcatalogue, hlearned⟩ := aided_loop hT
  refine ⟨T, v.report, ?_⟩
  rcases normalize_cases aided aidedSettings base 256 11 (begin false aidedRegistry) hloop with
    ⟨e, herror, -⟩ | ⟨-, hnothing, -⟩ | ⟨-, -, hnormalize⟩
  · cases herror
  · exact absurd hnothing hlearned
  · obtain ⟨written, hflush⟩ := v.registry.flush_memory
    rw [hflush] at hnormalize
    refine ⟨_, hT, hnormalize, ?_, hlearned⟩
    rw [v.registry.flush_spec.1]
    exact hcatalogue

theorem aided_normalizes : ∃ name D report w,
    normalize aided aidedSettings "aided" 256 11 (begin false aidedRegistry) = (.ok report, w) ∧
      w.registry.catalogue.find? name = some D := by
  obtain ⟨T, report, w, -, hnormalize, hcatalogue, -⟩ := exists_normalize_aided "aided"
  refine ⟨nameFor "aided" T.dfa.canonical, T.dfa.canonical, report, w, hnormalize, ?_⟩
  rw [hcatalogue, Catalogue.find?_put, if_pos rfl]

/-! ### New entries -/

/-- A new entry of the registry is learned from outcomes that differ. If the engine runs every buffer always alike,
then its automaton accepts both cores, and what its first words stand for was confirmed. -/
theorem normalize_teaches [Store σ] {engine : ε} {registry : Registry σ} {name : String} {D : Dfa}
    (hrun : ∀ r ∈ runs E settings base rounds steps (begin engine registry), (E.run r.1 r.2).1 = outcome r.1)
    (hD : (normalize E settings base rounds steps (begin engine registry)).2.registry.catalogue.find? name = some D)
    (hnew : registry.catalogue.find? name = none) :
    ∃ l ∈ lessons E settings base rounds steps (begin engine registry),
      Taught E settings.selfCheckSample base outcome l name D := by
  obtain ⟨As, hAs⟩ := normalize_registered E settings base rounds steps engine registry
  obtain ⟨l, hl, hautomaton, rfl⟩ := hAs.exists_lesson hD hnew
  refine ⟨l, hl, ?_⟩
  obtain ⟨⟨phase, v⟩, -, hlesson⟩ := List.mem_filterMap.1 hl
  obtain ⟨T, hT⟩ := teaches_of_lesson? hlesson
  have hsame : D = T.dfa.canonical := by
    unfold Lesson.automaton at hautomaton
    rw [hT.held] at hautomaton
    exact (Except.ok.inj hautomaton).symm
  rw [hsame]
  exact hT.taught (fun r hr => hrun r (List.mem_flatMap.2 ⟨l, hl, hr⟩)) (due_of_mem_lessons hl)

theorem normalize_teaches_aided : ∃ name D,
    (∀ r ∈ runs aided aidedSettings "aided" 256 11 (begin false aidedRegistry), (aided.run r.1 r.2).1 = failing r.1) ∧
    (normalize aided aidedSettings "aided" 256 11 (begin false aidedRegistry)).2.registry.catalogue.find? name =
      some D ∧
    aidedRegistry.catalogue.find? name = none ∧
    ∃ l ∈ lessons aided aidedSettings "aided" 256 11 (begin false aidedRegistry),
      Taught aided aidedSettings.selfCheckSample "aided" failing l name D := by
  obtain ⟨name, D, report, w, hnormalize, hD⟩ := aided_normalizes
  have hrun : ∀ r ∈ runs aided aidedSettings "aided" 256 11 (begin false aidedRegistry),
      (aided.run r.1 r.2).1 = failing r.1 := fun _ _ => rfl
  have hentry : (normalize aided aidedSettings "aided" 256 11
      (begin false aidedRegistry)).2.registry.catalogue.find? name = some D := by
    rw [hnormalize]
    exact hD
  exact ⟨name, D, hrun, hentry, rfl, normalize_teaches hrun hentry rfl⟩

end Session
end ByteAutomata
