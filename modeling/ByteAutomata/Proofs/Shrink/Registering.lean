import ByteAutomata.Proofs.Shrink.Steps
import Mathlib.Data.List.Nodup

/-!
# What a session registers

* `lessons` : the lessons of a session that succeed; `Lesson.automaton` : what is learned in one;
* `putEntry_perm` : an automaton of a new name is one more entry; `Registry.flush_spec` : writing a registry;
* `Registered` : the entries are those from before and one for each lesson so far (`registered_move`,
  `normalize_registered`);
* `step_disallowed` : without leave to learn nothing is run;
* `normalize_leaves` : what a session leaves of the entries and of the store, however it ends.
-/

namespace ByteAutomata

set_option autoImplicit false

/-! ## Entries -/

namespace Catalogue

variable {name : String} {A : Dfa}

theorem putEntry_perm {es : List (String × Dfa)} (h : es.find? (·.1 = name) = none) :
    (putEntry name A es).Perm (es ++ [(name, A)]) := by
  induction es with
  | nil => exact List.Perm.refl _
  | cons e es ih =>
    obtain ⟨hne, hrest⟩ := List.forall_mem_cons.1 (List.find?_eq_none.1 h)
    unfold putEntry
    split
    · exact (List.perm_append_singleton _ _).symm
    · rw [if_neg (by simpa [eq_comm] using hne)]
      exact (ih (List.find?_eq_none.2 hrest)).cons e

theorem put_perm {C : Catalogue} (h : C.find? name = none) : (C.put name A).entries.Perm (C.entries ++ [(name, A)]) :=
  putEntry_perm (Option.map_eq_none_iff.1 h)

theorem nodup_names (C : Catalogue) : C.names.Nodup :=
  List.pairwise_map.2 (C.ordered.imp fun h => Std.ne_of_lt h)

theorem mem_entries_iff (C : Catalogue) : (name, A) ∈ C.entries ↔ C.find? name = some A := by
  unfold find?
  constructor
  · intro hmem
    cases hfind : C.entries.find? (·.1 = name) with
    | none => exact absurd rfl (of_decide_eq_false (Bool.eq_false_iff.2 (List.find?_eq_none.1 hfind _ hmem)))
    | some e =>
      have hname : e.1 = name := by simpa using List.find?_some hfind
      have he := List.inj_on_of_nodup_map C.nodup_names (List.mem_of_find?_eq_some hfind) hmem hname
      rw [he]
      rfl
  · intro hfind
    obtain ⟨e, he, rfl⟩ := Option.map_eq_some_iff.1 hfind
    have hname : e.1 = name := by simpa using List.find?_some he
    rw [← hname]
    exact List.mem_of_find?_eq_some he

end Catalogue

namespace Registry

variable {σ : Type} [Store σ]

/-- The entries stay, and the store is written once at most. -/
theorem flush_spec (R : Registry σ) : R.flush.2.catalogue = R.catalogue ∧ (R.flush.2.store = R.store ∨
    ∃ text, Store.read R.store = .ok text ∧
      R.flush.2.store = (Store.write R.store (String.ofList (R.catalogue.render text.toList))).2) := by
  unfold flush
  cases hread : Store.read R.store with
  | error e => exact ⟨rfl, Or.inl rfl⟩
  | ok text =>
    dsimp only
    split
    · exact ⟨rfl, Or.inl rfl⟩
    · split
      next hwrite => exact ⟨rfl, Or.inr ⟨text, rfl, by rw [hwrite]⟩⟩
      next hwrite => exact ⟨rfl, Or.inr ⟨text, rfl, by rw [hwrite]⟩⟩

/-- Writing to memory does not fail. -/
theorem flush_memory (R : Registry MemoryStore) : ∃ written, R.flush.1 = .ok written := by
  unfold flush
  dsimp only [Store.read, Store.write]
  split
  · exact ⟨false, rfl⟩
  · exact ⟨true, rfl⟩

end Registry

namespace Session

variable {ε κ σ : Type} [DecidableEq κ] {E : Engine ε κ} {settings : Settings} {base : String} {rounds : Nat}

/-! ## Lessons -/

/-- The automaton that is learned. -/
def Lesson.automaton (E : Engine ε κ) (sample rounds : Nat) (l : Lesson ε κ σ) : Except LearnFault Dfa :=
  (l.held E sample rounds).1.map fun T => T.dfa.canonical

/-- The lesson that is due, if it succeeds. -/
def lesson? (E : Engine ε κ) (settings : Settings) (base : String) (rounds : Nat) :
    Phase κ × World ε κ σ → Option (Lesson ε κ σ)
  | (.learning _ origin shrunk existing, w) =>
    match (learn E settings base rounds origin shrunk existing w).1 with
    | .ok _ => some ⟨origin, shrunk, existing, w⟩
    | .error _ => none
  | _ => none

/-- The lessons of a session that succeed, in order. -/
def lessons (E : Engine ε κ) (settings : Settings) (base : String) (rounds steps : Nat) (w : World ε κ σ) :
    List (Lesson ε κ σ) :=
  (states E settings base rounds steps .seeking w).filterMap (lesson? E settings base rounds)

theorem teaches_of_lesson? {phase : Phase κ} {w : World ε κ σ} {l : Lesson ε κ σ}
    (h : lesson? E settings base rounds (phase, w) = some l) : ∃ T, Teaches E settings base rounds l T := by
  cases phase with
  | learning attempt origin shrunk existing =>
    unfold lesson? at h
    dsimp only at h
    rcases learn_spec E settings base rounds ⟨origin, shrunk, existing, w⟩ with
      ⟨e, v, hlearn, -⟩ | ⟨T, hlearn, hteaches⟩
    · rw [hlearn] at h
      cases h
    · rw [hlearn] at h
      cases h
      exact ⟨T, hteaches⟩
  | _ => cases h

theorem filterMap_lesson?_snoc (past : List (Phase κ × World ε κ σ)) (phase : Phase κ) (w : World ε κ σ) :
    (past ++ [(phase, w)]).filterMap (lesson? E settings base rounds) =
      past.filterMap (lesson? E settings base rounds) ++ (lesson? E settings base rounds (phase, w)).toList := by
  rw [List.filterMap_append]
  cases h : lesson? E settings base rounds (phase, w) <;> simp [h]

/-- What has been registered: an automaton from each of these lessons. -/
structure Registered (E : Engine ε κ) (settings : Settings) (base : String) (rounds : Nat) (registry : Registry σ)
    (ls : List (Lesson ε κ σ)) (As : List Dfa) (w : World ε κ σ) : Prop where
  automata : ls.map (Lesson.automaton E settings.selfCheckSample rounds) = As.map .ok
  entries : w.registry.catalogue.entries.Perm (registry.catalogue.entries ++ As.map fun A => (nameFor base A, A))
  learned : w.report.learned = As.map (nameFor base)
  budget : As.length ≤ settings.maxDfas

section Registered

variable {registry : Registry σ} {ls : List (Lesson ε κ σ)} {As : List Dfa} {phase phase' : Phase κ}
  {w w' : World ε κ σ}

theorem Registered.mono (h : Registered E settings base rounds registry ls As w)
    (hcatalogue : w'.registry.catalogue = w.registry.catalogue) (hreport : w'.report.learned = w.report.learned) :
    Registered E settings base rounds registry ls As w' := by
  obtain ⟨hautomata, hentries, hlearned, hbudget⟩ := h
  rw [← hcatalogue] at hentries
  rw [← hreport] at hlearned
  exact ⟨hautomata, hentries, hlearned, hbudget⟩

/-- The names are new, and different. -/
theorem Registered.names (h : Registered E settings base rounds registry ls As w) :
    (As.map (nameFor base)).Nodup ∧ ∀ A ∈ As, registry.catalogue.find? (nameFor base A) = none := by
  have hnodup := ((h.entries.map Prod.fst).nodup_iff).1 w.registry.catalogue.nodup_names
  rw [List.map_append, List.map_map] at hnodup
  obtain ⟨-, hnames, hdisjoint⟩ := List.nodup_append.1 hnodup
  refine ⟨hnames, fun A hA => ?_⟩
  cases hfind : registry.catalogue.find? (nameFor base A) with
  | none => rfl
  | some B =>
    have hmem := List.mem_map_of_mem (f := Prod.fst) ((Catalogue.mem_entries_iff _).2 hfind)
    exact absurd rfl (hdisjoint _ hmem _ (List.mem_map_of_mem (f := nameFor base) hA))

/-- Earlier entries stay. -/
theorem Registered.find?_of_find? (h : Registered E settings base rounds registry ls As w) {name : String} {A : Dfa}
    (hA : registry.catalogue.find? name = some A) : w.registry.catalogue.find? name = some A := by
  rw [← Catalogue.mem_entries_iff] at hA ⊢
  exact h.entries.mem_iff.2 (List.mem_append_left _ hA)

/-- A lesson that succeeds adds its automaton. -/
theorem Registered.taught {l : Lesson ε κ σ} {T : Observations}
    (h : Registered E settings base rounds registry ls As l.before) (hT : Teaches E settings base rounds l T) :
    Registered E settings base rounds registry (ls ++ [l]) (As ++ [T.dfa.canonical])
      (l.after E settings base rounds T) := by
  constructor
  · rw [List.map_append, List.map_append, h.automata]
    refine congrArg (_ ++ [·]) ?_
    unfold Lesson.automaton
    rw [hT.held]
    rfl
  · rw [List.map_append, ← List.append_assoc]
    exact (Catalogue.put_perm hT.fresh).trans (h.entries.append_right _)
  · rw [List.map_append, ← h.learned]
    rfl
  · have hbudget := hT.budget
    rw [h.learned, List.length_map] at hbudget
    rw [List.length_append]
    exact hbudget

theorem registered_move (h : Registered E settings base rounds registry ls As w)
    (hmove : Moves E settings base rounds phase w phase' w') :
    ∃ Bs, Registered E settings base rounds registry
      (ls ++ (lesson? E settings base rounds (phase, w)).toList) Bs w' := by
  cases hmove with
  | @learned _ attempt shrunk existing origin T learns teaches =>
    have hlesson : lesson? E settings base rounds (.learning attempt origin shrunk existing, w) =
        some ⟨origin, shrunk, existing, w⟩ := by
      unfold lesson?
      dsimp only
      rw [learns]
    rw [hlesson]
    exact ⟨_, h.taught teaches⟩
  | _ =>
    refine ⟨As, ?_⟩
    change Registered E settings base rounds registry (ls ++ []) As _
    rw [List.append_nil]
    exact h.mono rfl rfl

/-- No lesson succeeds in a step that fails. -/
theorem lesson?_of_fails {e : SessionError} (h : step E settings base rounds phase w = (.error e, w')) :
    lesson? E settings base rounds (phase, w) = none := by
  cases phase with
  | learning attempt origin shrunk existing =>
    rw [step_learning] at h
    unfold lesson?
    dsimp only
    rcases learn_spec E settings base rounds ⟨origin, shrunk, existing, w⟩ with
      ⟨e, v, hlearn, -⟩ | ⟨T, hlearn, -⟩
    · rw [hlearn]
    · rw [bind_of_ok hlearn] at h
      cases h
  | _ => rfl

/-- A step leaves the store alone. -/
theorem store_move (hmove : Moves E settings base rounds phase w phase' w') : w'.registry.store = w.registry.store := by
  cases hmove <;> rfl

/-- What has been registered when the steps come to an end. -/
theorem loop_registered {steps : Nat} {engine : ε} {registry : Registry σ} {r : Except SessionError Unit}
    (h : loop E settings base rounds steps .seeking (begin engine registry) = (r, w)) :
    (∃ As, Registered E settings base rounds registry
      (lessons E settings base rounds steps (begin engine registry)) As w) ∧
    w.registry.store = registry.store := by
  let P (past : List (Phase κ × World ε κ σ)) (w : World ε κ σ) :=
    (∃ As, Registered E settings base rounds registry (past.filterMap (lesson? E settings base rounds)) As w) ∧
      w.registry.store = registry.store
  refine (loop_spec (P := fun past _ w => P past w) (Q := P) h ?_ ?_ (fun _ _ _ hP => hP) [] ?_).1
  · intro past phase w phase' w' hP hmove
    obtain ⟨⟨As, hAs⟩, hstore⟩ := hP
    change (∃ Bs, Registered _ _ _ _ _ _ Bs w') ∧ _
    rw [filterMap_lesson?_snoc]
    exact ⟨registered_move hAs hmove, (store_move hmove).trans hstore⟩
  · intro past phase w e w' hP hfails hunregistered
    obtain ⟨⟨As, hAs⟩, hstore⟩ := hP
    change (∃ Bs, Registered _ _ _ _ _ _ Bs w') ∧ _
    rw [filterMap_lesson?_snoc, lesson?_of_fails hfails, Option.toList_none, List.append_nil, hunregistered.registry]
    exact ⟨⟨As, hAs.mono (congrArg Registry.catalogue hunregistered.registry) hunregistered.learned⟩, hstore⟩
  · exact ⟨⟨[], rfl, by simp [begin], rfl, Nat.zero_le _⟩, rfl⟩

/-- What a session has registered stays when the store is written. -/
theorem normalize_registered [Store σ] (E : Engine ε κ) (settings : Settings) (base : String) (rounds steps : Nat)
    (engine : ε) (registry : Registry σ) : ∃ As, Registered E settings base rounds registry
      (lessons E settings base rounds steps (begin engine registry)) As
      (normalize E settings base rounds steps (begin engine registry)).2 := by
  cases hloop : loop E settings base rounds steps .seeking (begin engine registry) with
  | mk r w =>
  obtain ⟨⟨As, hAs⟩, -⟩ := loop_registered hloop
  refine ⟨As, ?_⟩
  rcases normalize_cases E settings base rounds steps (begin engine registry) hloop with
    ⟨e, -, hnormalize⟩ | ⟨-, -, hnormalize⟩ | ⟨-, -, hnormalize⟩
  · rw [hnormalize]
    exact hAs
  · rw [hnormalize]
    exact hAs
  · rw [hnormalize]
    exact hAs.mono w.registry.flush_spec.1 rfl

end Registered

/-! ## Without leave to learn -/

theorem learn_disallowed (h : settings.allowedToUpdate = false) (l : Lesson ε κ σ) :
    learn E settings base rounds l.origin l.shrunk l.existing l.before =
      (.error (.learningDisallowed (l.ranked E).1 (l.ranked E).2), l.before.setEngine (l.compared E)) := by
  have hpermit : permit settings (l.ranked E).1 (l.ranked E).2 (l.before.setEngine (l.compared E)) =
      (.error (.learningDisallowed (l.ranked E).1 (l.ranked E).2), l.before.setEngine (l.compared E)) := by
    unfold permit
    rw [h]
    rfl
  rw [learn_apply]
  exact bind_of_error hpermit

/-- No step depends on how the engine runs a buffer. -/
theorem step_disallowed (h : settings.allowedToUpdate = false) (run : Word → StateM ε (Outcome κ)) :
    (step { E with run := run } settings base rounds : Phase κ → Action ε κ σ (Phase κ)) =
      step E settings base rounds := by
  funext phase w
  cases phase with
  | learning attempt origin shrunk existing =>
    rw [step_learning, step_learning, bind_of_error (learn_disallowed h ⟨origin, shrunk, existing, w⟩),
      bind_of_error (learn_disallowed h ⟨origin, shrunk, existing, w⟩)]
    rfl
  | _ => rfl

theorem loop_disallowed (h : settings.allowedToUpdate = false) (run : Word → StateM ε (Outcome κ)) (steps : Nat) :
    (loop { E with run := run } settings base rounds steps : Phase κ → Action ε κ σ Unit) =
      loop E settings base rounds steps := by
  induction steps with
  | zero =>
    funext phase
    cases phase <;> rfl
  | succ steps ih =>
    funext phase w
    by_cases hphase : phase = .finished
    · rw [hphase]
      rfl
    · rw [loop_succ _ settings base rounds hphase, loop_succ _ settings base rounds hphase,
        step_disallowed h run, ih]

theorem loop_disallowed_keeps (h : settings.allowedToUpdate = false) {steps : Nat} {engine : ε}
    {registry : Registry σ} {r : Except SessionError Unit} {w : World ε κ σ}
    (hloop : loop E settings base rounds steps .seeking (begin engine registry) = (r, w)) :
    w.registry = registry ∧ w.report.learned = [] := by
  let P (_ : List (Phase κ × World ε κ σ)) (w : World ε κ σ) := w.registry = registry ∧ w.report.learned = []
  refine (loop_spec (P := fun past _ w => P past w) (Q := P) hloop ?_ ?_ (fun _ _ _ hP => hP) [] ⟨rfl, rfl⟩).1
  · intro past phase w phase' w' hP hmove
    cases hmove with
    | learned learns teaches => exact absurd (h.symm.trans teaches.allowed) Bool.false_ne_true
    | _ => exact hP
  · intro past phase w e w' hP _ hunregistered
    exact ⟨hunregistered.registry.trans hP.1, hunregistered.learned.trans hP.2⟩

/-! ## Sessions -/

/-- What a session leaves of a registry, however it ends. -/
structure Leaves [Store σ] (E : Engine ε κ) (settings : Settings) (base : String) (rounds steps : Nat) (engine : ε)
    (registry : Registry σ) (ran : Except SessionError Unit) (ended : Except SessionError Report)
    (after : World ε κ σ) : Prop where
  /-- Entries keep their names and automata. -/
  kept : ∀ name A, registry.catalogue.find? name = some A → after.registry.catalogue.find? name = some A
  /-- What was learned makes up the other entries, under new names that are different. -/
  added : ∃ As : List Dfa,
    (lessons E settings base rounds steps (begin engine registry)).map
      (Lesson.automaton E settings.selfCheckSample rounds) = As.map .ok ∧
    after.registry.catalogue.entries.Perm (registry.catalogue.entries ++ As.map fun A => (nameFor base A, A)) ∧
    after.report.learned = As.map (nameFor base) ∧ (As.map (nameFor base)).Nodup ∧
    (∀ A ∈ As, registry.catalogue.find? (nameFor base A) = none) ∧ As.length ≤ settings.maxDfas
  /-- An error of a step ends the session, and nothing is written. -/
  failed : ∀ e, ran = .error e → ended = .error e ∧ after.registry.store = registry.store
  /-- Nothing is written if nothing was learned. -/
  unwritten : after.report.learned = [] → after.registry.store = registry.store
  written : after.registry.store = registry.store ∨ ∃ text, Store.read registry.store = .ok text ∧
    after.registry.store =
      (Store.write registry.store (String.ofList (after.registry.catalogue.render text.toList))).2
  /-- Without leave to learn the registry stays as it is, and no buffer is run. -/
  disallowed : settings.allowedToUpdate = false → after.registry = registry ∧
    ∀ run : Word → StateM ε (Outcome κ),
      normalize { E with run := run } settings base rounds steps (begin engine registry) = (ended, after)

/-- Nothing is written by the steps, and the store is written once at most behind them, if something was learned. -/
theorem normalize_store [Store σ] {steps : Nat} {engine : ε} {registry : Registry σ} {r : Except SessionError Unit}
    {w : World ε κ σ} (h : loop E settings base rounds steps .seeking (begin engine registry) = (r, w)) :
    let after := (normalize E settings base rounds steps (begin engine registry)).2
    after.registry.store = registry.store ∨ (r = .ok () ∧ after.report.learned ≠ [] ∧
      ∃ text, Store.read registry.store = .ok text ∧ after.registry.store =
        (Store.write registry.store (String.ofList (after.registry.catalogue.render text.toList))).2) := by
  have hstore := (loop_registered h).2
  rcases normalize_cases E settings base rounds steps (begin engine registry) h with
    ⟨e, rfl, hnormalize⟩ | ⟨rfl, -, hnormalize⟩ | ⟨rfl, hlearned, hnormalize⟩
  · rw [hnormalize]
    exact Or.inl hstore
  · rw [hnormalize]
    exact Or.inl hstore
  · rw [hnormalize]
    obtain ⟨hcatalogue, hflush | ⟨text, hread, hflush⟩⟩ := w.registry.flush_spec
    · exact Or.inl (hflush.trans hstore)
    · refine Or.inr ⟨rfl, hlearned, text, ?_, ?_⟩
      · rw [← hstore]
        exact hread
      · dsimp only
        rw [hflush, hcatalogue, hstore]

theorem normalize_disallowed [Store σ] (h : settings.allowedToUpdate = false) (steps : Nat) (engine : ε)
    (registry : Registry σ) :
    (normalize E settings base rounds steps (begin engine registry)).2.registry = registry ∧
      ∀ run : Word → StateM ε (Outcome κ),
        normalize { E with run := run } settings base rounds steps (begin engine registry) =
          normalize E settings base rounds steps (begin engine registry) := by
  constructor
  · cases hloop : loop E settings base rounds steps .seeking (begin engine registry) with
    | mk r w =>
    obtain ⟨hregistry, hlearned⟩ := loop_disallowed_keeps h hloop
    rcases normalize_cases E settings base rounds steps (begin engine registry) hloop with
      ⟨e, -, hnormalize⟩ | ⟨-, -, hnormalize⟩ | ⟨-, hsome, -⟩
    · rw [hnormalize]
      exact hregistry
    · rw [hnormalize]
      exact hregistry
    · exact absurd hlearned hsome
  · intro run
    unfold normalize
    rw [loop_disallowed h run]

/-- What a session has registered it leaves in the registry, and it writes the store in the end at most. -/
theorem normalize_leaves [Store σ] (E : Engine ε κ) (settings : Settings) (base : String) (rounds steps : Nat)
    (engine : ε) (registry : Registry σ) : Leaves E settings base rounds steps engine registry
      (loop E settings base rounds steps .seeking (begin engine registry)).1
      (normalize E settings base rounds steps (begin engine registry)).1
      (normalize E settings base rounds steps (begin engine registry)).2 := by
  obtain ⟨As, hAs⟩ := normalize_registered E settings base rounds steps engine registry
  cases hloop : loop E settings base rounds steps .seeking (begin engine registry) with
  | mk r w =>
  have hstore := normalize_store hloop
  dsimp only at hstore
  refine ⟨fun name A hA => hAs.find?_of_find? hA, ?_, fun e he => ?_, fun hnone => ?_, ?_, fun hdisallowed => ?_⟩
  · exact ⟨As, hAs.automata, hAs.entries, hAs.learned, hAs.names.1, hAs.names.2, hAs.budget⟩
  · obtain rfl : r = .error e := he
    refine ⟨?_, hstore.resolve_right fun hok => nomatch hok.1⟩
    unfold normalize
    rw [bind_of_error hloop]
  · exact hstore.resolve_right fun hsome => hsome.2.1 hnone
  · exact hstore.imp_right fun hwritten => hwritten.2.2
  · obtain ⟨hregistry, hrun⟩ := normalize_disallowed (E := E) hdisallowed steps engine registry
    exact ⟨hregistry, hrun⟩

end Session
end ByteAutomata
