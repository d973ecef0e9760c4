import ByteAutomata.Dfa.Build
import ByteAutomata.Proofs.Listing

/-!
# Building from descriptions

* `checkStates_eq_ok_iff`, `Dfa.build_eq_ok_iff` : a description is built exactly if none of the checks fails,
  and then from the tables of its states;
* `Encoding.specs` : the description of what a text lists;
* `Encoding.build_specs` : what passes the checks of the reader passes those of `Dfa.build`, which gives the same
  automaton.
-/

namespace ByteAutomata

set_option autoImplicit false

/-! ## Checks -/

theorem checkStates_eq_ok_iff {n : Nat} {error : StateRef → BuildError} {list : List StateRef} :
    checkStates n error list = .ok () ↔ ∀ p ∈ list, (p.resolve? n).isSome = true := by
  unfold checkStates
  split
  next p hfind =>
    have hunknown : (p.resolve? n).isNone = true := by simpa using List.find?_some hfind
    refine ⟨nofun, fun h => ?_⟩
    have hknown := h p (List.mem_of_find?_eq_some hfind)
    simp [Option.isNone_iff_eq_none.1 hunknown] at hknown
  next hfind => simpa [Option.isSome_iff_ne_none] using hfind

theorem table?_entries_eq_ok_iff {list : List (Run StateRef)} {t : Table StateRef} :
    (StateRuns.entries list).table? = .ok t ↔ Table.ofEntries StateRef.number list = .ok t := by
  unfold StateRuns.table?
  dsimp only
  cases Table.ofEntries StateRef.number list <;> simp

/-- A description is built exactly if none of the checks fails. -/
theorem Dfa.build_eq_ok_iff {states : List StateSpec} {accepting : List StateRef} {start : StateRef} {A : Dfa} :
    build states accepting start = .ok A ↔ ∃ given tables, states.mapM StateSpec.runs? = .ok given ∧
      given.mapM StateRuns.table? = .ok tables ∧ ∃ q, start.resolve? tables.length = some q ∧
        (∀ p ∈ tables.flatMap Table.targets, (p.resolve? tables.length).isSome = true) ∧
        (∀ p ∈ accepting, (p.resolve? tables.length).isSome = true) ∧ A = ofTables tables accepting q := by
  unfold build
  constructor
  · intro h
    obtain ⟨given, hgiven, h⟩ := bind_eq_ok_iff.1 h
    obtain ⟨tables, htables, h⟩ := bind_eq_ok_iff.1 h
    dsimp only at h
    refine ⟨given, tables, hgiven, htables, ?_⟩
    split at h
    next => cases h
    next =>
      split at h
      next => cases h
      next q hq =>
        obtain ⟨⟨⟩, htargets, h⟩ := bind_eq_ok_iff.1 h
        obtain ⟨⟨⟩, haccepting, h⟩ := bind_eq_ok_iff.1 h
        cases h
        exact ⟨q, hq, checkStates_eq_ok_iff.1 htargets, checkStates_eq_ok_iff.1 haccepting, rfl⟩
  · rintro ⟨given, tables, hgiven, htables, q, hq, htargets, haccepting, rfl⟩
    refine bind_eq_ok_iff.2 ⟨given, hgiven, bind_eq_ok_iff.2 ⟨tables, htables, ?_⟩⟩
    have hsize : tables.length ≠ 0 := by have := q.isLt; omega
    simp only [if_neg hsize, hq]
    refine bind_eq_ok_iff.2 ⟨(), checkStates_eq_ok_iff.2 htargets, ?_⟩
    exact bind_eq_ok_iff.2 ⟨(), checkStates_eq_ok_iff.2 haccepting, rfl⟩

/-! ## Lists that were read -/

namespace Encoding

/-- The description of what a text lists. -/
def specs (e : Encoding) : List StateSpec :=
  e.rows.map fun row => .entries (row.map fun r => ⟨r.lo, r.hi, .state r.value⟩)

theorem mapM_runs?_specs (e : Encoding) :
    e.specs.mapM StateSpec.runs? = .ok (e.rows.map fun row => .entries (row.map (Run.map StateRef.state))) := by
  rw [mapM_eq_ok_iff]
  unfold specs
  rw [List.forall₂_map_left_iff, List.forall₂_map_right_iff, List.forall₂_same]
  intro row _
  refine bind_eq_ok_iff.2 ⟨row.map (Run.map StateRef.state), ?_, rfl⟩
  rw [mapM_eq_ok_iff, List.forall₂_map_left_iff, List.forall₂_map_right_iff, List.forall₂_same]
  exact fun r _ => dif_pos r.lo_le_hi

theorem Tabled.mapM_table? {e : Encoding} {tables : List (Table StateRef)} (h : e.Tabled tables) :
    (e.rows.map fun row => StateRuns.entries (row.map (Run.map StateRef.state))).mapM StateRuns.table? =
      .ok tables := by
  rw [mapM_eq_ok_iff, List.forall₂_map_left_iff, ← List.zipIdx_map_fst 0 e.rows, List.forall₂_map_left_iff]
  exact List.Forall₂.imp (fun row t ht => table?_entries_eq_ok_iff.2 (table_eq_ok_iff.1 ht).1) h

theorem isSome_resolve?_iff {n q : Nat} : (StateRef.resolve? n (.state q)).isSome = true ↔ q < n := by
  simp [StateRef.resolve?, toState?]

/-- What passes the checks of the reader passes those of `Dfa.build`, which gives the same automaton. -/
theorem build_specs {e : Encoding} {A : Dfa} (h : e.toDfa = .ok A) :
    Dfa.build e.specs (e.accepting.map .state) (.state e.start) = .ok A := by
  obtain ⟨haccepting, tables, htables, start, hstart, rfl⟩ := toDfa_eq_ok_iff.1 h
  refine Dfa.build_eq_ok_iff.2 ⟨_, tables, mapM_runs?_specs e, htables.mapM_table?, start,
    toState?_eq_some.2 hstart.symm, fun p hp => ?_, fun p hp => ?_, rfl⟩
  · obtain ⟨t, ht, hp⟩ := List.mem_flatMap.1 hp
    obtain ⟨row, -, hrow⟩ := (exists_of_forall₂ htables).2 t ht
    obtain ⟨hentries, hvalues⟩ := table_eq_ok_iff.1 hrow
    obtain ⟨s, hs, rfl⟩ := (Table.mem_targets_of_ofEntries hentries p).1 hp
    obtain ⟨r, hr, rfl⟩ := List.mem_map.1 hs
    exact isSome_resolve?_iff.2 (htables.length_eq ▸ hvalues r hr)
  · obtain ⟨q, hq, rfl⟩ := List.mem_map.1 hp
    exact isSome_resolve?_iff.2 (htables.length_eq ▸ haccepting q hq)

end Encoding
end ByteAutomata
