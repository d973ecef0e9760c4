import ByteAutomata.Proofs.Building
import ByteAutomata.Proofs.Lookup
import ByteAutomata.Proofs.Memory.Usage

/-!
# Automata from descriptions

* `StateSpec.Leads`, `StateSpec.Overlaps`, `StateSpec.Demands` : where the description of a state leads, whether two
  of its entries share a byte, and which targets it needs to exist;
* `StateSpec.Tells` : the table of a description leads where the description does (`tells_of_table`);
  `exists_table_iff` : there is one unless entries overlap. `StateSpec.Tabled` : the same for all states;
* `Rejected` : what can be wrong with a description whose ranges are not inverted. Exactly what is not rejected is
  built (`Dfa.exists_build_iff`);
* `Dfa.Described` : the automaton has the start, the accepting states and the steps that are described, however its
  tables are read (`described_of_build`);
* `Dfa.build_describes` : a description is rejected, or its automaton is built.
-/

namespace ByteAutomata

set_option autoImplicit false

/-! ## Descriptions -/

/-- The reference is the number of a state. -/
def StateRef.Names (n : Nat) (q : StateRef) : Prop := ∃ i < n, q = .state i

theorem StateRef.names_iff {n : Nat} {q : StateRef} : q.Names n ↔ (q.resolve? n).isSome = true := by
  cases q with
  | sink => simp [Names, resolve?]
  | state i => simp [Names, Encoding.isSome_resolve?_iff]

/-- Without a target a byte leads to the sink. -/
theorem StateRef.getD_target? (q : StateRef) : q.target?.getD .sink = q := by
  cases q <;> rfl

theorem StateRef.target?_eq_some_iff {p q : StateRef} : p.target? = some q ↔ p = q ∧ q ≠ .sink := by
  cases p with
  | sink =>
    refine ⟨nofun, ?_⟩
    rintro ⟨rfl, hq⟩
    exact absurd rfl hq
  | state i =>
    rw [target?, Option.some_inj]
    refine ⟨?_, And.left⟩
    rintro rfl
    exact ⟨rfl, nofun⟩

def EntrySpec.Covers (e : EntrySpec) (b : UInt8) : Prop := e.lo ≤ b ∧ b ≤ e.hi

namespace StateSpec

/-- No range is inverted. -/
def Upright : StateSpec → Prop
  | entries list => ∀ e ∈ list, e.lo ≤ e.hi
  | map _ => True

/-- Two entries share a byte. -/
def Overlaps : StateSpec → Prop
  | entries list => ∃ e f, [e, f].Sublist list ∧ ∃ b, e.Covers b ∧ f.Covers b
  | map _ => False

/-- The byte leads to `q` by an entry that covers it, or by its last pair. -/
inductive Leads (b : UInt8) (q : StateRef) : StateSpec → Prop
  | entry {list : List EntrySpec} {e : EntrySpec} (he : e ∈ list) (hb : e.Covers b) (hq : e.target = q) :
    Leads b q (.entries list)
  | pair {front back : List (UInt8 × StateRef)} (hlast : ∀ p ∈ back, p.1 ≠ b) :
    Leads b q (.map (front ++ (b, q) :: back))

/-- The target must exist. In a map the sink is no target. -/
def Demands (q : StateRef) : StateSpec → Prop
  | entries list => ∃ e ∈ list, e.target = q
  | map pairs => q ≠ .sink ∧ ∃ b, Leads b q (.map pairs)

/-- Where the description leads, `leads` does, and to the sink by all other bytes. -/
def Follows (s : StateSpec) (leads : UInt8 → StateRef → Prop) : Prop :=
  ∀ b, (∀ q, s.Leads b q → leads b q) ∧ ((∀ q, ¬ s.Leads b q) → leads b .sink)

/-! ## Tables of descriptions -/

/-- The table of a description. -/
def table? (s : StateSpec) : Except BuildError (Table StateRef) := s.runs? >>= StateRuns.table?

/-- The table leads where the description does, and its targets are those that must exist. -/
structure Tells (s : StateSpec) (t : Table StateRef) : Prop where
  follows : s.Follows fun b q => (t.lookup b).getD .sink = q
  targets : ∀ q, q ∈ t.targets ↔ s.Demands q

theorem Follows.imp {s : StateSpec} {P Q : UInt8 → StateRef → Prop} (h : s.Follows P) (himp : ∀ b q, P b q → Q b q) :
    s.Follows Q := fun b => ⟨fun q hq => himp b q ((h b).1 q hq), fun hnone => himp b .sink ((h b).2 hnone)⟩

end StateSpec

theorem Table.lookup_ofPairs_snoc {α : Type} (pairs : List (UInt8 × Option α)) (p : UInt8 × Option α) (b : UInt8) :
    (ofPairs (pairs ++ [p])).lookup b = if b = p.1 then p.2 else (ofPairs pairs).lookup b := by
  simp only [ofPairs, List.foldl_append, List.foldl_cons, List.foldl_nil, lookup, ByteMap.get_set]

/-- The entry of a run. -/
def Run.entry (r : Run StateRef) : EntrySpec := ⟨r.lo, r.hi, r.value⟩

theorem Run.covers_entry {r : Run StateRef} {b : UInt8} : r.entry.Covers b ↔ r.covers b = true := (r.covers_iff b).symm

theorem Run.entry_injective : Function.Injective Run.entry := by
  rintro ⟨lo, hi, q, _⟩ ⟨lo', hi', q', _⟩ h
  cases h
  rfl

theorem EntrySpec.run?_eq_ok_iff {e : EntrySpec} {r : Run StateRef} : e.run? = .ok r ↔ e = r.entry := by
  by_cases hle : e.lo ≤ e.hi
  · have hrun : e.run? = .ok ⟨e.lo, e.hi, e.target, hle⟩ := dif_pos hle
    rw [hrun, Except.ok.injEq]
    constructor
    · rintro rfl
      rfl
    · rintro rfl
      rfl
  · have hrun : e.run? = .error (.inverted e.lo e.hi) := dif_neg hle
    rw [hrun]
    constructor
    · intro h
      cases h
    · rintro rfl
      exact absurd r.lo_le_hi hle

theorem EntrySpec.exists_run? {e : EntrySpec} (h : e.lo ≤ e.hi) : ∃ r, e.run? = .ok r := ⟨⟨_, _, e.target, h⟩, dif_pos h⟩

theorem EntrySpec.mapM_run?_eq_ok_iff {list : List EntrySpec} {rs : List (Run StateRef)} :
    list.mapM EntrySpec.run? = .ok rs ↔ list = rs.map Run.entry := by
  rw [mapM_eq_ok_iff]
  simp only [EntrySpec.run?_eq_ok_iff]
  have hmap := List.forall₂_map_right_iff (R := Eq) (f := Run.entry) (l := list) (u := rs)
  rw [← hmap, List.forall₂_eq_eq_eq]

namespace StateSpec

variable {s : StateSpec} {t : Table StateRef} {b : UInt8} {q : StateRef}

/-! ### Entries -/

theorem table?_entries_eq_ok_iff {list : List EntrySpec} : (entries list).table? = .ok t ↔
    ∃ rs : List (Run StateRef), list = rs.map Run.entry ∧ Table.ofEntries StateRef.number rs = .ok t := by
  unfold table? runs?
  rw [bind_eq_ok_iff]
  constructor
  · rintro ⟨given, hgiven, ht⟩
    obtain ⟨rs, hrs, hpure⟩ := bind_eq_ok_iff.1 hgiven
    cases hpure
    exact ⟨rs, EntrySpec.mapM_run?_eq_ok_iff.1 hrs, ByteAutomata.table?_entries_eq_ok_iff.1 ht⟩
  · rintro ⟨rs, hlist, ht⟩
    refine ⟨.entries rs, bind_eq_ok_iff.2 ⟨rs, EntrySpec.mapM_run?_eq_ok_iff.2 hlist, rfl⟩, ?_⟩
    exact ByteAutomata.table?_entries_eq_ok_iff.2 ht

theorem leads_entries_iff {rs : List (Run StateRef)} :
    Leads b q (.entries (rs.map Run.entry)) ↔ ∃ r ∈ rs, r.covers b = true ∧ r.value = q := by
  constructor
  · intro h
    cases h with
    | entry he hb hq =>
      obtain ⟨r, hr, rfl⟩ := List.mem_map.1 he
      exact ⟨r, hr, Run.covers_entry.1 hb, hq⟩
  · rintro ⟨r, hr, hb, hq⟩
    exact .entry (List.mem_map_of_mem hr) (Run.covers_entry.2 hb) hq

theorem demands_entries_iff {rs : List (Run StateRef)} :
    Demands q (.entries (rs.map Run.entry)) ↔ ∃ r ∈ rs, r.value = q := by
  simp [Demands, Run.entry]

theorem not_overlaps_entries_iff {rs : List (Run StateRef)} :
    ¬ Overlaps (.entries (rs.map Run.entry)) ↔ rs.Pairwise Run.Disjoint := by
  have hpairwise : rs.Pairwise Run.Disjoint ↔
      (rs.map Run.entry).Pairwise fun e f => ¬ ∃ b, e.Covers b ∧ f.Covers b := by
    rw [List.pairwise_map]
    simp only [Run.covers_entry, not_exists, not_and, Bool.not_eq_true]
    rfl
  rw [hpairwise, List.pairwise_iff_forall_sublist]
  simp only [Overlaps, not_exists, not_and]

theorem tells_entries {list : List EntrySpec} (h : (entries list).table? = .ok t) : (entries list).Tells t := by
  obtain ⟨rs, rfl, ht⟩ := table?_entries_eq_ok_iff.1 h
  refine ⟨fun b => ⟨fun q hq => ?_, fun hnone => ?_⟩, fun q => ?_⟩
  · have hlookup := (Table.lookup_of_ofEntries ht b q).2 (leads_entries_iff.1 hq)
    exact congrArg (Option.getD · StateRef.sink) hlookup
  · cases hlookup : t.lookup b with
    | none => exact congrArg (Option.getD · StateRef.sink) hlookup
    | some q => exact absurd (leads_entries_iff.2 ((Table.lookup_of_ofEntries ht b q).1 hlookup)) (hnone q)
  · rw [Table.mem_targets_of_ofEntries ht, demands_entries_iff]

/-! ### Maps -/

theorem not_leads_map_nil : ¬ Leads b q (.map []) := by
  generalize hnil : ([] : List (UInt8 × StateRef)) = pairs
  rintro ⟨⟩
  simp at hnil

/-- The last pair counts if it is one of the byte, and the pairs in front of it otherwise. -/
theorem leads_map_snoc {pairs : List (UInt8 × StateRef)} {p : UInt8 × StateRef} :
    Leads b q (.map (pairs ++ [p])) ↔ p = (b, q) ∨ (p.1 ≠ b ∧ Leads b q (.map pairs)) := by
  constructor
  · generalize hall : pairs ++ [p] = all
    intro h
    cases h with
    | @pair front back hlast =>
      rcases List.eq_nil_or_concat' back with rfl | ⟨back, r, rfl⟩
      · exact .inl (List.append_singleton_inj.1 hall).2
      · rw [← List.cons_append, ← List.append_assoc] at hall
        obtain ⟨rfl, rfl⟩ := List.append_singleton_inj.1 hall
        exact .inr ⟨hlast p (by simp), .pair fun r hr => hlast r (List.mem_append_left _ hr)⟩
  · rintro (rfl | ⟨hp, h⟩)
    · exact .pair nofun
    · cases h with
      | pair hlast =>
        rw [List.append_assoc, List.cons_append]
        refine .pair fun r hr => ?_
        rcases List.mem_append.1 hr with hr | hr
        · exact hlast r hr
        · exact List.mem_singleton.1 hr ▸ hp

/-- The table of pairs in a map. -/
def pairTable (pairs : List (UInt8 × StateRef)) : Table StateRef :=
  Table.ofPairs (pairs.map fun p => (p.1, p.2.target?))

/-- Pairs are set one after the other, so the last one of a byte stays. -/
theorem follows_pairTable (pairs : List (UInt8 × StateRef)) :
    (map pairs).Follows fun b q => (pairTable pairs).lookup b = q.target? := by
  induction pairs using List.reverseRecOn with
  | nil => exact fun b => ⟨fun q hq => absurd hq not_leads_map_nil, fun _ => ByteMap.get_const _ b⟩
  | append_singleton pairs p ih =>
    intro b
    have hlookup : (pairTable (pairs ++ [p])).lookup b =
        if b = p.1 then p.2.target? else (pairTable pairs).lookup b := by
      rw [pairTable, List.map_append]
      exact Table.lookup_ofPairs_snoc _ _ b
    simp only [hlookup, leads_map_snoc]
    by_cases hb : b = p.1
    · subst hb
      simp only [if_pos, ne_eq, not_true_eq_false, false_and, or_false]
      refine ⟨fun q hq => by rw [hq], fun hnone => absurd rfl (hnone p.2)⟩
    · simp only [if_neg hb]
      refine ⟨fun q hq => ?_, fun hnone => (ih b).2 fun q hq => hnone q (.inr ⟨Ne.symm hb, hq⟩)⟩
      rcases hq with rfl | ⟨-, hq⟩
      · exact absurd rfl hb
      · exact (ih b).1 q hq

theorem lookup_pairTable {pairs : List (UInt8 × StateRef)} :
    (pairTable pairs).lookup b = some q ↔ q ≠ .sink ∧ Leads b q (.map pairs) := by
  constructor
  · intro h
    by_cases hleads : ∃ p, Leads b p (.map pairs)
    · obtain ⟨p, hp⟩ := hleads
      obtain ⟨rfl, hq⟩ := StateRef.target?_eq_some_iff.1 (((follows_pairTable pairs b).1 p hp).symm.trans h)
      exact ⟨hq, hp⟩
    · rw [(follows_pairTable pairs b).2 (not_exists.1 hleads)] at h
      cases h
  · rintro ⟨hq, hleads⟩
    rw [(follows_pairTable pairs b).1 q hleads, StateRef.target?_eq_some_iff]
    exact ⟨rfl, hq⟩

theorem tells_map (pairs : List (UInt8 × StateRef)) : (map pairs).Tells (pairTable pairs) where
  follows := (follows_pairTable pairs).imp fun b q h => by rw [h, StateRef.getD_target?]
  targets q := by
    rw [Table.mem_targets]
    simp only [lookup_pairTable, exists_and_left]
    rfl

/-! ### Both -/

/-- What the table of a description says. -/
theorem tells_of_table (h : s.table? = .ok t) : s.Tells t := by
  cases s with
  | entries list => exact tells_entries h
  | map pairs =>
    cases h
    exact tells_map pairs

/-- There is a table unless entries overlap. -/
theorem exists_table_iff (h : s.Upright) : (∃ t, s.table? = .ok t) ↔ ¬ s.Overlaps := by
  cases s with
  | map pairs => exact ⟨fun _ => id, fun _ => ⟨_, rfl⟩⟩
  | entries list =>
    obtain ⟨rs, hrs⟩ := exists_mapM_iff.2 fun e he => EntrySpec.exists_run? (h e he)
    obtain rfl := EntrySpec.mapM_run?_eq_ok_iff.1 hrs
    rw [not_overlaps_entries_iff, ← Table.exists_ofEntries_iff StateRef.number]
    refine exists_congr fun t => table?_entries_eq_ok_iff.trans ⟨?_, fun ht => ⟨rs, rfl, ht⟩⟩
    rintro ⟨rs', hlist, ht⟩
    obtain rfl := List.map_injective_iff.2 Run.entry_injective hlist
    exact ht

end StateSpec

/-! ## Building -/

/-- What can be wrong with a description in which no range is inverted. -/
inductive Rejected (states : List StateSpec) (accepting : List StateRef) (start : StateRef) : Prop
  | overlap {s : StateSpec} (hs : s ∈ states) (h : s.Overlaps)
  | noStates (h : states = [])
  | start (h : ¬ start.Names states.length)
  | target {s : StateSpec} {q : StateRef} (hs : s ∈ states) (hq : s.Demands q) (h : ¬ q.Names states.length)
  | accepting {q : StateRef} (hq : q ∈ accepting) (h : ¬ q.Names states.length)

/-- References to states that exist are not dropped. -/
theorem StateRef.ofState?_bind_resolve? {n : Nat} {o : Option StateRef} (h : ∀ q, o = some q → q.Names n) :
    ofState? (o.bind (resolve? n)) = o.getD .sink := by
  cases o with
  | none => rfl
  | some q =>
    obtain ⟨i, hi, rfl⟩ := h q rfl
    have hresolve : resolve? n (.state i) = some ⟨i, hi⟩ := toState?_eq_some.2 rfl
    rw [Option.bind_some, hresolve]
    rfl

namespace StateSpec

variable {states : List StateSpec} {tables : List (Table StateRef)}

/-- The tables of descriptions, state by state. -/
def Tabled (states : List StateSpec) (tables : List (Table StateRef)) : Prop :=
  List.Forall₂ (fun s t => s.table? = .ok t) states tables

theorem tabled_iff : Tabled states tables ↔
    ∃ given, states.mapM runs? = .ok given ∧ given.mapM StateRuns.table? = .ok tables :=
  mapM_eq_ok_iff.symm.trans mapM_bind_eq_ok_iff

theorem Tabled.length_eq (h : Tabled states tables) : states.length = tables.length := List.Forall₂.length_eq h

theorem Tabled.table?_eq (h : Tabled states tables) (q : Fin tables.length) {s : StateSpec}
    (hs : states[q.val]? = some s) : s.table? = .ok (tables.get q) := by
  obtain ⟨hlt, rfl⟩ := List.getElem?_eq_some_iff.1 hs
  exact (List.forall₂_iff_get.1 h).2 q.val hlt q.isLt

theorem Tabled.mem_targets (h : Tabled states tables) (p : StateRef) :
    p ∈ tables.flatMap Table.targets ↔ ∃ s ∈ states, s.Demands p := by
  rw [List.mem_flatMap]
  constructor
  · rintro ⟨t, ht, hp⟩
    obtain ⟨s, hs, hst⟩ := (exists_of_forall₂ h).2 t ht
    exact ⟨s, hs, ((tells_of_table hst).targets p).1 hp⟩
  · rintro ⟨s, hs, hp⟩
    obtain ⟨t, ht, hst⟩ := (exists_of_forall₂ h).1 s hs
    exact ⟨t, ht, ((tells_of_table hst).targets p).2 hp⟩

/-- There are tables unless entries of one state overlap. -/
theorem exists_tabled_iff (h : ∀ s ∈ states, s.Upright) :
    (∃ tables, Tabled states tables) ↔ ∀ s ∈ states, ¬ s.Overlaps := by
  simp only [Tabled, ← mapM_eq_ok_iff, exists_mapM_iff]
  exact forall₂_congr fun s hs => exists_table_iff (h s hs)

end StateSpec

namespace Dfa

variable {states : List StateSpec} {accepting : List StateRef} {start : StateRef} {A : Dfa}

theorem build_eq_ok_iff_tabled : build states accepting start = .ok A ↔ ∃ tables, StateSpec.Tabled states tables ∧
    (∀ s ∈ states, ∀ p, s.Demands p → p.Names tables.length) ∧ (∀ p ∈ accepting, p.Names tables.length) ∧
      ∃ q, start.resolve? tables.length = some q ∧ A = ofTables tables accepting q := by
  rw [build_eq_ok_iff]
  simp only [← StateRef.names_iff]
  constructor
  · rintro ⟨given, tables, hgiven, hgiven', q, hq, htargets, haccepting, hA⟩
    have h := StateSpec.tabled_iff.2 ⟨given, hgiven, hgiven'⟩
    exact ⟨tables, h, fun s hs p hp => htargets p ((h.mem_targets p).2 ⟨s, hs, hp⟩), haccepting, q, hq, hA⟩
  · rintro ⟨tables, h, htargets, haccepting, q, hq, hA⟩
    obtain ⟨given, hgiven, hgiven'⟩ := StateSpec.tabled_iff.1 h
    refine ⟨given, tables, hgiven, hgiven', q, hq, fun p hp => ?_, haccepting, hA⟩
    obtain ⟨s, hs, hsp⟩ := (h.mem_targets p).1 hp
    exact htargets s hs p hsp

/-- Exactly what is not rejected is built. -/
theorem exists_build_iff (h : ∀ s ∈ states, s.Upright) :
    (∃ A, build states accepting start = .ok A) ↔ ¬ Rejected states accepting start := by
  simp only [build_eq_ok_iff_tabled]
  constructor
  · rintro ⟨A, tables, htables, htargets, haccepting, q, hq, -⟩
    have hstart : start.Names tables.length := StateRef.names_iff.2 (Option.isSome_of_eq_some hq)
    rw [← htables.length_eq] at htargets haccepting hstart
    rintro (⟨hs, hoverlap⟩ | rfl | hnot | ⟨hs, hp, hnot⟩ | ⟨hp, hnot⟩)
    · exact (StateSpec.exists_tabled_iff h).1 ⟨tables, htables⟩ _ hs hoverlap
    · obtain ⟨i, hi, -⟩ := hstart
      exact Nat.not_lt_zero i hi
    · exact hnot hstart
    · exact hnot (htargets _ hs _ hp)
    · exact hnot (haccepting _ hp)
  · intro hrejected
    obtain ⟨tables, htables⟩ := (StateSpec.exists_tabled_iff h).2 fun s hs hoverlap => hrejected (.overlap hs hoverlap)
    have hstart : start.Names states.length := by_contra fun hnot => hrejected (.start hnot)
    have htargets : ∀ s ∈ states, ∀ p, s.Demands p → p.Names states.length :=
      fun s hs p hp => by_contra fun hnot => hrejected (.target hs hp hnot)
    have haccepting : ∀ p ∈ accepting, p.Names states.length :=
      fun p hp => by_contra fun hnot => hrejected (.accepting hp hnot)
    rw [htables.length_eq] at hstart htargets haccepting
    obtain ⟨q, hq⟩ := Option.isSome_iff_exists.1 (StateRef.names_iff.1 hstart)
    exact ⟨_, tables, htables, htargets, haccepting, q, hq, rfl⟩

/-! ### Steps -/

/-- A step is answered as it is in the automaton, whatever was done before. -/
theorem ask_step (A : Dfa) (ops : List Operation) (q : Fin A.size) (b : UInt8) :
    ((Usage.run A ops).memory.ask (.step (.state q.val) b)).1 = .ok (.state (.ofState? (A.step q b))) := by
  refine (Usage.valid_run A ops).1.exact.ask_eq (congrArg some ?_)
  have hfind : A.toAutomaton.find (.state q.val) = .ok (some q) := dif_pos q.isLt
  rw [hfind]
  rfl

/-- The automaton has the start, the accepting states and the steps that are described. Steps are read from the tables
in any way, and answered after any operations. -/
structure Described (A : Dfa) (states : List StateSpec) (accepting : List StateRef) (start : StateRef) : Prop where
  size : A.size = states.length
  start : .state A.start.val = start
  accepting : ∀ q, A.accepting.get q = true ↔ .state q.val ∈ accepting
  reads : ∀ (q : Fin A.size) (s : StateSpec), states[q.val]? = some s →
    ∃ f, (A.tables.get q).Consistent f ∧ s.Follows fun b r => .ofState? (f b) = r
  answers : ∀ (ops : List Operation) (q : Fin A.size) (s : StateSpec), states[q.val]? = some s →
    s.Follows fun b r => ((Usage.run A ops).memory.ask (.step (.state q.val) b)).1 = .ok (.state r)

theorem follows_ofTables {tables : List (Table StateRef)} (htables : StateSpec.Tabled states tables)
    (htargets : ∀ s ∈ states, ∀ p, s.Demands p → p.Names tables.length) (accepting : List StateRef)
    (start q : Fin tables.length) {s : StateSpec} (hs : states[q.val]? = some s) :
    s.Follows fun b r => .ofState? ((ofTables tables accepting start).step q b) = r := by
  have htells := StateSpec.tells_of_table (htables.table?_eq q hs)
  refine htells.follows.imp fun b r hr => ?_
  have hstep : (ofTables tables accepting start).step q b =
      ((tables.get q).lookup b).bind (StateRef.resolve? tables.length) := by
    rw [← Table.lookup_filterMap, ← get_tables_ofTables tables accepting start q]
    rfl
  have hnamed : ∀ p, (tables.get q).lookup b = some p → p.Names tables.length := fun p hp =>
    htargets s (List.mem_of_getElem? hs) p ((htells.targets p).1 (Table.mem_targets.2 ⟨b, hp⟩))
  exact (congrArg StateRef.ofState? hstep).trans ((StateRef.ofState?_bind_resolve? hnamed).trans hr)

/-- What is built is what is described. -/
theorem described_of_build (h : build states accepting start = .ok A) : A.Described states accepting start := by
  obtain ⟨tables, htables, htargets, -, q₀, hstart, rfl⟩ := build_eq_ok_iff_tabled.1 h
  have hfollows := follows_ofTables htables htargets accepting q₀
  refine ⟨htables.length_eq.symm, ?_, accepting_ofTables tables accepting q₀, ?_, ?_⟩
  · exact (StateRef.map_resolve?_eq_some_iff.1 (congrArg (Option.map Fin.val) hstart)).1.symm
  · exact fun q s hs => ⟨_, Table.consistent _, hfollows q hs⟩
  · exact fun ops q s hs => (hfollows q hs).imp fun b r hr => by rw [ask_step, hr]

/-- A description is rejected for what is wrong with it, and its automaton is built otherwise. -/
theorem build_describes (h : ∀ s ∈ states, s.Upright) :
    ((∃ e, build states accepting start = .error e) ↔ Rejected states accepting start) ∧
      (¬ Rejected states accepting start →
        ∃ A, build states accepting start = .ok A ∧ A.Described states accepting start) := by
  have hbuilt : (∃ A, build states accepting start = .ok A) ↔ ¬ Rejected states accepting start := exists_build_iff h
  constructor
  · rw [← not_iff_not, ← hbuilt]
    cases build states accepting start with
    | error e => simp
    | ok A => simp
  · intro hnot
    obtain ⟨A, hA⟩ := hbuilt.2 hnot
    exact ⟨A, hA, described_of_build hA⟩

/-- Entries, a range and a map. -/
def mixed : List StateSpec :=
  [.entries [⟨2, 2, .state 1⟩], .entries [⟨0, 5, .state 2⟩], .map [(4, .state 0), (3, .state 1)]]

theorem build_describes_mixed : (∀ s ∈ mixed, s.Upright) ∧
    ∃ A, build mixed [.state 0] (.state 0) = .ok A ∧ A.Described mixed [.state 0] (.state 0) := by
  have hupright : ∀ s ∈ mixed, s.Upright := by
    simp [mixed, StateSpec.Upright]
  obtain ⟨hrejected, hdescribed⟩ := @build_describes mixed [.state 0] (.state 0) hupright
  refine ⟨hupright, hdescribed fun hwrong => ?_⟩
  obtain ⟨e, he⟩ := hrejected.2 hwrong
  have hbuilt : (build mixed [.state 0] (.state 0)).isOk = true := by decide +kernel
  rw [he] at hbuilt
  cases hbuilt

end Dfa
end ByteAutomata
