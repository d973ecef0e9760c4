import ByteAutomata.Dfa.Parser
import ByteAutomata.Proofs.Canonical
import ByteAutomata.Proofs.Disjoint
import ByteAutomata.Proofs.Grammar
import Mathlib.Data.List.Forall2
import Mathlib.Data.List.Pairwise

/-!
# Automata from lists

* `Table.lookup_sparse`, `Table.lookup_of_ofEntries`, `Table.lookup_filterMap` : where tables lead, and
  `Table.mem_targets` : that their targets are what they lead to;
* `Encoding.Listed e A` : `A` has the listed size, start, accepting states and steps, which says all but how
  the steps are stored (`Listed.toAutomaton_eq`); every automaton is listed by its own entries (`listed_self`);
* `Encoding.listed_of_toDfa` : what is built is what is listed; `Encoding.exists_toDfa_iff` : the lists that can
  be built are the `Valid` ones.
-/

namespace ByteAutomata

set_option autoImplicit false

/-! ## Checks of lists -/

section Lists

variable {ε α β : Type}

theorem forM_eq_ok_iff {f : α → Except ε Unit} {l : List α} : l.forM f = .ok () ↔ ∀ a ∈ l, f a = .ok () := by
  induction l with
  | nil => simp [pure, Except.pure]
  | cons a l ih =>
    rw [List.forM_eq_forM, List.forM_cons, bind_eq_ok_iff, List.forall_mem_cons, ← ih]
    exact ⟨fun ⟨_, ha, hl⟩ => ⟨ha, hl⟩, fun ⟨ha, hl⟩ => ⟨_, ha, hl⟩⟩

theorem mapM_eq_ok_iff {f : α → Except ε β} {l : List α} {ys : List β} :
    l.mapM f = .ok ys ↔ List.Forall₂ (fun a y => f a = .ok y) l ys := by
  induction l generalizing ys with
  | nil => simp [pure, Except.pure, eq_comm]
  | cons a l ih =>
    rw [List.mapM_cons, bind_eq_ok_iff]
    simp only [bind_eq_ok_iff, ih, List.forall₂_cons_left_iff]
    constructor
    · rintro ⟨y, hy, ys, hys, hpure⟩
      cases hpure
      exact ⟨y, ys, hy, hys, rfl⟩
    · rintro ⟨y, ys, hy, hys, rfl⟩
      exact ⟨y, hy, ys, hys, rfl⟩

theorem exists_of_forall₂ {R : α → β → Prop} {as : List α} {bs : List β} (h : List.Forall₂ R as bs) :
    (∀ a ∈ as, ∃ b ∈ bs, R a b) ∧ ∀ b ∈ bs, ∃ a ∈ as, R a b := by
  induction h with
  | nil => simp
  | cons hab _ ih =>
    simp only [List.forall_mem_cons, List.exists_mem_cons_iff]
    exact ⟨⟨Or.inl hab, fun a ha => Or.inr (ih.1 a ha)⟩, Or.inl hab, fun b hb => Or.inr (ih.2 b hb)⟩

theorem exists_mapM_iff {f : α → Except ε β} {l : List α} :
    (∃ ys, l.mapM f = .ok ys) ↔ ∀ a ∈ l, ∃ y, f a = .ok y := by
  simp only [mapM_eq_ok_iff]
  induction l with
  | nil => simp
  | cons a l ih =>
    rw [List.forall_mem_cons, ← ih]
    simp only [List.forall₂_cons_left_iff]
    constructor
    · rintro ⟨_, y, ys, hy, hys, rfl⟩
      exact ⟨⟨y, hy⟩, ys, hys⟩
    · rintro ⟨⟨y, hy⟩, ys, hys⟩
      exact ⟨y :: ys, y, ys, hy, hys, rfl⟩

/-- Two checks of a list one after the other are one that makes both of each element. -/
theorem mapM_bind_eq_ok_iff {γ : Type} {f : α → Except ε β} {g : β → Except ε γ} {l : List α} {zs : List γ} :
    (l.mapM fun a => f a >>= g) = .ok zs ↔ ∃ ys, l.mapM f = .ok ys ∧ ys.mapM g = .ok zs := by
  simp only [mapM_eq_ok_iff, bind_eq_ok_iff]
  induction l generalizing zs with
  | nil => simp
  | cons a l ih =>
    simp only [List.forall₂_cons_left_iff, ih]
    constructor
    · rintro ⟨z, zs, ⟨y, hy, hz⟩, ⟨ys, hys, hzs⟩, rfl⟩
      exact ⟨y :: ys, ⟨y, ys, hy, hys, rfl⟩, .cons hz hzs⟩
    · rintro ⟨_, ⟨y, ys, hy, hys, rfl⟩, h⟩
      obtain ⟨z, zs, hz, hzs, rfl⟩ := List.forall₂_cons_left_iff.1 h
      exact ⟨z, zs, ⟨y, hy, hz⟩, ⟨ys, hys, hzs⟩, rfl⟩

end Lists

/-! ## Tables -/

namespace Table

variable {α β : Type}

/-- Of runs that do not overlap one at most covers a byte. -/
theorem eq_of_covers {entries : List (Run α)} (ordered : entries.Pairwise Run.Before) {b : UInt8} {r s : Run α}
    (hr : r ∈ entries) (hs : s ∈ entries) (hrb : r.covers b = true) (hsb : s.covers b = true) : r = s := by
  induction ordered with
  | nil => simp at hr
  | cons hbefore _ ih =>
    rcases List.mem_cons.1 hr with rfl | hr'
    · rcases List.mem_cons.1 hs with rfl | hs'
      · rfl
      · simp [(hbefore s hs').disjoint b hrb] at hsb
    · rcases List.mem_cons.1 hs with rfl | hs'
      · simp [(hbefore r hr').disjoint b hsb] at hrb
      · exact ih hr' hs'

theorem lookup_sparse {entries : List (Run α)} (ordered : entries.Pairwise Run.Before) (b : UInt8) (x : α) :
    (sparse entries ordered).lookup b = some x ↔ ∃ r ∈ entries, r.covers b = true ∧ r.value = x := by
  change (entries.find? (·.covers b)).map Run.value = some x ↔ _
  rw [Option.map_eq_some_iff]
  constructor
  · rintro ⟨r, hfind, rfl⟩
    exact ⟨r, List.mem_of_find?_eq_some hfind, by simpa using List.find?_some hfind, rfl⟩
  · rintro ⟨r, hr, hb, rfl⟩
    cases hfind : entries.find? (·.covers b) with
    | none => exact absurd hb (List.find?_eq_none.1 hfind r hr)
    | some s =>
      have hs := List.mem_of_find?_eq_some hfind
      exact ⟨s, rfl, by rw [eq_of_covers ordered hs hr (by simpa using List.find?_some hfind) hb]⟩

/-- The targets are what bytes lead to. -/
theorem mem_targets {t : Table α} {x : α} : x ∈ t.targets ↔ ∃ b, t.lookup b = some x := by
  cases t with
  | dense cells => exact List.mem_filterMap.trans ⟨fun ⟨b, _, hb⟩ => ⟨b, hb⟩, fun ⟨b, hb⟩ => ⟨b, Byte.mem_all b, hb⟩⟩
  | sparse entries ordered =>
    refine List.mem_map.trans ⟨fun ⟨r, hr, hx⟩ => ⟨r.lo, ?_⟩, fun ⟨b, hb⟩ => ?_⟩
    · exact (lookup_sparse ordered r.lo x).2 ⟨r, hr, r.covers_lo, hx⟩
    · obtain ⟨r, hr, -, hx⟩ := (lookup_sparse ordered b x).1 hb
      exact ⟨r, hr, hx⟩

theorem lookup_of_ofEntries {rank : α → Nat} {entries : List (Run α)} {t : Table α}
    (h : ofEntries rank entries = .ok t) (b : UInt8) (x : α) :
    t.lookup b = some x ↔ ∃ r ∈ entries, r.covers b = true ∧ r.value = x := by
  obtain ⟨ordered, rfl⟩ := ofEntries_eq_ok_iff.1 h
  rw [lookup_sparse]
  simp [(sortEntries_perm rank entries).mem_iff]

theorem lookup_filterMap (f : α → Option β) (t : Table α) (b : UInt8) :
    (t.filterMap f).lookup b = (t.lookup b).bind f := by
  cases t with
  | dense cells => exact ByteMap.get_ofFn _ b
  | sparse entries ordered =>
    ext x
    rw [Option.bind_eq_some_iff]
    unfold filterMap
    simp only [lookup_sparse, List.mem_filterMap, Option.map_eq_some_iff]
    constructor
    · rintro ⟨_, ⟨r, hr, y, hy, rfl⟩, hb, rfl⟩
      exact ⟨r.value, ⟨r, hr, hb, rfl⟩, hy⟩
    · rintro ⟨_, ⟨r, hr, hb, rfl⟩, hx⟩
      exact ⟨_, ⟨r, hr, x, hx, rfl⟩, hb, rfl⟩

end Table

/-! ## The automaton of tables -/

theorem StateRef.map_resolve?_eq_some_iff {n x : Nat} {p : StateRef} :
    (p.resolve? n).map Fin.val = some x ↔ p = .state x ∧ x < n := by
  cases p with
  | sink => simp [resolve?]
  | state i =>
    rw [resolve?, Option.map_eq_some_iff, StateRef.state.injEq]
    constructor
    · rintro ⟨q, hq, rfl⟩
      exact ⟨toState?_eq_some.1 hq, q.isLt⟩
    · rintro ⟨rfl, hlt⟩
      exact ⟨⟨i, hlt⟩, toState?_eq_some.2 rfl, rfl⟩

namespace Dfa

/-- Marking one state after the other marks those of the list, and no others. -/
theorem get_foldl_marks {n : Nat} {mark : Vector Bool n → StateRef → Vector Bool n}
    (hmark : ∀ marks p q, (mark marks p).get q = true ↔ marks.get q = true ∨ p = .state q.val) (ps : List StateRef)
    (marks : Vector Bool n) (q : Fin n) :
    (ps.foldl mark marks).get q = true ↔ marks.get q = true ∨ .state q.val ∈ ps := by
  induction ps generalizing marks with
  | nil => simp
  | cons p ps ih => rw [List.foldl_cons, ih, hmark, List.mem_cons, or_assoc, eq_comm (a := p)]

theorem accepting_ofTables (tables : List (Table StateRef)) (accepting : List StateRef) (start : Fin tables.length)
    (q : Fin tables.length) : (ofTables tables accepting start).accepting.get q = true ↔ .state q.val ∈ accepting := by
  refine (get_foldl_marks (fun marks p q => ?_) accepting _ q).trans (or_iff_right ?_)
  · split
    next i hi =>
      have hstate := StateRef.map_resolve?_eq_some_iff.1 (congrArg (Option.map Fin.val) hi)
      rw [hstate.1, StateRef.state.injEq, get_set]
      by_cases hq : q = i
      · simp [hq]
      · simp [hq, Fin.val_ne_of_ne (Ne.symm hq)]
    next hi =>
      have hother : p ≠ .state q.val := by
        rintro rfl
        have hsome := StateRef.map_resolve?_eq_some_iff.2 ⟨rfl, q.isLt⟩
        rw [hi] at hsome
        cases hsome
      simp [hother]
  · simp [Vector.get]

theorem get_tables_ofTables (tables : List (Table StateRef)) (accepting : List StateRef) (start : Fin tables.length)
    (q : Fin tables.length) :
    (ofTables tables accepting start).tables.get q = (tables.get q).filterMap (StateRef.resolve? tables.length) :=
  List.getElem_map _

theorem map_step_ofTables (tables : List (Table StateRef)) (accepting : List StateRef) (start : Fin tables.length)
    (q : Fin tables.length) (b : UInt8) (x : Nat) : ((ofTables tables accepting start).step q b).map Fin.val = some x ↔
      (tables.get q).lookup b = some (.state x) ∧ x < tables.length := by
  have hstep : ((ofTables tables accepting start).step q b).map Fin.val =
      (((tables.get q).lookup b).bind (StateRef.resolve? tables.length)).map Fin.val := by
    rw [← Table.lookup_filterMap, ← get_tables_ofTables tables accepting start q]
    rfl
  rw [hstep, Option.map_bind, Option.bind_eq_some_iff]
  simp only [Function.comp_apply, StateRef.map_resolve?_eq_some_iff]
  exact ⟨fun ⟨_, ht, hp, hlt⟩ => ⟨hp ▸ ht, hlt⟩, fun ⟨ht, hlt⟩ => ⟨_, ht, rfl, hlt⟩⟩

end Dfa

/-! ## Lists -/

namespace Encoding

/-- The automaton has the listed size, start, accepting states and steps. -/
structure Listed (e : Encoding) (A : Dfa) : Prop where
  size : A.size = e.rows.length
  start : A.start.val = e.start
  accepting : ∀ q, A.accepting.get q = true ↔ q.val ∈ e.accepting
  steps : ∀ q b x, (A.step q b).map Fin.val = some x ↔ ∃ r ∈ e.rows.getD q.val [], r.covers b = true ∧ r.value = x

theorem Listed.toAutomaton_eq {e : Encoding} {A B : Dfa} (hA : Listed e A) (hB : Listed e B) :
    A.toAutomaton = B.toAutomaton := by
  obtain ⟨n, startA, acceptingA, tablesA⟩ := A
  obtain ⟨m, startB, acceptingB, tablesB⟩ := B
  obtain rfl : n = m := hA.size.trans hB.size.symm
  have hstart : startA = startB := Fin.ext (hA.start.trans hB.start.symm)
  have haccepting : acceptingA.get = acceptingB.get :=
    funext fun q => Bool.eq_iff_iff.2 ((hA.accepting q).trans (hB.accepting q).symm)
  have hstep : (fun q b => (tablesA.get q).lookup b) = fun q b => (tablesB.get q).lookup b := by
    funext q b
    refine Option.map_injective Fin.val_injective (Option.ext fun x => ?_)
    exact (hA.steps q b x).trans (hB.steps q b x).symm
  change Automaton.mk n (some startA) acceptingA.get (fun q b => (tablesA.get q).lookup b) = _
  rw [hstart, haccepting, hstep]
  rfl

theorem listed_self (A : Dfa) : Listed ⟨A.rows, A.acceptingStates, A.start.val⟩ A where
  size := by simp [Dfa.rows]
  start := rfl
  accepting q := (A.mem_acceptingStates q).symm
  steps q b x := by
    have hrow : A.rows.getD q.val [] = (runs (A.step q)).map (Run.map Fin.val) := by simp [Dfa.rows, Dfa.entries]
    rw [hrow]
    exact Dfa.map_val_eq_some_iff (A.step q) b x

/-! ### Building -/

theorem checkState_eq_ok_iff {n q : Nat} : checkState n q = .ok () ↔ q < n := by
  unfold checkState
  split <;> simp_all

theorem table_eq_ok_iff {n q : Nat} {row : List (Run Nat)} {t : Table StateRef} : table n q row = .ok t ↔
    Table.ofEntries StateRef.number (row.map (Run.map StateRef.state)) = .ok t ∧ ∀ r ∈ row, r.value < n := by
  simp only [← checkState_eq_ok_iff, ← forM_eq_ok_iff (l := row)]
  unfold table
  cases Table.ofEntries StateRef.number (row.map (Run.map StateRef.state)) with
  | error pair => simp [throw, throwThe, MonadExceptOf.throw]
  | ok t' =>
    refine bind_eq_ok_iff.trans ⟨?_, ?_⟩
    · rintro ⟨⟨⟩, hcheck, hpure⟩
      cases hpure
      exact ⟨rfl, hcheck⟩
    · rintro ⟨hpure, hcheck⟩
      cases hpure
      exact ⟨(), hcheck, rfl⟩

theorem lookup_of_table {n q : Nat} {row : List (Run Nat)} {t : Table StateRef} (h : table n q row = .ok t)
    (b : UInt8) (x : Nat) : t.lookup b = some (.state x) ↔ ∃ r ∈ row, r.covers b = true ∧ r.value = x := by
  rw [Table.lookup_of_ofEntries (table_eq_ok_iff.1 h).1]
  simp [Run.map, Run.covers]

/-- The tables of the listed entries, state by state. -/
def Tabled (e : Encoding) (tables : List (Table StateRef)) : Prop :=
  List.Forall₂ (fun row t => table e.rows.length row.2 row.1 = .ok t) e.rows.zipIdx tables

theorem Tabled.length_eq {e : Encoding} {tables : List (Table StateRef)} (h : Tabled e tables) :
    tables.length = e.rows.length := by
  simpa using (List.Forall₂.length_eq h).symm

theorem Tabled.lookup {e : Encoding} {tables : List (Table StateRef)} (h : Tabled e tables)
    (q : Fin tables.length) : (∀ r ∈ e.rows.getD q.val [], r.value < tables.length) ∧
      ∀ b x, (tables.get q).lookup b = some (.state x) ↔
        ∃ r ∈ e.rows.getD q.val [], r.covers b = true ∧ r.value = x := by
  have hq : q.val < e.rows.length := h.length_eq ▸ q.isLt
  have htable := (List.forall₂_iff_get.1 h).2 q.val (by simpa using hq) q.isLt
  have hrow : e.rows.getD q.val [] = e.rows[q.val] := by simp [hq]
  have htable' : table e.rows.length q.val e.rows[q.val] = .ok (tables.get q) := by simpa using htable
  rw [hrow]
  exact ⟨fun r hr => h.length_eq ▸ (table_eq_ok_iff.1 htable').2 r hr, lookup_of_table htable'⟩

theorem listed_ofTables {e : Encoding} {tables : List (Table StateRef)} (h : Tabled e tables)
    {start : Fin tables.length} (hstart : start.val = e.start) :
    Listed e (Dfa.ofTables tables (e.accepting.map .state) start) where
  size := h.length_eq
  start := hstart
  accepting q := by
    refine (Dfa.accepting_ofTables tables _ start q).trans ?_
    simp
  steps q b x := by
    obtain ⟨hvalues, hlookup⟩ := h.lookup q
    refine (Dfa.map_step_ofTables tables _ start q b x).trans ?_
    rw [hlookup]
    refine and_iff_left_of_imp ?_
    rintro ⟨r, hr, -, rfl⟩
    exact hvalues r hr

theorem toDfa_eq_ok_iff {e : Encoding} {A : Dfa} : e.toDfa = .ok A ↔ (∀ q ∈ e.accepting, q < e.rows.length) ∧
    ∃ tables, e.Tabled tables ∧ ∃ start : Fin tables.length, start.val = e.start ∧
      A = Dfa.ofTables tables (e.accepting.map .state) start := by
  unfold toDfa
  constructor
  · intro h
    obtain ⟨⟨⟩, -, h⟩ := bind_eq_ok_iff.1 h
    obtain ⟨⟨⟩, haccepting, h⟩ := bind_eq_ok_iff.1 h
    obtain ⟨tables, htables, h⟩ := bind_eq_ok_iff.1 h
    split at h
    next start hstart =>
      cases h
      exact ⟨fun q hq => checkState_eq_ok_iff.1 (forM_eq_ok_iff.1 haccepting q hq), tables,
        mapM_eq_ok_iff.1 htables, start, (toState?_eq_some.1 hstart).symm, rfl⟩
    next => cases h
  · rintro ⟨haccepting, tables, htables, start, hstart, rfl⟩
    have hlt : e.start < e.rows.length := hstart ▸ htables.length_eq ▸ start.isLt
    have hresolve : StateRef.resolve? tables.length (.state e.start) = some start := toState?_eq_some.2 hstart.symm
    have hmarks := forM_eq_ok_iff.2 fun q hq => checkState_eq_ok_iff.2 (haccepting q hq)
    refine bind_eq_ok_iff.2 ⟨(), checkState_eq_ok_iff.2 hlt, bind_eq_ok_iff.2 ⟨(), hmarks, ?_⟩⟩
    refine bind_eq_ok_iff.2 ⟨tables, mapM_eq_ok_iff.2 htables, ?_⟩
    rw [hresolve]
    rfl

theorem listed_of_toDfa {e : Encoding} {A : Dfa} (h : e.toDfa = .ok A) : Listed e A := by
  obtain ⟨-, tables, htables, start, hstart, rfl⟩ := toDfa_eq_ok_iff.1 h
  exact listed_ofTables htables hstart

/-- What has to hold of lists for an automaton: the states they mention are listed, and no two entries of one state
share a byte. -/
structure Valid (e : Encoding) : Prop where
  start : e.start < e.rows.length
  accepting : ∀ q ∈ e.accepting, q < e.rows.length
  disjoint : ∀ row ∈ e.rows, row.Pairwise Run.Disjoint
  values : ∀ row ∈ e.rows, ∀ r ∈ row, r.value < e.rows.length

theorem exists_table_iff {n q : Nat} {row : List (Run Nat)} :
    (∃ t, table n q row = .ok t) ↔ row.Pairwise Run.Disjoint ∧ ∀ r ∈ row, r.value < n := by
  simp only [table_eq_ok_iff, exists_and_right, Table.exists_ofEntries_iff, List.pairwise_map, Run.disjoint_map]

theorem exists_tabled_iff {e : Encoding} : (∃ tables, e.Tabled tables) ↔
    ∀ row ∈ e.rows, row.Pairwise Run.Disjoint ∧ ∀ r ∈ row, r.value < e.rows.length := by
  simp only [Tabled, ← mapM_eq_ok_iff, exists_mapM_iff, exists_table_iff]
  constructor
  · intro h row hrow
    obtain ⟨i, hi⟩ := List.mem_iff_getElem?.1 hrow
    exact h (row, i) (List.mk_mem_zipIdx_iff_getElem?.2 hi)
  · exact fun h row hrow => h row.1 (List.fst_mem_of_mem_zipIdx hrow)

/-- Exactly valid lists have an automaton. -/
theorem exists_toDfa_iff {e : Encoding} : (∃ A, e.toDfa = .ok A) ↔ e.Valid := by
  simp only [toDfa_eq_ok_iff]
  constructor
  · rintro ⟨A, haccepting, tables, htables, start, hstart, -⟩
    have hrows := exists_tabled_iff.1 ⟨tables, htables⟩
    have hlt : e.start < e.rows.length := hstart ▸ htables.length_eq ▸ start.isLt
    exact ⟨hlt, haccepting, fun row hrow => (hrows row hrow).1, fun row hrow => (hrows row hrow).2⟩
  · rintro ⟨hstart, haccepting, hdisjoint, hvalues⟩
    obtain ⟨tables, htables⟩ := exists_tabled_iff.2 fun row hrow => ⟨hdisjoint row hrow, hvalues row hrow⟩
    exact ⟨_, haccepting, tables, htables, ⟨e.start, htables.length_eq ▸ hstart⟩, rfl, rfl⟩

/-- Valid lists whose entries ascend. -/
structure Consistent (e : Encoding) : Prop where
  start : e.start < e.rows.length
  accepting : ∀ q ∈ e.accepting, q < e.rows.length
  ordered : ∀ row ∈ e.rows, row.Pairwise Run.Before
  values : ∀ row ∈ e.rows, ∀ r ∈ row, r.value < e.rows.length

theorem Consistent.valid {e : Encoding} (h : Consistent e) : e.Valid :=
  ⟨h.start, h.accepting, fun row hrow => (h.ordered row hrow).imp Run.Before.disjoint, h.values⟩

theorem exists_toDfa {e : Encoding} (h : Consistent e) : ∃ A, e.toDfa = .ok A := exists_toDfa_iff.2 h.valid

end Encoding
end ByteAutomata
