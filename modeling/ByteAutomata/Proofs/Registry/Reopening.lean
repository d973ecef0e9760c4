import ByteAutomata.Proofs.Registry.Entries

/-!
# A registry that was written is read back

* `Catalogue.lines_render` : the lines that are written; the preamble is found again (`Catalogue.preamble_render`) and
  so are the entries (`Catalogue.generated_render`);
* `Catalogue.Same` : the same names with the same automata; `Catalogue.read_render` : entries with storable names are
  read back, and `Catalogue.render_render` : written again they change nothing;
* `Catalogue.plain_of_read` : names that were read are plain; `Catalogue.ending_of_read_render` : what names must not
  end with, for the entries to be read back;
* `Registry.Reopened R R' R''` : behind a flush of `R`, which leaves `R'`, the store opens as `R''`, which is as `R`
  was and has nothing to flush (`Registry.exists_reopened`);
* `Registry.flush_reopens`, `Registry.flush_reopens_of_size_le` : so it is for automata in range, as those are that
  have no more states than there are numbers.
-/

namespace ByteAutomata

set_option autoImplicit false

variable {text : List Char} {C D : Catalogue}

namespace Catalogue

/-! ## Entries in order -/

theorem putEntry_last {name : String} {A : Dfa} {es : List (String × Dfa)} (h : ∀ e ∈ es, e.1 < name) :
    putEntry name A es = es ++ [(name, A)] := by
  induction es with
  | nil => rfl
  | cons e es ih =>
    obtain ⟨he, hes⟩ := List.forall_mem_cons.1 h
    rw [putEntry, if_neg (String.lt_asymm he), if_neg (Std.ne_of_lt he).symm, ih hes, List.cons_append]

/-- Entries in ascending order are put behind each other. -/
theorem entries_foldl_put {es : List (String × Dfa)} (h : (C.entries ++ es).Pairwise fun d e => d.1 < e.1) :
    (es.foldl (fun C e => C.put e.1 e.2) C).entries = C.entries ++ es := by
  induction es generalizing C with
  | nil => exact (List.append_nil _).symm
  | cons e es ih =>
    have hput : (C.put e.1 e.2).entries = C.entries ++ [e] :=
      putEntry_last fun d hd => (List.pairwise_append.1 h).2.2 d hd e List.mem_cons_self
    rw [List.append_cons, ← hput] at h
    rw [List.foldl_cons, ih h, hput, ← List.append_cons]

theorem mem_foldl_put {es : List (String × Dfa)} {e : String × Dfa}
    (h : e ∈ (es.foldl (fun C e => C.put e.1 e.2) C).entries) : e ∈ C.entries ∨ e ∈ es := by
  induction es generalizing C with
  | nil => exact Or.inl h
  | cons d es ih =>
    rcases ih h with hput | hes
    · rcases mem_putEntry hput with rfl | hC
      · exact Or.inr List.mem_cons_self
      · exact Or.inl hC
    · exact Or.inr (List.mem_cons_of_mem d hes)

/-! ## What is read -/

theorem exists_line_of_read (h : read text = .ok C) {e : String × Dfa} (he : e ∈ C.entries) :
    ∃ l ∈ generated text, readEntry l = .ok e := by
  obtain ⟨es, hes, hput⟩ := bind_eq_ok_iff.1 h
  cases hput
  exact (exists_of_forall₂ (mapM_eq_ok_iff.1 hes)).2 e ((mem_foldl_put he).resolve_left List.not_mem_nil)

theorem feed_not_mem_generated {l : List Char × Nat} (h : l ∈ generated text) : '\n' ∉ l.1 := by
  have hnumbered : l ∈ (lines text).zipIdx 1 :=
    (List.dropWhile_suffix _).subset (List.mem_of_mem_drop (List.mem_filter.1 h).1)
  exact not_mem_of_mem_lines (List.fst_mem_of_mem_zipIdx hnumbered)

/-- Names that were read are plain, and so are the automata. -/
theorem plain_of_read (h : read text = .ok C) {e : String × Dfa} (he : e ∈ C.entries) :
    PlainName e.1.toList ∧ e.2.encoding.InRange := by
  obtain ⟨⟨l, n⟩, hl, hread⟩ := exists_line_of_read h he
  obtain ⟨a, b, -, -, hA⟩ := readEntry_eq_ok_iff.1 hread
  exact ⟨plainName_of_readEntry (feed_not_mem_generated hl) hread, Dfa.inRange_encoding_of_parseChars hA⟩

/-! ## What is written -/

theorem ne_marker_of_mem_preamble {l : List Char} (h : l ∈ preamble text) : l ≠ marker := by
  unfold preamble at h
  simpa using List.mem_takeWhile_imp h

section Lines

variable (hcarriage : '\r' ∉ text) (hnames : ∀ e ∈ C.entries, '\n' ∉ e.1.toList)
include hcarriage hnames

theorem lines_render : lines (C.render text) = preamble text ++ marker :: C.entries.map entryChars := by
  rw [render_eq]
  refine lines_unlines fun l hl => ?_
  rcases List.mem_append.1 hl with hpreamble | hl
  · exact isLine_of_mem_lines hcarriage ((List.takeWhile_prefix _).subset hpreamble)
  · rcases List.mem_cons.1 hl with rfl | hentry
    · exact ⟨by decide, by decide⟩
    · obtain ⟨e, he, rfl⟩ := List.mem_map.1 hentry
      exact isLine_entryChars (hnames e he)

theorem preamble_render : preamble (C.render text) = preamble text := by
  unfold preamble
  rw [lines_render hcarriage hnames,
    List.takeWhile_append_of_pos fun l hl => decide_eq_true (ne_marker_of_mem_preamble hl),
    List.takeWhile_cons_of_neg (by simp), List.append_nil]
  rfl

theorem generated_render :
    generated (C.render text) = (C.entries.map entryChars).zipIdx ((preamble text).length + 2) := by
  have hpreamble : ∀ l ∈ (preamble text).zipIdx 1, decide (l.1 ≠ marker) = true :=
    fun l hl => decide_eq_true (ne_marker_of_mem_preamble (List.fst_mem_of_mem_zipIdx hl))
  have hentries : ∀ k, ∀ l ∈ (C.entries.map entryChars).zipIdx k, decide (trim l.1 ≠ []) = true := by
    intro k l hl
    obtain ⟨e, -, he⟩ := List.mem_map.1 (List.fst_mem_of_mem_zipIdx hl)
    rw [← he, decide_eq_true_eq]
    exact trim_entryChars_ne_nil e
  unfold generated
  rw [lines_render hcarriage hnames, List.zipIdx_append, List.dropWhile_append_of_pos hpreamble, List.zipIdx_cons,
    List.dropWhile_cons_of_neg (by simp), List.drop_one, List.tail_cons, List.filter_eq_self.2 (hentries _)]
  congr 1
  omega

end Lines

/-! ## Reading what was written -/

/-- The same automaton under the same name. -/
structure SameEntry (e d : String × Dfa) : Prop where
  name : d.1 = e.1
  automaton : d.2.same e.2 = true

/-- The same names with the same automata. -/
def Same (C D : Catalogue) : Prop := List.Forall₂ SameEntry C.entries D.entries

theorem same_refl (C : Catalogue) : C.Same C := List.forall₂_same.2 fun _ _ => ⟨rfl, (Dfa.same_iff _ _).2 rfl⟩

theorem map_fst_of_same {es ds : List (String × Dfa)} (h : List.Forall₂ SameEntry es ds) :
    ds.map Prod.fst = es.map Prod.fst := by
  induction h with
  | nil => rfl
  | cons hed _ ih => rw [List.map_cons, List.map_cons, ih, hed.name]

theorem map_entryChars_of_same {es ds : List (String × Dfa)} (h : List.Forall₂ SameEntry es ds) :
    ds.map entryChars = es.map entryChars := by
  induction h with
  | nil => rfl
  | cons hed _ ih =>
    rw [List.map_cons, List.map_cons, ih, entryChars, entryChars, hed.name, Dfa.chars_eq_of_same hed.automaton]

theorem exists_mapM_readEntry {es : List (String × Dfa)} (h : ∀ e ∈ es, StorableName e.1.toList ∧ e.2.encoding.InRange)
    (n : Nat) : ∃ ds, ((es.map entryChars).zipIdx n).mapM readEntry = .ok ds ∧ List.Forall₂ SameEntry es ds := by
  simp only [mapM_eq_ok_iff]
  induction es generalizing n with
  | nil => exact ⟨[], .nil, .nil⟩
  | cons e es ih =>
    obtain ⟨⟨hname, hrange⟩, hes⟩ := List.forall_mem_cons.1 h
    obtain ⟨A, hA, hsame⟩ := readEntry_entryChars hname hrange n
    obtain ⟨ds, hds, hall⟩ := ih hes (n + 1)
    exact ⟨(e.1, A) :: ds, .cons hA hds, .cons ⟨rfl, hsame⟩ hall⟩

/-- Entries with storable names are read back. -/
theorem read_render (hcarriage : '\r' ∉ text)
    (h : ∀ e ∈ C.entries, StorableName e.1.toList ∧ e.2.encoding.InRange) :
    ∃ D, read (C.render text) = .ok D ∧ C.Same D := by
  obtain ⟨ds, hds, hall⟩ := exists_mapM_readEntry h ((preamble text).length + 2)
  rw [← generated_render hcarriage fun e he => (h e he).1.feed] at hds
  have hnames : (ds.map Prod.fst).Pairwise (· < ·) := by
    rw [map_fst_of_same hall]
    exact List.pairwise_map.2 C.ordered
  have hput : (ds.foldl (fun C e => C.put e.1 e.2) empty).entries = ds :=
    entries_foldl_put (C := empty) (List.pairwise_map.1 hnames)
  refine ⟨ds.foldl (fun C e => C.put e.1 e.2) empty, bind_eq_ok_iff.2 ⟨ds, hds, rfl⟩, ?_⟩
  unfold Same
  rw [hput]
  exact hall

/-- What was read is written again as it was. -/
theorem render_render (hcarriage : '\r' ∉ text) (hnames : ∀ e ∈ C.entries, '\n' ∉ e.1.toList) (h : C.Same D) :
    D.render (C.render text) = C.render text := by
  rw [D.render_eq, preamble_render hcarriage hnames, map_entryChars_of_same h, ← C.render_eq]

/-- An entry can be read back only if its name does not end like an arrow. -/
theorem ending_of_read_render (hcarriage : '\r' ∉ text) (hnames : ∀ e ∈ C.entries, PlainName e.1.toList)
    (hread : read (C.render text) = .ok D) {e : String × Dfa} (he : e ∈ C.entries) : ¬ openArrow <:+ e.1.toList := by
  obtain ⟨ds, hds, -⟩ := bind_eq_ok_iff.1 hread
  rw [generated_render hcarriage fun e he => (hnames e he).feed, mapM_eq_ok_iff] at hds
  intro hending
  have hline : entryChars e ∈ ((C.entries.map entryChars).zipIdx ((preamble text).length + 2)).map Prod.fst := by
    rw [List.zipIdx_map_fst]
    exact List.mem_map_of_mem he
  obtain ⟨⟨l, n⟩, hl, rfl⟩ := List.mem_map.1 hline
  obtain ⟨d, -, hd⟩ := (exists_of_forall₂ hds).1 _ hl
  exact readEntry_entryChars_ne_ok (hnames e he) hending d hd

end Catalogue

namespace Registry

variable {σ : Type} [Store σ] {R : Registry σ} {current : String}

theorem load_eq_ok_iff {s : σ} : load s = .ok R ↔
    ∃ text, Store.read s = .ok text ∧ Catalogue.read text.toList = .ok R.catalogue ∧ R.store = s := by
  unfold load
  constructor
  · intro h
    split at h
    next => cases h
    next text hread =>
      split at h
      next => cases h
      next C hC =>
        cases h
        exact ⟨text, hread, hC, rfl⟩
  · rintro ⟨text, hread, hC, rfl⟩
    simp only [hread, hC]

/-- Nothing is written that is in the store already. -/
theorem flush_of_render_eq (hread : Store.read R.store = .ok current)
    (h : R.catalogue.render current.toList = current.toList) : R.flush = (.ok false, R) := by
  unfold flush
  rw [hread]
  dsimp only
  rw [if_pos (by rw [h, String.ofList_toList])]

/-- A store that can be written can be flushed to. -/
theorem exists_flush (hread : Store.read R.store = .ok current)
    (hwrite : ∀ contents, (Store.write R.store contents).1 = .ok ()) : ∃ written R', R.flush = (.ok written, R') := by
  unfold flush
  rw [hread]
  dsimp only
  split
  · exact ⟨false, R, rfl⟩
  · split
    next => exact ⟨true, _, rfl⟩
    next e store he =>
      have := hwrite (String.ofList (R.catalogue.render current.toList))
      rw [he] at this
      cases this

/-- A flush of `R` left `R'`, and the store opens as `R''`. -/
structure Reopened (R R' R'' : Registry σ) : Prop where
  load : load R'.store = .ok R''
  same : R.catalogue.Same R''.catalogue
  names : R''.catalogue.names = R.catalogue.names
  ascending : R''.catalogue.names.Pairwise (· < ·)
  settled : R'.flush = (.ok false, R')
  reopened : R''.flush = (.ok false, R'')

section Reopened

variable [LawfulStore σ] (hread : Store.read R.store = .ok current)
  (hwrite : ∀ contents, (Store.write R.store contents).1 = .ok ()) (hcarriage : '\r' ∉ current.toList)
include hread hwrite hcarriage

/-- Storable names, and automata in range, are all that it takes. -/
theorem exists_reopened (hentries : ∀ e ∈ R.catalogue.entries, StorableName e.1.toList ∧ e.2.encoding.InRange) :
    ∃ written R' R'', R.flush = (.ok written, R') ∧ Reopened R R' R'' := by
  obtain ⟨written, R', hflush⟩ := exists_flush hread hwrite
  obtain ⟨hcatalogue, hstored, -⟩ := flush_ok hread hflush
  obtain ⟨D, hD, hsame⟩ := Catalogue.read_render hcarriage hentries
  have hsettled : ∀ S : Registry σ, S.store = R'.store → R.catalogue.Same S.catalogue → S.flush = (.ok false, S) := by
    intro S hstore hS
    refine flush_of_render_eq (hstore ▸ hstored) ?_
    rw [String.toList_ofList]
    exact Catalogue.render_render hcarriage (fun e he => (hentries e he).1.feed) hS
  refine ⟨written, R', ⟨R'.store, D⟩, hflush, load_eq_ok_iff.2 ⟨_, hstored, ?_, rfl⟩, hsame,
    Catalogue.map_fst_of_same hsame, List.pairwise_map.2 D.ordered, hsettled R' rfl ?_, hsettled _ rfl hsame⟩
  · rw [String.toList_ofList]
    exact hD
  · rw [hcatalogue]
    exact R.catalogue.same_refl

/-- Automata with no more states than there are numbers for states are opened again. -/
theorem flush_reopens_of_size_le (hnames : ∀ e ∈ R.catalogue.entries, StorableName e.1.toList)
    (hsizes : ∀ e ∈ R.catalogue.entries, e.2.size ≤ StateRef.sinkNumber) :
    ∃ written R' R'', R.flush = (.ok written, R') ∧ Reopened R R' R'' :=
  exists_reopened hread hwrite hcarriage fun e he => ⟨hnames e he, Dfa.inRange_encoding_of_size_le (hsizes e he)⟩

end Reopened

/-- A registry opens again from what was flushed, and has nothing more to write. -/
theorem flush_reopens [LawfulStore σ] (hread : Store.read R.store = .ok current)
    (hwrite : ∀ contents, (Store.write R.store contents).1 = .ok ()) (hcarriage : '\r' ∉ current.toList)
    (hnames : ∀ e ∈ R.catalogue.entries, StorableName e.1.toList)
    (hautomata : ∀ e ∈ R.catalogue.entries, e.2.encoding.InRange) :
    ∃ written R' R'', R.flush = (.ok written, R') ∧ load R'.store = .ok R'' ∧ R.catalogue.Same R''.catalogue ∧
      R''.catalogue.names = R.catalogue.names ∧ R''.catalogue.names.Pairwise (· < ·) ∧
      R'.flush = (.ok false, R') ∧ R''.flush = (.ok false, R'') := by
  obtain ⟨written, R', R'', hflush, h⟩ :=
    exists_reopened hread hwrite hcarriage fun e he => ⟨hnames e he, hautomata e he⟩
  exact ⟨written, R', R'', hflush, h.load, h.same, h.names, h.ascending, h.settled, h.reopened⟩

/-- Two entries, and a text without a marker that does not end with a line feed. -/
def unflushed : Registry MemoryStore := ⟨.new "notes", (Catalogue.empty.put "b-1" .empty).put "a-2" .empty⟩

theorem flush_reopens_unflushed :
    Store.read unflushed.store = .ok "notes" ∧
    (∀ contents, (Store.write unflushed.store contents).1 = .ok ()) ∧
    '\r' ∉ "notes".toList ∧
    (∀ e ∈ unflushed.catalogue.entries, StorableName e.1.toList) ∧
    (∀ e ∈ unflushed.catalogue.entries, e.2.encoding.InRange) ∧
    ∃ written R' R'', unflushed.flush = (.ok written, R') ∧ load R'.store = .ok R'' ∧
      unflushed.catalogue.Same R''.catalogue ∧ R''.catalogue.names = unflushed.catalogue.names ∧
      R''.catalogue.names.Pairwise (· < ·) ∧ R'.flush = (.ok false, R') ∧ R''.flush = (.ok false, R'') := by
  have hentries : unflushed.catalogue.entries = [("a-2", .empty), ("b-1", .empty)] := rfl
  have hnames : ∀ e ∈ unflushed.catalogue.entries, StorableName e.1.toList := by
    intro e he
    rw [hentries] at he
    rcases List.mem_pair.1 he with rfl | rfl <;> exact ⟨⟨by decide, by decide, by decide⟩, by decide⟩
  have hautomata : ∀ e ∈ unflushed.catalogue.entries, e.2.encoding.InRange := by
    intro e he
    rw [hentries] at he
    rcases List.mem_pair.1 he with rfl | rfl <;> exact Dfa.inRange_encoding_of_size_le (by decide)
  exact ⟨rfl, fun _ => rfl, by decide, hnames, hautomata, flush_reopens rfl (fun _ => rfl) (by decide) hnames hautomata⟩

end Registry
end ByteAutomata
