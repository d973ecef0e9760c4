import ByteAutomata.Proofs.Lines
import ByteAutomata.Registry

/-!
# What flushing a registry does to the text before the marker

* `beforeMarker` : what stands before the first marker line;
* `Catalogue.render_eq` : the lines that are written;
* `LawfulStore` : what was written is read; `Registry.flush_ok` : what is in the store behind a flush;
* `Registry.flush_keeps_iff` : the text before the marker stays as it is exactly if no carriage return ends a line of
  it with the line feed. Otherwise the carriage returns at the ends of its lines are lost.
-/

namespace ByteAutomata

set_option autoImplicit false

variable {l text : List Char}

/-! ## The preamble -/

/-- A line without its end. -/
def lineContent (l : List Char × Bool) : List Char := if l.2 then dropReturn l.1 else l.1

/-- What stands before the first marker line: everything, if there is none. -/
def beforeMarker (text : List Char) : List Char :=
  unscanLines ((scanLines text).takeWhile fun l => lineContent l ≠ marker)

namespace Catalogue

theorem preamble_line (hl : '\n' ∉ l) (rest : List Char) :
    preamble (l ++ '\n' :: rest) = if dropReturn l = marker then [] else dropReturn l :: preamble rest := by
  unfold preamble
  rw [lines_line hl, List.takeWhile_cons]
  by_cases h : dropReturn l = marker <;> simp [h]

theorem preamble_last (hne : l ≠ []) (hl : '\n' ∉ l) : preamble l = if l = marker then [] else [l] := by
  unfold preamble
  rw [lines_last hne hl, List.takeWhile_cons]
  by_cases h : l = marker <;> simp [h]

end Catalogue

open Catalogue

theorem beforeMarker_line (hl : '\n' ∉ l) (rest : List Char) :
    beforeMarker (l ++ '\n' :: rest) = if dropReturn l = marker then [] else l ++ '\n' :: beforeMarker rest := by
  unfold beforeMarker
  rw [scanLines_line hl, List.takeWhile_cons]
  by_cases h : dropReturn l = marker <;> simp [h, lineContent, unscanLines]

theorem beforeMarker_last (hne : l ≠ []) (hl : '\n' ∉ l) : beforeMarker l = if l = marker then [] else l := by
  unfold beforeMarker
  rw [scanLines_last hne hl, List.takeWhile_cons]
  by_cases h : l = marker <;> simp [h, lineContent, unscanLines]

/-- The lines of the preamble are put together again with plain line feeds. -/
theorem unixEnds_beforeMarker_isPrefix (text : List Char) :
    unixEnds (beforeMarker text) <+: unlines (preamble text) := by
  induction text using byLines with
  | nil => exact List.prefix_refl _
  | last l hne hl =>
    rw [beforeMarker_last hne hl, preamble_last hne hl]
    split
    · exact List.prefix_refl _
    · rw [unixEnds_last hl, unlines_cons]
      exact List.prefix_append l _
  | line l rest hl ih =>
    rw [beforeMarker_line hl, preamble_line hl]
    split
    · exact List.prefix_refl _
    · rw [unixEnds_line hl, unlines_cons, List.prefix_append_right_inj, List.cons_prefix_cons]
      exact ⟨rfl, ih⟩

/-! ## What is written -/

namespace Catalogue

/-- An entry without the end of its line. -/
def entryChars (e : String × Dfa) : List Char := e.1.toList ++ arrow ++ e.2.chars

theorem unlines_map_entryChars (es : List (String × Dfa)) : unlines (es.map entryChars) = es.flatMap entryLine :=
  List.flatMap_map _ _ es

theorem intercalate_append_feed (ls : List (List Char)) (l : List Char) :
    List.intercalate ['\n'] (ls ++ [l]) ++ ['\n'] = unlines (ls ++ [l]) := by
  induction ls with
  | nil => simp [unlines]
  | cons k ls ih =>
    have hne : ls ++ [l] ≠ [] := by simp
    rw [List.cons_append, unlines_cons, ← ih, List.intercalate_cons_of_ne_nil hne]
    simp

/-- The lines that are written: the preamble, the marker and the entries. -/
theorem render_eq (C : Catalogue) (text : List Char) :
    C.render text = unlines (preamble text ++ marker :: C.entries.map entryChars) := by
  rw [List.append_cons, unlines_append, ← intercalate_append_feed, unlines_map_entryChars, render]
  simp

theorem unixEnds_isPrefix_render (C : Catalogue) (text : List Char) :
    unixEnds (beforeMarker text) <+: C.render text := by
  rw [render_eq, unlines_append]
  exact (unixEnds_beforeMarker_isPrefix text).trans (List.prefix_append _ _)

/-- Plain line feeds are all that is kept of the ends of lines. -/
theorem beforeMarker_prefix_render_iff (C : Catalogue) (text : List Char) :
    beforeMarker text <+: C.render text ↔ ¬ ['\r', '\n'] <:+: beforeMarker text := by
  have hrendered := unixEnds_isPrefix_render C text
  constructor
  · intro h
    exact unixEnds_prefix_iff.1 (List.prefix_of_prefix_length_le hrendered h (length_unixEnds_le _))
  · intro h
    rwa [unixEnds_of_not_isInfix h] at hrendered

end Catalogue

/-! ## Stores -/

/-- What was written is read. -/
class LawfulStore (σ : Type) [Store σ] : Prop where
  read_write : ∀ {s t : σ} {contents : String}, Store.write s contents = (.ok (), t) → Store.read t = .ok contents

instance : LawfulStore MemoryStore where
  read_write h := by cases h; rfl

theorem fromUTF8?_toUTF8 (s : String) : String.fromUTF8? s.toUTF8 = some s := dif_pos s.isValidUTF8

instance : LawfulStore FileStore where
  read_write {s t contents} h := by
    have hread : Store.read (FileStore.file contents.toUTF8) = .ok contents := by
      simp only [Store.read, fromUTF8?_toUTF8]
    cases s with
    | missing parentExists =>
      cases parentExists <;> cases h
      exact hread
    | directory => cases h
    | file bytes =>
      cases h
      exact hread

namespace Registry

variable {σ : Type} [Store σ] [LawfulStore σ] {R R' : Registry σ} {written : Bool} {current : String}

/-- Behind a flush the store has the entries as they are written behind what it had before. -/
theorem flush_ok (hread : Store.read R.store = .ok current) (hflush : R.flush = (.ok written, R')) :
    R'.catalogue = R.catalogue ∧ Store.read R'.store = .ok (String.ofList (R.catalogue.render current.toList)) ∧
      (written = false → R' = R) := by
  unfold flush at hflush
  rw [hread] at hflush
  dsimp only at hflush
  split at hflush
  next hsame =>
    cases hflush
    exact ⟨rfl, hread.trans (congrArg _ hsame.symm), fun _ => rfl⟩
  next =>
    split at hflush
    next store hwrite =>
      cases hflush
      exact ⟨rfl, LawfulStore.read_write hwrite, nofun⟩
    next => cases hflush

/-- What stands before the marker stays as it is exactly if no line of it ends with a carriage return and a line feed.
Of such ends the line feed is kept. -/
theorem flush_keeps_iff (hread : Store.read R.store = .ok current) (hflush : R.flush = (.ok written, R')) :
    ∃ text, Store.read R'.store = .ok text ∧ unixEnds (beforeMarker current.toList) <+: text.toList ∧
      (beforeMarker current.toList <+: text.toList ↔ ¬ ['\r', '\n'] <:+: beforeMarker current.toList) := by
  refine ⟨_, (flush_ok hread hflush).2.1, ?_⟩
  rw [String.toList_ofList]
  exact ⟨R.catalogue.unixEnds_isPrefix_render _, R.catalogue.beforeMarker_prefix_render_iff _⟩

/-- No entries, and a carriage return at the end of the line before the marker. -/
def windows : Registry MemoryStore := ⟨.new "pre\r\n# AUTOGENERATED BEGINS\n", .empty⟩

theorem flush_windows : windows.flush = (.ok true, ⟨⟨"pre\n# AUTOGENERATED BEGINS\n", 1⟩, .empty⟩) := rfl

theorem flush_keeps_iff_windows : Store.read windows.store = .ok "pre\r\n# AUTOGENERATED BEGINS\n" ∧
    windows.flush = (.ok true, ⟨⟨"pre\n# AUTOGENERATED BEGINS\n", 1⟩, .empty⟩) ∧
    ∃ text, Store.read (MemoryStore.mk "pre\n# AUTOGENERATED BEGINS\n" 1) = .ok text ∧
      unixEnds (beforeMarker "pre\r\n# AUTOGENERATED BEGINS\n".toList) <+: text.toList ∧
      (beforeMarker "pre\r\n# AUTOGENERATED BEGINS\n".toList <+: text.toList ↔
        ¬ ['\r', '\n'] <:+: beforeMarker "pre\r\n# AUTOGENERATED BEGINS\n".toList) :=
  ⟨rfl, flush_windows, flush_keeps_iff rfl flush_windows⟩

/-- The text before the marker is not always kept. -/
theorem flush_alters_windows : load windows.store = .ok windows ∧
    beforeMarker windows.store.contents.toList = "pre\r\n".toList ∧
    ¬ beforeMarker windows.store.contents.toList <+: windows.flush.2.store.contents.toList := by
  rw [flush_windows]
  exact ⟨rfl, by decide, by decide⟩

end Registry
end ByteAutomata
