import ByteAutomata.Proofs.Registry.Preamble
import ByteAutomata.Proofs.RoundTrip
import Mathlib.Data.List.DropRight

/-!
# The line of an entry

* `trim_eq_self_iff`, `trim_trim` : texts without blanks at their ends;
* `PlainName` : a name that can be read, without line feeds, arrows, and blanks at its ends; `StorableName` : one that
  does not end like an arrow besides;
* `Catalogue.readEntry_eq_ok_iff` : what is read from a line; `Catalogue.plainName_of_readEntry` : the name is plain;
* `Catalogue.readEntry_entryChars` : an entry with a storable name is read back from its line, and
  `Catalogue.readEntry_entryChars_ne_ok` : none that ends like an arrow is.
-/

namespace ByteAutomata

set_option autoImplicit false

variable {cs l : List Char} {A : Dfa} {e : String × Dfa} {n : Nat}

/-! ## Blanks at the ends -/

theorem trim_eq_rdropWhile (cs : List Char) : trim cs = (cs.dropWhile isBlank).rdropWhile isBlank := rfl

theorem dropWhile_blank_eq_self_iff : cs.dropWhile isBlank = cs ↔ ∀ h : cs ≠ [], isBlank (cs.head h) = false := by
  cases cs with
  | nil => simp
  | cons c cs => simp [List.dropWhile_eq_self_iff]

theorem trim_eq_self_iff :
    trim cs = cs ↔ ∀ h : cs ≠ [], isBlank (cs.head h) = false ∧ isBlank (cs.getLast h) = false := by
  rw [trim_eq_rdropWhile]
  constructor
  · intro htrim hne
    have hdrop : cs.dropWhile isBlank = cs := by
      refine (List.dropWhile_suffix _).eq_of_length_le ?_
      calc cs.length = ((cs.dropWhile isBlank).rdropWhile isBlank).length := by rw [htrim]
        _ ≤ (cs.dropWhile isBlank).length := (List.rdropWhile_prefix _ _).length_le
    rw [hdrop, List.rdropWhile_eq_self_iff] at htrim
    exact ⟨dropWhile_blank_eq_self_iff.1 hdrop hne, by simpa using htrim hne⟩
  · intro h
    rw [dropWhile_blank_eq_self_iff.2 fun hne => (h hne).1, List.rdropWhile_eq_self_iff]
    exact fun hne => by simp [(h hne).2]

theorem trim_isInfix (cs : List Char) : trim cs <:+: cs :=
  (List.rdropWhile_prefix _ _).isInfix.trans (List.dropWhile_suffix _).isInfix

theorem trim_trim (cs : List Char) : trim (trim cs) = trim cs := by
  rw [trim_eq_self_iff]
  intro hne
  have hstarts : trim cs <+: cs.dropWhile isBlank := List.rdropWhile_prefix _ _
  have hdrop : cs.dropWhile isBlank ≠ [] := fun h => hne (List.prefix_nil.1 (h ▸ hstarts))
  constructor
  · rw [hstarts.head hne]
    exact List.head_dropWhile_not isBlank hdrop
  · exact Bool.eq_false_of_not_eq_true (List.rdropWhile_last_not isBlank _ hne)

theorem trim_ne_nil {c : Char} (hc : c ∈ cs) (hblank : isBlank c = false) : trim cs ≠ [] := by
  rw [trim_eq_rdropWhile, Ne, List.rdropWhile_eq_nil_iff]
  intro hall
  by_cases hdrop : cs.dropWhile isBlank = []
  · have := List.dropWhile_eq_nil_iff.1 hdrop c hc
    rw [hblank] at this
    cases this
  · have := hall _ (List.head_mem hdrop)
    rw [List.head_dropWhile_not isBlank hdrop] at this
    cases this

/-! ## Names -/

/-- A name that can be read from a line. -/
structure PlainName (cs : List Char) : Prop where
  feed : '\n' ∉ cs
  trimmed : trim cs = cs
  arrow : ¬ arrow <:+: cs

/-- The start of an arrow. A blank behind it makes it one. -/
def openArrow : List Char := " ->".toList

/-- A name that is read back: an arrow behind it is where the name ends. -/
structure StorableName (cs : List Char) : Prop extends PlainName cs where
  ending : ¬ openArrow <:+ cs

theorem arrow_eq : arrow = openArrow ++ [' '] := by decide

/-- Where an arrow can be in two texts. -/
theorem arrow_infix_append {rest : List Char} (h : arrow <:+: cs ++ rest) : arrow <:+: cs ∨ arrow <:+: rest ∨
    ∃ l₁ l₂, l₁ ++ l₂ = openArrow ∧ l₁ <:+ cs ∧ l₂ ++ [' '] <+: rest := by
  rcases List.infix_append_iff.1 h with hcs | hrest | ⟨l₁, l₂, hl, hsuffix, hstarts⟩
  · exact Or.inl hcs
  · exact Or.inr (Or.inl hrest)
  · cases l₂ using List.reverseRecOn with
    | nil =>
      rw [hl, List.append_nil]
      exact Or.inl hsuffix.isInfix
    | append_singleton l₂ c =>
      -- what is in `rest` ends with the last character of the arrow, a blank
      rw [arrow_eq, ← List.append_assoc] at hl
      obtain ⟨hopen, hc⟩ := List.append_inj' hl rfl
      rw [← hc] at hstarts
      exact Or.inr (Or.inr ⟨l₁, l₂, hopen.symm, hsuffix, hstarts⟩)

/-- An arrow in a text that goes on without blanks is in the text before. -/
theorem arrow_infix_append_iff {rest : List Char} (h : ' ' ∉ rest) : arrow <:+: cs ++ rest ↔ arrow <:+: cs := by
  constructor
  · intro hwithin
    rcases arrow_infix_append hwithin with hcs | hrest | ⟨l₁, l₂, -, -, hstarts⟩
    · exact hcs
    · exact absurd (hrest.subset (by decide)) h
    · exact absurd (hstarts.subset (by simp)) h
  · exact fun hcs => hcs.trans (List.prefix_append cs rest).isInfix

/-- An arrow that starts before an open one ends within it exactly if one was open already. -/
theorem arrow_infix_append_openArrow_iff :
    arrow <:+: cs ++ openArrow ↔ arrow <:+: cs ∨ openArrow <:+ cs := by
  constructor
  · intro hwithin
    rcases arrow_infix_append hwithin with hcs | hopen | ⟨l₁, l₂, hl, hsuffix, hstarts⟩
    · exact Or.inl hcs
    · exact absurd hopen.length_le (by decide)
    · cases l₂ with
      | nil =>
        rw [List.append_nil] at hl
        exact Or.inr (hl ▸ hsuffix)
      | cons c l₂ =>
        have htail : l₂ ++ [' '] <+: "->".toList := (List.cons_prefix_cons.1 hstarts).2
        exact absurd (htail.subset (by simp)) (by decide : ' ' ∉ "->".toList)
  · rintro (hcs | ⟨t, rfl⟩)
    · exact hcs.trans (List.prefix_append cs openArrow).isInfix
    · have htwice : arrow ++ "->".toList = openArrow ++ openArrow := by decide
      exact ⟨t, "->".toList, by rw [List.append_assoc, htwice, List.append_assoc]⟩

/-- A name without an arrow ends at the arrow behind it, or an arrow is open before. -/
theorem splitAround_arrow {b : List Char} (h : ¬ arrow <:+: cs) :
    splitAround arrow (cs ++ arrow ++ b) = some (cs, b) ↔ ¬ openArrow <:+ cs := by
  have hdrop : arrow.dropLast = openArrow := by decide
  rw [splitAround_eq_some_iff (by decide), hdrop, arrow_infix_append_openArrow_iff]
  simp [h]

/-! ## Texts of automata have one line -/

theorem feed_not_mem_intercalate {items : List (List Char)} (h : ∀ i ∈ items, '\n' ∉ i) :
    '\n' ∉ List.intercalate [',', ' '] items := by
  induction items with
  | nil => simp
  | cons i items ih =>
    obtain ⟨hi, hitems⟩ := List.forall_mem_cons.1 h
    cases items with
    | nil => simpa using hi
    | cons j items =>
      rw [List.intercalate_cons_cons]
      simp [hi, ih hitems]

theorem feed_not_mem_bracketed {left right : Char} {items : List (List Char)} (hleft : left ≠ '\n')
    (hright : right ≠ '\n') (h : ∀ i ∈ items, '\n' ∉ i) : '\n' ∉ bracketed left right items := by
  unfold bracketed
  simp [hleft.symm, hright.symm, feed_not_mem_intercalate h]

theorem feed_not_mem_decimal (m : Nat) : '\n' ∉ decimal m :=
  fun h => absurd (isDigit_of_mem_decimal h) (by decide)

theorem feed_not_mem_decimals {left right : Char} (hleft : left ≠ '\n') (hright : right ≠ '\n') (ms : List Nat) :
    '\n' ∉ bracketed left right (ms.map decimal) := by
  refine feed_not_mem_bracketed hleft hright fun i hi => ?_
  obtain ⟨m, -, rfl⟩ := List.mem_map.1 hi
  exact feed_not_mem_decimal m

theorem Dfa.feed_not_mem_chars (A : Dfa) : '\n' ∉ A.chars := by
  have hrow : ∀ row : List (Run Nat), '\n' ∉ bracketed '[' ']' (row.map Run.chars) := by
    intro row
    refine feed_not_mem_bracketed (by decide) (by decide) fun i hi => ?_
    obtain ⟨r, -, rfl⟩ := List.mem_map.1 hi
    rw [Run.chars_eq]
    exact feed_not_mem_decimals (by decide) (by decide) _
  have hrows : '\n' ∉ bracketed '[' ']' (A.rows.map fun row => bracketed '[' ']' (row.map Run.chars)) := by
    refine feed_not_mem_bracketed (by decide) (by decide) fun i hi => ?_
    obtain ⟨row, -, rfl⟩ := List.mem_map.1 hi
    exact hrow row
  have hstart : '\n' ∉ if A.start.val = 0 then [] else ", start=".toList ++ decimal A.start.val := by
    split
    · exact List.not_mem_nil
    · rw [List.mem_append, not_or]
      exact ⟨by decide, feed_not_mem_decimal _⟩
  unfold chars encode
  simp only [List.mem_append, not_or]
  exact ⟨⟨⟨⟨⟨by decide, hrows⟩, by decide⟩, feed_not_mem_decimals (by decide) (by decide) _⟩, hstart⟩, by decide⟩

/-! ## Lines of entries -/

namespace Catalogue

theorem readEntry_eq_ok_iff {d : String × Dfa} : readEntry (l, n) = .ok d ↔
    ∃ a b, splitAround arrow l = some (a, b) ∧ d.1 = String.ofList (trim a) ∧ Dfa.parseChars b = .ok d.2 := by
  unfold readEntry
  constructor
  · intro h
    split at h
    next => cases h
    next a b hsplit =>
      dsimp only at h
      split at h
      next A hA =>
        cases h
        exact ⟨a, b, hsplit, rfl, hA⟩
      next => cases h
  · rintro ⟨a, b, hsplit, hname, hA⟩
    simp only [hsplit, hA, ← hname]

/-- What is read as a name is plain. -/
theorem plainName_of_readEntry {d : String × Dfa} (hl : '\n' ∉ l) (h : readEntry (l, n) = .ok d) :
    PlainName d.1.toList := by
  obtain ⟨a, b, hsplit, hname, -⟩ := readEntry_eq_ok_iff.1 h
  obtain ⟨hparts, harrow⟩ := (splitAround_eq_some_iff (by decide)).1 hsplit
  rw [hname, String.toList_ofList]
  constructor
  · intro hfeed
    refine hl ?_
    rw [hparts, List.append_assoc]
    exact List.mem_append_left _ ((trim_isInfix a).subset hfeed)
  · exact trim_trim a
  · intro hwithin
    exact harrow ((hwithin.trans (trim_isInfix a)).trans (List.prefix_append a _).isInfix)

/-- An entry with a storable name is read back from its line. -/
theorem readEntry_entryChars (hname : StorableName e.1.toList) (hrange : e.2.encoding.InRange) (n : Nat) :
    ∃ A, readEntry (entryChars e, n) = .ok (e.1, A) ∧ A.same e.2 = true := by
  obtain ⟨A, hA, hsame⟩ := Dfa.parseChars_chars hrange
  refine ⟨A, readEntry_eq_ok_iff.2 ⟨_, _, (splitAround_arrow hname.arrow).2 hname.ending, ?_, hA⟩, ?_⟩
  · rw [hname.trimmed, String.ofList_toList]
  · exact (Dfa.same_iff _ _).2 hsame

/-- A name that ends like an arrow ends too early in its line, and what follows is no automaton. -/
theorem readEntry_entryChars_ne_ok (hname : PlainName e.1.toList) (hending : openArrow <:+ e.1.toList)
    (d : String × Dfa) : readEntry (entryChars e, n) ≠ .ok d := by
  intro h
  obtain ⟨p, hp⟩ := hending
  have harrows : openArrow ++ arrow = arrow ++ "-> ".toList := by decide
  have hsplit : splitAround arrow (entryChars e) = some (p, "-> ".toList ++ e.2.chars) := by
    refine (splitAround_eq_some_iff (by decide)).2 ⟨?_, fun hwithin => hname.arrow (hp ▸ hwithin)⟩
    rw [entryChars, ← hp, List.append_assoc p, harrows]
    simp only [List.append_assoc]
  obtain ⟨a, b, hparts, -, hA⟩ := readEntry_eq_ok_iff.1 h
  obtain ⟨rfl, rfl⟩ := Prod.mk.inj (Option.some.inj (hsplit.symm.trans hparts))
  obtain ⟨s, -, hs, -⟩ := Dfa.parseChars_eq_ok_iff.1 hA
  have hheader : Dfa.afterHeader? ("-> ".toList ++ e.2.chars) = none := by
    have hdash : "-> ".toList = '-' :: "> ".toList := by decide
    unfold Dfa.afterHeader?
    rw [hdash, List.cons_append, trimStart_of_not_blank _ (by decide)]
    rfl
  rw [hheader] at hs
  cases hs

/-! ## Lines that are written -/

theorem getLast?_entryChars (e : String × Dfa) : (entryChars e).getLast? = some ')' := by
  rw [entryChars, Dfa.chars, Dfa.encode, ← List.append_assoc, List.getLast?_concat]

theorem isLine_entryChars (h : '\n' ∉ e.1.toList) : IsLine (entryChars e) := by
  constructor
  · rw [entryChars, List.mem_append, List.mem_append, not_or, not_or]
    exact ⟨⟨h, by decide⟩, e.2.feed_not_mem_chars⟩
  · rw [getLast?_entryChars]
    decide

theorem trim_entryChars_ne_nil (e : String × Dfa) : trim (entryChars e) ≠ [] :=
  trim_ne_nil (List.mem_of_getLast? (getLast?_entryChars e)) (by decide)

end Catalogue
end ByteAutomata
