import ByteAutomata.Proofs.Reading

/-!
# Printed automata are read back

* `Dfa.encoding` : what the text of an automaton lists; `Dfa.consistent_encoding` : it can be built from;
* `Encoding.InRange` : the states that are mentioned have numbers below that of the sink. It holds of what is
  read (`Encoding.inRange_of_encodingText`) and of automata with that many states at most
  (`Dfa.inRange_encoding_of_size_le`);
* `Dfa.parseChars_chars` : an automaton is read back from its text, and so is every automaton of at most that many
  states (`Dfa.exists_parse_text_of_size_le`);
* `Dfa.text_round_trip` : so texts and automata determine each other.
-/

namespace ByteAutomata

set_option autoImplicit false

/-- What the text of an automaton lists. -/
def Dfa.encoding (A : Dfa) : Encoding := ⟨A.rows, A.acceptingStates, A.start.val⟩

namespace Encoding

/-- The states that are mentioned have numbers. Those are of 32 bits, and the largest is left to the sink. -/
structure InRange (e : Encoding) : Prop where
  start : e.start < StateRef.sinkNumber
  accepting : ∀ q ∈ e.accepting, q < StateRef.sinkNumber
  values : ∀ row ∈ e.rows, ∀ r ∈ row, r.value < StateRef.sinkNumber

/-! ## What is printed is in the grammar -/

theorem startText_decimal {q : Nat} (h : q < StateRef.sinkNumber) :
    StartText (if q = 0 then [] else ", start=".toList ++ decimal q) q := by
  by_cases hq : q = 0
  · rw [if_pos hq, hq]
    exact .first
  · rw [if_neg hq]
    have hkeyword : SymbolsText "start=".toList " start=".toList :=
      .cons blanks_space
        (.cons blanks_nil (.cons blanks_nil (.cons blanks_nil (.cons blanks_nil (.cons blanks_nil .nil)))))
    exact .given (b := []) blanks_nil hkeyword blanks_nil (stateText_decimal h)

theorem entryText_chars {r : Run Nat} (h : r.value < StateRef.sinkNumber) : EntryText r.chars r := by
  refine ⟨r.numbers, ?_, ?_⟩
  · rw [Run.chars_eq]
    refine listText_bracketed fun n hn => stateText_decimal ?_
    have hlo := r.lo.toNat_lt
    have hhi := r.hi.toNat_lt
    have hsink : 256 ≤ StateRef.sinkNumber := by decide
    unfold Run.numbers at hn
    split at hn <;> simp at hn <;> omega
  · unfold Run.numbers
    split
    next hsingle => exact .inl ⟨hsingle, rfl⟩
    next => exact .inr rfl

theorem InRange.exists_encodingText {e : Encoding} (h : e.InRange) :
    ∃ s, Dfa.encode e.rows e.accepting e.start = Dfa.header ++ s ∧ EncodingText e s := by
  have hrows : ListText '[' ']' RowText
      (bracketed '[' ']' (e.rows.map fun row => bracketed '[' ']' (row.map Run.chars))) e.rows :=
    listText_bracketed fun row hrow => listText_bracketed fun r hr => entryText_chars (h.values row hrow r hr)
  have haccepting : ListText '\x7b' '\x7d' StateText (bracketed '\x7b' '\x7d' (e.accepting.map decimal)) e.accepting :=
    listText_bracketed fun q hq => stateText_decimal (h.accepting q hq)
  refine ⟨_, ?_, .mk blanks_nil hrows blanks_nil blanks_space haccepting (startText_decimal h.start)
    blanks_nil blanks_nil⟩
  unfold Dfa.encode
  simp only [List.append_assoc, List.nil_append, List.cons_append]

/-! ## What is listed -/

theorem value_lt_of_entryText {s : List Char} {r : Run Nat} (h : EntryText s r) : r.value < StateRef.sinkNumber := by
  obtain ⟨ns, hs, hshown⟩ := h
  have hmem : r.value ∈ ns := by
    rcases hshown with ⟨-, rfl⟩ | rfl <;> simp
  obtain ⟨t, ht⟩ := hs.exists_item _ hmem
  exact ht.bound

theorem lt_of_startText {s : List Char} {q : Nat} (h : StartText s q) : q < StateRef.sinkNumber := by
  cases h with
  | first => decide
  | given before keyword behind state => exact state.bound

theorem inRange_of_encodingText {e : Encoding} {s : List Char} (h : EncodingText e s) : e.InRange := by
  obtain ⟨-, hrows, -, -, haccepting, hstart, -, -⟩ := h
  constructor
  · exact lt_of_startText hstart
  · intro q hq
    obtain ⟨t, ht⟩ := haccepting.exists_item q hq
    exact ht.bound
  · intro row hrow r hr
    obtain ⟨t, ht⟩ := hrows.exists_item row hrow
    obtain ⟨u, hu⟩ := ht.exists_item r hr
    exact value_lt_of_entryText hu

end Encoding

namespace Dfa

theorem mem_rows {A : Dfa} {row : List (Run Nat)} (h : row ∈ A.rows) :
    ∃ q, row = (A.entries q).map (Run.map Fin.val) := by
  obtain ⟨q, -, rfl⟩ := List.mem_map.1 h
  exact ⟨q, rfl⟩

theorem exists_of_mem_acceptingStates {A : Dfa} {q : Nat} (h : q ∈ A.acceptingStates) :
    ∃ p : Fin A.size, p.val = q ∧ A.accepting.get p = true := by
  obtain ⟨p, hp, rfl⟩ := List.mem_map.1 h
  exact ⟨p, rfl, (A.mem_acceptingStates p).1 h⟩

theorem consistent_encoding (A : Dfa) : A.encoding.Consistent := by
  constructor
  · exact Nat.lt_of_lt_of_eq A.start.isLt A.length_rows.symm
  · intro q hq
    obtain ⟨p, rfl, -⟩ := exists_of_mem_acceptingStates hq
    exact Nat.lt_of_lt_of_eq p.isLt A.length_rows.symm
  · intro row hrow
    obtain ⟨q, rfl⟩ := mem_rows hrow
    exact List.pairwise_map.2 (runs_ordered (A.step q))
  · intro row hrow r hr
    obtain ⟨q, rfl⟩ := mem_rows hrow
    obtain ⟨s, -, rfl⟩ := List.mem_map.1 hr
    exact Nat.lt_of_lt_of_eq s.value.isLt A.length_rows.symm

theorem inRange_encoding_of_size_le {A : Dfa} (h : A.size ≤ StateRef.sinkNumber) : A.encoding.InRange := by
  have hbound : A.encoding.rows.length ≤ StateRef.sinkNumber := A.length_rows.le.trans h
  obtain ⟨hstart, haccepting, -, hvalues⟩ := A.consistent_encoding
  exact ⟨hstart.trans_le hbound, fun q hq => (haccepting q hq).trans_le hbound,
    fun row hrow r hr => (hvalues row hrow r hr).trans_le hbound⟩

/-- An automaton of lists within range mentions no state beyond it. -/
theorem inRange_encoding_of_listed {e : Encoding} {A : Dfa} (he : e.InRange) (hA : e.Listed A) :
    A.encoding.InRange := by
  constructor
  · exact hA.start.trans_lt he.start
  · intro q hq
    obtain ⟨p, rfl, hp⟩ := exists_of_mem_acceptingStates hq
    exact he.accepting _ ((hA.accepting p).1 hp)
  · intro row hrow r hr
    obtain ⟨q, rfl⟩ := mem_rows hrow
    obtain ⟨s, hs, rfl⟩ := List.mem_map.1 hr
    have hstep : A.step q s.lo = some s.value :=
      (mem_runs_covers _ _ _).1 ⟨s, hs, (Run.covers_iff _ _).2 ⟨UInt8.le_refl _, s.lo_le_hi⟩, rfl⟩
    obtain ⟨t, ht, -, hvalue⟩ := (hA.steps q s.lo s.value.val).1 (by rw [hstep]; rfl)
    have hq : q.val < e.rows.length := hA.size ▸ q.isLt
    rw [List.getD_eq_getElem?_getD, List.getElem?_eq_getElem hq, Option.getD_some] at ht
    exact hvalue.symm.trans_lt (he.values _ (List.getElem_mem hq) t ht)

/-! ## Reading back -/

theorem afterHeader?_header (s : List Char) : afterHeader? (header ++ s) = some s := by
  have hheader : header = 'C' :: "oncreteDfa(".toList := by decide
  unfold afterHeader?
  rw [hheader, List.cons_append, trimStart_of_not_blank _ (by decide), ← List.cons_append, ← hheader]
  simp

theorem parseChars_eq_ok_iff {text : List Char} {A : Dfa} : parseChars text = .ok A ↔
    ∃ s e, afterHeader? text = some s ∧ EncodingText e s ∧ e.toDfa = .ok A := by
  unfold parseChars
  constructor
  · intro h
    split at h
    next => cases h
    next s hs =>
      obtain ⟨e, hread, hA⟩ := bind_eq_ok_iff.1 h
      exact ⟨s, e, hs, Encoding.encodingText_of_read hread, hA⟩
  · rintro ⟨s, e, hs, htext, hA⟩
    rw [hs]
    exact bind_eq_ok_iff.2 ⟨e, Encoding.read_of_encodingText htext, hA⟩

/-- An automaton is read back from its text, up to the way its steps are stored. -/
theorem parseChars_chars {A : Dfa} (h : A.encoding.InRange) :
    ∃ B, parseChars A.chars = .ok B ∧ B.toAutomaton = A.toAutomaton := by
  obtain ⟨s, hs, htext⟩ := h.exists_encodingText
  obtain ⟨B, hB⟩ := Encoding.exists_toDfa A.consistent_encoding
  have hchars : A.chars = header ++ s := hs
  refine ⟨B, parseChars_eq_ok_iff.2 ⟨s, _, by rw [hchars, afterHeader?_header], htext, hB⟩, ?_⟩
  exact (Encoding.listed_of_toDfa hB).toAutomaton_eq (Encoding.listed_self A)

theorem inRange_encoding_of_parseChars {text : List Char} {A : Dfa} (h : parseChars text = .ok A) :
    A.encoding.InRange := by
  obtain ⟨s, e, -, htext, hA⟩ := parseChars_eq_ok_iff.1 h
  exact inRange_encoding_of_listed (Encoding.inRange_of_encodingText htext) (Encoding.listed_of_toDfa hA)

theorem text_eq_iff_same (A B : Dfa) : A.text = B.text ↔ A.same B = true :=
  (text_eq_iff_toAutomaton A B).trans (same_iff A B).symm

/-- What is read from the text of an automaton is the same automaton. -/
theorem exists_parse_text {A : Dfa} (h : A.encoding.InRange) : ∃ B, parse A.text = .ok B ∧ B.same A = true := by
  obtain ⟨B, hB, hsame⟩ := parseChars_chars h
  refine ⟨B, ?_, (same_iff B A).2 hsame⟩
  rw [parse, text, String.toList_ofList, hB]

/-- Automata with no more states than there are numbers for states are read back, and written again as they were. -/
theorem exists_parse_text_of_size_le {A : Dfa} (h : A.size ≤ StateRef.sinkNumber) :
    ∃ B, parse A.text = .ok B ∧ B.same A = true ∧ B.text = A.text := by
  obtain ⟨B, hB, hsame⟩ := exists_parse_text (inRange_encoding_of_size_le h)
  exact ⟨B, hB, hsame, (text_eq_iff_same B A).2 hsame⟩

/-- Texts and automata determine each other. An automaton is read back from its text, if its states have numbers at all;
two automata have one text exactly if they are the same; and whatever an automaton was read from, it is read back from
its own text. -/
theorem text_round_trip :
    (∀ A : Dfa, A.encoding.InRange → ∃ B, parse A.text = .ok B ∧ B.same A = true ∧ B.text = A.text) ∧
    (∀ A B : Dfa, A.text = B.text ↔ A.same B = true) ∧
    ∀ (s : String) (A : Dfa), parse s = .ok A → ∃ B, parse A.text = .ok B ∧ B.same A = true := by
  refine ⟨fun A hA => ?_, text_eq_iff_same, fun s A hA => ?_⟩
  · obtain ⟨B, hB, hsame⟩ := exists_parse_text hA
    exact ⟨B, hB, hsame, (text_eq_iff_same B A).2 hsame⟩
  · exact exists_parse_text (inRange_encoding_of_parseChars hA)

theorem text_round_trip_spaced : ∃ A,
    parse "  ConcreteDfa([ [(0,1, 1), (2,1)], [] ],{ 1 } , start = 1)" = .ok A ∧ A.encoding.InRange ∧
      (∃ B, parse A.text = .ok B ∧ B.same A = true ∧ B.text = A.text) ∧
      ∃ B, parse A.text = .ok B ∧ B.same A = true := by
  let e : Encoding := ⟨[[⟨0, 1, 1, by decide⟩, ⟨2, 2, 1, by decide⟩], []], [1], 1⟩
  obtain ⟨A, hA⟩ : ∃ A, e.toDfa = .ok A := Encoding.exists_toDfa ⟨by decide, by decide, by decide, by decide⟩
  have hparse : parse "  ConcreteDfa([ [(0,1, 1), (2,1)], [] ],{ 1 } , start = 1)" = .ok A := by
    refine parseChars_eq_ok_iff.2 ⟨"[ [(0,1, 1), (2,1)], [] ],{ 1 } , start = 1)".toList, e, by decide, ?_, hA⟩
    exact Encoding.encodingText_of_read (by decide +kernel)
  have hrange : A.encoding.InRange := inRange_encoding_of_parseChars hparse
  exact ⟨A, hparse, hrange, text_round_trip.1 A hrange, text_round_trip.2.2 _ A hparse⟩

end Dfa
end ByteAutomata
