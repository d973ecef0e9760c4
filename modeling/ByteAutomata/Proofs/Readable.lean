import ByteAutomata.Proofs.Building
import ByteAutomata.Proofs.RoundTrip

/-!
# The texts that are read

* `Dfa.afterHeader?_eq_some_iff` : blanks and the header stand before the lists;
* `Encoding.Written` : the texts of lists, which are of no other lists (`Encoding.Written.unique`);
* `Dfa.parse_eq_ok_iff` : reading gives the automaton of the lists that are written;
* `Dfa.parse_exactly` : exactly the texts of valid lists are read, as what is listed, and nothing is left for
  `Dfa.build` to find wrong.
-/

namespace ByteAutomata

set_option autoImplicit false

namespace Dfa

theorem afterHeader?_blanks {b : List Char} (hb : ∀ c ∈ b, isBlank c = true) (t : List Char) :
    afterHeader? (b ++ t) = afterHeader? t := by
  unfold afterHeader? trimStart
  rw [List.dropWhile_append_of_pos hb]

/-- What is read as lists stands behind blanks and the header. -/
theorem afterHeader?_eq_some_iff {text s : List Char} :
    afterHeader? text = some s ↔ ∃ b, (∀ c ∈ b, isBlank c = true) ∧ text = b ++ (header ++ s) := by
  constructor
  · intro h
    unfold afterHeader? at h
    dsimp only at h
    split at h
    next hprefix =>
      obtain ⟨t, ht⟩ := List.isPrefixOf_iff_prefix.1 hprefix
      rw [← ht, List.drop_left, Option.some.injEq] at h
      refine ⟨text.takeWhile isBlank, fun c hc => List.mem_takeWhile_imp hc, ?_⟩
      rw [← h, ht]
      exact (List.takeWhile_append_dropWhile ..).symm
    next => cases h
  · rintro ⟨b, hb, rfl⟩
    rw [afterHeader?_blanks hb, afterHeader?_header]

end Dfa

namespace Encoding

/-- The texts of the lists: Unicode blanks, the header, and the lists in their grammar. -/
def Written (e : Encoding) (text : List Char) : Prop :=
  ∃ b s, (∀ c ∈ b, isBlank c = true) ∧ EncodingText e s ∧ text = b ++ (Dfa.header ++ s)

theorem written_iff {e : Encoding} {text : List Char} :
    e.Written text ↔ ∃ s, Dfa.afterHeader? text = some s ∧ read s = .ok e := by
  simp only [Dfa.afterHeader?_eq_some_iff]
  constructor
  · rintro ⟨b, s, hb, hs, rfl⟩
    exact ⟨s, ⟨b, hb, rfl⟩, read_of_encodingText hs⟩
  · rintro ⟨s, ⟨b, hb, rfl⟩, hread⟩
    exact ⟨b, s, hb, encodingText_of_read hread, rfl⟩

/-- A text is of one list of states at most. -/
theorem Written.unique {e e' : Encoding} {text : List Char} (h : e.Written text) (h' : e'.Written text) : e = e' := by
  obtain ⟨s, hs, hread⟩ := written_iff.1 h
  obtain ⟨s', hs', hread'⟩ := written_iff.1 h'
  obtain rfl : s = s' := Option.some.inj (hs.symm.trans hs')
  exact Except.ok.inj (hread.symm.trans hread')

end Encoding

namespace Dfa

theorem parse_eq_ok_iff {text : String} {A : Dfa} :
    parse text = .ok A ↔ ∃ e : Encoding, e.Written text.toList ∧ e.toDfa = .ok A := by
  refine parseChars_eq_ok_iff.trans ⟨?_, ?_⟩
  · rintro ⟨s, e, hs, htext, hA⟩
    obtain ⟨b, hb, htoList⟩ := afterHeader?_eq_some_iff.1 hs
    exact ⟨e, ⟨b, s, hb, htext, htoList⟩, hA⟩
  · rintro ⟨e, ⟨b, s, hb, htext, htoList⟩, hA⟩
    exact ⟨s, e, afterHeader?_eq_some_iff.2 ⟨b, hb, htoList⟩, htext, hA⟩

/-- A text is read exactly if it is blanks, the header and lists in their grammar, where entries of one state do not
overlap and every state that is mentioned is listed. What is read are the listed start, accepting states and steps,
in whatever order the entries are listed, and it is what is built of the lists: the checks of the reader leave none
of those of `build` to fail. -/
theorem parse_exactly (text : String) : {e : Encoding | e.Written text.toList}.Subsingleton ∧
    ((∃ A, parse text = .ok A) ↔ ∃ e : Encoding, e.Written text.toList ∧ e.Valid) ∧
    ∀ A, parse text = .ok A ↔ ∃ e : Encoding, e.Written text.toList ∧ e.Valid ∧ e.Listed A ∧
      build e.specs (e.accepting.map .state) (.state e.start) = .ok A := by
  refine ⟨fun e h e' h' => h.unique h', ?_, fun A => ?_⟩
  · simp only [parse_eq_ok_iff, ← Encoding.exists_toDfa_iff]
    exact ⟨fun ⟨A, e, h, hA⟩ => ⟨e, h, A, hA⟩, fun ⟨e, h, A, hA⟩ => ⟨A, e, h, hA⟩⟩
  · rw [parse_eq_ok_iff]
    constructor
    · rintro ⟨e, h, hA⟩
      exact ⟨e, h, Encoding.exists_toDfa_iff.1 ⟨A, hA⟩, Encoding.listed_of_toDfa hA, Encoding.build_specs hA⟩
    · rintro ⟨e, h, hvalid, -, hbuild⟩
      obtain ⟨B, hB⟩ := Encoding.exists_toDfa_iff.2 hvalid
      obtain rfl : B = A := Except.ok.inj ((Encoding.build_specs hB).symm.trans hbuild)
      exact ⟨e, h, hB⟩

end Dfa
end ByteAutomata
