import ByteAutomata.Proofs.Listing

/-!
# The grammar of automata

* `EntryText`, `RowText`, `StartText`, `EncodingText` : the grammar of the text behind the header;
* `reads_entry`, `reads_row`, `reads_rows`, `reads_accepting` : its lists, and `Cursor.start_append`,
  `Cursor.start_ok` : the start state behind them;
* `Encoding.read_eq` : the reader as a sequence of readers for the parts;
* `Encoding.read_of_encodingText`, `Encoding.encodingText_of_read` : exactly the texts of the grammar are read.
-/

namespace ByteAutomata

set_option autoImplicit false

/-! ## Entries -/

/-- The numbers that an entry of the run may show; one byte may also be written as a range. -/
def Run.ShownBy (r : Run Nat) (ns : List Nat) : Prop :=
  r.lo = r.hi ∧ ns = [r.lo.toNat, r.value] ∨ ns = [r.lo.toNat, r.hi.toNat, r.value]

def EntryText (s : List Char) (r : Run Nat) : Prop := ∃ ns, ListText '(' ')' StateText s ns ∧ r.ShownBy ns

theorem byte_eq_ok_iff {p n : Nat} {b : UInt8} : Cursor.byte p n = .ok b ↔ n = b.toNat := by
  unfold Cursor.byte
  split
  next h =>
    rw [Except.ok.injEq]
    constructor
    · rintro rfl
      exact (Nat.mod_eq_of_lt h).symm
    · rintro rfl
      exact UInt8.ofNat_toNat
  next h =>
    have hlt := b.toNat_lt
    simp only [reduceCtorEq, false_iff]
    omega

theorem reads_numbers : Reads (Cursor.list '(' ')' Cursor.state) (ListText '(' ')' StateText) :=
  reads_state.list (startsOther_stateText (by decide)) ⟨by decide, by decide, by decide, by decide⟩

theorem reads_entry : Reads Cursor.entry EntryText := by
  constructor
  · rintro b s r rest p hb ⟨ns, hs, hshown⟩ hrest
    obtain ⟨p', hlist⟩ := reads_numbers.complete p hb hs hrest
    refine ⟨p', ?_⟩
    unfold Cursor.entry
    refine bind_eq_ok_iff.2 ⟨_, hlist, ?_⟩
    rcases hshown with ⟨hsingle, rfl⟩ | rfl
    · refine bind_eq_ok_iff.2 ⟨r.lo, byte_eq_ok_iff.2 rfl, ?_⟩
      obtain ⟨lo, hi, value, hle⟩ := r
      obtain rfl : lo = hi := hsingle
      rfl
    · refine bind_eq_ok_iff.2 ⟨r.lo, byte_eq_ok_iff.2 rfl, bind_eq_ok_iff.2 ⟨r.hi, byte_eq_ok_iff.2 rfl, ?_⟩⟩
      rw [dif_pos r.lo_le_hi]
      rfl
  · intro c r c' h
    unfold Cursor.entry at h
    obtain ⟨⟨ns, d⟩, hlist, h⟩ := bind_eq_ok_iff.1 h
    obtain ⟨b, s, hb, hs, hc⟩ := reads_numbers.sound hlist
    dsimp only at h
    split at h
    next byte target =>
      obtain ⟨lo, hlo, hpure⟩ := bind_eq_ok_iff.1 h
      cases hpure
      obtain rfl := byte_eq_ok_iff.1 hlo
      exact ⟨b, s, hb, ⟨_, hs, .inl ⟨rfl, rfl⟩⟩, hc⟩
    next first last target =>
      obtain ⟨lo, hlo, h⟩ := bind_eq_ok_iff.1 h
      obtain ⟨hi, hhi, h⟩ := bind_eq_ok_iff.1 h
      by_cases hle : lo ≤ hi
      · rw [dif_pos hle] at h
        cases h
        exact ⟨b, s, hb, ⟨_, hs, .inr (by rw [byte_eq_ok_iff.1 hlo, byte_eq_ok_iff.1 hhi])⟩, hc⟩
      · rw [dif_neg hle] at h
        cases h
    next => cases h

/-! ## Rows -/

def RowText : List Char → List (Run Nat) → Prop := ListText '[' ']' EntryText

theorem startsOther_entryText {other : Char} (h : '(' ≠ other) : StartsOther EntryText other := by
  rintro s r ⟨ns, hs, -⟩
  exact startsOther_listText (by decide) h s ns hs

theorem reads_row : Reads (Cursor.list '[' ']' Cursor.entry) RowText :=
  reads_entry.list (startsOther_entryText (by decide)) ⟨by decide, by decide, by decide, by decide⟩

theorem reads_rows : Reads (Cursor.list '[' ']' (Cursor.list '[' ']' Cursor.entry)) (ListText '[' ']' RowText) :=
  reads_row.list (startsOther_listText (by decide) (by decide)) ⟨by decide, by decide, by decide, by decide⟩

theorem reads_accepting : Reads (Cursor.list '\x7b' '\x7d' Cursor.state) (ListText '\x7b' '\x7d' StateText) :=
  reads_state.list (startsOther_stateText (by decide)) ⟨by decide, by decide, by decide, by decide⟩

/-! ## The start state -/

/-- Symbols one after the other, each behind blanks. -/
inductive SymbolsText : List Char → List Char → Prop
  | nil : SymbolsText [] []
  | cons {c : Char} {cs b t : List Char} (blanks : Blanks b) (rest : SymbolsText cs t) :
    SymbolsText (c :: cs) (b ++ c :: t)

namespace Cursor

theorem expectAll_append {cs t : List Char} (ht : SymbolsText cs t) (hcs : ∀ c ∈ cs, isAsciiBlank c = false)
    (r : List Char) (p : Nat) : ∃ p', expectAll cs ⟨t ++ r, p⟩ = .ok ⟨r, p'⟩ := by
  induction ht generalizing p with
  | nil => exact ⟨p, rfl⟩
  | @cons c cs b t hb rest ih =>
    obtain ⟨hc, hcs⟩ := List.forall_mem_cons.1 hcs
    obtain ⟨p₁, hexpect⟩ := expect_self (t := t ++ r) hb hc p
    obtain ⟨p₂, hrest⟩ := ih hcs p₁
    refine ⟨p₂, ?_⟩
    unfold expectAll
    rw [List.foldlM_cons, List.append_assoc, List.cons_append]
    exact bind_eq_ok_iff.2 ⟨_, hexpect, hrest⟩

theorem expectAll_ok {cs : List Char} {c c' : Cursor} (h : c.expectAll cs = .ok c') :
    ∃ t, SymbolsText cs t ∧ c.rest = t ++ c'.rest := by
  induction cs generalizing c with
  | nil =>
    cases h
    exact ⟨[], .nil, rfl⟩
  | cons d cs ih =>
    unfold expectAll at h
    rw [List.foldlM_cons] at h
    obtain ⟨e, hexpect, hrest⟩ := bind_eq_ok_iff.1 h
    obtain ⟨b, hb, hc⟩ := expect_ok hexpect
    obtain ⟨t, ht, he⟩ := ih hrest
    exact ⟨_, .cons hb ht, by simp [hc, he]⟩

end Cursor

/-- What tells the start state: nothing for the first state, or `, start=q`, with blanks anywhere. -/
inductive StartText : List Char → Nat → Prop
  | first : StartText [] 0
  | given {b t b' s : List Char} {q : Nat} (before : Blanks b) (keyword : SymbolsText "start=".toList t)
    (behind : Blanks b') (state : StateText s q) : StartText (b ++ ',' :: (t ++ (b' ++ s))) q

theorem StartText.ends {u : List Char} {q : Nat} (hu : StartText u q) {b : List Char} (hb : Blanks b)
    (r : List Char) : Ends (u ++ (b ++ ')' :: r)) := by
  cases hu with
  | first => exact hb.ends (by decide) r
  | given before keyword behind state =>
    rw [List.append_assoc]
    exact before.ends (by decide) _

namespace Cursor

/-- Reads what tells the start state. -/
def start : Reader Nat := fun c =>
  match c.eat ',' with
  | (true, c) => c.expectAll "start=".toList >>= state
  | (false, c) => .ok (0, c)

/-- Reads the closing bracket, behind which only blanks are allowed. -/
def finish (c : Cursor) : Except ParseError Unit := do
  let c ← c.expect ')'
  if c.skipBlanks.rest = [] then return () else throw (.trailingInput c.skipBlanks.position)

theorem start_append {u b : List Char} {q : Nat} (hu : StartText u q) (hb : Blanks b) (r : List Char) (p : Nat) :
    ∃ b' p', Blanks b' ∧ start ⟨u ++ (b ++ ')' :: r), p⟩ = .ok (q, ⟨b' ++ ')' :: r, p'⟩) := by
  cases hu with
  | first =>
    obtain ⟨p', heat⟩ := eat_other (t := r) hb (by decide) (show ')' ≠ ',' by decide) p
    exact ⟨[], p', blanks_nil, by simp [start, heat]⟩
  | @given b₁ t b₂ s q hb₁ ht hb₂ hs =>
    have hcomma : isAsciiBlank ',' = false := by decide
    obtain ⟨p₁, heat⟩ := eat_self (t := t ++ (b₂ ++ (s ++ (b ++ ')' :: r)))) hb₁ hcomma p
    have hletters : ∀ c ∈ "start=".toList, isAsciiBlank c = false := by simp [isAsciiBlank]
    obtain ⟨p₂, hkeyword⟩ := expectAll_append ht hletters (b₂ ++ (s ++ (b ++ ')' :: r))) p₁
    obtain ⟨p₃, hstate⟩ := reads_state.complete p₂ hb₂ hs (hb.ends (c := ')') (by decide) r)
    refine ⟨b, p₃, hb, ?_⟩
    simp only [start, List.append_assoc, List.cons_append, heat]
    exact bind_eq_ok_iff.2 ⟨_, hkeyword, hstate⟩

theorem start_ok {c c' : Cursor} {q : Nat} (h : c.start = .ok (q, c')) :
    ∃ u b, StartText u q ∧ Blanks b ∧ c.rest = u ++ (b ++ c'.rest) := by
  unfold start at h
  split at h
  next d heat =>
    obtain ⟨e, hkeyword, hstate⟩ := bind_eq_ok_iff.1 h
    obtain ⟨b₁, hb₁, hc⟩ := eat_true heat
    obtain ⟨t, ht, hd⟩ := expectAll_ok hkeyword
    obtain ⟨b₂, s, hb₂, hs, he⟩ := reads_state.sound hstate
    exact ⟨_, [], .given hb₁ ht hb₂ hs, blanks_nil, by simp [hc, hd, he]⟩
  next d heat =>
    cases h
    obtain ⟨b, hb, hc⟩ := eat_false heat
    exact ⟨[], b, .first, hb, hc⟩

theorem finish_eq_ok_iff {c : Cursor} :
    c.finish = .ok () ↔ ∃ b b', Blanks b ∧ Blanks b' ∧ c.rest = b ++ ')' :: b' := by
  unfold finish
  rw [bind_eq_ok_iff]
  have hlast : ∀ d : Cursor, d.skipBlanks.rest = [] ↔ Blanks d.rest := by simp [rest_skipBlanks, Blanks]
  constructor
  · rintro ⟨d, hexpect, hend⟩
    obtain ⟨b, hb, hc⟩ := expect_ok hexpect
    refine ⟨b, d.rest, hb, ?_, hc⟩
    by_contra hblanks
    rw [if_neg (mt (hlast d).1 hblanks)] at hend
    cases hend
  · rintro ⟨b, b', hb, hb', hc⟩
    obtain ⟨rest, p⟩ := c
    obtain rfl : rest = _ := hc
    obtain ⟨p', hexpect⟩ := expect_self (t := b') hb (show isAsciiBlank ')' = false by decide) p
    exact ⟨_, hexpect, if_pos ((hlast _).2 hb')⟩

end Cursor

/-! ## Whole texts -/

/-- The text behind the header, with blanks anywhere but within numbers. -/
inductive EncodingText (e : Encoding) : List Char → Prop
  | mk {b₁ b₂ b₃ b₄ b₅ s t u : List Char} (blanks₁ : Blanks b₁) (rows : ListText '[' ']' RowText s e.rows)
    (blanks₂ : Blanks b₂) (blanks₃ : Blanks b₃) (accepting : ListText '\x7b' '\x7d' StateText t e.accepting)
    (start : StartText u e.start) (blanks₄ : Blanks b₄) (blanks₅ : Blanks b₅) :
    EncodingText e (b₁ ++ (s ++ (b₂ ++ ',' :: (b₃ ++ (t ++ (u ++ (b₄ ++ ')' :: b₅)))))))

namespace Encoding

theorem read_eq (s : List Char) : read s = do
    let (rows, c) ← Cursor.list '[' ']' (Cursor.list '[' ']' Cursor.entry) ⟨s, 0⟩
    let c ← c.expect ','
    let (accepting, c) ← c.list '\x7b' '\x7d' Cursor.state
    let (start, c) ← c.start
    c.finish
    return ⟨rows, accepting, start⟩ := by
  unfold read
  refine bind_congr fun ⟨rows, c⟩ => bind_congr fun c => bind_congr fun ⟨accepting, c⟩ => ?_
  have hfinish : ∀ (start : Nat) (c : Cursor), (do
      let c ← c.expect ')'
      if c.skipBlanks.rest = [] then pure ⟨rows, accepting, start⟩
      else throw (.trailingInput c.skipBlanks.position)) = do
      c.finish
      return (⟨rows, accepting, start⟩ : Encoding) := by
    intro start c
    unfold Cursor.finish
    rw [bind_assoc]
    refine bind_congr fun c => ?_
    split <;> rfl
  unfold Cursor.start
  dsimp only
  generalize c.eat ',' = eaten
  obtain ⟨_ | _, c⟩ := eaten
  · exact hfinish 0 c
  · rw [bind_assoc]
    exact bind_congr fun c => bind_congr fun start => hfinish start.1 start.2

theorem read_of_encodingText {e : Encoding} {s : List Char} (h : EncodingText e s) : read s = .ok e := by
  obtain ⟨hb₁, hrows, hb₂, hb₃, haccepting, hstart, hb₄, hb₅⟩ := h
  rename_i b₁ b₂ b₃ b₄ b₅ s t u
  have hcomma : isAsciiBlank ',' = false := by decide
  have hrest : Ends (b₂ ++ ',' :: (b₃ ++ (t ++ (u ++ (b₄ ++ ')' :: b₅))))) := hb₂.ends (by decide) _
  obtain ⟨p₁, hrows⟩ := reads_rows.complete 0 hb₁ hrows hrest
  obtain ⟨p₂, hexpect⟩ := Cursor.expect_self (t := b₃ ++ (t ++ (u ++ (b₄ ++ ')' :: b₅)))) hb₂ hcomma p₁
  obtain ⟨p₃, haccepting⟩ := reads_accepting.complete p₂ hb₃ haccepting (hstart.ends hb₄ b₅)
  obtain ⟨b₆, p₄, hb₆, hstart⟩ := Cursor.start_append hstart hb₄ b₅ p₃
  rw [read_eq]
  refine bind_eq_ok_iff.2 ⟨_, hrows, bind_eq_ok_iff.2 ⟨_, hexpect, bind_eq_ok_iff.2 ⟨_, haccepting, ?_⟩⟩⟩
  exact bind_eq_ok_iff.2 ⟨_, hstart, bind_eq_ok_iff.2 ⟨(), Cursor.finish_eq_ok_iff.2 ⟨b₆, b₅, hb₆, hb₅, rfl⟩, rfl⟩⟩

theorem encodingText_of_read {e : Encoding} {s : List Char} (h : read s = .ok e) : EncodingText e s := by
  rw [read_eq] at h
  obtain ⟨⟨rows, c₁⟩, hrows, h⟩ := bind_eq_ok_iff.1 h
  obtain ⟨c₂, hcomma, h⟩ := bind_eq_ok_iff.1 h
  obtain ⟨⟨accepting, c₃⟩, haccepting, h⟩ := bind_eq_ok_iff.1 h
  obtain ⟨⟨start, c₄⟩, hstart, h⟩ := bind_eq_ok_iff.1 h
  obtain ⟨⟨⟩, hfinish, h⟩ := bind_eq_ok_iff.1 h
  cases h
  obtain ⟨b₁, t₁, hb₁, ht₁, hs⟩ := reads_rows.sound hrows
  obtain ⟨b₂, hb₂, hc₁⟩ := Cursor.expect_ok hcomma
  obtain ⟨b₃, t₂, hb₃, ht₂, hc₂⟩ := reads_accepting.sound haccepting
  obtain ⟨u, b₄, hu, hb₄, hc₃⟩ := Cursor.start_ok hstart
  obtain ⟨b₅, b₆, hb₅, hb₆, hc₄⟩ := Cursor.finish_eq_ok_iff.1 hfinish
  obtain rfl : s = _ := hs
  rw [hc₁, hc₂, hc₃, hc₄, ← List.append_assoc b₄]
  exact .mk hb₁ ht₁ hb₂ hb₃ ht₂ hu (hb₄.append hb₅) hb₆

end Encoding

end ByteAutomata
