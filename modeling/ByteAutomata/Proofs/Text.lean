import ByteAutomata.Dfa.Printer

/-!
# The text of an automaton tells all of it

* `Readable item` : a printed item that a non-digit follows can be told from the rest of the text;
* `readable_decimal`, `Readable.bracketed` : numbers are readable, and brackets around readable items;
* `encode_injective` : the text determines rows, accepting states and start, and so
  `text_eq_iff` : two automata have one text exactly if these coincide.
-/

namespace ByteAutomata

set_option autoImplicit false

/-- The text goes on with something else than a digit. -/
def Ends (r : List Char) : Prop := ∃ c t, r = c :: t ∧ c.isDigit = false

theorem ends_cons {c : Char} (h : c.isDigit = false) (t : List Char) : Ends (c :: t) := ⟨c, t, rfl, h⟩

/-- Where a printed item ends does not depend on what is printed behind it. -/
def Readable {α : Type} (item : α → List Char) : Prop :=
  ∀ a b r s, Ends r → Ends s → item a ++ r = item b ++ s → a = b ∧ r = s

/-! ## Numbers -/

theorem isDigit_of_mem_decimal {n : Nat} {c : Char} (h : c ∈ decimal n) : c.isDigit = true :=
  Nat.isDigit_of_mem_toDigits (by decide) (by decide) h

theorem decimal_injective {m n : Nat} (h : decimal m = decimal n) : m = n := by
  have hm := Nat.ofDigitChars_toDigits (n := m) (show 1 < 10 by decide) (by decide)
  have hn := Nat.ofDigitChars_toDigits (n := n) (show 1 < 10 by decide) (by decide)
  unfold decimal at h
  rw [← hm, h, hn]

theorem takeWhile_decimal (n : Nat) {r : List Char} (h : Ends r) :
    (decimal n ++ r).takeWhile Char.isDigit = decimal n := by
  obtain ⟨c, t, rfl, hc⟩ := h
  rw [List.takeWhile_append_of_pos fun d hd => isDigit_of_mem_decimal hd, List.takeWhile_cons_of_neg, List.append_nil]
  rw [hc]
  exact Bool.false_ne_true

theorem readable_decimal : Readable decimal := by
  intro a b r s hr hs h
  have hdigits := congrArg (List.takeWhile Char.isDigit) h
  rw [takeWhile_decimal a hr, takeWhile_decimal b hs] at hdigits
  rw [hdigits] at h
  exact ⟨decimal_injective hdigits, List.append_cancel_left h⟩

theorem exists_decimal_cons (n : Nat) : ∃ c t, decimal n = c :: t ∧ c.isDigit = true := by
  obtain ⟨c, t, h⟩ := List.exists_cons_of_ne_nil (Nat.toDigits_ne_nil (n := n) (b := 10))
  exact ⟨c, t, h, isDigit_of_mem_decimal (h ▸ List.mem_cons_self)⟩

/-! ## Items between brackets -/

section Bracketed

variable {α : Type} {item : α → List Char} {left right : Char}

theorem bracketed_append (items : List (List Char)) (r : List Char) :
    bracketed left right items ++ r = left :: (List.intercalate [',', ' '] items ++ right :: r) := by
  unfold bracketed
  rw [List.cons_append, List.append_assoc, List.singleton_append]

theorem intercalate_cons_cons_append (x y : List Char) (items : List (List Char)) (r : List Char) :
    List.intercalate [',', ' '] (x :: y :: items) ++ r =
      x ++ ',' :: ' ' :: (List.intercalate [',', ' '] (y :: items) ++ r) := by
  rw [List.intercalate_cons_cons, List.append_assoc, List.append_assoc]
  rfl

/-- Items that do not start like the end are not taken for it. -/
theorem end_ne_intercalate (hstart : ∀ a, ∃ c t, item a = c :: t ∧ c ≠ right) (b : α) (bs : List α)
    (r s : List Char) : right :: r ≠ List.intercalate [',', ' '] (item b :: bs.map item) ++ s := by
  intro he
  obtain ⟨c, t, hc, hne⟩ := hstart b
  cases bs with
  | nil =>
    rw [List.map_nil, List.intercalate_singleton, hc] at he
    exact hne (List.cons.inj he).1.symm
  | cons b' bs =>
    rw [List.map_cons, intercalate_cons_cons_append, hc] at he
    exact hne (List.cons.inj he).1.symm

/-- What stands between brackets can be read if its items can, and none starts like the end. -/
theorem Readable.intercalate (h : Readable item) (hstart : ∀ a, ∃ c t, item a = c :: t ∧ c ≠ right)
    (hdigit : right.isDigit = false) (hcomma : right ≠ ',') {as bs : List α} {r s : List Char}
    (heq : List.intercalate [',', ' '] (as.map item) ++ right :: r =
      List.intercalate [',', ' '] (bs.map item) ++ right :: s) : as = bs ∧ r = s := by
  have hends : ∀ t, Ends (right :: t) := ends_cons hdigit
  have hcends : ∀ t, Ends (',' :: t) := ends_cons (by decide)
  induction as generalizing bs with
  | nil =>
    cases bs with
    | nil => exact ⟨rfl, (List.cons.inj heq).2⟩
    | cons b bs => exact absurd heq (end_ne_intercalate hstart b bs r _)
  | cons a as ih =>
    cases bs with
    | nil => exact absurd heq.symm (end_ne_intercalate hstart a as s _)
    | cons b bs =>
      simp only [List.map_cons] at heq ih
      cases as with
      | nil =>
        cases bs with
        | nil =>
          simp only [List.map_nil, List.intercalate_singleton] at heq
          obtain ⟨rfl, ht⟩ := h a b _ _ (hends r) (hends s) heq
          exact ⟨rfl, (List.cons.inj ht).2⟩
        | cons b' bs =>
          simp only [List.map_nil, List.map_cons, List.intercalate_singleton, intercalate_cons_cons_append] at heq
          exact absurd (List.cons.inj (h a b _ _ (hends r) (hcends _) heq).2).1 hcomma
      | cons a' as =>
        cases bs with
        | nil =>
          simp only [List.map_nil, List.map_cons, List.intercalate_singleton, intercalate_cons_cons_append] at heq
          exact absurd (List.cons.inj (h a b _ _ (hcends _) (hends s) heq).2).1.symm hcomma
        | cons b' bs =>
          simp only [List.map_cons, intercalate_cons_cons_append] at heq
          obtain ⟨rfl, ht⟩ := h a b _ _ (hcends _) (hcends _) heq
          obtain ⟨hrest, hrs⟩ := @ih (b' :: bs) (List.cons.inj (List.cons.inj ht).2).2
          exact ⟨by rw [hrest], hrs⟩

theorem Readable.bracketed (h : Readable item) (hstart : ∀ a, ∃ c t, item a = c :: t ∧ c ≠ right)
    (hdigit : right.isDigit = false) (hcomma : right ≠ ',') :
    Readable fun as : List α => ByteAutomata.bracketed left right (as.map item) := by
  intro as bs r s _ _ heq
  simp only [bracketed_append] at heq
  exact h.intercalate hstart hdigit hcomma (List.cons.inj heq).2

theorem readable_decimals (hdigit : right.isDigit = false) (hcomma : right ≠ ',') :
    Readable fun ns : List Nat => bracketed left right (ns.map decimal) := by
  refine readable_decimal.bracketed (fun n => ?_) hdigit hcomma
  obtain ⟨c, t, hc, hd⟩ := exists_decimal_cons n
  refine ⟨c, t, hc, ?_⟩
  rintro rfl
  rw [hdigit] at hd
  cases hd

end Bracketed

/-! ## Entries and automata -/

/-- The numbers that an entry shows. -/
def Run.numbers (r : Run Nat) : List Nat :=
  if r.lo = r.hi then [r.lo.toNat, r.value] else [r.lo.toNat, r.hi.toNat, r.value]

theorem Run.chars_eq (r : Run Nat) : r.chars = bracketed '(' ')' (r.numbers.map decimal) := by
  unfold Run.chars Run.numbers
  split <;> rfl

theorem Run.numbers_injective {r s : Run Nat} (h : r.numbers = s.numbers) : r = s := by
  obtain ⟨lo, hi, value, hle⟩ := r
  obtain ⟨lo', hi', value', hle'⟩ := s
  unfold Run.numbers at h
  simp only at h
  by_cases hr : lo = hi
  · by_cases hs : lo' = hi'
    · simp only [if_pos hr, if_pos hs, List.cons.injEq, UInt8.toNat_inj] at h
      obtain ⟨rfl, rfl, -⟩ := h
      subst hr
      subst hs
      rfl
    · rw [if_pos hr, if_neg hs] at h
      cases congrArg List.length h
  · by_cases hs : lo' = hi'
    · rw [if_neg hr, if_pos hs] at h
      cases congrArg List.length h
    · simp only [if_neg hr, if_neg hs, List.cons.injEq, UInt8.toNat_inj] at h
      obtain ⟨rfl, rfl, rfl, -⟩ := h
      rfl

theorem readable_run : Readable Run.chars := by
  intro r s t u ht hu h
  rw [Run.chars_eq, Run.chars_eq] at h
  obtain ⟨hn, hrest⟩ := readable_decimals (by decide) (by decide) _ _ _ _ ht hu h
  exact ⟨Run.numbers_injective hn, hrest⟩

theorem readable_row : Readable fun row : List (Run Nat) => bracketed '[' ']' (row.map Run.chars) := by
  refine readable_run.bracketed (fun r => ?_) (by decide) (by decide)
  exact ⟨'(', _, Run.chars_eq r, by decide⟩

theorem readable_rows :
    Readable fun rows : List (List (Run Nat)) =>
      bracketed '[' ']' (rows.map fun row => bracketed '[' ']' (row.map Run.chars)) :=
  readable_row.bracketed (fun _ => ⟨'[', _, rfl, by decide⟩) (by decide) (by decide)

/-- What is printed behind the accepting states tells the start state. -/
theorem start_injective {m n : Nat}
    (h : (if m = 0 then [] else ", start=".toList ++ decimal m) ++ [')'] =
      (if n = 0 then [] else ", start=".toList ++ decimal n) ++ [')']) : m = n := by
  have hlist : ", start=".toList = ',' :: " start=".toList := by decide
  have hcomma : ')' ≠ ',' := by decide
  by_cases hm : m = 0
  · by_cases hn : n = 0
    · rw [hm, hn]
    · rw [if_pos hm, if_neg hn, hlist] at h
      exact absurd (List.cons.inj h).1 hcomma
  · by_cases hn : n = 0
    · rw [if_neg hm, if_pos hn, hlist] at h
      exact absurd (List.cons.inj h).1.symm hcomma
    · rw [if_neg hm, if_neg hn, List.append_assoc, List.append_assoc] at h
      have hend : Ends [')'] := ends_cons (by decide) []
      exact (readable_decimal m n _ _ hend hend (List.append_cancel_left h)).1

namespace Dfa

theorem encode_injective {rows rows' : List (List (Run Nat))} {accepting accepting' : List Nat} {start start' : Nat}
    (h : encode rows accepting start = encode rows' accepting' start') :
    rows = rows' ∧ accepting = accepting' ∧ start = start' := by
  unfold encode at h
  simp only [List.append_assoc] at h
  have hcomma : ∀ t, Ends ([',', ' '] ++ t) := fun t => ends_cons (by decide) _
  have hlast : ∀ n, Ends ((if n = 0 then [] else ", start=".toList ++ decimal n) ++ [')']) := by
    intro n
    by_cases hn : n = 0
    · rw [if_pos hn]
      exact ends_cons (by decide) []
    · rw [if_neg hn]
      exact ends_cons (by decide) _
  obtain ⟨hrows, h⟩ := readable_rows _ _ _ _ (hcomma _) (hcomma _) (List.append_cancel_left h)
  obtain ⟨haccepting, h⟩ :=
    readable_decimals (by decide) (by decide) _ _ _ _ (hlast _) (hlast _) (List.append_cancel_left h)
  exact ⟨hrows, haccepting, start_injective h⟩

/-- Two automata have the same text exactly if rows, accepting states and start coincide. -/
theorem text_eq_iff (A B : Dfa) : A.text = B.text ↔
    A.rows = B.rows ∧ A.acceptingStates = B.acceptingStates ∧ A.start.val = B.start.val := by
  unfold text chars
  constructor
  · intro h
    exact encode_injective (String.ofList_injective h)
  · intro h
    obtain ⟨hrows, haccepting, hstart⟩ := h
    rw [hrows, haccepting, hstart]

end Dfa
end ByteAutomata
