import ByteAutomata.Dfa.Parser
import ByteAutomata.Proofs.Text
import Mathlib.Data.List.TakeWhile

/-!
# The grammar of readers

* `Blanks` : texts of ASCII blanks;
* `Reads R G` : the reader `R` accepts exactly the texts of the grammar `G`, behind blanks and whatever
  follows, and gives what they stand for;
* `StateText`, `ItemsText`, `ListText` : states and lists between brackets, with `reads_state` and
  `Reads.list` for their readers;
* `listText_bracketed` : what the printer puts between brackets is a list.
-/

namespace ByteAutomata

set_option autoImplicit false

/-! ## Blanks -/

def Blanks (s : List Char) : Prop := ∀ c ∈ s, isAsciiBlank c = true

theorem blanks_nil : Blanks [] := by simp [Blanks]

theorem blanks_space : Blanks [' '] := by simp [Blanks, isAsciiBlank]

theorem not_isDigit_of_isAsciiBlank {c : Char} (h : isAsciiBlank c = true) : c.isDigit = false := by
  simp only [isAsciiBlank, Bool.or_eq_true, beq_iff_eq, or_assoc] at h
  rcases h with rfl | rfl | rfl | rfl | rfl <;> decide

theorem not_isAsciiBlank_of_isDigit {c : Char} (h : c.isDigit = true) : isAsciiBlank c = false := by
  by_contra hblank
  simp [not_isDigit_of_isAsciiBlank (Bool.not_eq_false _ ▸ hblank)] at h

/-- A number ends where blanks and then something else than a digit follow. -/
theorem Blanks.ends {b : List Char} {c : Char} (hb : Blanks b) (hc : c.isDigit = false) (t : List Char) :
    Ends (b ++ c :: t) := by
  cases b with
  | nil => exact ends_cons hc t
  | cons d b => exact ends_cons (not_isDigit_of_isAsciiBlank (hb d (by simp))) _

theorem drop_length_takeWhile {α : Type} (p : α → Bool) (l : List α) :
    l.drop (l.takeWhile p).length = l.dropWhile p := by
  induction l with
  | nil => rfl
  | cons a l ih => by_cases h : p a <;> simp [h, ih]

theorem bind_eq_ok_iff {ε α β : Type} {x : Except ε α} {f : α → Except ε β} {b : β} :
    x >>= f = .ok b ↔ ∃ a, x = .ok a ∧ f a = .ok b := by
  cases x <;> simp [bind, Except.bind]

/-! ## Symbols -/

namespace Cursor

theorem rest_skipBlanks (c : Cursor) : c.skipBlanks.rest = c.rest.dropWhile isAsciiBlank :=
  drop_length_takeWhile isAsciiBlank c.rest

theorem skipBlanks_append {b t : List Char} {d : Char} (hb : Blanks b) (hd : isAsciiBlank d = false) (p : Nat) :
    ∃ p', skipBlanks ⟨b ++ d :: t, p⟩ = ⟨d :: t, p'⟩ := by
  have h := rest_skipBlanks ⟨b ++ d :: t, p⟩
  rw [List.dropWhile_append_of_pos hb, List.dropWhile_cons_of_neg (by simp [hd])] at h
  generalize skipBlanks ⟨b ++ d :: t, p⟩ = c at h ⊢
  exact ⟨c.position, by rw [← h]⟩

theorem skipBlanks_spec (c : Cursor) : ∃ b, Blanks b ∧ c.rest = b ++ c.skipBlanks.rest := by
  refine ⟨c.rest.takeWhile isAsciiBlank, fun d hd => List.mem_takeWhile_imp hd, ?_⟩
  rw [rest_skipBlanks, List.takeWhile_append_dropWhile]

variable {char : Char} {b t : List Char} {c c' : Cursor}

theorem eat_self (hb : Blanks b) (hchar : isAsciiBlank char = false) (p : Nat) :
    ∃ p', eat char ⟨b ++ char :: t, p⟩ = (true, ⟨t, p'⟩) := by
  obtain ⟨p', h⟩ := skipBlanks_append (t := t) hb hchar p
  exact ⟨p' + 1, by simp [eat, h, drop]⟩

theorem eat_other {d : Char} (hb : Blanks b) (hd : isAsciiBlank d = false) (hne : d ≠ char) (p : Nat) :
    ∃ p', eat char ⟨b ++ d :: t, p⟩ = (false, ⟨d :: t, p'⟩) := by
  obtain ⟨p', h⟩ := skipBlanks_append (t := t) hb hd p
  exact ⟨p', by simp [eat, h, hne]⟩

theorem eat_true (h : eat char c = (true, c')) : ∃ b, Blanks b ∧ c.rest = b ++ char :: c'.rest := by
  obtain ⟨b, hb, hrest⟩ := c.skipBlanks_spec
  refine ⟨b, hb, ?_⟩
  unfold eat at h
  dsimp only at h
  split at h
  next hhead =>
    obtain ⟨u, hu⟩ := List.head?_eq_some_iff.1 hhead
    simp only [Prod.mk.injEq, true_and] at h
    simp [hrest, ← h, drop, hu]
  next => simp at h

theorem eat_false (h : eat char c = (false, c')) : ∃ b, Blanks b ∧ c.rest = b ++ c'.rest := by
  unfold eat at h
  dsimp only at h
  split at h
  next => simp at h
  next =>
    simp only [Prod.mk.injEq, true_and] at h
    exact h ▸ c.skipBlanks_spec

theorem expect_self (hb : Blanks b) (hchar : isAsciiBlank char = false) (p : Nat) :
    ∃ p', expect char ⟨b ++ char :: t, p⟩ = .ok ⟨t, p'⟩ := by
  obtain ⟨p', h⟩ := eat_self (t := t) hb hchar p
  exact ⟨p', by rw [expect, h]⟩

theorem expect_ok (h : expect char c = .ok c') : ∃ b, Blanks b ∧ c.rest = b ++ char :: c'.rest := by
  unfold expect at h
  split at h
  next heat =>
    cases h
    exact eat_true heat
  next => cases h

end Cursor

theorem Blanks.append {a b : List Char} (ha : Blanks a) (hb : Blanks b) : Blanks (a ++ b) :=
  List.forall_mem_append.2 ⟨ha, hb⟩

/-! ## Readers and their grammars -/

section Reads

variable {α : Type}

/-- A reader accepts exactly the texts of a grammar, behind blanks and before something else than a digit. -/
structure Reads (R : Reader α) (G : List Char → α → Prop) : Prop where
  complete : ∀ {b s : List Char} {a : α} {r : List Char} (p : Nat), Blanks b → G s a → Ends r →
    ∃ p', R ⟨b ++ (s ++ r), p⟩ = .ok (a, ⟨r, p'⟩)
  sound : ∀ {c : Cursor} {a : α} {c' : Cursor}, R c = .ok (a, c') →
    ∃ b s, Blanks b ∧ G s a ∧ c.rest = b ++ (s ++ c'.rest)

/-- The texts of a grammar start with something that is neither a blank nor the given character. -/
def StartsOther (G : List Char → α → Prop) (close : Char) : Prop :=
  ∀ s a, G s a → ∃ d t, s = d :: t ∧ isAsciiBlank d = false ∧ d ≠ close

end Reads

/-! ### States -/

/-- The digits of a number that may be that of a state. -/
structure StateText (s : List Char) (n : Nat) : Prop where
  nonempty : s ≠ []
  digits : ∀ c ∈ s, c.isDigit = true
  value : n = Nat.ofDigitChars 10 s 0
  bound : n < StateRef.sinkNumber

theorem stateText_decimal {n : Nat} (h : n < StateRef.sinkNumber) : StateText (decimal n) n :=
  ⟨Nat.toDigits_ne_nil, fun _ hc => isDigit_of_mem_decimal hc,
    (Nat.ofDigitChars_toDigits (by decide) (by decide)).symm, h⟩

theorem StateText.exists_cons {s : List Char} {n : Nat} (h : StateText s n) :
    ∃ d t, s = d :: t ∧ d.isDigit = true := by
  obtain ⟨d, t, rfl⟩ := List.exists_cons_of_ne_nil h.nonempty
  exact ⟨d, t, rfl, h.digits d (by simp)⟩

theorem startsOther_stateText {close : Char} (h : close.isDigit = false) : StartsOther StateText close := by
  intro s n hs
  obtain ⟨d, t, rfl, hd⟩ := hs.exists_cons
  refine ⟨d, t, rfl, not_isAsciiBlank_of_isDigit hd, ?_⟩
  rintro rfl
  simp [h] at hd

theorem takeWhile_isDigit {s r : List Char} (hs : ∀ c ∈ s, c.isDigit = true) (hr : Ends r) :
    (s ++ r).takeWhile Char.isDigit = s := by
  obtain ⟨c, t, rfl, hc⟩ := hr
  simp [List.takeWhile_append_of_pos hs, hc]

theorem Cursor.number_append {b s r : List Char} {n : Nat} (p : Nat) (hb : Blanks b) (hs : StateText s n)
    (hr : Ends r) : ∃ p', Cursor.number ⟨b ++ (s ++ r), p⟩ = .ok (n, ⟨r, p'⟩) := by
  obtain ⟨d, t, rfl, hd⟩ := hs.exists_cons
  obtain ⟨p', hskip⟩ := Cursor.skipBlanks_append (t := t ++ r) hb (not_isAsciiBlank_of_isDigit hd) p
  have hlimit : n < Cursor.numberLimit := Nat.lt_trans hs.bound (by decide)
  refine ⟨p' + (d :: t).length, ?_⟩
  simp only [Cursor.number, List.cons_append, hskip]
  rw [← List.cons_append, takeWhile_isDigit hs.digits hr, ← hs.value, if_neg (by simp), if_pos hlimit]
  simp [Cursor.drop]

theorem Cursor.number_ok {c c' : Cursor} {n : Nat} (h : c.number = .ok (n, c')) :
    ∃ b s, Blanks b ∧ s ≠ [] ∧ (∀ d ∈ s, d.isDigit = true) ∧ n = Nat.ofDigitChars 10 s 0 ∧
      c.rest = b ++ (s ++ c'.rest) := by
  obtain ⟨b, hb, hc⟩ := c.skipBlanks_spec
  unfold Cursor.number at h
  dsimp only at h
  split at h
  next => cases h
  next hne =>
    split at h
    next =>
      cases h
      refine ⟨b, _, hb, hne, fun d hd => List.mem_takeWhile_imp hd, rfl, ?_⟩
      rw [hc]
      simp [Cursor.drop, drop_length_takeWhile]
    next => cases h

theorem reads_state : Reads Cursor.state StateText := by
  constructor
  · intro b s n r p hb hs hr
    obtain ⟨p', hnumber⟩ := Cursor.number_append p hb hs hr
    refine ⟨p', ?_⟩
    unfold Cursor.state
    refine bind_eq_ok_iff.2 ⟨_, hnumber, ?_⟩
    simp [hs.bound, pure, Except.pure]
  · intro c n c' h
    unfold Cursor.state at h
    obtain ⟨⟨m, d⟩, hnumber, hstate⟩ := bind_eq_ok_iff.1 h
    dsimp only at hstate
    split at hstate
    next hlt =>
      cases hstate
      obtain ⟨b, s, hb, hne, hdigits, rfl, hrest⟩ := Cursor.number_ok hnumber
      exact ⟨b, s, hb, ⟨hne, hdigits, rfl, hlt⟩, hrest⟩
    next => cases hstate

/-! ### Lists -/

section Lists

variable {α : Type}

/-- One or more items with commas between them and `close` at the end, with blanks anywhere. -/
inductive ItemsText (close : Char) (G : List Char → α → Prop) : List Char → List α → Prop
  | last {s b : List Char} {a : α} (item : G s a) (blanks : Blanks b) :
    ItemsText close G (s ++ (b ++ [close])) [a]
  | next {s b b' t : List Char} {a : α} {as : List α} (item : G s a) (before : Blanks b) (behind : Blanks b')
    (rest : ItemsText close G t as) : ItemsText close G (s ++ (b ++ ',' :: (b' ++ t))) (a :: as)

/-- A list between brackets, with blanks anywhere. -/
inductive ListText (left close : Char) (G : List Char → α → Prop) : List Char → List α → Prop
  | nil {b : List Char} (blanks : Blanks b) : ListText left close G (left :: (b ++ [close])) []
  | items {b t : List Char} {as : List α} (blanks : Blanks b) (items : ItemsText close G t as) :
    ListText left close G (left :: (b ++ t)) as

variable {R : Reader α} {G : List Char → α → Prop} {left close : Char}

theorem ItemsText.length_le {t : List Char} {as : List α} (h : ItemsText close G t as) : as.length ≤ t.length := by
  induction h with
  | last =>
    simp only [List.length_append, List.length_cons]
    omega
  | next item before behind rest ih =>
    simp only [List.length_append, List.length_cons]
    omega

theorem ItemsText.exists_item {t : List Char} {as : List α} (h : ItemsText close G t as) : ∀ a ∈ as, ∃ s, G s a := by
  induction h with
  | last item => exact fun a ha => ⟨_, List.mem_singleton.1 ha ▸ item⟩
  | next item before behind rest ih => exact List.forall_mem_cons.2 ⟨⟨_, item⟩, ih⟩

/-- What is in a list has a text of its own. -/
theorem ListText.exists_item {t : List Char} {as : List α} (h : ListText left close G t as) : ∀ a ∈ as, ∃ s, G s a := by
  cases h with
  | nil => simp
  | items blanks items => exact items.exists_item

/-- The characters around the items of a list. -/
structure Brackets (left close : Char) : Prop where
  left_blank : isAsciiBlank left = false
  close_blank : isAsciiBlank close = false
  close_digit : close.isDigit = false
  close_comma : close ≠ ','

theorem Reads.items_complete (h : Reads R G) (hbrackets : Brackets left close) {t : List Char} {as : List α}
    (ht : ItemsText close G t as) {b r : List Char} (hb : Blanks b) {fuel : Nat} (hfuel : as.length ≤ fuel) (p : Nat) :
    ∃ p', Cursor.items close R fuel ⟨b ++ (t ++ r), p⟩ = .ok (as, ⟨r, p'⟩) := by
  induction ht generalizing b fuel p with
  | @last s b' a item hb' =>
    obtain ⟨fuel, rfl⟩ : ∃ k, fuel = k + 1 := ⟨fuel - 1, by simp at hfuel; omega⟩
    obtain ⟨p₁, hitem⟩ := h.complete p hb item (hb'.ends hbrackets.close_digit r)
    obtain ⟨p₂, heat⟩ := Cursor.eat_self (t := r) hb' hbrackets.close_blank p₁
    refine ⟨p₂, ?_⟩
    unfold Cursor.items
    refine bind_eq_ok_iff.2 ⟨_, by simpa using hitem, ?_⟩
    simp [heat, pure, Except.pure]
  | @next s b₁ b₂ t a as item hb₁ hb₂ rest ih =>
    obtain ⟨fuel, rfl⟩ : ∃ k, fuel = k + 1 := ⟨fuel - 1, by simp at hfuel; omega⟩
    have hcomma : isAsciiBlank ',' = false := by decide
    obtain ⟨p₁, hitem⟩ := h.complete p hb item (hb₁.ends (c := ',') (by decide) (b₂ ++ (t ++ r)))
    obtain ⟨p₂, heat⟩ := Cursor.eat_other (t := b₂ ++ (t ++ r)) hb₁ hcomma hbrackets.close_comma.symm p₁
    obtain ⟨p₃, hexpect⟩ := Cursor.expect_self (t := b₂ ++ (t ++ r)) blanks_nil hcomma p₂
    obtain ⟨p₄, hrest⟩ := ih hb₂ (by simpa using hfuel) p₃
    refine ⟨p₄, ?_⟩
    unfold Cursor.items
    refine bind_eq_ok_iff.2 ⟨_, by simpa using hitem, ?_⟩
    simp only [heat]
    refine bind_eq_ok_iff.2 ⟨_, hexpect, bind_eq_ok_iff.2 ⟨_, hrest, rfl⟩⟩

theorem Reads.items_sound (h : Reads R G) {fuel : Nat} {c c' : Cursor} {as : List α}
    (hitems : Cursor.items close R fuel c = .ok (as, c')) :
    ∃ b t, Blanks b ∧ ItemsText close G t as ∧ c.rest = b ++ (t ++ c'.rest) := by
  induction fuel generalizing c as with
  | zero => cases hitems
  | succ fuel ih =>
    unfold Cursor.items at hitems
    obtain ⟨⟨a, d⟩, hitem, hitems⟩ := bind_eq_ok_iff.1 hitems
    obtain ⟨b, s, hb, hs, hc⟩ := h.sound hitem
    dsimp only at hitems
    split at hitems
    next e heat =>
      cases hitems
      obtain ⟨b', hb', hd⟩ := Cursor.eat_true heat
      exact ⟨b, _, hb, .last hs hb', by simp [hc, hd]⟩
    next e heat =>
      obtain ⟨f, hexpect, hitems⟩ := bind_eq_ok_iff.1 hitems
      obtain ⟨⟨as', g⟩, hrest, hpure⟩ := bind_eq_ok_iff.1 hitems
      cases hpure
      obtain ⟨b₁, hb₁, hd⟩ := Cursor.eat_false heat
      obtain ⟨b₂, hb₂, he⟩ := Cursor.expect_ok hexpect
      obtain ⟨b₃, t, hb₃, ht, hf⟩ := ih hrest
      exact ⟨b, _, hb, .next hs (hb₁.append hb₂) hb₃ ht, by simp [hc, hd, he, hf]⟩

/-- The reader of a list accepts what its items' reader accepts, between brackets. -/
theorem Reads.list (h : Reads R G) (hstart : StartsOther G close) (hbrackets : Brackets left close) :
    Reads (Cursor.list left close R) (ListText left close G) := by
  constructor
  · intro b s as r p hb hs _
    cases hs with
    | @nil b' hb' =>
      obtain ⟨p₁, hexpect⟩ := Cursor.expect_self (t := b' ++ close :: r) hb hbrackets.left_blank p
      obtain ⟨p₂, heat⟩ := Cursor.eat_self (t := r) hb' hbrackets.close_blank p₁
      refine ⟨p₂, bind_eq_ok_iff.2 ⟨_, by simpa using hexpect, ?_⟩⟩
      simp [heat, pure, Except.pure]
    | @items b' t as hb' ht =>
      obtain ⟨d, u, hu, hd, hne⟩ : ∃ d u, t = d :: u ∧ isAsciiBlank d = false ∧ d ≠ close := by
        cases ht with
        | last item _ | next item _ _ _ =>
          obtain ⟨d, u, rfl, hd, hne⟩ := hstart _ _ item
          exact ⟨d, _, rfl, hd, hne⟩
      obtain ⟨p₁, hexpect⟩ := Cursor.expect_self (t := b' ++ (t ++ r)) hb hbrackets.left_blank p
      obtain ⟨p₂, heat⟩ := Cursor.eat_other (t := u ++ r) hb' hd hne p₁
      have hfuel : as.length ≤ (t ++ r).length + 1 := by
        have hlength := ht.length_le
        simp only [List.length_append]
        omega
      obtain ⟨p₃, hitems⟩ := h.items_complete hbrackets ht (r := r) blanks_nil hfuel p₂
      refine ⟨p₃, bind_eq_ok_iff.2 ⟨_, by simpa using hexpect, ?_⟩⟩
      rw [← List.cons_append, ← hu] at heat
      simp only [heat]
      exact hitems
  · intro c as c' hlist
    unfold Cursor.list at hlist
    obtain ⟨d, hexpect, hlist⟩ := bind_eq_ok_iff.1 hlist
    obtain ⟨b, hb, hc⟩ := Cursor.expect_ok hexpect
    split at hlist
    next e heat =>
      cases hlist
      obtain ⟨b', hb', hd⟩ := Cursor.eat_true heat
      exact ⟨b, _, hb, .nil hb', by simp [hc, hd]⟩
    next e heat =>
      obtain ⟨b₁, hb₁, hd⟩ := Cursor.eat_false heat
      obtain ⟨b₂, t, hb₂, ht, he⟩ := h.items_sound hlist
      exact ⟨b, _, hb, .items (hb₁.append hb₂) ht, by simp [hc, hd, he]⟩

theorem startsOther_listText {other : Char} (hblank : isAsciiBlank left = false) (hne : left ≠ other) :
    StartsOther (ListText left close G) other := by
  rintro s as (_ | _) <;> exact ⟨left, _, rfl, hblank, hne⟩

/-! ### Printed lists -/

theorem itemsText_intercalate {item : α → List Char} {a : α} {as : List α} (h : ∀ x ∈ a :: as, G (item x) x) :
    ItemsText close G (List.intercalate [',', ' '] ((a :: as).map item) ++ [close]) (a :: as) := by
  induction as generalizing a with
  | nil =>
    have hlast : ItemsText close G (item a ++ ([] ++ [close])) [a] := .last (h a (by simp)) blanks_nil
    simpa using hlast
  | cons a' as ih =>
    have hrest := ih (a := a') fun x hx => h x (List.mem_cons_of_mem a hx)
    simpa [List.intercalate_cons_cons] using ItemsText.next (h a (by simp)) blanks_nil blanks_space hrest

theorem listText_bracketed {item : α → List Char} {as : List α} (h : ∀ x ∈ as, G (item x) x) :
    ListText left close G (bracketed left close (as.map item)) as := by
  cases as with
  | nil => exact .nil blanks_nil
  | cons a as => exact .items (b := []) blanks_nil (itemsText_intercalate h)

end Lists

end ByteAutomata
