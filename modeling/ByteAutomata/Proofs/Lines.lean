import ByteAutomata.Text.Lines
import Mathlib.Data.List.Infix

/-!
# Texts by their lines

* `byLines` : induction on the lines of a text; `lines_line`, `lines_last` : its lines, the first of them first;
* `unlines` : lines with a line feed behind each; `lines_unlines` : they are its lines, if each is one (`IsLine`);
* `unixEnds` : a text with plain line feeds; `unixEnds_prefix_iff` : a text starts like this only if it is the same;
* `splitAround_eq_some_iff` : the first separator is where none ends before.
-/

namespace ByteAutomata

set_option autoImplicit false

variable {l cs rest : List Char} {ls : List (List Char)}

/-! ## The lines of a text -/

/-- Induction on the lines of a text: it is empty, or a line that nothing ends, or starts with a line and its end. -/
theorem byLines {P : List Char → Prop} (nil : P []) (last : ∀ l, l ≠ [] → '\n' ∉ l → P l)
    (line : ∀ l rest, '\n' ∉ l → P rest → P (l ++ '\n' :: rest)) (cs : List Char) : P cs := by
  by_cases hfeed : '\n' ∈ cs
  · obtain ⟨l, rest, hcs, hl⟩ := List.eq_append_cons_of_mem hfeed
    have hshorter : rest.length < cs.length := by
      rw [hcs, List.length_append, List.length_cons]
      omega
    rw [hcs]
    exact line l rest hl (byLines nil last line rest)
  · by_cases hcs : cs = []
    · rw [hcs]
      exact nil
    · exact last cs hcs hfeed
termination_by cs.length

theorem scanLines_line (hl : '\n' ∉ l) (rest : List Char) :
    scanLines (l ++ '\n' :: rest) = (l, true) :: scanLines rest := by
  induction l with
  | nil => rfl
  | cons c l ih =>
    have hc : c ≠ '\n' := (List.ne_of_not_mem_cons hl).symm
    rw [List.cons_append, scanLines, if_neg hc, ih (List.not_mem_of_not_mem_cons hl)]

theorem scanLines_last (hne : l ≠ []) (hl : '\n' ∉ l) : scanLines l = [(l, false)] := by
  induction l with
  | nil => exact absurd rfl hne
  | cons c l ih =>
    have hc : c ≠ '\n' := (List.ne_of_not_mem_cons hl).symm
    rw [scanLines, if_neg hc]
    cases l with
    | nil => rfl
    | cons d l => rw [ih (List.cons_ne_nil d l) (List.not_mem_of_not_mem_cons hl)]

theorem lines_line (hl : '\n' ∉ l) (rest : List Char) : lines (l ++ '\n' :: rest) = dropReturn l :: lines rest := by
  simp [lines, scanLines_line hl]

theorem lines_last (hne : l ≠ []) (hl : '\n' ∉ l) : lines l = [l] := by
  simp [lines, scanLines_last hne hl]

theorem dropReturn_sublist (l : List Char) : (dropReturn l).Sublist l := by
  unfold dropReturn
  split
  · exact List.dropLast_sublist l
  · exact List.Sublist.refl l

theorem dropReturn_of_getLast?_ne (h : l.getLast? ≠ some '\r') : dropReturn l = l := if_neg h

theorem getLast?_ne_of_not_mem {c : Char} (h : c ∉ l) : l.getLast? ≠ some c :=
  fun hlast => h (List.mem_of_getLast? hlast)

/-- A line has no line feed, and no carriage return at its end, which would be taken for a part of the end. -/
structure IsLine (l : List Char) : Prop where
  feed : '\n' ∉ l
  carriage : l.getLast? ≠ some '\r'

theorem not_mem_of_mem_lines (h : l ∈ lines cs) : '\n' ∉ l := by
  induction cs using byLines with
  | nil => cases h
  | last m hne hm =>
    rw [lines_last hne hm] at h
    exact List.mem_singleton.1 h ▸ hm
  | line m rest hm ih =>
    rw [lines_line hm] at h
    rcases List.mem_cons.1 h with rfl | h
    · exact fun hfeed => hm ((dropReturn_sublist m).subset hfeed)
    · exact ih h

theorem mem_of_mem_lines {c : Char} (h : l ∈ lines cs) (hc : c ∈ l) : c ∈ cs := by
  induction cs using byLines with
  | nil => cases h
  | last m hne hm =>
    rw [lines_last hne hm] at h
    exact List.mem_singleton.1 h ▸ hc
  | line m rest hm ih =>
    rw [lines_line hm] at h
    rcases List.mem_cons.1 h with rfl | h
    · exact List.mem_append_left _ ((dropReturn_sublist m).subset hc)
    · exact List.mem_append_right _ (List.mem_cons_of_mem _ (ih h))

theorem isLine_of_mem_lines (hcs : '\r' ∉ cs) (h : l ∈ lines cs) : IsLine l :=
  ⟨not_mem_of_mem_lines h, getLast?_ne_of_not_mem fun hc => hcs (mem_of_mem_lines h hc)⟩

/-! ## Lines put together -/

/-- Lines, with a line feed behind each. -/
def unlines (ls : List (List Char)) : List Char := ls.flatMap (· ++ ['\n'])

theorem unlines_cons (l : List Char) (ls : List (List Char)) : unlines (l :: ls) = l ++ '\n' :: unlines ls := by
  simp [unlines]

theorem unlines_append (ls ms : List (List Char)) : unlines (ls ++ ms) = unlines ls ++ unlines ms :=
  List.flatMap_append

theorem lines_unlines (h : ∀ l ∈ ls, IsLine l) : lines (unlines ls) = ls := by
  induction ls with
  | nil => rfl
  | cons l ls ih =>
    obtain ⟨hl, hls⟩ := List.forall_mem_cons.1 h
    rw [unlines_cons, lines_line hl.feed, dropReturn_of_getLast?_ne hl.carriage, ih hls]

/-! ## Ends of lines -/

/-- A text with a line feed for each carriage return and line feed. -/
def unixEnds : List Char → List Char
  | '\r' :: '\n' :: cs => '\n' :: unixEnds cs
  | c :: cs => c :: unixEnds cs
  | [] => []

theorem unixEnds_cons {c : Char} (h : ¬ (c = '\r' ∧ ∃ t, cs = '\n' :: t)) : unixEnds (c :: cs) = c :: unixEnds cs := by
  rw [unixEnds]
  rintro t rfl rfl
  exact h ⟨rfl, t, rfl⟩

theorem unixEnds_line (hl : '\n' ∉ l) (rest : List Char) :
    unixEnds (l ++ '\n' :: rest) = dropReturn l ++ '\n' :: unixEnds rest := by
  induction l with
  | nil => exact unixEnds_cons fun h => absurd h.1 (by decide)
  | cons c l ih =>
    replace hl := List.not_mem_of_not_mem_cons hl
    cases l with
    | nil =>
      by_cases hc : c = '\r'
      · rw [hc]
        rfl
      · have hreturn : dropReturn [c] = [c] := if_neg (by simpa using hc)
        rw [hreturn, List.singleton_append, unixEnds_cons fun h => hc h.1,
          unixEnds_cons fun h => absurd h.1 (by decide)]
        rfl
    | cons d l =>
      have hreturn : dropReturn (c :: d :: l) = c :: dropReturn (d :: l) := by
        simp only [dropReturn, List.getLast?_cons_cons, List.dropLast_cons_cons]
        split <;> rfl
      rw [hreturn, List.cons_append, unixEnds_cons, ih hl, List.cons_append]
      rintro ⟨-, t, ht⟩
      exact hl ((List.cons.inj ht).1 ▸ List.mem_cons_self)

theorem unixEnds_last (hl : '\n' ∉ l) : unixEnds l = l := by
  induction l with
  | nil => rfl
  | cons c l ih =>
    replace hl := List.not_mem_of_not_mem_cons hl
    rw [unixEnds_cons, ih hl]
    rintro ⟨-, t, rfl⟩
    exact hl List.mem_cons_self

theorem unixEnds_of_not_isInfix (h : ¬ ['\r', '\n'] <:+: cs) : unixEnds cs = cs := by
  induction cs with
  | nil => rfl
  | cons c cs ih =>
    rw [List.infix_cons_iff, not_or] at h
    rw [unixEnds_cons, ih h.2]
    rintro ⟨rfl, t, rfl⟩
    exact h.1 ⟨t, rfl⟩

/-- A text with carriage returns at ends of lines does not start like the text with plain line feeds. -/
theorem unixEnds_prefix_iff : unixEnds cs <+: cs ↔ ¬ ['\r', '\n'] <:+: cs := by
  constructor
  · intro h
    induction cs with
    | nil => simp
    | cons c cs ih =>
      by_cases hend : c = '\r' ∧ ∃ t, cs = '\n' :: t
      · obtain ⟨rfl, t, rfl⟩ := hend
        exact absurd (List.cons_prefix_cons.1 h).1 (by decide)
      · rw [unixEnds_cons hend] at h
        rw [List.infix_cons_iff, not_or]
        refine ⟨?_, ih (List.cons_prefix_cons.1 h).2⟩
        rintro ⟨t, ht⟩
        obtain ⟨rfl, rfl⟩ := List.cons.inj ht
        exact hend ⟨rfl, t, rfl⟩
  · intro h
    rw [unixEnds_of_not_isInfix h]

theorem length_unixEnds_le (cs : List Char) : (unixEnds cs).length ≤ cs.length := by
  fun_induction unixEnds cs with
  | case1 cs ih => simp only [List.length_cons]; omega
  | case2 c cs hend ih => simpa using ih
  | case3 => exact Nat.le_refl _

/-! ## Separators -/

theorem append_dropLast_isPrefix (a sep b : List Char) : a ++ sep.dropLast <+: a ++ sep ++ b := by
  rw [List.append_assoc, List.prefix_append_right_inj]
  exact (List.dropLast_prefix sep).trans (List.prefix_append sep b)

/-- The first separator is where none ends before. -/
theorem splitAround_eq_some_iff {sep a b : List Char} (hsep : sep ≠ []) :
    splitAround sep cs = some (a, b) ↔ cs = a ++ sep ++ b ∧ ¬ sep <:+: a ++ sep.dropLast := by
  have hlength : 0 < sep.length := List.length_pos_iff.2 hsep
  induction cs generalizing a with
  | nil => simp [splitAround, hsep]
  | cons c cs ih =>
    unfold splitAround
    by_cases hstarts : sep <+: c :: cs
    · rw [if_pos (List.isPrefixOf_iff_prefix.2 hstarts), Option.some.injEq, Prod.mk.injEq]
      constructor
      · rintro ⟨rfl, rfl⟩
        refine ⟨(List.prefix_iff_eq_append.1 hstarts).symm, fun hwithin => ?_⟩
        have := hwithin.length_le
        simp only [List.nil_append, List.length_dropLast] at this
        omega
      · rintro ⟨hcs, hnot⟩
        -- a separator at the front ends before the one behind `a`, unless `a` is empty
        cases a with
        | nil =>
          rw [hcs]
          exact ⟨rfl, List.drop_left⟩
        | cons d a =>
          refine absurd
            (List.prefix_of_prefix_length_le (hcs ▸ hstarts) (append_dropLast_isPrefix _ sep b) ?_).isInfix hnot
          simp only [List.length_append, List.length_cons, List.length_dropLast]
          omega
    · rw [if_neg (mt List.isPrefixOf_iff_prefix.1 hstarts), Option.map_eq_some_iff]
      constructor
      · rintro ⟨⟨a', b'⟩, hsplit, hparts⟩
        obtain ⟨rfl, rfl⟩ := Prod.mk.inj hparts
        obtain ⟨rfl, hnot⟩ := ih.1 hsplit
        refine ⟨rfl, ?_⟩
        rw [List.cons_append, List.infix_cons_iff, not_or]
        exact ⟨fun h => hstarts (h.trans (append_dropLast_isPrefix (c :: a') sep b')), hnot⟩
      · rintro ⟨hcs, hnot⟩
        cases a with
        | nil => exact absurd ⟨b, hcs.symm⟩ hstarts
        | cons d a =>
          obtain ⟨rfl, rfl⟩ := List.cons.inj hcs
          exact ⟨(a, b), ih.2 ⟨rfl, fun h => hnot (h.trans (List.suffix_cons c _).isInfix)⟩, rfl⟩

end ByteAutomata
