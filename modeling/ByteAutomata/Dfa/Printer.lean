import ByteAutomata.Dfa

/-!
# The text of an automaton

`ConcreteDfa([...], \x7b...\x7d)` lists the entries of every state and the accepting states; a
start state other than `0` follows as `, start=q`.

* `Run.chars` : `(byte, target)`, or `(lo, hi, target)` for more than one byte;
* `Dfa.chars`, `Dfa.text` : the whole text. It depends on start, size, accepting states and entries
  only (`chars_eq_of_same`).
-/

namespace ByteAutomata

set_option autoImplicit false

/-- The decimal digits of a number. -/
def decimal (n : Nat) : List Char := Nat.toDigits 10 n

/-- The items between brackets, separated by a comma and a space. -/
def bracketed (left right : Char) (items : List (List Char)) : List Char :=
  left :: (List.intercalate [',', ' '] items ++ [right])

def Run.chars (r : Run Nat) : List Char :=
  if r.lo = r.hi then bracketed '(' ')' [decimal r.lo.toNat, decimal r.value]
  else bracketed '(' ')' [decimal r.lo.toNat, decimal r.hi.toNat, decimal r.value]

namespace Dfa

def header : List Char := "ConcreteDfa(".toList

/-- The text of rows of entries, accepting states and a start state. -/
def encode (rows : List (List (Run Nat))) (accepting : List Nat) (start : Nat) : List Char :=
  header ++ bracketed '[' ']' (rows.map fun row => bracketed '[' ']' (row.map Run.chars)) ++
    [',', ' '] ++ bracketed '\x7b' '\x7d' (accepting.map decimal) ++
    (if start = 0 then [] else ", start=".toList ++ decimal start) ++ [')']

def chars (A : Dfa) : List Char := encode A.rows A.acceptingStates A.start.val

def text (A : Dfa) : String := String.ofList A.chars

theorem chars_eq_of_same {A B : Dfa} (h : A.same B = true) : A.chars = B.chars := by
  simp only [same, Bool.and_eq_true, beq_iff_eq] at h
  obtain ⟨⟨⟨hs, ha⟩, -⟩, hr⟩ := h
  rw [chars, chars, hs, ha, hr]

end Dfa
end ByteAutomata
