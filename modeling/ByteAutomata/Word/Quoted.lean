import ByteAutomata.Word

/-!
# Quoted words

* `Quoted.escape` : a byte as it is shown: printable ASCII as is, other bytes as `\t`, `\r`, `\n` or
  two hexadecimal digits, and quotes and the backslash behind a backslash;
* `Quoted.chars`, `Word.quoted` : the whole word, as `b"..."`;
* `hexDigits`, `Word.hex` : two digits for every byte.
-/

namespace ByteAutomata

set_option autoImplicit false

def hexDigit (n : Nat) : Char := if n < 10 then Char.ofNat (48 + n) else Char.ofNat (87 + n)

def hexDigits (b : UInt8) : List Char := [hexDigit (b.toNat / 16), hexDigit (b.toNat % 16)]

def Word.hex (w : Word) : String := String.ofList (w.flatMap hexDigits)

namespace Quoted

def escape (b : UInt8) : List Char :=
  if b = 9 then ['\\', 't']
  else if b = 13 then ['\\', 'r']
  else if b = 10 then ['\\', 'n']
  else if b = 39 ∨ b = 34 ∨ b = 92 then ['\\', Char.ofNat b.toNat]
  else if 32 ≤ b ∧ b ≤ 126 then [Char.ofNat b.toNat]
  else '\\' :: 'x' :: hexDigits b

/-- The word between quotes. -/
def chars (w : Word) : List Char := ['b', '"'] ++ w.flatMap escape ++ ['"']

end Quoted

/-- The word between quotes, with bytes that cannot be printed escaped. -/
def Word.quoted (w : Word) : String := String.ofList (Quoted.chars w)

end ByteAutomata
