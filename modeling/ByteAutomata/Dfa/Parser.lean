import ByteAutomata.Dfa.Build
import ByteAutomata.Dfa.Printer
import ByteAutomata.Text.Blank

/-!
# Reading an automaton

* `Cursor` : the rest of the text and how many bytes behind the header it starts. Only ASCII
  characters are ever passed, so characters and bytes are counted alike;
* `Cursor.eat`, `Cursor.expect`, `Cursor.number`, `Cursor.list` : the elements of the grammar, with
  ASCII blanks allowed before each;
* `Encoding` : what a text lists, before its numbers are checked against each other;
* `Dfa.parse` : the automaton of a text, or the first thing wrong with it (`ParseError`).
-/

namespace ByteAutomata

set_option autoImplicit false

/-- What is wrong with a text. Positions count bytes behind the header. -/
inductive ParseError where
  | missingHeader
  | expected (char : Char) (position : Nat)
  | expectedNumber (position : Nat)
  | outOfRange (position : Nat)
  | malformedEntry (position : Nat)
  | invertedRange (lo hi : UInt8)
  | overlapping (state : Nat)
  | unknownState (state size : Nat)
  | trailingInput (position : Nat)
deriving DecidableEq

def ParseError.message : ParseError → String
  | missingHeader => s!"encoding does not start with `{String.ofList Dfa.header}`"
  | expected char position => s!"expected `{char}` at position {position}"
  | expectedNumber position => s!"expected a number at position {position}"
  | outOfRange position => s!"number at position {position} is out of range"
  | malformedEntry position =>
    s!"expected a transition with two or three components at position {position}"
  | invertedRange lo hi => s!"range {lo}..={hi} is inverted"
  | overlapping state => s!"transitions of state {state} overlap"
  | unknownState state size =>
    s!"state {state} is referenced but the automaton only has {size} states"
  | trailingInput position => s!"unexpected trailing input at position {position}"

/-! ## Elements -/

/-- The rest of a text and its position. -/
structure Cursor where
  rest : List Char
  position : Nat

/-- A reader gives a value and what is left, or an error. -/
abbrev Reader (α : Type) := Cursor → Except ParseError (α × Cursor)

namespace Cursor

def drop (c : Cursor) (n : Nat) : Cursor := ⟨c.rest.drop n, c.position + n⟩

def skipBlanks (c : Cursor) : Cursor := c.drop (c.rest.takeWhile isAsciiBlank).length

def eat (char : Char) (c : Cursor) : Bool × Cursor :=
  let c := c.skipBlanks
  if c.rest.head? = some char then (true, c.drop 1) else (false, c)

def expect (char : Char) (c : Cursor) : Except ParseError Cursor :=
  match c.eat char with
  | (true, c) => .ok c
  | (false, c) => .error (.expected char c.position)

def expectAll (chars : List Char) (c : Cursor) : Except ParseError Cursor :=
  chars.foldlM (fun c char => c.expect char) c

/-- What numbers of 64 bits stay below. -/
def numberLimit : Nat := 18446744073709551616

def number : Reader Nat := fun c =>
  let c := c.skipBlanks
  let digits := c.rest.takeWhile Char.isDigit
  let value := Nat.ofDigitChars 10 digits 0
  if digits = [] then .error (.expectedNumber c.position)
  else if value < numberLimit then .ok (value, c.drop digits.length)
  else .error (.outOfRange c.position)

/-- A state, which is a number below that of the dead sink. -/
def state : Reader Nat := fun c => do
  let (value, next) ← c.number
  if value < StateRef.sinkNumber then return (value, next) else throw (.outOfRange c.position)

/-- One or more items, each followed by a comma or, after the last one, by `close`. The first
argument bounds their number. -/
def items {α : Type} (close : Char) (item : Reader α) : Nat → Reader (List α)
  | 0, c => .error (.expected close c.position)
  | fuel + 1, c => do
    let (x, c) ← item c
    match c.eat close with
    | (true, c) => return ([x], c)
    | (false, c) =>
      let c ← c.expect ','
      let (xs, c) ← items close item fuel c
      return (x :: xs, c)

/-- Items between `open` and `close`, separated by commas. An item has at least one character,
so there are fewer items than characters left. -/
def list {α : Type} (left close : Char) (item : Reader α) : Reader (List α) := fun c => do
  let c ← c.expect left
  match c.eat close with
  | (true, c) => return ([], c)
  | (false, c) => items close item (c.rest.length + 1) c

def byte (position value : Nat) : Except ParseError UInt8 :=
  if value < 256 then .ok (UInt8.ofNat value) else .error (.outOfRange position)

/-- An entry `(byte, target)` or `(lo, hi, target)`. -/
def entry : Reader (Run Nat) := fun c => do
  let (numbers, next) ← c.list '(' ')' state
  match numbers with
  | [b, target] => return (Run.single (← byte c.position b) target, next)
  | [lo, hi, target] =>
    let lo ← byte c.position lo
    let hi ← byte c.position hi
    if h : lo ≤ hi then return (⟨lo, hi, target, h⟩, next) else throw (.invertedRange lo hi)
  | _ => throw (.malformedEntry c.position)

end Cursor

/-! ## Whole texts -/

/-- What a text lists. -/
structure Encoding where
  rows : List (List (Run Nat))
  accepting : List Nat
  start : Nat
deriving DecidableEq

namespace Encoding

def read (rest : List Char) : Except ParseError Encoding := do
  let c : Cursor := ⟨rest, 0⟩
  let (rows, c) ← c.list '[' ']' (Cursor.list '[' ']' Cursor.entry)
  let c ← c.expect ','
  let (accepting, c) ← c.list '\x7b' '\x7d' Cursor.state
  let (start, c) ← match c.eat ',' with
    | (true, c) => do
      let c ← c.expectAll "start=".toList
      c.state
    | (false, c) => .ok (0, c)
  let c ← c.expect ')'
  let c := c.skipBlanks
  if c.rest = [] then return ⟨rows, accepting, start⟩ else throw (.trailingInput c.position)

def checkState (size q : Nat) : Except ParseError Unit :=
  if q < size then .ok () else .error (.unknownState q size)

/-- The table of the entries of state `q`, if they do not overlap and their targets exist. -/
def table (size q : Nat) (row : List (Run Nat)) : Except ParseError (Table StateRef) := do
  match Table.ofEntries StateRef.number (row.map (Run.map StateRef.state)) with
  | .error _ => throw (.overlapping q)
  | .ok t =>
    row.forM fun r => checkState size r.value
    return t

/-- The automaton that is listed. -/
def toDfa (e : Encoding) : Except ParseError Dfa := do
  let n := e.rows.length
  checkState n e.start
  e.accepting.forM (checkState n)
  let tables ← (e.rows.zipIdx).mapM fun row => table n row.2 row.1
  match StateRef.resolve? tables.length (.state e.start) with
  | some start => return Dfa.ofTables tables (e.accepting.map StateRef.state) start
  | none => throw (.unknownState e.start n)

end Encoding

/-- The text behind blanks and the header. -/
def Dfa.afterHeader? (text : List Char) : Option (List Char) :=
  let rest := trimStart text
  if Dfa.header.isPrefixOf rest then some (rest.drop Dfa.header.length) else none

/-- The automaton that a text describes. -/
def Dfa.parseChars (text : List Char) : Except ParseError Dfa := do
  match Dfa.afterHeader? text with
  | none => throw .missingHeader
  | some rest => (← Encoding.read rest).toDfa

def Dfa.parse (text : String) : Except ParseError Dfa := Dfa.parseChars text.toList

end ByteAutomata
