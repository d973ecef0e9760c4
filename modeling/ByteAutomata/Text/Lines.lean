/-!
# Lines and separators

* `scanLines` : the lines of a text, each with whether a line feed ends it, and `unscanLines` : the text of such lines;
* `lines` : the lines without their ends, which are a line feed, or a carriage return and a line
  feed;
* `splitAround` : what stands before and behind the first separator.
-/

namespace ByteAutomata

set_option autoImplicit false

/-- The lines of a text, each with whether a line feed ends it. Only the last line may lack one. -/
def scanLines : List Char → List (List Char × Bool)
  | [] => []
  | c :: cs =>
    if c = '\n' then ([], true) :: scanLines cs
    else match scanLines cs with
      | [] => [([c], false)]
      | (l, ended) :: rest => (c :: l, ended) :: rest

def unscanLines (ls : List (List Char × Bool)) : List Char :=
  ls.flatMap fun l => if l.2 then l.1 ++ ['\n'] else l.1

/-- The line without a carriage return at its end. -/
def dropReturn (l : List Char) : List Char := if l.getLast? = some '\r' then l.dropLast else l

def lines (cs : List Char) : List (List Char) :=
  (scanLines cs).map fun l => if l.2 then dropReturn l.1 else l.1

/-- What stands before and behind the first occurrence of a separator. -/
def splitAround (sep : List Char) : List Char → Option (List Char × List Char)
  | [] => if sep = [] then some ([], []) else none
  | c :: cs =>
    if sep.isPrefixOf (c :: cs) then some ([], (c :: cs).drop sep.length)
    else (splitAround sep cs).map fun p => (c :: p.1, p.2)

end ByteAutomata
