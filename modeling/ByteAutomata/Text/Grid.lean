/-!
# Tables with borders

* `Grid.render` : records as lines of cells between bars, with a rule before, between and after
  them. Cells are filled up with spaces to the width of their column.
-/

namespace ByteAutomata.Grid

set_option autoImplicit false

/-- The widths of columns that hold both the given widths and the cells of a record. -/
def widen : List Nat → List String → List Nat
  | w :: ws, cell :: cells => max w cell.length :: widen ws cells
  | [], cells => cells.map String.length
  | ws, [] => ws

/-- The width of each column, that of its widest cell. -/
def widths (records : List (List String)) : List Nat := records.foldl widen []

def rule (ws : List Nat) : String :=
  ws.foldl (fun line w => line ++ String.ofList (List.replicate (w + 2) '-') ++ "+") "+"

def line (ws : List Nat) (cells : List String) : String :=
  (ws.zip cells).foldl (fun line p =>
    line ++ " " ++ p.2 ++ String.ofList (List.replicate (p.1 - p.2.length) ' ') ++ " |") "|"

/-- The whole table. -/
def render (records : List (List String)) : String :=
  let ws := widths records
  String.intercalate "\n" (rule ws :: records.flatMap fun r => [line ws r, rule ws])

end ByteAutomata.Grid
