import ByteAutomata.Dfa.Parser
import ByteAutomata.Text.Lines

/-!
# Automata by name, and their text

* `Catalogue` : automata in the order of their names; `Catalogue.find?`, `Catalogue.put`,
  `Catalogue.insert`;
* `preamble` : the lines of a text before the marker line;
* `Catalogue.read` : the entries behind the marker line, one `name -> automaton` a line;
* `Catalogue.render` : the preamble, the marker line and the entries.
-/

namespace ByteAutomata

set_option autoImplicit false

/-- The line that separates the preamble from the entries. -/
def marker : List Char := "# AUTOGENERATED BEGINS".toList

/-- What separates a name from its automaton. -/
def arrow : List Char := " -> ".toList

/-- Automata in ascending order of their names, which are distinct. -/
structure Catalogue where
  entries : List (String × Dfa)
  ordered : entries.Pairwise fun d e => d.1 < e.1

/-- What is wrong with a text. Lines count from one. -/
inductive CatalogueError where
  | malformedLine (line : Nat)
  | malformedAutomaton (line : Nat) (name : String) (source : ParseError)
deriving DecidableEq

def CatalogueError.message : CatalogueError → String
  | malformedLine line => s!"line {line} of the registry is not of the form `name -> automaton`"
  | malformedAutomaton line name _ => s!"automaton {name} on line {line} is malformed"

namespace Catalogue

def empty : Catalogue := ⟨[], List.Pairwise.nil⟩

def find? (C : Catalogue) (name : String) : Option Dfa := (C.entries.find? (·.1 = name)).map Prod.snd

def names (C : Catalogue) : List String := C.entries.map Prod.fst

/-- Puts an automaton into ascending entries, in place of one with the same name. -/
def putEntry (name : String) (A : Dfa) : List (String × Dfa) → List (String × Dfa)
  | [] => [(name, A)]
  | e :: rest =>
    if name < e.1 then (name, A) :: e :: rest
    else if name = e.1 then (name, A) :: rest
    else e :: putEntry name A rest

theorem mem_putEntry {name : String} {A : Dfa} {e : String × Dfa} {es : List (String × Dfa)}
    (h : e ∈ putEntry name A es) : e = (name, A) ∨ e ∈ es := by
  induction es with
  | nil => exact .inl (List.mem_singleton.1 h)
  | cons d rest ih =>
    unfold putEntry at h
    split at h
    · exact List.mem_cons.1 h
    · split at h
      · exact (List.mem_cons.1 h).imp_right (List.mem_cons_of_mem d)
      · rcases List.mem_cons.1 h with rfl | h
        · exact .inr List.mem_cons_self
        · exact (ih h).imp_right (List.mem_cons_of_mem d)

theorem ordered_putEntry (name : String) (A : Dfa) {es : List (String × Dfa)}
    (h : es.Pairwise fun d e => d.1 < e.1) : (putEntry name A es).Pairwise fun d e => d.1 < e.1 := by
  induction es with
  | nil => exact List.pairwise_singleton _ _
  | cons d rest ih =>
    obtain ⟨hd, hrest⟩ := List.pairwise_cons.1 h
    unfold putEntry
    split
    next hlt =>
      refine List.pairwise_cons.2 ⟨fun e he => ?_, h⟩
      rcases List.mem_cons.1 he with rfl | he
      · exact hlt
      · exact String.lt_trans hlt (hd e he)
    next hlt =>
      split
      next heq => exact List.pairwise_cons.2 ⟨fun e he => heq ▸ hd e he, hrest⟩
      next hne =>
        refine List.pairwise_cons.2 ⟨fun e he => ?_, ih hrest⟩
        rcases mem_putEntry he with rfl | he
        · exact Std.lt_of_le_of_ne (String.not_lt.1 hlt) (Ne.symm hne)
        · exact hd e he

/-- The catalogue with an automaton, in place of one with the same name. -/
def put (C : Catalogue) (name : String) (A : Dfa) : Catalogue :=
  ⟨putEntry name A C.entries, ordered_putEntry name A C.ordered⟩

/-- The catalogue with an automaton, if the name is new. -/
def insert (C : Catalogue) (name : String) (A : Dfa) : Bool × Catalogue :=
  if (C.find? name).isSome then (false, C) else (true, C.put name A)

/-! ## Text -/

/-- The lines before the marker line. -/
def preamble (text : List Char) : List (List Char) := (lines text).takeWhile (· ≠ marker)

/-- The lines behind the marker line that are not blank, with their numbers. -/
def generated (text : List Char) : List (List Char × Nat) :=
  (((lines text).zipIdx 1).dropWhile (·.1 ≠ marker)).drop 1 |>.filter fun l => trim l.1 ≠ []

def readEntry (l : List Char × Nat) : Except CatalogueError (String × Dfa) :=
  match splitAround arrow l.1 with
  | none => .error (.malformedLine l.2)
  | some (name, encoded) =>
    let name := String.ofList (trim name)
    match Dfa.parseChars encoded with
    | .ok A => .ok (name, A)
    | .error source => .error (.malformedAutomaton l.2 name source)

/-- The entries of a text; of several for one name the last counts. -/
def read (text : List Char) : Except CatalogueError Catalogue := do
  let list ← (generated text).mapM readEntry
  return list.foldl (fun C e => C.put e.1 e.2) empty

def entryLine (e : String × Dfa) : List Char := e.1.toList ++ arrow ++ e.2.chars ++ ['\n']

/-- The preamble of a text, the marker line and the entries. -/
def render (C : Catalogue) (text : List Char) : List Char :=
  List.intercalate ['\n'] (preamble text ++ [marker]) ++ '\n' :: C.entries.flatMap entryLine

theorem find?_putEntry (name n : String) (A : Dfa) (es : List (String × Dfa)) :
    (putEntry name A es).find? (·.1 = n) = if name = n then some (name, A) else es.find? (·.1 = n) := by
  induction es with
  | nil => by_cases h : name = n <;> simp [putEntry, h]
  | cons e rest ih =>
    unfold putEntry
    split
    next => by_cases h : name = n <;> simp [h]
    next =>
      split
      next he => by_cases h : name = n <;> simp [h, ← he]
      next hlt hne =>
        by_cases h : e.1 = n
        · have : name ≠ n := fun hn => hne (hn.trans h.symm)
          simp [h, this]
        · simpa [h] using ih

theorem find?_put (C : Catalogue) (name n : String) (A : Dfa) :
    (C.put name A).find? n = if name = n then some A else C.find? n := by
  rw [find?, put, find?_putEntry]
  split <;> rfl

end Catalogue
end ByteAutomata
