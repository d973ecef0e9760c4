/-!
# Stores of text

* `Store σ` : reading and replacing the text that a place of type `σ` holds; both may fail;
* `MemoryStore` : a text in memory, with the number of times it was written;
* `FileStore` : a file, which may be missing or have contents that are no text. A missing file reads
  as empty.
-/

namespace ByteAutomata

set_option autoImplicit false

/-- Why a store could not be used. -/
inductive StoreError where
  | inaccessible
deriving DecidableEq

/-- Reading and replacing a text. -/
class Store (σ : Type) where
  read : σ → Except StoreError String
  write : σ → String → Except StoreError Unit × σ

/-- A text in memory. -/
structure MemoryStore where
  contents : String
  /-- How often the text was written. -/
  writes : Nat

/-- A text that was never written. -/
def MemoryStore.new (contents : String) : MemoryStore := ⟨contents, 0⟩

instance : Store MemoryStore where
  read s := .ok s.contents
  write s contents := (.ok (), ⟨contents, s.writes + 1⟩)

/-- What stands at the place of a file. -/
inductive FileStore where
  /-- Nothing, in a directory that exists or does not. -/
  | missing (parentExists : Bool)
  | directory
  | file (bytes : ByteArray)

instance : Store FileStore where
  read
    | .missing _ => .ok ""
    | .directory => .error .inaccessible
    | .file bytes =>
      match String.fromUTF8? bytes with
      | some contents => .ok contents
      | none => .error .inaccessible
  write
    | .missing true, contents => (.ok (), .file contents.toUTF8)
    | .file _, contents => (.ok (), .file contents.toUTF8)
    | s, _ => (.error .inaccessible, s)

end ByteAutomata
