import ByteAutomata.Registry.Catalogue
import ByteAutomata.Registry.Store

/-!
# The registry of automata

* `Registry σ` : a catalogue and the store it was read from;
* `Registry.load` : reads a store; `Registry.insert` : adds an automaton under a new name;
* `Registry.flush` : writes the catalogue back behind the preamble, unless nothing would change.
-/

namespace ByteAutomata

set_option autoImplicit false

/-- What is wrong with a registry or its store. -/
inductive RegistryError where
  | store (error : StoreError)
  | text (error : CatalogueError)
deriving DecidableEq

def RegistryError.message : RegistryError → String
  | store _ => "could not access registry store"
  | text error => error.message

/-- A catalogue and the store behind it. -/
structure Registry (σ : Type) where
  store : σ
  catalogue : Catalogue

namespace Registry

variable {σ : Type} [Store σ]

def load (store : σ) : Except RegistryError (Registry σ) :=
  match Store.read store with
  | .error e => .error (.store e)
  | .ok text =>
    match Catalogue.read text.toList with
    | .error e => .error (.text e)
    | .ok C => .ok ⟨store, C⟩

/-- Adds an automaton, if the name is new. -/
def insert (R : Registry σ) (name : String) (A : Dfa) : Bool × Registry σ :=
  let (fresh, C) := R.catalogue.insert name A
  (fresh, { R with catalogue := C })

/-- Writes all entries back, keeping the preamble. Tells whether the store was written. -/
def flush (R : Registry σ) : Except RegistryError Bool × Registry σ :=
  match Store.read R.store with
  | .error e => (.error (.store e), R)
  | .ok current =>
    let rendered := String.ofList (R.catalogue.render current.toList)
    if rendered = current then (.ok false, R)
    else
      match Store.write R.store rendered with
      | (.ok (), store) => (.ok true, { R with store := store })
      | (.error e, store) => (.error (.store e), { R with store := store })

end Registry
end ByteAutomata
