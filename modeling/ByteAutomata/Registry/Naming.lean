import ByteAutomata.Dfa.Printer
import ByteAutomata.Text.Sha256
import ByteAutomata.Word.Quoted

/-!
# Names of automata

* `nameBy digest base A` : `base`, a dash, and the first ten digits of the digest of the canonical
  text. It depends on the canonical form only (`nameBy_congr`);
* `nameFor` : the names that registries use.
-/

namespace ByteAutomata

set_option autoImplicit false

/-- The number of digits of the digest in a name. -/
def digestDigits : Nat := 10

/-- The digits by which a text is named. -/
def fingerprint (digest : List UInt8 → List UInt8) (text : String) : String :=
  String.ofList (((digest text.toUTF8.toList).flatMap hexDigits).take digestDigits)

/-- The name that a digest gives an automaton, the same for all automata of one language. -/
def nameBy (digest : List UInt8 → List UInt8) (base : String) (A : Dfa) : String :=
  base ++ "-" ++ fingerprint digest A.canonical.text

def nameFor : String → Dfa → String := nameBy Sha256.digest

theorem nameBy_congr (digest : List UInt8 → List UInt8) (base : String) {A B : Dfa}
    (h : A.canonical.text = B.canonical.text) : nameBy digest base A = nameBy digest base B := by
  rw [nameBy, nameBy, h]

end ByteAutomata
