import ByteAutomata.Learner.Boundary
import ByteAutomata.Word

/-!
# Classes of bytes

* `ByteClasses` : consecutive bytes that are treated alike. Each class is named by its smallest
  byte, its canonical byte;
* `ByteClasses.normalize` : the canonical byte of a class, the greatest one not above the byte;
* `ByteClasses.distinguish` : splits the class of a byte if a test tells it from its canonical byte,
  so that the two are apart and the new canonical byte passes the test like the byte.
-/

namespace ByteAutomata

set_option autoImplicit false

/-- Classes of consecutive bytes. -/
structure ByteClasses where
  /-- The smallest bytes of the classes, ascending from 0. -/
  canonical : List UInt8
deriving DecidableEq

namespace ByteClasses

def single : ByteClasses := ⟨[0]⟩

/-- The canonical byte of the class of `b`. -/
def normalize (C : ByteClasses) (b : UInt8) : UInt8 := (C.canonical.takeWhile (· ≤ b)).getLastD 0

def normalizeWord (C : ByteClasses) (w : Word) : Word := w.map C.normalize

/-- Makes `s` the smallest byte of a class. -/
def insert (C : ByteClasses) (s : UInt8) : ByteClasses :=
  ⟨C.canonical.takeWhile (· < s) ++ s :: C.canonical.dropWhile (· < s)⟩

def below (b : UInt8) (k : Nat) : UInt8 := UInt8.ofNat (b.toNat - k)

/-- Splits the class of `b` if the test, which is asked about single bytes, tells `b` from its
canonical byte, and tells whether it was split. -/
def distinguish (C : ByteClasses) (b : UInt8) : Dialogue UInt8 (Bool × ByteClasses) := do
  let c := C.normalize b
  if c = b then return (false, C)
  let value ← Dialogue.query b
  if (← Dialogue.query c) = value then return (false, C)
  let distance := b.toNat - c.toNat
  let shift ← boundary.relay fun k =>
    if k < distance then do return (← Dialogue.query (below b k)) == value else return false
  return (true, C.insert (below b shift))

end ByteClasses
end ByteAutomata
