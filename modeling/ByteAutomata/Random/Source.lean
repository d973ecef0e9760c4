/-!
# Sources of random numbers

* `Source ρ` : the draws that random objects are made of, each with the state behind it;
* `Source.Fair` : every draw lies in the range that was asked for;
* `Wyrand` : a generator with 64 bits of state. Numbers below a bound come from the upper half of a
  product, drawn again where the lower half would make some numbers more likely; fractions are
  63 bits rounded to 53 significant ones.
-/

namespace ByteAutomata

set_option autoImplicit false

/-- The draws from a state `ρ`. -/
structure Source (ρ : Type) where
  /-- A number below the argument, from 32 random bits. -/
  small : Nat → StateM ρ Nat
  /-- A number below the argument, from 64 random bits. -/
  large : Nat → StateM ρ Nat
  /-- Whether a random number of 63 bits is below the argument. -/
  chance : Nat → StateM ρ Bool

/-- Every draw is below its bound. -/
def Source.Fair {ρ : Type} (source : Source ρ) : Prop :=
  ∀ n, 0 < n → ∀ r, (source.small n r).1 < n ∧ (source.large n r).1 < n

namespace Wyrand

/-- How many numbers have the given number of bits. -/
def values (bits : Nat) : Nat := Nat.pow 2 bits

def next : StateM UInt64 UInt64 := fun s =>
  let s := s + 0x2d358dccaa6c78a5
  let t := s.toNat * (s ^^^ 0x8bb84b93962eacc9).toNat
  (UInt64.ofNat t ^^^ UInt64.ofNat (t / values 64), s)

/-- The product of `n` with the next `width` random bits. -/
def product (width n : Nat) : StateM UInt64 Nat := do
  return ((← next).toNat % values width) * n

/-- Draws again while the lower half of the product is below `threshold`. The generator has
`values 64` states, which bounds the draws. -/
def redraw (width n threshold : Nat) : Nat → Nat → StateM UInt64 Nat
  | 0, p => pure (p / values width)
  | fuel + 1, p =>
    if p % values width < threshold then do
      redraw width n threshold fuel (← product width n)
    else pure (p / values width)

def below (width n : Nat) : StateM UInt64 Nat := do
  let p ← product width n
  if p % values width < n then redraw width n ((values width - n) % n) (values 64) p
  else return p / values width

/-- The number with 53 significant bits nearest to `v`; of two, the even one. -/
def round53 (v : Nat) : Nat :=
  let unit := values (Nat.log2 v - 52)
  let q := v / unit
  let r := 2 * (v % unit)
  if r < unit ∨ (r = unit ∧ q % 2 = 0) then q * unit else (q + 1) * unit

/-- A fraction of `values 63`, drawn again while it is rounded up to one. -/
def fraction : Nat → StateM UInt64 Nat
  | 0 => pure 0
  | fuel + 1 => do
    let f := round53 ((← next).toNat / 2)
    if f < values 63 then return f else fraction fuel

/-- The generator as a source. -/
def source : Source UInt64 where
  small := below 32
  large := below 64
  chance threshold := do return (← fraction (values 64)) < threshold

end Wyrand
end ByteAutomata
