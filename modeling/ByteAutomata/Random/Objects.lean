import ByteAutomata.Dfa.Build
import ByteAutomata.Random.Source
import ByteAutomata.Word

/-!
# Random automata and words

* `randomDfa` : an automaton with up to `maxStates` states over the bytes below `symbols`. Each
  state has single entries, runs of up to four bytes, or a map; at least one state accepts;
* `randomWord` : a word of up to `maxLength` bytes below `symbols`.
-/

namespace ByteAutomata

set_option autoImplicit false

/-- What ends a draw. -/
inductive RandomFault where
  | noStates
  | noSymbols
  | emptyRange
  | unbuildable (error : BuildError)
deriving DecidableEq

def RandomFault.message : RandomFault → String
  | noStates => "an automaton needs at least one state"
  | noSymbols => "an alphabet needs at least one byte"
  | emptyRange => "empty range: Unbounded..Excluded(0)"
  | unbuildable error => error.message

/-- The part of two to the 63 below which a byte, or a run of bytes, gets a step: 0.6 to 53 bits. -/
def edgeChance : Nat := 5404319552844595 * 1024

/-- The part of two to the 63 below which a state accepts: 0.3 to 53 bits. -/
def acceptingChance : Nat := 5404319552844595 * 512

variable {ρ : Type} (source : Source ρ)

/-- A target for each byte below `symbols` that gets a step. -/
def randomPairs (symbols size : Nat) : StateM ρ (List (UInt8 × StateRef)) := do
  let steps ← (List.range symbols).mapM fun b => do
    if ← source.chance edgeChance then
      return [(UInt8.ofNat b, StateRef.state (← source.small size))]
    else return []
  return steps.flatten

/-- Cuts the bytes from `lo` to `symbols` into runs of up to four, some of which get a target. The
first argument bounds the number of runs. -/
def randomRuns (symbols size : Nat) : Nat → Nat → StateM ρ (List EntrySpec)
  | 0, _ => pure []
  | fuel + 1, lo =>
    if lo < symbols then do
      let hi := min (lo + (← source.small 4)) (symbols - 1)
      let entry ← if ← source.chance edgeChance then do
          pure [⟨UInt8.ofNat lo, UInt8.ofNat hi, .state (← source.small size)⟩]
        else pure []
      return entry ++ (← randomRuns symbols size fuel (hi + 1))
    else pure []

def randomState (symbols size : Nat) : StateM ρ StateSpec := do
  match ← source.small 3 with
  | 0 =>
    let pairs ← randomPairs source symbols size
    return .entries (pairs.map fun p => ⟨p.1, p.1, p.2⟩)
  | 1 => return .entries (← randomRuns source symbols size symbols 0)
  | _ => return .map (← randomPairs source symbols size)

def randomAccepting (size : Nat) : StateM ρ (List StateRef) := do
  let marks ← (List.range size).mapM fun q => do
    return if ← source.chance acceptingChance then [StateRef.state q] else []
  match marks.flatten with
  | [] => return [.state (← source.small size)]
  | list => return list

/-- An automaton with between one and `maxStates` states and steps on the bytes below `symbols`
only. -/
def randomDfa (maxStates : Nat) (symbols : UInt8) : StateM ρ (Except RandomFault Dfa) := do
  if maxStates = 0 then return .error .noStates
  if symbols = 0 then return .error .noSymbols
  let size := 1 + (← source.large maxStates)
  let states ← (List.replicate size ()).mapM fun _ => randomState source symbols.toNat size
  let accepting ← randomAccepting source size
  let start ← source.small size
  return (Dfa.build states accepting (.state start)).mapError .unbuildable

/-- A word of up to `maxLength` bytes below `symbols`. -/
def randomWord (symbols : UInt8) (maxLength : Nat) : StateM ρ (Except RandomFault Word) := do
  let length ← source.large (maxLength + 1)
  if symbols = 0 ∧ 0 < length then return .error .emptyRange
  let bytes ← (List.replicate length ()).mapM fun _ => source.small symbols.toNat
  return .ok (bytes.map UInt8.ofNat)

end ByteAutomata
