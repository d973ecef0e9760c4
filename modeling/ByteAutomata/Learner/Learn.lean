import ByteAutomata.Dfa.Words
import ByteAutomata.Learner.Observations

/-!
# Learning a language from questions about words

A state of the hypothesis stands for the words that no experiment tells from its label. All
functions are dialogues about words:

* `Observations.start` : the table of the empty word;
* `Observations.observe` : completes a row of answers;
* `Observations.successor`, `Observations.close` : the step by a canonical byte, which may add a
  state, and all steps;
* `Observations.agree` : splits byte classes until a word and its normal form have the same answer;
* `Observations.explain` : adds experiments until the hypothesis classifies a normal word rightly;
* `Observations.learn` : both, and then all steps;
* `Observations.stabilize` : learns the given words and the first words of the hypothesis until
  nothing changes.
-/

namespace ByteAutomata.Observations

set_option autoImplicit false

/-- Completes a row: asks about a word with each experiment behind it for which there is no answer
yet. -/
def observe (T : Observations) (w : Word) (known : List Bool) : Dialogue Word (List Bool) := do
  let answers ← (T.experiments.drop known.length).mapM fun e => Dialogue.query (w ++ e)
  return known ++ answers

/-- The step from `q` by a canonical byte. A row that no state has makes a new state. -/
def successor (T : Observations) (q : Nat) (b : UInt8) : Dialogue Word (Nat × Observations) :=
  match T.step? q b with
  | some t => return (t, T)
  | none => do
    let label := T.label q ++ [b]
    let row ← T.observe label (T.beyond q b)
    match T.withRow? row with
    | some t => return (t, T.setStep q b row t)
    | none => return (T.size, (T.push label row).setStep q b row T.size)

/-- Finds the steps from `q` by all canonical bytes. -/
def closeState (T : Observations) (q : Nat) : Dialogue Word Observations :=
  T.classes.canonical.foldlM (fun T b => Prod.snd <$> T.successor q b) T

/-- Finds the steps from all states from `q` on, for at most the given number of states. -/
def closeFrom : Nat → Nat → Observations → Dialogue Word Observations
  | 0, _, _ => .fail .outOfRounds
  | fuel + 1, q, T =>
    if q < T.size then do closeFrom fuel (q + 1) (← T.closeState q) else return T

/-- Finds all steps. Different states have different rows, so there are at most two to the number of
experiments. -/
def close (T : Observations) : Dialogue Word Observations :=
  closeFrom (Nat.pow 2 T.experiments.length + 1) 0 T

def start : Dialogue Word Observations := do
  let answer ← Dialogue.query []
  close ⟨.single, [[]], #[⟨[], [answer], ByteMap.const none, ByteMap.const []⟩], {([answer], 0)}, 0⟩

/-- Completes the rows of all states and forgets all steps, but not what was asked to find them. -/
def changed (T : Observations) : Dialogue Word Observations := do
  let states ← T.states.toList.mapM fun s => do
    return { s with row := ← T.observe s.label s.row, steps := ByteMap.const none }
  return reindex { T with states := states.toArray, generation := T.generation + 1 }

/-- The states visited from `q` on by reading a word, last one first, finding steps as needed. -/
def follow (T : Observations) (q : Nat) (w : Word) : Dialogue Word (List Nat × Observations) :=
  w.foldlM (fun (visited, T) b => do
    let (t, T) ← T.successor (visited.headD q) (T.classes.normalize b)
    return (t :: visited, T)) ([q], T)

/-! ## Byte classes -/

/-- The bytes of a word, each once, descending. -/
def bytesOf (w : Word) : List UInt8 := Byte.all.reverse.filter fun b => w.contains b

/-- Tries to split the classes of the given bytes one after the other. In the word that tests them,
bytes that were tried before are in normal form. Tells whether a class was split. -/
def splitBytes (w : Word) (C : ByteClasses) : List UInt8 → Dialogue Word (Bool × ByteClasses)
  | [] => return (false, C)
  | a :: rest => do
    let (split, C) ← (C.distinguish a).relay fun x => .query (w.replaceByte a x)
    let (more, C) ← splitBytes (w.replaceByte a (C.normalize a)) C rest
    return (split || more, C)

/-- Splits byte classes until the normal form of `w` has the expected answer, and gives this
normal form. Every round adds a class, so there are fewer rounds than bytes. -/
def agreeLoop (expected : Bool) (w : Word) : Nat → Observations → Dialogue Word (Word × Observations)
  | 0, _ => .fail .outOfRounds
  | fuel + 1, T => do
    let normal := T.classes.normalizeWord w
    if (← Dialogue.query normal) = expected then return (normal, T)
    let (refined, C) ← splitBytes w T.classes (bytesOf w)
    if refined then agreeLoop expected w fuel (← changed { T with classes := C })
    else .fail .unsplit

/-- Splits byte classes until a word and its normal form have the same answer. -/
def agree (T : Observations) (expected : Bool) (w : Word) : Dialogue Word (Word × Observations) :=
  agreeLoop expected w 256 T

/-! ## Experiments -/

/-- Asks for a position `n` such that the answer for the label of the state behind `n` bytes, with
the rest of the word behind it, is the expected one, and for `n + 1` is not. -/
def breakpoint (T : Observations) (expected : Bool) (w : Word) (path : List Nat) : Dialogue Word Nat :=
  boundary.relay fun n =>
    if n ≤ w.length then do
      return (← Dialogue.query (T.label (path.getD n 0) ++ w.drop n)) == expected
    else return false

/-- Adds experiments until the hypothesis gives the expected answer for `w`, a word in normal form.
Every round adds a proper suffix of `w`, so there are no more rounds than bytes. -/
def explainLoop (expected : Bool) (w : Word) : Nat → Observations → Dialogue Word Observations
  | 0, _ => .fail .outOfRounds
  | fuel + 1, T => do
    let (visited, T) ← T.follow 0 w
    if T.accepting (visited.headD 0) = expected then return T
    let n ← T.breakpoint expected w visited.reverse
    if n < w.length then
      explainLoop expected w fuel (← changed { T with experiments := T.experiments ++ [w.drop (n + 1)] })
    else .fail .noBoundary

/-- Adds experiments until the hypothesis gives the expected answer for a word in normal form. -/
def explain (T : Observations) (expected : Bool) (w : Word) : Dialogue Word Observations :=
  explainLoop expected w (w.length + 1) T

/-! ## Words -/

/-- Changes the hypothesis so that it classifies `w` as the answers do. -/
def learn (T : Observations) (w : Word) : Dialogue Word Observations := do
  let expected ← Dialogue.query w
  let (normal, T) ← T.agree expected w
  let T ← T.explain expected normal
  T.close

def learnAll (T : Observations) (ws : List Word) : Dialogue Word Observations := ws.foldlM learn T

/-- One pass: learns the seeds, and then the first words of the hypothesis. -/
def pass (T : Observations) (seeds : List Word) (sample : Nat) : Dialogue Word Observations := do
  let T ← T.learnAll seeds
  match T.dfa.words sample with
  | .ok own => T.learnAll own
  | .error _ => .fail .unlisted

/-- Repeats passes until one changes nothing, at most the given number of times. -/
def stabilize (seeds : List Word) (sample : Nat) : Nat → Observations → Dialogue Word Observations
  | 0, _ => .fail .outOfRounds
  | fuel + 1, T => do
    let next ← T.pass seeds sample
    if next.generation = T.generation then return next else stabilize seeds sample fuel next

end ByteAutomata.Observations
