import ByteAutomata.Dfa.Words

/-!
# Questions about an automaton

* `Query` : everything that can be asked of an automaton;
* `Answer` : what is answered;
* `Memo.ask` : answers one question, and `Memo.askAll` a list of them one after the other.

References to states that do not exist are answered where the answer needs no state, and are a
fault where it does.
-/

namespace ByteAutomata

set_option autoImplicit false

inductive Query where
  | size
  | start
  | accepting
  | text
  | density
  | isDense (state : StateRef)
  | step (state : StateRef) (byte : UInt8)
  | isAccepting (state : StateRef)
  | isDead (state : StateRef)
  | accepts (word : Word)
  /-- The steps out of a state. -/
  | edges (state : StateRef)
  /-- The steps out of a state that lead to live states. -/
  | liveEdges (state : StateRef)
  | entries (state : StateRef)
  | maxLength (state : StateRef)
  | count (state : StateRef) (length : Nat)
  | nth (state : StateRef) (length rank : Nat)
  | words (number : Nat)
  | canonical
  /-- How a copy is stored, whether it is the same automaton, and its text. -/
  | copy
  | same (other : Dfa)
  | equivalent (other : Dfa)
  | distinguishing (other : Dfa)

inductive Answer where
  | number (n : Nat)
  | numbers (list : List Nat)
  | flag (b : Bool)
  | flags (list : List Bool)
  | text (s : String)
  | state (q : StateRef)
  | edges (list : List (UInt8 × Nat))
  | entries (list : List (Run Nat))
  | length (n : MaxLength)
  | count (n : Nat)
  | word (w : Word)
  | noWord
  | words (list : List Word)
  | copy (density : List Bool) (same : Bool) (text : String)
deriving DecidableEq

namespace Memo

variable {A : Dfa}

/-- The state of a reference: the sink, or a state that exists. -/
def resolve (A : Dfa) : StateRef → Except Fault (Option (Fin A.size))
  | .sink => .ok none
  | .state i => if h : i < A.size then .ok (some ⟨i, h⟩) else .error (.outOfBounds A.size i)

/-- How the tables are stored. -/
def density (m : Memo A) : List Bool := m.tables.toList.map Table.isDense

/-- The steps out of a state as they are stored now. -/
def stepsFrom (m : Memo A) (q : Fin A.size) : List (UInt8 × Fin A.size) := m.automaton.edges q

/-- A question about a state, which must exist or be the sink. -/
def atState (m : Memo A) (q : StateRef)
    (f : Memo A → Option (Fin A.size) → Except Fault Answer × Memo A) : Except Fault Answer × Memo A :=
  match resolve A q with
  | .ok q => f m q
  | .error e => (.error e, m)

def liveSteps (m : Memo A) (q : Fin A.size) : List (UInt8 × Fin A.size) × Memo A :=
  let m := m.touch q
  match m.stepsFrom q with
  | [] => ([], m)
  | steps => let (s, m) := m.shape; (steps.filter fun e => s.live.get e.2, m)

def text (m : Memo A) : String × Memo A := let m := m.touchAll; (m.snapshot.text, m)

/-- A copy, how it is stored, whether it is the same automaton, and its text. -/
def copy (m : Memo A) : Answer × Memo A :=
  let k := fresh m.snapshot
  let density := k.density
  let (same, k, m) := k.same m
  (.copy density same k.text.1, m)

/-- Answers a question and remembers what was looked up. -/
def ask (m : Memo A) : Query → Except Fault Answer × Memo A
  | .size => (.ok (.number A.size), m)
  | .start => (.ok (.number A.start), m)
  | .accepting => (.ok (.numbers A.acceptingStates), m)
  | .text => let (s, m) := m.text; (.ok (.text s), m)
  | .density => (.ok (.flags m.density), m)
  | .isDense q =>
    match resolve A q with
    | .ok (some q) => (.ok (.flag (m.tables.get q).isDense), m)
    | _ => (.error (.outOfBounds A.size q.number), m)
  | .step q b => m.atState q fun m q => match q with
    | none => (.ok (.state .sink), m)
    | some q => let m := m.touch q; (.ok (.state (.ofState? (m.step q b))), m)
  | .isAccepting q => (.ok (.flag (m.automaton.acceptsHere (q.resolve? A.size))), m)
  | .isDead q =>
    match resolve A q with
    | .ok q => let (dead, m) := m.isDead q; (.ok (.flag dead), m)
    | .error _ => (.ok (.flag false), m.shape.2)
  | .accepts w => (.ok (.flag (m.automaton.accepts w)), m.touchWord (some A.start) w)
  | .edges q => m.atState q fun m q => match q with
    | none => (.ok (.edges []), m)
    | some q => let m := m.touch q; (.ok (.edges ((m.stepsFrom q).map fun e => (e.1, e.2.val))), m)
  | .liveEdges q => m.atState q fun m q => match q with
    | none => (.ok (.edges []), m)
    | some q => let (steps, m) := m.liveSteps q; (.ok (.edges (steps.map fun e => (e.1, e.2.val))), m)
  | .entries q => m.atState q fun m q => match q with
    | none => (.ok (.entries []), m)
    | some q => let m := m.touch q; (.ok (.entries ((runs (m.step q)).map (Run.map Fin.val))), m)
  | .maxLength q =>
    match resolve A q with
    | .ok q => let (length, m) := m.maxLength q; (.ok (.length length), m)
    | .error e => (.error e, m.shape.2)
  | .count q length =>
    match resolve A q with
    | .ok q => let (n, m) := m.count q length; (.ok (.count n), m)
    | .error e => (.error e, m.fill length)
  | .nth q length rank =>
    match resolve A q with
    | .ok q => let (w, m) := m.nth q length rank; (w.map .word, m)
    | .error e => (.error e, m.fill length)
  | .words number =>
    let (w, m) := Words.first m
    let (list, _, m) := w.take number m
    (list.map .words, m)
  | .canonical => let (C, m) := m.canonical; (.ok (.text C.text), m)
  | .copy => let (a, m) := m.copy; (.ok a, m)
  | .same B => let (b, m, _) := m.same (fresh B); (.ok (.flag b), m)
  | .equivalent B => let (w, m, _) := m.difference (fresh B); (.ok (.flag w.isNone), m)
  | .distinguishing B =>
    let (w, m, _) := m.difference (fresh B)
    (.ok (match w with | some w => .word w | none => .noWord), m)

def askAll (m : Memo A) : List Query → List (Except Fault Answer) × Memo A
  | [] => ([], m)
  | q :: rest =>
    let (a, m) := m.ask q
    let (as, m) := m.askAll rest
    (a :: as, m)

end Memo
end ByteAutomata
