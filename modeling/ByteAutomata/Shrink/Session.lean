import ByteAutomata.Learner.Learn
import ByteAutomata.Learner.Oracle
import ByteAutomata.Registry.Naming
import ByteAutomata.Registry
import ByteAutomata.Shrink.Divergence
import ByteAutomata.Shrink.Engine

/-!
# Sessions that make shrinking normalise

A session generates interesting test cases and shrinks them until enough in a row reach the outcome
recorded for their origin. Where two outcomes differ, it learns an automaton for the part in which
they differ and shrinks again with its help.

* `Settings`, `Report`, `SessionError` : what is asked of a session and what comes of it;
* `World` : the engine's state, the registry, and what the session has seen;
* `seek`, `shrink`, `compare`, `learn` : the phases, and `step` the one that is due. Learning goes through
  `rank`, `permit`, `checkCore`, `learnFrom`, `register` and `refresh`;
* `normalize` : the whole session, which ends by writing what was learned.
-/

namespace ByteAutomata

set_option autoImplicit false

/-- What is asked of a session. -/
structure Settings where
  /-- How many cases in a row must shrink to the recorded outcome. -/
  requiredSuccesses : Nat := 100
  /-- Whether automata may be learned. -/
  allowedToUpdate : Bool := false
  /-- How many automata may be learned. -/
  maxDfas : Nat := 10
  /-- How many uninteresting cases are allowed before the first interesting one. -/
  maxFailedAttempts : Nat := 1000
  /-- How many words of a hypothesis are checked. -/
  selfCheckSample : Nat := 10
deriving DecidableEq

/-- What a successful session has done. -/
structure Report where
  /-- The names of the learned automata, in order. -/
  learned : List String
  /-- The number of interesting cases. -/
  examined : Nat
  /-- The number of other cases. -/
  uninteresting : Nat
deriving DecidableEq

/-- Why two outcomes cannot be learned from. -/
inductive Obstacle where
  | extension
  | rejectedCore (core : Word)
deriving DecidableEq

def Obstacle.message : Obstacle → String
  | extension => "the larger result extends the smaller one"
  | rejectedCore core => s!"core {core.quoted} is not interesting in context"

/-- Why a session failed. -/
inductive SessionError where
  | noInterestingCase (attempts : Nat)
  | learningDisallowed (smaller larger : Word)
  | budgetExceeded (max : Nat)
  | invalidDivergence (smaller larger : Word) (obstacle : Obstacle)
  | nameCollision (name : String)
  | registry (error : RegistryError)
  /-- The learner has broken off. -/
  | learner (fault : LearnFault)
  /-- More steps were needed than allowed. -/
  | outOfSteps
deriving DecidableEq

def SessionError.message : SessionError → String
  | noInterestingCase attempts =>
    s!"test function seems to have no interesting test cases, tried {attempts} times"
  | learningDisallowed smaller larger =>
    s!"shrinker failed to normalise {larger.quoted} to {smaller.quoted} and learning new automata is not allowed"
  | budgetExceeded max => s!"test function is too hard to learn, added {max} automata and still not done"
  | invalidDivergence smaller larger obstacle =>
    s!"cannot learn from {smaller.quoted} and {larger.quoted}: {obstacle.message}"
  | nameCollision name => s!"an automaton named {name} is already registered"
  | registry error => error.message
  | learner fault => fault.message
  | outOfSteps => "the session has not ended"

/-! ## State -/

/-- The engine's state, the registry, and what the session has seen. -/
structure World (ε κ σ : Type) where
  engine : ε
  registry : Registry σ
  /-- The outcome recorded for each origin. -/
  seen : List (κ × Outcome κ)
  /-- How many cases in a row have reached the recorded outcome. -/
  successes : Nat
  foundInteresting : Bool
  /-- How many cases were not interesting. -/
  failures : Nat
  report : Report

/-- Where a session stands. -/
inductive Phase (κ : Type) where
  | seeking
  | shrinking (attempt : Outcome κ) (origin : κ)
  | comparing (attempt : Outcome κ) (origin : κ) (shrunk : Outcome κ)
  | learning (attempt : Outcome κ) (origin : κ) (shrunk existing : Outcome κ)
  | finished

/-- A part of a session. What was done before an error stays done. -/
abbrev Action (ε κ σ α : Type) := ExceptT SessionError (StateM (World ε κ σ)) α

namespace Session

variable {ε κ σ : Type} [DecidableEq κ]

def begin (engine : ε) (registry : Registry σ) : World ε κ σ :=
  ⟨engine, registry, [], 0, false, 0, ⟨[], 0, 0⟩⟩

/-- Lets the engine act. -/
def withEngine {α : Type} (act : StateM ε α) : Action ε κ σ α := fun w =>
  let (a, e) := act w.engine
  (.ok a, { w with engine := e })

def record (origin : κ) (r : Outcome κ) : List (κ × Outcome κ) → List (κ × Outcome κ)
  | [] => [(origin, r)]
  | e :: rest => if e.1 = origin then (origin, r) :: rest else e :: record origin r rest

def recorded? (origin : κ) (seen : List (κ × Outcome κ)) : Option (Outcome κ) :=
  (seen.find? fun e => e.1 = origin).map Prod.snd

theorem recorded?_record (origin o : κ) (r : Outcome κ) (seen : List (κ × Outcome κ)) :
    recorded? o (record origin r seen) = if origin = o then some r else recorded? o seen := by
  induction seen with
  | nil => by_cases h : origin = o <;> simp [record, recorded?, h]
  | cons e rest ih =>
    unfold record
    split
    next he => by_cases h : origin = o <;> simp [recorded?, he, h]
    next hne =>
      by_cases h : e.1 = o
      · have : origin ≠ o := fun ho => hne (h.trans ho.symm)
        simp [recorded?, h, this]
      · simpa [recorded?, h] using ih

/-! ## Phases -/

/-- Generates a case, unless there were enough successes. -/
def seek (E : Engine ε κ) (settings : Settings) : Action ε κ σ (Phase κ) := do
  if settings.requiredSuccesses ≤ (← get).successes then return .finished
  let attempt ← withEngine E.generate
  match attempt.status, attempt.origin with
  | .interesting, some origin =>
    modify fun w => { w with
      foundInteresting := true, report := { w.report with examined := w.report.examined + 1 } }
    return .shrinking attempt origin
  | _, _ =>
    modify fun w => { w with
      failures := w.failures + 1,
      report := { w.report with uninteresting := w.report.uninteresting + 1 } }
    let w ← get
    if !w.foundInteresting && settings.maxFailedAttempts < w.failures then
      throw (.noInterestingCase w.failures)
    return .seeking

/-- Shrinks a case with the help of all registered automata. -/
def shrink (E : Engine ε κ) (attempt : Outcome κ) (origin : κ) : Action ε κ σ (Phase κ) := do
  let automata := (← get).registry.catalogue.entries.map Prod.snd
  let shrunk ← withEngine (E.shrink attempt automata fun r => r.isInterestingWith origin)
  return .comparing attempt origin shrunk

/-- Compares a shrunk case with the outcome recorded for its origin. -/
def compare (attempt : Outcome κ) (origin : κ) (shrunk : Outcome κ) : Action ε κ σ (Phase κ) := do
  match recorded? origin (← get).seen with
  | none =>
    modify fun w => { w with seen := record origin shrunk w.seen }
    return .seeking
  | some existing =>
    if existing.buffer = shrunk.buffer then
      modify fun w => { w with successes := w.successes + 1 }
      return .seeking
    else
      modify fun w => { w with successes := 0 }
      return .learning attempt origin shrunk existing

/-- Whether a core, put into the divergence, gives an interesting case of the origin that is
consumed as it is. -/
def coreOracle (E : Engine ε κ) (d : Divergence) (origin : κ) (allowDiscards : Bool) : Oracle ε :=
  fun core e =>
    let buffer := d.embed core
    let (r, e) := E.run buffer e
    (r.isInterestingWith origin && r.buffer == buffer && (allowDiscards || !r.hasDiscards), e)

/-- Learns the canonical automaton of the words that the oracle accepts, as far as the seeds and
the first words of the hypothesis show. `rounds` bounds the passes of the learner. -/
def learnFrom (oracle : Oracle ε) (seeds : List Word) (sample rounds : Nat) : Action ε κ σ Dfa := fun w =>
  let dialogue := do (← Observations.start).stabilize seeds sample rounds
  let (result, cache) := oracle.hold dialogue (Cache.empty w.engine)
  match result with
  | .ok T => (.ok T.dfa.canonical, { w with engine := cache.state })
  | .error e => (.error (.learner e), { w with engine := cache.state })

/-- The buffers of two outcomes, the preferred one first. -/
def rank (E : Engine ε κ) (shrunk existing : Outcome κ) : Action ε κ σ (Word × Word) := do
  let order ← withEngine (E.compare shrunk.buffer existing.buffer)
  if order = .gt then return (existing.buffer, shrunk.buffer) else return (shrunk.buffer, existing.buffer)

/-- Fails unless an automaton may be learned from these buffers. -/
def permit (settings : Settings) (smaller larger : Word) : Action ε κ σ Unit := do
  if !settings.allowedToUpdate then throw (.learningDisallowed smaller larger)
  if settings.maxDfas ≤ (← get).report.learned.length then throw (.budgetExceeded settings.maxDfas)
  if smaller.isPrefixOf larger then throw (.invalidDivergence smaller larger .extension)

/-- Fails unless the oracle accepts a core of these buffers. -/
def checkCore (oracle : Oracle ε) (smaller larger core : Word) : Action ε κ σ Unit := do
  if !(← withEngine (oracle core)) then throw (.invalidDivergence smaller larger (.rejectedCore core))

/-- Registers an automaton under a name that must be new. -/
def register (base : String) (A : Dfa) : Action ε κ σ Unit := do
  let name := nameFor base A
  let (fresh, catalogue) := (← get).registry.catalogue.insert name A
  if !fresh then throw (.nameCollision name)
  modify fun w => { w with
    registry := { w.registry with catalogue := catalogue },
    report := { w.report with learned := w.report.learned ++ [name] } }

/-- Records the smallest outcome that was found for an origin. -/
def refresh (E : Engine ε κ) (origin : κ) : Action ε κ σ Unit := do
  match ← withEngine (E.best origin) with
  | some r => modify fun w => { w with seen := record origin r w.seen }
  | none => return ()

/-- Learns from two outcomes of one origin that differ, and registers what was learned. -/
def learn (E : Engine ε κ) (settings : Settings) (base : String) (rounds : Nat) (origin : κ)
    (shrunk existing : Outcome κ) : Action ε κ σ Unit := do
  let (smaller, larger) ← rank E shrunk existing
  permit settings smaller larger
  let d := Divergence.split smaller larger
  let oracle := coreOracle E d origin (shrunk.hasDiscards || existing.hasDiscards)
  checkCore oracle smaller larger d.smallerCore
  checkCore oracle smaller larger d.largerCore
  let A ← learnFrom oracle [d.smallerCore, d.largerCore] settings.selfCheckSample rounds
  register base A
  refresh E origin

/-- The phase that is due. After learning, the same case is shrunk again. -/
def step (E : Engine ε κ) (settings : Settings) (base : String) (rounds : Nat) :
    Phase κ → Action ε κ σ (Phase κ)
  | .seeking => seek E settings
  | .shrinking attempt origin => shrink E attempt origin
  | .comparing attempt origin shrunk => compare attempt origin shrunk
  | .learning attempt origin shrunk existing => do
    learn E settings base rounds origin shrunk existing
    return .shrinking attempt origin
  | .finished => return .finished

/-- Steps until the session is finished, at most the given number of times. -/
def loop (E : Engine ε κ) (settings : Settings) (base : String) (rounds : Nat) :
    Nat → Phase κ → Action ε κ σ Unit
  | _, .finished => return ()
  | 0, _ => throw .outOfSteps
  | steps + 1, phase => do
    loop E settings base rounds steps (← step E settings base rounds phase)

def save [Store σ] : Action ε κ σ Unit := do
  let w ← get
  if w.report.learned = [] then return ()
  let (result, registry) := w.registry.flush
  set { w with registry := registry }
  match result with
  | .ok _ => return ()
  | .error e => throw (.registry e)

/-- A whole session: at most `steps` phases, with at most `rounds` passes of the learner in each. -/
def normalize [Store σ] (E : Engine ε κ) (settings : Settings) (base : String) (rounds steps : Nat) :
    Action ε κ σ Report := do
  loop E settings base rounds steps .seeking
  save
  return (← get).report

end Session
end ByteAutomata
