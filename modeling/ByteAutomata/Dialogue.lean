/-!
# Computations that ask yes-or-no questions

* `Dialogue ι α` : asks questions `ι` one at a time, each depending on the answers before, and
  ends with a result or a `LearnFault`;
* `Dialogue.result f`, `Dialogue.asked f` : the result, and the questions in order, when the answers
  are those of the function `f` (`result_bind`, `asked_bind`);
* `Dialogue.run` : the result when the answers come from somewhere with a state;
* `Dialogue.relay` : answers every question by a dialogue of its own.
-/

namespace ByteAutomata

set_option autoImplicit false

/-- What ends a dialogue without a result. -/
inductive LearnFault where
  /-- A search has doubled its bound past 64 bits. -/
  | overflow
  /-- No byte class was split although normalising changed an answer. -/
  | unsplit
  /-- No position explains why a word is misclassified. -/
  | noBoundary
  /-- A loop has run more rounds than it can need. -/
  | outOfRounds
  /-- The accepted words could not be listed. -/
  | unlisted
deriving DecidableEq

def LearnFault.message : LearnFault → String
  | overflow => "attempt to multiply with overflow"
  | unsplit => "a byte class must split if normalising changes the answer"
  | noBoundary => "no position explains the misclassified word"
  | outOfRounds => "the learner has not become stable"
  | unlisted => "accepted word counts are inconsistent"

/-- A computation that may ask questions. -/
inductive Dialogue (ι α : Type) where
  | done (result : α)
  | fail (fault : LearnFault)
  | ask (question : ι) (next : Bool → Dialogue ι α)

namespace Dialogue

variable {ι κ α β γ : Type}

def bind : Dialogue ι α → (α → Dialogue ι β) → Dialogue ι β
  | done a, f => f a
  | fail e, _ => fail e
  | ask i next, f => ask i fun b => (next b).bind f

instance : Monad (Dialogue ι) where
  pure := done
  bind := bind

def query (i : ι) : Dialogue ι Bool := ask i done

theorem bind_assoc (d : Dialogue ι α) (f : α → Dialogue ι β) (g : β → Dialogue ι γ) :
    (d.bind f).bind g = d.bind fun a => (f a).bind g := by
  induction d with
  | done a => rfl
  | fail e => rfl
  | ask i next ih => exact congrArg (ask i) (funext ih)

theorem bind_done (d : Dialogue ι α) : d.bind done = d := by
  induction d with
  | done a => rfl
  | fail e => rfl
  | ask i next ih => exact congrArg (ask i) (funext ih)

instance : LawfulMonad (Dialogue ι) := LawfulMonad.mk' _ bind_done (fun _ _ => rfl) bind_assoc

/-! ## Answers -/

/-- The result when `f` gives the answers. -/
def result (f : ι → Bool) : Dialogue ι α → Except LearnFault α
  | done a => .ok a
  | fail e => .error e
  | ask i next => result f (next (f i))

/-- The questions in order when `f` gives the answers. -/
def asked (f : ι → Bool) : Dialogue ι α → List ι
  | done _ => []
  | fail _ => []
  | ask i next => i :: asked f (next (f i))

/-- The result when the answers come from `answer`, which has a state. -/
def run {ρ : Type} (answer : ι → ρ → Bool × ρ) : Dialogue ι α → ρ → Except LearnFault α × ρ
  | done a, r => (.ok a, r)
  | fail e, r => (.error e, r)
  | ask i next, r => let (b, r) := answer i r; run answer (next b) r

/-- Answers every question by another dialogue. -/
def relay (answer : ι → Dialogue κ Bool) : Dialogue ι α → Dialogue κ α
  | done a => done a
  | fail e => fail e
  | ask i next => (answer i).bind fun b => relay answer (next b)

@[simp] theorem result_query (f : ι → Bool) (i : ι) : (query i).result f = .ok (f i) := rfl

theorem result_bind (f : ι → Bool) (d : Dialogue ι α) (k : α → Dialogue ι β) :
    (d >>= k).result f = d.result f >>= fun a => (k a).result f := by
  induction d with
  | done a => rfl
  | fail e => rfl
  | ask i next ih => exact ih (f i)

theorem asked_bind (f : ι → Bool) (d : Dialogue ι α) (k : α → Dialogue ι β) :
    (d >>= k).asked f = d.asked f ++ match d.result f with
      | .ok a => (k a).asked f
      | .error _ => [] := by
  induction d with
  | done a => rfl
  | fail e => rfl
  | ask i next ih => exact congrArg (i :: ·) (ih (f i))

end Dialogue
end ByteAutomata
