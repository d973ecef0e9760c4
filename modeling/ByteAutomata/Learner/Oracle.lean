import Std.Data.HashMap
import ByteAutomata.Dialogue
import ByteAutomata.Word

/-!
# Oracles and their memory

* `Oracle σ` : answers whether a word belongs to a language. It may have a state, and need not
  answer alike twice;
* `Cache σ` : the first answer for every word that was asked, and the oracle's state;
* `Oracle.ask` : passes a word on only if it is new (`ask_known`, `ask_new`);
* `Oracle.hold` : a dialogue about words, held with an oracle behind its cache.
-/

namespace ByteAutomata

set_option autoImplicit false

/-- Whether words belong to a language. -/
abbrev Oracle (σ : Type) := Word → σ → Bool × σ

/-- The first answers of an oracle, and its state. -/
structure Cache (σ : Type) where
  answers : Std.HashMap Word Bool
  state : σ

namespace Cache

variable {σ : Type}

def empty (state : σ) : Cache σ := ⟨∅, state⟩

def cached (c : Cache σ) (w : Word) : Option Bool := c.answers[w]?

/-- The number of distinct words that were passed on. -/
def queries (c : Cache σ) : Nat := c.answers.size

end Cache

namespace Oracle

variable {σ α : Type}

/-- The answer for a word, asking the oracle only if the word is new. -/
def ask (oracle : Oracle σ) (w : Word) (c : Cache σ) : Bool × Cache σ :=
  match c.cached w with
  | some a => (a, c)
  | none => let (a, s) := oracle w c.state; (a, ⟨c.answers.insert w a, s⟩)

/-- Holds a dialogue about words. -/
def hold (oracle : Oracle σ) (d : Dialogue Word α) (c : Cache σ) : Except LearnFault α × Cache σ :=
  d.run oracle.ask c

theorem ask_known {oracle : Oracle σ} {w : Word} {c : Cache σ} {a : Bool} (h : c.cached w = some a) :
    oracle.ask w c = (a, c) := by rw [ask, h]

theorem ask_new {oracle : Oracle σ} {w : Word} {c : Cache σ} (h : c.cached w = none) :
    oracle.ask w c = ((oracle w c.state).1, ⟨c.answers.insert w (oracle w c.state).1, (oracle w c.state).2⟩) := by
  rw [ask, h]

theorem cached_ask (oracle : Oracle σ) (w : Word) (c : Cache σ) :
    (oracle.ask w c).2.cached w = some (oracle.ask w c).1 := by
  cases h : c.cached w with
  | some a => rw [ask_known h]; exact h
  | none => rw [ask_new h]; simp [Cache.cached]

end Oracle
end ByteAutomata
