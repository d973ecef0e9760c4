import ByteAutomata.Dfa.Memo

/-!
# Accepted words in order

* `Words` : a place in the list of accepted words, in shortlex order: the length, the rank among
  the words of that length, and the length of the longest word;
* `Words.first` : the place before the first word;
* `Words.next` : the word at a place and the place behind it. Lengths without words are skipped.
  While a longer word is accepted there is one within the next `size` lengths, so only that many
  are skipped;
* `Words.take` : the next words, and `Dfa.words` the first ones of an automaton.
-/

namespace ByteAutomata

set_option autoImplicit false

/-- A place in the list of accepted words. Without a limit no word is left. -/
structure Words where
  length : Nat
  rank : Nat
  limit : Option MaxLength
deriving DecidableEq

namespace Words

variable {A : Dfa}

def first (m : Memo A) : Words × Memo A :=
  let (dead, m) := m.isDead (some A.start)
  if dead then (⟨0, 0, none⟩, m)
  else
    let (length, m) := m.maxLength (some A.start)
    (⟨0, 0, some length⟩, m)

/-- Whether words of the current length are past the limit. -/
def exhausted (w : Words) : Bool :=
  match w.limit with
  | none => true
  | some (.finite longest) => longest < w.length
  | some .infinite => false

/-- The next word, skipping fewer than the given number of lengths. -/
def seek : Nat → Words → Memo A → Except Fault (Option Word) × Words × Memo A
  | 0, w, m => (.error .skippedTooFar, w, m)
  | fuel + 1, w, m =>
    if w.exhausted then (.ok none, { w with limit := none }, m)
    else
      let (total, m) := m.count (some A.start) w.length
      if w.rank < total then
        match m.nth (some A.start) w.length w.rank with
        | (.ok word, m) => (.ok (some word), { w with rank := w.rank + 1 }, m)
        | (.error e, m) => (.error e, w, m)
      else seek fuel { w with length := w.length + 1, rank := 0 } m

def next (w : Words) (m : Memo A) : Except Fault (Option Word) × Words × Memo A :=
  seek (A.size + 2) w m

/-- Up to `n` words from a place on. -/
def take : Nat → Words → Memo A → Except Fault (List Word) × Words × Memo A
  | 0, w, m => (.ok [], w, m)
  | n + 1, w, m =>
    match w.next m with
    | (.ok (some word), w, m) =>
      match take n w m with
      | (.ok words, w, m) => (.ok (word :: words), w, m)
      | (.error e, w, m) => (.error e, w, m)
    | (.ok none, w, m) => (.ok [], w, m)
    | (.error e, w, m) => (.error e, w, m)

end Words

/-- The first `n` accepted words. -/
def Dfa.words (A : Dfa) (n : Nat) : Except Fault (List Word) :=
  let (w, m) := Words.first (Memo.fresh A)
  (w.take n m).1

end ByteAutomata
