import ByteAutomata.Dfa.Words
import ByteAutomata.Proofs.Counting

/-!
# Listing words never fails

* `isDead_spec`, `maxLength_spec` : dead states, and a length that accepted words attain;
* `exists_count_pos` : where longer words are accepted, there is one within the next `size` lengths;
* `Words.seek_spec`, `Words.take_spec` : so the search for the next word ends;
* `words_spec` : the first words of an automaton are listed, and all of them are accepted.
-/

namespace ByteAutomata

set_option autoImplicit false

theorem exists_count_pos {M : Automaton} {q : Fin M.size} {n : Nat} (h : M.AcceptsLong q n) :
    ∃ j < M.size, 0 < M.countFrom (n + j) q := by
  obtain ⟨w, hw, hn⟩ := h
  rw [← List.take_append_drop n w, Automaton.acceptsFrom_append] at hw
  obtain ⟨p, hp⟩ := M.exists_of_acceptsFrom hw
  rw [hp] at hw
  obtain ⟨v, hv, haccepts⟩ := M.exists_short_of_alive ((M.alive_iff p).2 ⟨_, hw⟩)
  refine ⟨v.length, hv, (M.countFrom_pos_iff _ q).2 ⟨w.take n ++ v, ?_, ?_⟩⟩
  · rw [List.length_append, List.length_take, Nat.min_eq_left hn]
  · rw [Automaton.acceptsFrom_append, hp]
    exact haccepts

namespace Memo

variable {A : Dfa} {m : Memo A}

theorem isDead_spec (h : m.Sound) (q : Fin A.size) :
    ((m.isDead (some q)).1 = false → A.toAutomaton.Live q) ∧ (m.isDead (some q)).2.Sound := by
  obtain ⟨hshape, hsound, -⟩ := sound_shape h
  refine ⟨fun hdead => ?_, hsound⟩
  change (!m.shape.1.live.get q) = false at hdead
  rw [hshape, Bool.not_eq_false'] at hdead
  exact (A.toAutomaton.alive_iff q).1 hdead

/-- The length that is found is attained. -/
theorem maxLength_spec (h : m.Sound) {q : Fin A.size} (hq : A.toAutomaton.Live q) :
    A.toAutomaton.Attained q (m.maxLength (some q)).1 ∧ (m.maxLength (some q)).2.Sound := by
  obtain ⟨hshape, hsound, -, hvisits⟩ := sound_shape h
  have hlive : m.shape.1.live.get q = true := by
    rw [hshape]
    exact (A.toAutomaton.alive_iff q).2 hq
  have hnext : ∀ p, ∀ c ∈ ((m.shape.1.successors.get p).map Prod.fst).filter m.shape.1.live.get,
      A.toAutomaton.Live c ∧ ∃ b, A.toAutomaton.step p b = some c := by
    intro p c hc
    rw [hshape, List.mem_filter] at hc
    exact ⟨(A.toAutomaton.alive_iff c).1 hc.2, (A.toAutomaton.mem_successors p c).1 hc.1⟩
  have hsearch := A.toAutomaton.longest_attained hnext A.size q _ hq hsound.noted
    fun p hp => absurd hp (hsound.idle p)
  unfold maxLength
  dsimp only
  rw [if_pos hlive]
  cases hv : m.shape.2.visits.get q with
  | done length => exact ⟨hsound.noted q length hv, hsound⟩
  | unvisited =>
    exact ⟨hsearch.1, hsound.step, hsound.known, hsearch.2.1, fun p hp => hsound.idle p (hsearch.2.2 p hp),
      hsound.layers⟩
  | entered => exact absurd hv (hsound.idle q)

end Memo

namespace Words

variable {A : Dfa} {m : Memo A} {w : Words}

/-- Accepted words become as long as the limit says. -/
def Attains (A : Dfa) (w : Words) : Prop := ∀ limit, w.limit = some limit → A.toAutomaton.Attained A.start limit

theorem Attains.acceptsLong (h : w.Attains A) (hmore : w.exhausted = false) :
    A.toAutomaton.AcceptsLong A.start w.length := by
  unfold exhausted at hmore
  cases hlimit : w.limit with
  | none =>
    rw [hlimit] at hmore
    cases hmore
  | some limit =>
    have hattained := h limit hlimit
    rw [hlimit] at hmore
    cases limit with
    | finite longest =>
      obtain ⟨v, hv, hlong⟩ := hattained
      have hle : ¬ longest < w.length := of_decide_eq_false hmore
      exact ⟨v, hv, by omega⟩
    | infinite => exact hattained w.length

/-- What a search for the next word leaves behind, if it succeeds. -/
structure Sought (A : Dfa) (r : Except Fault (Option Word) × Words × Memo A) : Prop where
  ok : ∃ next, r.1 = .ok next ∧ ∀ word, next = some word → A.accepts word = true
  attains : r.2.1.Attains A
  sound : r.2.2.Sound

theorem sought_of_exhausted (hm : m.Sound) : Sought A (.ok none, { w with limit := none }, m) where
  ok := ⟨none, rfl, fun _ h => nomatch h⟩
  attains _ h := nomatch h
  sound := hm

/-- If the rank is below the count of words then there is a word. -/
theorem seek_of_rank (hm : m.Sound) (hw : w.Attains A) (hmore : w.exhausted = false)
    (hrank : w.rank < A.toAutomaton.countFrom w.length A.start) (fuel : Nat) : Sought A (seek (fuel + 1) w m) := by
  obtain ⟨hcount, hsound⟩ := Memo.count_spec hm A.start w.length
  obtain ⟨word, hword, -, haccepts, hsound'⟩ := Memo.nth_spec hsound hrank
  unfold seek
  rw [if_neg (by rw [hmore]; exact Bool.false_ne_true)]
  dsimp only
  rw [if_pos (by rw [hcount]; exact hrank)]
  generalize hnth : (m.count (some A.start) w.length).2.nth (some A.start) w.length w.rank = r at hword hsound'
  obtain ⟨answer, k⟩ := r
  dsimp only at hword hsound'
  subst hword
  exact ⟨⟨some word, rfl, fun v hv => Option.some.inj hv ▸ haccepts⟩, hw, hsound'⟩

/-- Otherwise the search goes on with the next length. -/
theorem seek_of_not_rank (hm : m.Sound) (hmore : w.exhausted = false)
    (hrank : ¬ w.rank < A.toAutomaton.countFrom w.length A.start) (fuel : Nat) :
    ∃ k : Memo A, k.Sound ∧ seek (fuel + 1) w m = seek fuel { w with length := w.length + 1, rank := 0 } k := by
  obtain ⟨hcount, hsound⟩ := Memo.count_spec hm A.start w.length
  refine ⟨_, hsound, ?_⟩
  rw [seek, if_neg (by rw [hmore]; exact Bool.false_ne_true)]
  dsimp only
  rw [if_neg (by rw [hcount]; exact hrank)]

/-- The search ends at the next length with words, or behind the last one. -/
theorem seek_spec {fuel : Nat} (hm : m.Sound) (hw : w.Attains A) (hzero : w.rank = 0) (hpos : 0 < fuel)
    (hfuel : w.exhausted = false → ∃ j < fuel, 0 < A.toAutomaton.countFrom (w.length + j) A.start) :
    Sought A (seek fuel w m) := by
  induction fuel generalizing w m with
  | zero => exact absurd hpos (Nat.lt_irrefl 0)
  | succ fuel ih =>
    cases hmore : w.exhausted with
    | true =>
      unfold seek
      rw [if_pos hmore]
      exact sought_of_exhausted hm
    | false =>
      by_cases hrank : w.rank < A.toAutomaton.countFrom w.length A.start
      · exact seek_of_rank hm hw hmore hrank fuel
      · obtain ⟨k, hk, hseek⟩ := seek_of_not_rank hm hmore hrank fuel
        rw [hseek]
        obtain ⟨j, hj, hcount⟩ := hfuel hmore
        cases j with
        | zero =>
          rw [hzero] at hrank
          exact absurd hcount hrank
        | succ j =>
          refine ih hk hw rfl (by omega) fun _ => ⟨j, by omega, ?_⟩
          show 0 < A.toAutomaton.countFrom (w.length + 1 + j) A.start
          rwa [Nat.add_assoc, Nat.add_comm 1 j]

theorem next_spec (hm : m.Sound) (hw : w.Attains A) : Sought A (w.next m) := by
  unfold next
  cases hmore : w.exhausted with
  | true =>
    unfold seek
    rw [if_pos hmore]
    exact sought_of_exhausted hm
  | false =>
    by_cases hrank : w.rank < A.toAutomaton.countFrom w.length A.start
    · exact seek_of_rank hm hw hmore hrank _
    · obtain ⟨k, hk, hseek⟩ := seek_of_not_rank hm hmore hrank (A.size + 1)
      rw [hseek]
      have hw' : Attains A { w with length := w.length + 1, rank := 0 } := hw
      apply seek_spec hk hw' rfl (Nat.succ_pos _)
      intro hmore'
      obtain ⟨j, hj, hcount⟩ := exists_count_pos (hw'.acceptsLong hmore')
      exact ⟨j, Nat.lt_succ_of_lt hj, hcount⟩

theorem take_spec (n : Nat) (hm : m.Sound) (hw : w.Attains A) :
    ∃ words, (w.take n m).1 = .ok words ∧ ∀ word ∈ words, A.accepts word = true := by
  induction n generalizing w m with
  | zero => exact ⟨[], rfl, fun _ h => nomatch h⟩
  | succ n ih =>
    obtain ⟨⟨next, hnext, haccepts⟩, hattains, hsound⟩ := next_spec hm hw
    unfold take
    generalize w.next m = r at hnext hattains hsound
    obtain ⟨answer, w', m'⟩ := r
    dsimp only at hnext hattains hsound
    subst hnext
    cases next with
    | none => exact ⟨[], rfl, fun _ h => nomatch h⟩
    | some word =>
      obtain ⟨words, hwords, hall⟩ := ih hsound hattains
      dsimp only
      generalize w'.take n m' = rest at hwords
      obtain ⟨answer, w'', m''⟩ := rest
      dsimp only at hwords
      subst hwords
      refine ⟨word :: words, rfl, fun v hv => ?_⟩
      rcases List.mem_cons.1 hv with rfl | hv
      · exact haccepts v rfl
      · exact hall v hv

theorem first_spec (hm : m.Sound) : (first m).1.Attains A ∧ (first m).2.Sound := by
  obtain ⟨hlive, hsound⟩ := Memo.isDead_spec hm A.start
  unfold first
  dsimp only
  cases hdead : (m.isDead (some A.start)).1 with
  | true => exact ⟨fun _ h => (nomatch h), hsound⟩
  | false =>
    obtain ⟨hattained, hsound'⟩ := Memo.maxLength_spec hsound (hlive hdead)
    refine ⟨fun limit hlimit => ?_, hsound'⟩
    cases hlimit
    exact hattained

end Words

/-- The first words of an automaton can be listed, however many are asked for. -/
theorem Dfa.words_spec (A : Dfa) (n : Nat) : ∃ ws, A.words n = .ok ws ∧ ∀ w ∈ ws, A.accepts w = true := by
  obtain ⟨hattains, hsound⟩ := Words.first_spec (Memo.sound_fresh A)
  exact Words.take_spec n hsound hattains

end ByteAutomata
