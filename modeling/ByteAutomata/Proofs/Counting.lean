import ByteAutomata.Proofs.LongestWords
import Mathlib.Algebra.BigOperators.Group.List.Basic
import Mathlib.Algebra.GroupWithZero.Nat

/-!
# Counts of words, and words by rank

* `Automaton.countFrom` : the number of words of a length, by the first byte; it is positive exactly if
  there is such a word (`countFrom_pos_iff`);
* `sum_foldl_tally`, `get_nextLayer` : grouping bytes by their targets keeps the sum;
* `choose_spec`, `descend_spec` : every rank below the count has a word, which is accepted;
* `Memo.Sound` : what earlier questions have left behind is right (`sound_fresh`, `sound_shape`,
  `sound_fill`, `nth_spec`).
-/

namespace ByteAutomata

set_option autoImplicit false

namespace Automaton

variable (M : Automaton)

/-- The number of words of a length that are accepted from a state. -/
def countFrom : Nat → Fin M.size → Nat
  | 0, q => if M.accepting q then 1 else 0
  | n + 1, q => ((M.edges q).map fun e => countFrom n e.2).sum

theorem countFrom_pos_iff (n : Nat) (q : Fin M.size) :
    0 < M.countFrom n q ↔ ∃ w, w.length = n ∧ M.acceptsFrom (some q) w = true := by
  induction n generalizing q with
  | zero =>
    unfold countFrom
    constructor
    · intro h
      refine ⟨[], rfl, ?_⟩
      by_contra hnot
      have hreject : ¬ M.accepting q = true := hnot
      rw [if_neg hreject] at h
      omega
    · intro h
      obtain ⟨w, hw, haccepts⟩ := h
      rw [List.length_eq_zero_iff.1 hw] at haccepts
      have haccept : M.accepting q = true := haccepts
      rw [if_pos haccept]
      omega
  | succ n ih =>
    unfold countFrom
    rw [List.sum_pos_iff_exists_pos_nat]
    constructor
    · intro h
      obtain ⟨k, hk, hpos⟩ := h
      obtain ⟨⟨b, t⟩, he, rfl⟩ := List.mem_map.1 hk
      obtain ⟨w, hw, haccepts⟩ := (ih t).1 hpos
      refine ⟨b :: w, by rw [List.length_cons, hw], ?_⟩
      rw [acceptsFrom_cons, advance_some, M.mem_edges.1 he]
      exact haccepts
    · intro h
      obtain ⟨w, hw, haccepts⟩ := h
      obtain ⟨b, w, rfl⟩ := List.exists_cons_of_length_eq_add_one hw
      rw [acceptsFrom_cons, advance_some] at haccepts
      obtain ⟨t, ht⟩ := M.exists_of_acceptsFrom haccepts
      rw [ht] at haccepts
      have hpos := (ih t).2 ⟨w, Nat.succ.inj hw, haccepts⟩
      exact ⟨_, List.mem_map.2 ⟨(b, t), M.mem_edges.2 ht, rfl⟩, hpos⟩

/-! ## Grouping by target -/

section Tally

variable {n : Nat} (weight : Fin n → Nat)

theorem sum_tally (t : Fin n) (groups : List (Fin n × Nat)) :
    ((tally t groups).map fun e => weight e.1 * e.2).sum = weight t + (groups.map fun e => weight e.1 * e.2).sum := by
  induction groups with
  | nil => simp [tally]
  | cons e groups ih =>
    obtain ⟨u, k⟩ := e
    unfold tally
    by_cases hut : u = t
    · rw [if_pos hut, List.map_cons, List.sum_cons, List.map_cons, List.sum_cons, hut]
      dsimp only
      rw [Nat.mul_add, Nat.mul_one]
      omega
    · rw [if_neg hut, List.map_cons, List.sum_cons, ih, List.map_cons, List.sum_cons]
      omega

theorem sum_foldl_tally (es : List (UInt8 × Fin n)) (groups : List (Fin n × Nat)) :
    ((es.foldl (fun groups e => tally e.2 groups) groups).map fun e => weight e.1 * e.2).sum =
      (es.map fun e => weight e.2).sum + (groups.map fun e => weight e.1 * e.2).sum := by
  induction es generalizing groups with
  | nil => simp
  | cons e es ih =>
    rw [List.foldl_cons, ih, sum_tally, List.map_cons, List.sum_cons]
    omega

theorem foldl_add_eq_sum {α : Type} (g : α → Nat) (l : List α) (start : Nat) :
    l.foldl (fun sum a => sum + g a) start = start + (l.map g).sum := by
  induction l generalizing start with
  | nil => rfl
  | cons a l ih =>
    rw [List.foldl_cons, ih, List.map_cons, List.sum_cons]
    omega

theorem mem_tally {t u : Fin n} {groups : List (Fin n × Nat)} :
    u ∈ (tally t groups).map Prod.fst ↔ u = t ∨ u ∈ groups.map Prod.fst := by
  induction groups with
  | nil => simp [tally]
  | cons e groups ih =>
    obtain ⟨v, k⟩ := e
    unfold tally
    by_cases hvt : v = t
    · rw [if_pos hvt, hvt]
      simp
    · rw [if_neg hvt, List.map_cons, List.mem_cons, ih, List.map_cons, List.mem_cons]
      exact or_left_comm

theorem mem_foldl_tally {u : Fin n} {es : List (UInt8 × Fin n)} {groups : List (Fin n × Nat)} :
    u ∈ (es.foldl (fun groups e => tally e.2 groups) groups).map Prod.fst ↔
      (∃ e ∈ es, e.2 = u) ∨ u ∈ groups.map Prod.fst := by
  induction es generalizing groups with
  | nil => simp
  | cons e es ih =>
    rw [List.foldl_cons, ih, mem_tally, List.exists_mem_cons_iff, eq_comm (a := u), or_left_comm, or_assoc]

end Tally

theorem mem_successors (p t : Fin M.size) :
    t ∈ (M.shape.successors.get p).map Prod.fst ↔ ∃ b, M.step p b = some t := by
  show t ∈ ((Vector.ofFn fun q => (M.edges q).foldl (fun groups e => tally e.2 groups) []).get p).map Prod.fst ↔ _
  rw [get_ofFn, mem_foldl_tally]
  constructor
  · rintro (⟨⟨b, u⟩, he, rfl⟩ | h)
    · exact ⟨b, M.mem_edges.1 he⟩
    · cases h
  · intro h
    obtain ⟨b, hb⟩ := h
    exact Or.inl ⟨(b, t), M.mem_edges.2 hb, rfl⟩

/-- The counts of the next length. -/
theorem get_nextLayer {layer : Vector Nat M.size} {k : Nat} (h : ∀ q, layer.get q = M.countFrom k q) (q : Fin M.size) :
    (Memo.nextLayer M.shape layer).get q = M.countFrom (k + 1) q := by
  have hget : (Memo.nextLayer M.shape layer).get q =
      (M.shape.successors.get q).foldl (fun sum e => sum + layer.get e.1 * e.2) 0 :=
    Vector.getElem_map _ q.isLt
  have hshape : M.shape.successors.get q = (M.edges q).foldl (fun groups e => tally e.2 groups) [] := get_ofFn _ q
  rw [hget, hshape, foldl_add_eq_sum, sum_foldl_tally layer.get]
  unfold countFrom
  simp only [h, List.map_nil, List.sum_nil, Nat.zero_add, Nat.add_zero]

/-! ## Words by rank -/

/-- A rank below the sum of all weights lies with one of the bytes. -/
theorem choose_spec {n : Nat} (step : UInt8 → Option (Fin n)) (weight : Fin n → Nat) (bs : List UInt8) (rank : Nat)
    (h : rank < ((bs.filterMap fun b => (step b).map (b, ·)).map fun e => weight e.2).sum) :
    ∃ b t r, Memo.choose step weight bs rank = some (b, t, r) ∧ step b = some t ∧ r < weight t := by
  induction bs generalizing rank with
  | nil => exact absurd h (Nat.not_lt_zero _)
  | cons b bs ih =>
    unfold Memo.choose
    cases hb : step b with
    | none =>
      rw [List.filterMap_cons_none (by rw [hb]; rfl)] at h
      exact ih rank h
    | some t =>
      have hmap : (step b).map (b, ·) = some (b, t) := by
        rw [hb]
        rfl
      rw [List.filterMap_cons, hmap] at h
      dsimp only at h
      rw [List.map_cons, List.sum_cons] at h
      dsimp only at h ⊢
      by_cases hrank : rank < weight t
      · rw [if_pos hrank]
        exact ⟨b, t, rank, rfl, hb, hrank⟩
      · rw [if_neg hrank]
        exact ih _ (by omega)

theorem descend_spec {weight : Nat → Fin M.size → Nat} (length : Nat)
    (hweight : ∀ k < length, ∀ q, weight k q = M.countFrom k q) {q : Fin M.size} {rank : Nat}
    (h : rank < M.countFrom length q) :
    ∃ w, Memo.descend M.step weight length q rank = some w ∧ w.length = length ∧
      M.acceptsFrom (some q) w = true := by
  induction length generalizing q rank with
  | zero =>
    obtain ⟨w, hw, haccepts⟩ := (M.countFrom_pos_iff 0 q).1 (by omega)
    rw [List.length_eq_zero_iff.1 hw] at haccepts
    exact ⟨[], rfl, rfl, haccepts⟩
  | succ length ih =>
    have hsum : rank < ((Byte.all.filterMap fun b => (M.step q b).map (b, ·)).map fun e => weight length e.2).sum := by
      have hlayer : (fun e : UInt8 × Fin M.size => weight length e.2) = fun e => M.countFrom length e.2 :=
        funext fun e => hweight length (Nat.lt_succ_self _) e.2
      rw [hlayer]
      exact h
    obtain ⟨b, t, r, hchoose, hstep, hr⟩ := choose_spec (M.step q) (weight length) Byte.all rank hsum
    rw [hweight length (Nat.lt_succ_self _)] at hr
    obtain ⟨w, hw, hlength, haccepts⟩ := ih (fun k hk => hweight k (by omega)) hr
    refine ⟨b :: w, ?_, by rw [List.length_cons, hlength], ?_⟩
    · unfold Memo.descend
      rw [hchoose]
      show (Memo.descend M.step weight length t r).bind (fun w => some (b :: w)) = some (b :: w)
      rw [hw]
      rfl
    · rw [acceptsFrom_cons, advance_some, hstep]
      exact haccepts

end Automaton

/-! ## What is remembered -/

namespace Memo

variable {A : Dfa} {m : Memo A}

/-- The memory is that of the automaton `A`, and no search is under way. -/
structure Sound (m : Memo A) : Prop where
  step : m.step = A.step
  known : ∀ s, m.known = some s → s = A.toAutomaton.shape
  noted : A.toAutomaton.Noted m.visits
  idle : ∀ p, m.visits.get p ≠ .entered
  layers : ∀ k counts, m.layers[k]? = some counts → ∀ q, counts.get q = A.toAutomaton.countFrom k q

theorem sound_fresh (A : Dfa) : (fresh A).Sound := by
  have hget : ∀ p, (fresh A).visits.get p = .unvisited := fun p => Vector.getElem_replicate p.isLt
  refine ⟨rfl, fun s hs => (nomatch hs), fun p l hp => ?_, fun p hp => ?_, fun k counts hk => ?_⟩
  · have hp := (hget p).symm.trans hp
    cases hp
  · have hp := (hget p).symm.trans hp
    cases hp
  · change (#[] : Array (Vector Nat A.size))[k]? = some counts at hk
    rw [Array.getElem?_empty] at hk
    cases hk

/-- Successors and live states depend on the steps only. -/
theorem shape_automaton (h : m.step = A.step) : m.automaton.shape = A.toAutomaton.shape := by
  show (Automaton.mk A.size (some A.start) A.accepting.get m.step).shape =
    (Automaton.mk A.size (some A.start) A.accepting.get A.step).shape
  rw [h]

theorem sound_shape (h : m.Sound) : m.shape.1 = A.toAutomaton.shape ∧ m.shape.2.Sound ∧ m.shape.2.layers = m.layers ∧
    m.shape.2.visits = m.visits := by
  unfold shape
  cases hk : m.known with
  | some s => exact ⟨h.known s hk, h, rfl, rfl⟩
  | none =>
    have htouch : m.touchAll.step = A.step := by
      rw [step_touchAll]
      exact h.step
    have hshape := shape_automaton htouch
    refine ⟨hshape, ⟨htouch, fun s hs => ?_, h.noted, h.idle, h.layers⟩, rfl, rfl⟩
    exact (Option.some.inj hs).symm.trans hshape

/-! ### Counts -/

theorem extend_spec {n : Nat} {M : Automaton} {layers : Array (Vector Nat M.size)} (hpos : 0 < layers.size)
    (h : ∀ k counts, layers[k]? = some counts → ∀ q, counts.get q = M.countFrom k q) :
    (extend M.shape n layers).size = layers.size + n ∧
      ∀ k counts, (extend M.shape n layers)[k]? = some counts → ∀ q, counts.get q = M.countFrom k q := by
  induction n generalizing layers with
  | zero => exact ⟨rfl, h⟩
  | succ n ih =>
    unfold extend
    have hback : layers.back? = some layers[layers.size - 1] := by
      rw [Array.back?_eq_getElem?]
      exact Array.getElem?_eq_getElem (by omega)
    rw [hback]
    dsimp only
    have hlast := h _ _ (Array.getElem?_eq_getElem (show layers.size - 1 < layers.size by omega))
    obtain ⟨hsize, hall⟩ := @ih (layers.push (nextLayer M.shape layers[layers.size - 1]))
      (by rw [Array.size_push]; omega) (by
        intro k counts hk q
        rw [Array.getElem?_push] at hk
        by_cases hkl : k = layers.size
        · rw [if_pos hkl] at hk
          cases hk
          rw [M.get_nextLayer hlast, hkl]
          congr 1
          omega
        · rw [if_neg hkl] at hk
          exact h k counts hk q)
    refine ⟨?_, hall⟩
    rw [hsize, Array.size_push]
    omega

theorem get_firstLayer (A : Dfa) (q : Fin A.size) : (firstLayer A).get q = A.toAutomaton.countFrom 0 q :=
  Vector.getElem_map _ q.isLt

/-- The memory with the counts of length zero. -/
def primed (m : Memo A) : Memo A := if m.layers.isEmpty then { m with layers := #[firstLayer A] } else m

/-- The memory with the counts of all lengths up to the given one. -/
def more (m : Memo A) (length : Nat) : Memo A :=
  { m.shape.2 with layers := extend m.shape.1 (length + 1 - m.shape.2.layers.size) m.shape.2.layers }

theorem fill_eq (m : Memo A) (length : Nat) :
    m.fill length = if length < m.primed.layers.size then m.primed else m.primed.more length := rfl

theorem sound_primed (h : m.Sound) : m.primed.Sound ∧ 0 < m.primed.layers.size := by
  unfold primed
  by_cases hempty : m.layers.isEmpty = true
  · rw [if_pos hempty]
    refine ⟨⟨h.step, h.known, h.noted, h.idle, fun k counts hk => ?_⟩, Nat.one_pos⟩
    cases k with
    | zero =>
      cases hk
      exact get_firstLayer A
    | succ k => cases hk
  · rw [if_neg hempty]
    rw [Array.isEmpty_iff_size_eq_zero] at hempty
    exact ⟨h, by omega⟩

theorem sound_more (h : m.Sound) (hpos : 0 < m.layers.size) (length : Nat) :
    (m.more length).Sound ∧ length < (m.more length).layers.size := by
  obtain ⟨hshape, hsound, hlayers, -⟩ := sound_shape h
  obtain ⟨hsize, hall⟩ := extend_spec (n := length + 1 - m.layers.size) (M := A.toAutomaton) hpos h.layers
  unfold more
  rw [hshape, hlayers]
  refine ⟨⟨hsound.step, hsound.known, hsound.noted, hsound.idle, hall⟩, Nat.lt_of_lt_of_eq ?_ hsize.symm⟩
  show length < m.layers.size + (length + 1 - m.layers.size)
  omega

/-- Afterwards the counts of all lengths up to the given one are known. -/
theorem sound_fill (h : m.Sound) (length : Nat) : (m.fill length).Sound ∧ length < (m.fill length).layers.size := by
  obtain ⟨hprimed, hpos⟩ := sound_primed h
  rw [fill_eq]
  by_cases hlen : length < m.primed.layers.size
  · rw [if_pos hlen]
    exact ⟨hprimed, hlen⟩
  · rw [if_neg hlen]
    exact sound_more hprimed hpos length

theorem Sound.layer_eq (h : m.Sound) {length : Nat} (hlen : length < m.layers.size) (q : Fin A.size) :
    m.layer length q = A.toAutomaton.countFrom length q := by
  unfold layer
  rw [Array.getElem?_eq_getElem hlen]
  exact h.layers length _ (Array.getElem?_eq_getElem hlen) q

theorem count_spec (h : m.Sound) (q : Fin A.size) (length : Nat) :
    (m.count (some q) length).1 = A.toAutomaton.countFrom length q ∧ (m.count (some q) length).2.Sound := by
  obtain ⟨hsound, hlen⟩ := sound_fill h length
  exact ⟨hsound.layer_eq hlen q, hsound⟩

/-- Every rank below the count has a word. -/
theorem nth_spec (h : m.Sound) {q : Fin A.size} {length rank : Nat} (hrank : rank < A.toAutomaton.countFrom length q) :
    ∃ w, (m.nth (some q) length rank).1 = .ok w ∧ w.length = length ∧
      A.toAutomaton.acceptsFrom (some q) w = true ∧ (m.nth (some q) length rank).2.Sound := by
  obtain ⟨hsound, hlen⟩ := sound_fill h length
  have hlayer := hsound.layer_eq hlen q
  have hweight : ∀ k < length, ∀ p, (m.fill length).layer k p = A.toAutomaton.countFrom k p :=
    fun k hk p => hsound.layer_eq (by omega) p
  obtain ⟨w, hw, hlength, haccepts⟩ := A.toAutomaton.descend_spec length hweight hrank
  have hdescend : descend (m.fill length).step (m.fill length).layer length q rank = some w := by
    rw [hsound.step]
    exact hw
  refine ⟨w, ?_, hlength, haccepts, ?_⟩
  · unfold nth count
    dsimp only
    rw [hlayer, if_pos hrank, hdescend]
  · unfold nth count
    dsimp only
    rw [hlayer, if_pos hrank, hdescend]
    exact hsound

end Memo
end ByteAutomata
