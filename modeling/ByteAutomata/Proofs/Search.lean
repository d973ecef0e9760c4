import ByteAutomata.Search
import Mathlib.Data.Fintype.Card

/-!
# What a breadth-first search finds

* `Search.Node s i q w` : the node at position `i` is `q`, found by the word `w` of labels;
* `Search.Walk edges starts w q` : the labels `w` lead from a start to `q`;
* `Search.Valid` : the positions of the nodes are known, each node was found by a walk, and this
  walk is no longer than its position (`valid_start`, `valid_discover`, `valid_expand`);
* `Search.Passed` : the nodes before a position are expanded and none is a goal;
* `Search.Ends` : the search without a bound ends with a result, which has what each expansion keeps
  (`Ends.result`). A bound on the number of nodes does not cut it short (`seek_ends`);
* `Search.seek_spec`, `Search.explore_knows` : the search ends at the first goal, or has found
  everything.
-/

namespace ByteAutomata.Search

set_option autoImplicit false

variable {σ ℓ : Type} [BEq σ] [Hashable σ]

/-- The node at position `i` is `q`, and was found by the word `w`. -/
def Node (s : Search σ ℓ) (i : Nat) (q : σ) (w : List ℓ) : Prop := s.nodes[i]? = some (q, w.reverse)

/-- The node has been found. -/
def Knows (s : Search σ ℓ) (q : σ) : Prop := ∃ i w, s.Node i q w

theorem Node.lt {s : Search σ ℓ} {i : Nat} {q : σ} {w : List ℓ} (h : s.Node i q w) : i < s.nodes.size :=
  (Array.getElem?_eq_some_iff.1 h).1

theorem Node.unique {s : Search σ ℓ} {i : Nat} {q p : σ} {w v : List ℓ} (h : s.Node i q w)
    (h' : s.Node i p v) : q = p ∧ w = v := by
  have e := Option.some.inj (h.symm.trans h')
  rw [Prod.mk.injEq, List.reverse_inj] at e
  exact e

theorem exists_node {s : Search σ ℓ} {i : Nat} (h : i < s.nodes.size) : ∃ q w, s.Node i q w := by
  refine ⟨s.nodes[i].1, s.nodes[i].2.reverse, ?_⟩
  unfold Node
  rw [List.reverse_reverse, Array.getElem?_eq_getElem h]

/-- All nodes of `s` stand at the same positions in `t`. -/
def Extends (s t : Search σ ℓ) : Prop := ∀ i q w, s.Node i q w → t.Node i q w

theorem Extends.refl (s : Search σ ℓ) : Extends s s := fun _ _ _ h => h

theorem Extends.trans {s t u : Search σ ℓ} (h₁ : Extends s t) (h₂ : Extends t u) : Extends s u :=
  fun i q w h => h₂ i q w (h₁ i q w h)

theorem Extends.knows {s t : Search σ ℓ} (h : Extends s t) {q : σ} (hq : s.Knows q) : t.Knows q := by
  obtain ⟨i, w, hi⟩ := hq
  exact ⟨i, w, h i q w hi⟩

theorem Extends.size_le {s t : Search σ ℓ} (h : Extends s t) : s.nodes.size ≤ t.nodes.size := by
  rcases Nat.eq_zero_or_pos s.nodes.size with h0 | hpos
  · omega
  · obtain ⟨q, w, hn⟩ := exists_node (s := s) (i := s.nodes.size - 1) (by omega)
    have := (h _ q w hn).lt
    omega

/-- The labels `w` lead from a start to `q`. -/
inductive Walk (edges : σ → List (ℓ × σ)) (starts : List σ) : List ℓ → σ → Prop where
  | start {q : σ} (h : q ∈ starts) : Walk edges starts [] q
  | step {w : List ℓ} {p q : σ} {l : ℓ} (h : Walk edges starts w p) (he : (l, q) ∈ edges p) :
      Walk edges starts (w ++ [l]) q

/-! ## Adding nodes -/

/-- The nodes of a search stand at the positions it remembers, and were found by walks that are no
longer than their positions. -/
structure Valid (edges : σ → List (ℓ × σ)) (starts : List σ) (s : Search σ ℓ) : Prop where
  index : ∀ q i, s.index[q]? = some i ↔ ∃ w, s.Node i q w
  walk : ∀ i q w, s.Node i q w → Walk edges starts w q
  short : ∀ i q w, s.Node i q w → w.length ≤ i

variable [LawfulBEq σ] [LawfulHashable σ] {edges : σ → List (ℓ × σ)} {starts : List σ}

theorem Valid.contains_iff {s : Search σ ℓ} (h : Valid edges starts s) (q : σ) :
    s.index.contains q = true ↔ s.Knows q := by
  rw [Std.HashMap.contains_eq_isSome_getElem?, Option.isSome_iff_exists]
  exact exists_congr fun i => h.index q i

omit [LawfulBEq σ] [LawfulHashable σ] in
theorem Valid.node_inj {s : Search σ ℓ} (h : Valid edges starts s) {i j : Nat} {q : σ} {w v : List ℓ}
    (hi : s.Node i q w) (hj : s.Node j q v) : i = j :=
  Option.some.inj (((h.index q i).2 ⟨w, hi⟩).symm.trans ((h.index q j).2 ⟨v, hj⟩))

omit [LawfulBEq σ] [LawfulHashable σ] in
theorem Valid.size_le [Fintype σ] {s : Search σ ℓ} (h : Valid edges starts s) :
    s.nodes.size ≤ Fintype.card σ := by
  have hinj : Function.Injective fun i : Fin s.nodes.size => s.nodes[i].1 := by
    intro i j hij
    obtain ⟨q, w, hi⟩ := exists_node i.isLt
    obtain ⟨p, v, hj⟩ := exists_node j.isLt
    have hq : s.nodes[i].1 = q := congrArg Prod.fst (Array.getElem?_eq_some_iff.1 hi).2
    have hp : s.nodes[j].1 = p := congrArg Prod.fst (Array.getElem?_eq_some_iff.1 hj).2
    have hqp : q = p := hq.symm.trans (hij.trans hp)
    subst hqp
    exact Fin.ext (h.node_inj hi hj)
  simpa using Fintype.card_le_of_injective _ hinj

omit [LawfulBEq σ] [LawfulHashable σ] in
theorem node_push {s : Search σ ℓ} {q p : σ} {w v : List ℓ} {i : Nat} {m : Std.HashMap σ Nat} :
    Node ⟨s.nodes.push (q, w.reverse), m⟩ i p v ↔ s.Node i p v ∨ (i = s.nodes.size ∧ p = q ∧ v = w) := by
  unfold Node
  rw [Array.getElem?_push]
  split
  next h =>
    rw [h, Array.getElem?_eq_none (Nat.le_refl _), Option.some.injEq, Prod.mk.injEq, List.reverse_inj]
    constructor
    · rintro ⟨rfl, rfl⟩; exact Or.inr ⟨rfl, rfl, rfl⟩
    · rintro (h | ⟨-, rfl, rfl⟩)
      · cases h
      · exact ⟨rfl, rfl⟩
  next h => exact ⟨Or.inl, fun h' => h'.resolve_right fun h'' => h h''.1⟩

theorem node_discover {s : Search σ ℓ} (h : Valid edges starts s) {q p : σ} {w v : List ℓ} {i : Nat} :
    (s.discover w.reverse q).Node i p v ↔
      s.Node i p v ∨ (¬ s.Knows q ∧ i = s.nodes.size ∧ p = q ∧ v = w) := by
  unfold discover
  split
  next hc =>
    have hk := (h.contains_iff q).1 hc
    exact ⟨Or.inl, fun h' => h'.resolve_right fun h'' => h''.1 hk⟩
  next hc =>
    have hk : ¬ s.Knows q := fun hk => hc ((h.contains_iff q).2 hk)
    rw [node_push, and_iff_right hk]

theorem knows_discover {s : Search σ ℓ} (h : Valid edges starts s) (q : σ) (w : List ℓ) :
    (s.discover w.reverse q).Knows q := by
  by_cases hk : s.Knows q
  · obtain ⟨i, v, hi⟩ := hk
    exact ⟨i, v, (node_discover h).2 (Or.inl hi)⟩
  · exact ⟨s.nodes.size, w, (node_discover h).2 (Or.inr ⟨hk, rfl, rfl, rfl⟩)⟩

theorem extends_discover {s : Search σ ℓ} (h : Valid edges starts s) (q : σ) (w : List ℓ) :
    Extends s (s.discover w.reverse q) := fun _ _ _ hn => (node_discover h).2 (Or.inl hn)

theorem valid_discover {s : Search σ ℓ} (h : Valid edges starts s) {q : σ} {w : List ℓ}
    (hw : Walk edges starts w q) (hlen : w.length ≤ s.nodes.size) :
    Valid edges starts (s.discover w.reverse q) where
  index p i := by
    simp only [node_discover h, exists_or]
    unfold discover
    split
    next hc =>
      have hk := (h.contains_iff q).1 hc
      rw [h.index]
      exact ⟨Or.inl, fun h' => h'.resolve_right fun ⟨_, hn, _⟩ => hn hk⟩
    next hc =>
      have hk : ¬ s.Knows q := fun hk => hc ((h.contains_iff q).2 hk)
      rw [Std.HashMap.getElem?_insert]
      by_cases hqp : q = p
      · subst hqp
        rw [if_pos (beq_self_eq_true q), Option.some.injEq]
        constructor
        · rintro rfl; exact Or.inr ⟨w, hk, rfl, rfl, rfl⟩
        · rintro (⟨v, hv⟩ | ⟨-, -, rfl, -⟩)
          · exact absurd ⟨i, v, hv⟩ hk
          · rfl
      · rw [if_neg (by simpa using hqp), h.index]
        exact ⟨Or.inl, fun h' => h'.resolve_right fun ⟨_, _, _, hp, _⟩ => hqp hp.symm⟩
  walk i p v hn := by
    rcases (node_discover h).1 hn with hn | ⟨-, -, rfl, rfl⟩
    · exact h.walk i p v hn
    · exact hw
  short i p v hn := by
    rcases (node_discover h).1 hn with hn | ⟨-, rfl, -, rfl⟩
    · exact h.short i p v hn
    · exact hlen

/-- Expanding a node adds its successors, each found by one label more. -/
theorem valid_expand {s : Search σ ℓ} (h : Valid edges starts s) {p : σ} {w : List ℓ}
    (hw : Walk edges starts w p) (hlen : w.length < s.nodes.size) (es : List (ℓ × σ))
    (hes : ∀ e ∈ es, e ∈ edges p) :
    Valid edges starts (s.expand w.reverse es) ∧ Extends s (s.expand w.reverse es) ∧
      ∀ e ∈ es, (s.expand w.reverse es).Knows e.2 := by
  induction es generalizing s with
  | nil => exact ⟨h, Extends.refl s, fun e he => by cases he⟩
  | cons e es ih =>
    have hd : s.discover (e.1 :: w.reverse) e.2 = s.discover (w ++ [e.1]).reverse e.2 := by
      rw [List.reverse_append]; rfl
    have hwe : Walk edges starts (w ++ [e.1]) e.2 := hw.step (hes e (List.mem_cons_self ..))
    have hv := valid_discover h hwe (by rw [List.length_append]; exact hlen)
    have hx := extends_discover h e.2 (w ++ [e.1])
    obtain ⟨ihv, ihx, ihk⟩ := ih (s := s.discover (w ++ [e.1]).reverse e.2) hv
      (Nat.lt_of_lt_of_le hlen hx.size_le) fun e' he' => hes e' (List.mem_cons_of_mem e he')
    have hexp : s.expand w.reverse (e :: es) = (s.discover (w ++ [e.1]).reverse e.2).expand w.reverse es := by
      rw [← hd]; rfl
    rw [hexp]
    refine ⟨ihv, hx.trans ihx, fun e' he' => ?_⟩
    rcases List.mem_cons.1 he' with rfl | he'
    · exact ihx.knows (knows_discover h _ _)
    · exact ihk e' he'

variable (edges starts) in
theorem valid_empty : Valid edges starts (empty : Search σ ℓ) where
  index q i := by simp [empty, Node]
  walk i q w hn := by simp [empty, Node] at hn
  short i q w hn := by simp [empty, Node] at hn

/-- The search before the first expansion. -/
theorem valid_start (qs : List σ) (hqs : ∀ q ∈ qs, q ∈ starts) {s : Search σ ℓ} (h : Valid edges starts s) :
    Valid edges starts (qs.foldl (fun s q => s.discover [] q) s) ∧
      Extends s (qs.foldl (fun s q => s.discover [] q) s) ∧
      ∀ q ∈ qs, (qs.foldl (fun s q => s.discover [] q) s).Knows q := by
  induction qs generalizing s with
  | nil => exact ⟨h, Extends.refl s, fun q hq => by cases hq⟩
  | cons q qs ih =>
    have hv : Valid edges starts (s.discover [] q) :=
      valid_discover h (w := []) (.start (hqs q (List.mem_cons_self ..))) (Nat.zero_le _)
    obtain ⟨ihv, ihx, ihk⟩ := ih (fun p hp => hqs p (List.mem_cons_of_mem q hp)) hv
    refine ⟨ihv, (extends_discover h q []).trans ihx, fun p hp => ?_⟩
    rcases List.mem_cons.1 hp with rfl | hp
    · exact ihx.knows (knows_discover h p [])
    · exact ihk p hp

/-! ## The loop -/

section Loop

variable {goal : σ → Bool}

/-- The search without a bound on its rounds, with the nodes before position `i` expanded, ends with the result
`r`. -/
inductive Ends (edges : σ → List (ℓ × σ)) (goal : σ → Bool) :
    Nat → Search σ ℓ → Search σ ℓ × Option Nat → Prop where
  | passed {i : Nat} {s : Search σ ℓ} (h : s.nodes.size ≤ i) : Ends edges goal i s (s, none)
  | goal {i : Nat} {s : Search σ ℓ} {q : σ} {w : List ℓ} (hn : s.Node i q w) (hg : goal q = true) :
      Ends edges goal i s (s, some i)
  | step {i : Nat} {s : Search σ ℓ} {q : σ} {w : List ℓ} {r : Search σ ℓ × Option Nat} (hn : s.Node i q w)
      (hg : goal q = false) (hr : Ends edges goal (i + 1) (s.expand w.reverse (edges q)) r) : Ends edges goal i s r

omit [LawfulBEq σ] [LawfulHashable σ] in
/-- A property of the search that every expansion keeps holds at its end, which is a goal or behind the last
node. -/
theorem Ends.result {P : Nat → Search σ ℓ → Prop}
    (step : ∀ i s q w, P i s → s.Node i q w → goal q = false → P (i + 1) (s.expand w.reverse (edges q)))
    {i : Nat} {s : Search σ ℓ} {r : Search σ ℓ × Option Nat} (h : Ends edges goal i s r) (hs : P i s) :
    match r.2 with
      | some k => P k r.1 ∧ ∃ q w, r.1.Node k q w ∧ goal q = true
      | none => ∃ j, P j r.1 ∧ r.1.nodes.size ≤ j := by
  induction h with
  | passed h => exact ⟨_, hs, h⟩
  | goal hn hg => exact ⟨hs, _, _, hn, hg⟩
  | step hn hg _ ih => exact ih (step _ _ _ _ hs hn hg)

/-- The nodes before position `i` have been expanded, and none of them is a goal. -/
structure Passed (edges : σ → List (ℓ × σ)) (starts : List σ) (goal : σ → Bool) (i : Nat)
    (s : Search σ ℓ) : Prop where
  valid : Valid edges starts s
  starts : ∀ q ∈ starts, s.Knows q
  expanded : ∀ j < i, ∀ q w, s.Node j q w → ∀ e ∈ edges q, s.Knows e.2
  missed : ∀ j < i, ∀ q w, s.Node j q w → goal q = false

theorem Passed.expand {i : Nat} {s : Search σ ℓ} (h : Passed edges starts goal i s) {q : σ} {w : List ℓ}
    (hn : s.Node i q w) (hg : goal q = false) :
    Passed edges starts goal (i + 1) (s.expand w.reverse (edges q)) := by
  obtain ⟨hv, hx, hk⟩ := valid_expand h.valid (h.valid.walk i q w hn)
    (Nat.lt_of_le_of_lt (h.valid.short i q w hn) hn.lt) (edges q) fun e he => he
  -- the nodes up to position `i` are those from before
  have hold : ∀ j < i + 1, ∀ p v, (s.expand w.reverse (edges q)).Node j p v → s.Node j p v := by
    intro j hj p v hjn
    obtain ⟨p', v', hjn'⟩ := exists_node (s := s) (i := j) (by have := hn.lt; omega)
    obtain ⟨rfl, rfl⟩ := hjn.unique (hx _ _ _ hjn')
    exact hjn'
  refine ⟨hv, fun p hp => hx.knows (h.starts p hp), fun j hj p v hjn e he => ?_, fun j hj p v hjn => ?_⟩
  · have hjn' := hold j hj p v hjn
    by_cases hji : j = i
    · subst hji
      obtain ⟨rfl, rfl⟩ := hjn'.unique hn
      exact hk e he
    · exact hx.knows (h.expanded j (by omega) p v hjn' e he)
  · have hjn' := hold j hj p v hjn
    by_cases hji : j = i
    · subst hji
      obtain ⟨rfl, rfl⟩ := hjn'.unique hn
      exact hg
    · exact h.missed j (by omega) p v hjn'

variable (edges starts goal) in
theorem passed_start : Passed edges starts goal 0 (starts.foldl (fun s q => s.discover [] q) empty) := by
  obtain ⟨hv, -, hk⟩ := valid_start starts (fun q hq => hq) (valid_empty edges starts)
  exact ⟨hv, hk, fun j hj => absurd hj (Nat.not_lt_zero j), fun j hj => absurd hj (Nat.not_lt_zero j)⟩

omit [LawfulBEq σ] [LawfulHashable σ] in
theorem Passed.knows_of_walk {s : Search σ ℓ} (h : Passed edges starts goal s.nodes.size s) {w : List ℓ}
    {q : σ} (hw : Walk edges starts w q) : s.Knows q := by
  induction hw with
  | start hq => exact h.starts _ hq
  | step _ he ih =>
    obtain ⟨j, v, hj⟩ := ih
    exact h.expanded j hj.lt _ v hj _ he

theorem Passed.ends [Fintype σ] {fuel i : Nat} {s : Search σ ℓ} (h : Passed edges starts goal i s)
    (hfuel : Fintype.card σ ≤ i + fuel) : Ends edges goal i s (loop edges goal fuel i s) := by
  induction fuel generalizing i s with
  | zero => exact .passed (Nat.le_trans h.valid.size_le hfuel)
  | succ fuel ih =>
    unfold loop
    split
    next hn => exact .passed (Array.getElem?_eq_none_iff.1 hn)
    next q path hn =>
      have hnode : s.Node i q path.reverse := by rw [Node, List.reverse_reverse]; exact hn
      cases hg : goal q with
      | true => exact .goal hnode hg
      | false =>
        have hrest := ih (h.expand hnode hg) (by omega)
        have hstep := Ends.step hnode hg hrest
        rw [List.reverse_reverse] at hstep
        exact hstep

variable (edges starts goal) in
/-- A bound on the number of nodes does not cut the search short. -/
theorem seek_ends [Fintype σ] {bound : Nat} (hb : Fintype.card σ ≤ bound) :
    Ends edges goal 0 (starts.foldl (fun s q => s.discover [] q) empty) (seek edges goal bound starts) :=
  (passed_start edges starts goal).ends (by omega)

variable (edges starts goal) in
/-- The search ends at the first goal in the order of discovery, or has found all nodes and none
of them is a goal. -/
theorem seek_spec [Fintype σ] {bound : Nat} (hb : Fintype.card σ ≤ bound) :
    let r := seek edges goal bound starts
    match r.2 with
    | some k => Passed edges starts goal k r.1 ∧ ∃ q w, r.1.Node k q w ∧ goal q = true
    | none => Passed edges starts goal r.1.nodes.size r.1 := by
  intro r
  have hend := (seek_ends edges starts goal hb).result (P := Passed edges starts goal)
    (fun i s q w h hn hg => h.expand hn hg) (passed_start edges starts goal)
  change match r.2 with
    | some k => Passed edges starts goal k r.1 ∧ ∃ q w, r.1.Node k q w ∧ goal q = true
    | none => ∃ j, Passed edges starts goal j r.1 ∧ r.1.nodes.size ≤ j at hend
  cases hr : r.2 with
  | some k =>
    rw [hr] at hend
    exact hend
  | none =>
    rw [hr] at hend
    obtain ⟨j, hj, hle⟩ := hend
    exact ⟨hj.valid, hj.starts, fun i hi => hj.expanded i (by omega), fun i hi => hj.missed i (by omega)⟩

end Loop

variable (edges starts) in
/-- Without a goal the search passes all nodes. -/
theorem passed_explore [Fintype σ] {bound : Nat} (hb : Fintype.card σ ≤ bound) :
    Passed edges starts (fun _ => false) (explore edges bound starts).nodes.size
      (explore edges bound starts) := by
  have h := seek_spec edges starts (fun _ => false) hb
  unfold explore
  simp only at h
  split at h
  · obtain ⟨-, q, w, -, hg⟩ := h
    cases hg
  · exact h

theorem explore_knows [Fintype σ] {bound : Nat} (hb : Fintype.card σ ≤ bound) (q : σ) :
    (explore edges bound starts).Knows q ↔ ∃ w, Walk edges starts w q := by
  have h := passed_explore edges starts hb
  constructor
  · intro h
    obtain ⟨i, w, hi⟩ := h
    exact ⟨w, h.valid.walk i q w hi⟩
  · intro h
    obtain ⟨w, hw⟩ := h
    exact h.knows_of_walk hw

end ByteAutomata.Search
