import ByteAutomata.Word
import ByteAutomata.Proofs.Search

/-!
# The order in which a breadth-first search finds nodes

With the bytes of each node's edges ascending, the search from one start finds its nodes in the
shortlex order of the words that find them, and finds each by its least word.

* `shortlex_snoc` : one more byte at the end of both words;
* `Search.Ordered` : what holds while the nodes before a position have been expanded;
* `Search.ascending_expand` : one expansion;
* `Search.ordered_seek`, `Search.seek_least` : the search for a goal, which finds the one with the least word;
* `Search.explore_ascending`, `Search.explore_least` : the search for all nodes.
-/

namespace ByteAutomata

set_option autoImplicit false

instance : Std.TransCmp shortlex :=
  inferInstanceAs (Std.TransCmp (compareLex (compareOn List.length) compare))

theorem compare_snoc {v w : Word} (h : v.length = w.length) (a b : UInt8) :
    compare (v ++ [a]) (w ++ [b]) = (compare v w).then (compare a b) := by
  induction v generalizing w with
  | nil =>
    have hw : w = [] := List.eq_nil_of_length_eq_zero h.symm
    subst hw
    rw [List.nil_append, List.nil_append, List.compare_cons_cons, List.compare_nil_nil]
    cases compare a b <;> rfl
  | cons c v ih =>
    cases w with
    | nil => simp at h
    | cons d w =>
      rw [List.cons_append, List.cons_append, List.compare_cons_cons, List.compare_cons_cons,
        ih (by simpa using h), Ordering.then_assoc]

/-- One more byte at the end of both words decides between equal words only. -/
theorem shortlex_snoc (v w : Word) (a b : UInt8) :
    shortlex (v ++ [a]) (w ++ [b]) = (shortlex v w).then (compare a b) := by
  have hlen : compare (v ++ [a]).length (w ++ [b]).length = compare v.length w.length := by
    rw [List.length_append, List.length_append, List.length_singleton, List.length_singleton]
    simp only [Nat.compare_eq_ite_lt, Nat.add_lt_add_iff_right]
  unfold shortlex
  rw [hlen]
  cases h : compare v.length w.length with
  | eq => exact compare_snoc (Nat.compare_eq_eq.1 h) a b
  | lt => rfl
  | gt => rfl

theorem shortlex_snoc_lt {v w : Word} (h : shortlex v w = .lt) (a b : UInt8) :
    shortlex (v ++ [a]) (w ++ [b]) = .lt := by
  rw [shortlex_snoc, h]; rfl

theorem shortlex_snoc_isLE {v w : Word} (h : (shortlex v w).isLE = true) (a : UInt8) :
    (shortlex (v ++ [a]) (w ++ [a])).isLE = true := by
  have ha : compare a a = .eq := Std.ReflCmp.compare_self
  rw [shortlex_snoc, ha]
  cases hs : shortlex v w with
  | lt => rfl
  | eq => rfl
  | gt => rw [hs] at h; cases h

theorem shortlex_of_length_lt {v w : Word} (h : v.length < w.length) : shortlex v w = .lt := by
  unfold shortlex
  rw [Nat.compare_eq_lt.2 h]
  rfl

theorem shortlex_nil_snoc (w : Word) (a : UInt8) : shortlex [] (w ++ [a]) = .lt :=
  shortlex_of_length_lt (by simp)

theorem shortlex_self_snoc (w : Word) (a : UInt8) : shortlex w (w ++ [a]) = .lt :=
  shortlex_of_length_lt (by simp)

namespace Search

variable {σ : Type} [BEq σ] [Hashable σ]

/-- The words of the nodes ascend. -/
def Ascending (s : Search σ UInt8) : Prop :=
  ∀ j k p q v w, j < k → s.Node j p v → s.Node k q w → shortlex v w = .lt

/-- The nodes before position `i` have been expanded: a word leads from one of them, and no
successor was found by a word that is behind the least one. -/
structure Ordered (edges : σ → List (UInt8 × σ)) (starts : List σ) (i : Nat) (s : Search σ UInt8) : Prop where
  ascending : s.Ascending
  roots : ∀ q ∈ starts, ∃ k, s.Node k q []
  parent : ∀ k q w, s.Node k q w → w = [] ∨ ∃ j < i, ∃ p v b, s.Node j p v ∧ w = v ++ [b]
  least : ∀ j < i, ∀ p v, s.Node j p v → ∀ e ∈ edges p,
    ∃ k w, s.Node k e.2 w ∧ (shortlex w (v ++ [e.1])).isLE = true

variable [LawfulBEq σ] [LawfulHashable σ] {edges : σ → List (UInt8 × σ)} {starts : List σ}

theorem ascending_discover {s : Search σ UInt8} (h : Valid edges starts s) (ha : s.Ascending) {q : σ}
    {w : Word} (hw : ∀ k p v, s.Node k p v → shortlex v w = .lt) : (s.discover w.reverse q).Ascending := by
  intro j k p r v u hjk hj hk
  rcases (node_discover h).1 hk with hk | ⟨-, rfl, -, rfl⟩
  · rcases (node_discover h).1 hj with hj | ⟨-, rfl, -, -⟩
    · exact ha j k p r v u hjk hj hk
    · have := hk.lt; omega
  · rcases (node_discover h).1 hj with hj | ⟨-, rfl, -, -⟩
    · exact hw j p v hj
    · omega

/-- One expansion keeps the order, if all nodes so far come before the words that it tries. -/
theorem ascending_expand {s : Search σ UInt8} (h : Valid edges starts s) (ha : s.Ascending) {p : σ} {w : Word}
    (hw : Walk edges starts w p) (hlen : w.length < s.nodes.size) (es : List (UInt8 × σ))
    (hes : ∀ e ∈ es, e ∈ edges p) (hasc : es.Pairwise fun e e' => e.1 < e'.1)
    (hb : ∀ k q v, s.Node k q v → ∀ e ∈ es, shortlex v (w ++ [e.1]) = .lt) :
    (s.expand w.reverse es).Ascending ∧
      (∀ k q v, (s.expand w.reverse es).Node k q v → s.Node k q v ∨ ∃ e ∈ es, v = w ++ [e.1]) ∧
      ∀ e ∈ es, ∃ k v, (s.expand w.reverse es).Node k e.2 v ∧ (shortlex v (w ++ [e.1])).isLE = true := by
  induction es generalizing s with
  | nil => exact ⟨ha, fun k q v hn => Or.inl hn, fun e he => by cases he⟩
  | cons e es ih =>
    obtain ⟨hlt, hasc⟩ := List.pairwise_cons.1 hasc
    have he : e ∈ edges p := hes e (List.mem_cons_self ..)
    have hes' : ∀ e' ∈ es, e' ∈ edges p := fun e' he' => hes e' (List.mem_cons_of_mem e he')
    have hv : Valid edges starts (s.discover (w ++ [e.1]).reverse e.2) :=
      valid_discover h (hw.step he) (by rw [List.length_append]; exact hlen)
    have hx := extends_discover h e.2 (w ++ [e.1])
    have ha' : (s.discover (w ++ [e.1]).reverse e.2).Ascending :=
      ascending_discover h ha fun k q v hn => hb k q v hn e (List.mem_cons_self ..)
    have hb' : ∀ k q v, (s.discover (w ++ [e.1]).reverse e.2).Node k q v →
        ∀ e' ∈ es, shortlex v (w ++ [e'.1]) = .lt := by
      intro k q v hn e' he'
      rcases (node_discover h).1 hn with hn | ⟨-, -, -, rfl⟩
      · exact hb k q v hn e' (List.mem_cons_of_mem e he')
      · have : compare e.1 e'.1 = .lt := Std.compare_eq_lt.2 (hlt e' he')
        rw [shortlex_snoc, shortlex_self, this]; rfl
    obtain ⟨ih₁, ih₂, ih₃⟩ := ih hv ha' (Nat.lt_of_lt_of_le hlen hx.size_le) hes' hasc hb'
    have hmono := (valid_expand hv hw (Nat.lt_of_lt_of_le hlen hx.size_le) es hes').2.1
    have hexp : s.expand w.reverse (e :: es) = (s.discover (w ++ [e.1]).reverse e.2).expand w.reverse es := by
      rw [List.reverse_append]; rfl
    rw [hexp]
    refine ⟨ih₁, fun k q v hn => ?_, fun e' he' => ?_⟩
    · rcases ih₂ k q v hn with hn | ⟨e', he', rfl⟩
      · rcases (node_discover h).1 hn with hn | ⟨-, -, -, rfl⟩
        · exact Or.inl hn
        · exact Or.inr ⟨e, List.mem_cons_self .., rfl⟩
      · exact Or.inr ⟨e', List.mem_cons_of_mem e he', rfl⟩
    · rcases List.mem_cons.1 he' with rfl | he'
      · by_cases hk : s.Knows e'.2
        · obtain ⟨k, v, hn⟩ := hk
          refine ⟨k, v, hmono k _ v (hx k _ v hn), ?_⟩
          rw [hb k _ v hn e' (List.mem_cons_self ..)]; rfl
        · refine ⟨s.nodes.size, w ++ [e'.1], hmono _ _ _ ?_, ?_⟩
          · exact (node_discover h).2 (Or.inr ⟨hk, rfl, rfl, rfl⟩)
          · rw [shortlex_self]; rfl
      · exact ih₃ e' he'

variable {goal : σ → Bool}

theorem Ordered.expand {i : Nat} {s : Search σ UInt8} (hp : Passed edges starts goal i s)
    (h : Ordered edges starts i s) {q : σ} {w : Word} (hn : s.Node i q w)
    (hasc : (edges q).Pairwise fun e e' => e.1 < e'.1) :
    Ordered edges starts (i + 1) (s.expand w.reverse (edges q)) := by
  have hlen := Nat.lt_of_le_of_lt (hp.valid.short i q w hn) hn.lt
  have hwalk := hp.valid.walk i q w hn
  -- the words so far are empty or continue a word before `w` by one byte
  have hb : ∀ k r v, s.Node k r v → ∀ e ∈ edges q, shortlex v (w ++ [e.1]) = .lt := by
    intro k r v hk e _
    rcases h.parent k r v hk with rfl | ⟨j, hj, p, u, b, hju, rfl⟩
    · exact shortlex_nil_snoc w e.1
    · exact shortlex_snoc_lt (h.ascending j i p q u w hj hju hn) b e.1
  obtain ⟨ha, hnew, hleast⟩ := ascending_expand hp.valid h.ascending hwalk hlen (edges q)
    (fun e he => he) hasc hb
  have hx := (valid_expand hp.valid hwalk hlen (edges q) fun e he => he).2.1
  refine ⟨ha, fun r hr => ?_, fun k r v hk => ?_, fun j hj p v hjn e he => ?_⟩
  · obtain ⟨k, hk⟩ := h.roots r hr
    exact ⟨k, hx _ _ _ hk⟩
  · rcases hnew k r v hk with hk | ⟨e, he, rfl⟩
    · rcases h.parent k r v hk with h0 | ⟨j, hj, p, u, b, hju, rfl⟩
      · exact Or.inl h0
      · exact Or.inr ⟨j, by omega, p, u, b, hx _ _ _ hju, rfl⟩
    · exact Or.inr ⟨i, by omega, q, w, e.1, hx _ _ _ hn, rfl⟩
  · obtain ⟨p', v', hjn'⟩ := exists_node (s := s) (i := j) (by have := hn.lt; omega)
    obtain ⟨rfl, rfl⟩ := hjn.unique (hx _ _ _ hjn')
    by_cases hji : j = i
    · subst hji
      obtain ⟨rfl, rfl⟩ := hjn'.unique hn
      exact hleast e he
    · obtain ⟨k, u, hk, hle⟩ := h.least j (by omega) p v hjn' e he
      exact ⟨k, u, hx _ _ _ hk, hle⟩

/-- A search from at most one start begins in order. -/
theorem ordered_start (hs : starts.length ≤ 1) :
    Ordered edges starts 0 (starts.foldl (fun s q => s.discover [] q) empty) := by
  have hone : ∀ k q w, (starts.foldl (fun s q => s.discover [] q) (empty : Search σ UInt8)).Node k q w →
      k = 0 ∧ w = [] := by
    intro k q w hk
    match starts, hs with
    | [], _ => simp [empty, Node] at hk
    | [p], _ =>
      rcases (node_discover (w := []) (valid_empty edges [])).1 hk with hk | ⟨-, rfl, -, rfl⟩
      · simp [empty, Node] at hk
      · exact ⟨rfl, rfl⟩
  refine ⟨fun j k p q v w hjk hj hk => ?_, fun q hq => ?_, fun k q w hk => Or.inl (hone k q w hk).2,
    fun j hj => absurd hj (Nat.not_lt_zero j)⟩
  · rw [(hone k q w hk).1] at hjk
    omega
  · obtain ⟨k, w, hk⟩ := (passed_start edges starts fun _ => false).starts q hq
    rw [(hone k q w hk).2] at hk
    exact ⟨k, hk⟩

omit [LawfulBEq σ] [LawfulHashable σ] in
/-- Behind the last node there is nothing more to be expanded. -/
theorem Ordered.of_size_le {j : Nat} {s : Search σ UInt8} (h : Ordered edges starts j s) (hj : s.nodes.size ≤ j) :
    Ordered edges starts s.nodes.size s where
  ascending := h.ascending
  roots := h.roots
  parent k q w hk := by
    rcases h.parent k q w hk with h0 | ⟨i, -, p, v, b, hi, rfl⟩
    · exact Or.inl h0
    · exact Or.inr ⟨i, hi.lt, p, v, b, hi, rfl⟩
  least i hi := h.least i (by omega)

variable (goal) in
/-- The search from at most one start goes through the nodes in order up to the first goal, or up to the last
node. -/
theorem ordered_seek [Fintype σ] {bound : Nat} (hb : Fintype.card σ ≤ bound)
    (hasc : ∀ q, (edges q).Pairwise fun e e' => e.1 < e'.1) (hs : starts.length ≤ 1) :
    let r := seek edges goal bound starts
    Ordered edges starts (r.2.getD r.1.nodes.size) r.1 := by
  have hend := (seek_ends edges starts goal hb).result
    (P := fun i s => Passed edges starts goal i s ∧ Ordered edges starts i s)
    (fun i s q w h hn hg => ⟨h.1.expand hn hg, h.2.expand h.1 hn (hasc q)⟩)
    ⟨passed_start edges starts goal, ordered_start hs⟩
  dsimp only at hend ⊢
  cases hr : (seek edges goal bound starts).2 with
  | some k =>
    rw [hr] at hend
    exact hend.1.2
  | none =>
    rw [hr] at hend
    obtain ⟨j, ⟨-, hj⟩, hle⟩ := hend
    exact hj.of_size_le hle

omit [LawfulBEq σ] [LawfulHashable σ] in
/-- Some node has a word that is not behind a given walk. Unless it has not been expanded yet, it is the one that
the walk leads to. -/
theorem Ordered.exists_le {i : Nat} {s : Search σ UInt8} (h : Ordered edges starts i s) {v : Word} {q : σ}
    (hv : Walk edges starts v q) : ∃ k p w, s.Node k p w ∧ (shortlex w v).isLE = true ∧ (k < i → p = q) := by
  induction hv with
  | start hq =>
    obtain ⟨k, hk⟩ := h.roots _ hq
    exact ⟨k, _, [], hk, rfl, fun _ => rfl⟩
  | @step v p q b hv he ih =>
    obtain ⟨k, p', w, hk, hle, hp⟩ := ih
    by_cases hi : k < i
    · obtain rfl := hp hi
      obtain ⟨j, u, hj, hu⟩ := h.least k hi _ w hk _ he
      exact ⟨j, q, u, hj, Std.TransCmp.isLE_trans hu (shortlex_snoc_isLE hle b), fun _ => rfl⟩
    · refine ⟨k, p', w, hk, Std.TransCmp.isLE_trans hle ?_, fun hlt => absurd hlt hi⟩
      rw [shortlex_self_snoc]
      rfl

omit [LawfulBEq σ] [LawfulHashable σ] in
theorem Ascending.isLE {s : Search σ UInt8} (h : s.Ascending) {j k : Nat} {p q : σ} {v w : Word} (hjk : j ≤ k)
    (hj : s.Node j p v) (hk : s.Node k q w) : (shortlex v w).isLE = true := by
  rcases Nat.lt_or_eq_of_le hjk with hlt | rfl
  · rw [h j k p q v w hlt hj hk]
    rfl
  · rw [(hj.unique hk).2, shortlex_self]
    rfl

omit [LawfulBEq σ] [LawfulHashable σ] in
/-- No walk to a goal comes before the word of the first goal. -/
theorem Passed.goal_least {i : Nat} {s : Search σ UInt8} (h : Passed edges starts goal i s)
    (ho : Ordered edges starts i s) {q p : σ} {w v : Word} (hn : s.Node i q w) (hv : Walk edges starts v p)
    (hp : goal p = true) : (shortlex w v).isLE = true := by
  obtain ⟨k, p', u, hk, hle, heq⟩ := ho.exists_le hv
  have hik : i ≤ k := by
    by_contra hlt
    have hki : k < i := Nat.lt_of_not_le hlt
    have hmissed := h.missed k hki p' u hk
    rw [heq hki, hp] at hmissed
    cases hmissed
  exact Std.TransCmp.isLE_trans (ho.ascending.isLE hik hn hk) hle

variable (edges starts goal) in
/-- The search from at most one start finds the least walk to a goal, or there is none. -/
theorem seek_least [Fintype σ] {bound : Nat} (hb : Fintype.card σ ≤ bound)
    (hasc : ∀ q, (edges q).Pairwise fun e e' => e.1 < e'.1) (hs : starts.length ≤ 1) :
    let r := seek edges goal bound starts
    (r.2 = none ∧ ∀ v p, Walk edges starts v p → goal p = false) ∨
      ∃ k q w, r.2 = some k ∧ r.1.Node k q w ∧ Walk edges starts w q ∧ goal q = true ∧
        ∀ v p, Walk edges starts v p → goal p = true → (shortlex w v).isLE = true := by
  have hspec := seek_spec edges starts goal hb
  have hordered := ordered_seek goal hb hasc hs
  dsimp only at hspec hordered ⊢
  cases hr : (seek edges goal bound starts).2 with
  | none =>
    rw [hr] at hspec
    refine Or.inl ⟨rfl, fun v p hv => ?_⟩
    obtain ⟨i, w, hi⟩ := hspec.knows_of_walk hv
    exact hspec.missed i hi.lt p w hi
  | some k =>
    rw [hr] at hspec hordered
    obtain ⟨hpassed, q, w, hn, hg⟩ := hspec
    exact Or.inr ⟨k, q, w, rfl, hn, hpassed.valid.walk k q w hn, hg,
      fun v p hv hp => hpassed.goal_least hordered hn hv hp⟩

/-- The search from at most one start, without a goal, passes all nodes in order. -/
theorem ordered_explore [Fintype σ] {bound : Nat} (hb : Fintype.card σ ≤ bound)
    (hasc : ∀ q, (edges q).Pairwise fun e e' => e.1 < e'.1) (hs : starts.length ≤ 1) :
    Ordered edges starts (explore edges bound starts).nodes.size (explore edges bound starts) := by
  have hend := seek_spec edges starts (fun _ => false) hb
  have hordered := ordered_seek (fun _ => false) hb hasc hs
  unfold explore
  dsimp only at hend hordered ⊢
  cases hr : (seek edges (fun _ => false) bound starts).2 with
  | some k =>
    rw [hr] at hend
    obtain ⟨-, q, w, -, hg⟩ := hend
    cases hg
  | none =>
    rw [hr] at hordered
    exact hordered

theorem explore_ascending [Fintype σ] {bound : Nat} (hb : Fintype.card σ ≤ bound)
    (hasc : ∀ q, (edges q).Pairwise fun e e' => e.1 < e'.1) (hs : starts.length ≤ 1) :
    (explore edges bound starts).Ascending := (ordered_explore hb hasc hs).ascending

/-- A node is found by the least word that leads to it. -/
theorem explore_least [Fintype σ] {bound : Nat} (hb : Fintype.card σ ≤ bound)
    (hasc : ∀ q, (edges q).Pairwise fun e e' => e.1 < e'.1) (hs : starts.length ≤ 1) {i : Nat} {q : σ}
    {w v : Word} (hi : (explore edges bound starts).Node i q w) (hv : Walk edges starts v q) :
    (shortlex w v).isLE = true := by
  obtain ⟨k, p, u, hk, hle, heq⟩ := (ordered_explore hb hasc hs).exists_le hv
  rw [heq hk.lt] at hk
  obtain rfl := (passed_explore edges starts hb).valid.node_inj hi hk
  obtain ⟨-, rfl⟩ := hi.unique hk
  exact hle

end Search
end ByteAutomata
