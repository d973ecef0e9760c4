import ByteAutomata.Automaton
import ByteAutomata.Proofs.SearchOrder

/-!
# Reachable and live states

* `Automaton.Embeds M A f` : `f` maps the states of `M` to states of `A` with the same steps and the same
  acceptance, so both accept the same words (`Embeds.read`, `Embeds.acceptsFrom`, `Embeds.accepts`);
* `Automaton.origin`, `Automaton.accessWord` : the state that a number of the reachable part stands
  for, and the word that found it;
* `Automaton.LeastWords M word` : `word i` is the least word that leads to state `i`, and these
  words ascend. The reachable part is numbered so (`leastWords_reachable`);
* `alive_iff` : a state is alive exactly if some word is accepted from it, and then a word
  shorter than the number of states is (`exists_short_of_alive`);
* `acceptsFrom_trim`, `live_of_step_trim` : trimming keeps every language and leaves only live steps.
-/

namespace ByteAutomata

set_option autoImplicit false

theorem toState?_eq_some {n i : Nat} {q : Fin n} : toState? n i = some q ↔ i = q.val := by
  unfold toState?
  split
  next h =>
    rw [Option.some.injEq]
    exact ⟨fun e => congrArg Fin.val e, fun e => Fin.ext e⟩
  next h =>
    constructor
    · intro e; cases e
    · intro e; exact absurd q.isLt (e ▸ h)

theorem get_ofFn {α : Type} {n : Nat} (f : Fin n → α) (i : Fin n) : (Vector.ofFn f).get i = f i :=
  Vector.getElem_ofFn i.isLt

theorem get_set {α : Type} {n : Nat} (v : Vector α n) (i j : Fin n) (a : α) :
    (v.set i a i.isLt).get j = if j = i then a else v.get j := by
  change (v.set i.val a i.isLt)[j.val] = _
  rw [Vector.getElem_set]
  by_cases h : j = i
  · rw [if_pos h, if_pos (congrArg Fin.val h.symm)]
  · rw [if_neg h, if_neg fun e => h (Fin.ext e.symm)]
    rfl

namespace Automaton

section Words

variable (A : Automaton)

theorem read_snoc (q : Option (Fin A.size)) (w : Word) (b : UInt8) :
    A.read q (w ++ [b]) = A.advance (A.read q w) b := A.read_append q w [b]

theorem acceptsFrom_append (q : Option (Fin A.size)) (v w : Word) :
    A.acceptsFrom q (v ++ w) = A.acceptsFrom (A.read q v) w := by
  rw [acceptsFrom, read_append, acceptsFrom]

/-- Words are accepted only from states. -/
theorem exists_of_acceptsFrom {q : Option (Fin A.size)} {w : Word} (h : A.acceptsFrom q w = true) :
    ∃ p, q = some p := by
  cases q with
  | none => rw [acceptsFrom_none] at h; cases h
  | some p => exact ⟨p, rfl⟩

theorem pairwise_edges (q : Fin A.size) : (A.edges q).Pairwise fun e e' => e.1 < e'.1 := by
  refine List.pairwise_filterMap.2 (Byte.pairwise_all.imp fun {b c} hbc => ?_)
  simp only [Option.map_eq_some_iff]
  rintro _ ⟨t, -, rfl⟩ _ ⟨u, -, rfl⟩
  exact hbc

theorem walk_iff {w : Word} {q : Fin A.size} :
    Search.Walk A.edges A.start.toList w q ↔ A.read A.start w = some q := by
  constructor
  · intro h
    induction h with
    | start h => exact Option.mem_toList.1 h
    | step _ he ih =>
      rw [read_snoc, ih]
      exact A.mem_edges.1 he
  · intro h
    induction w using List.reverseRecOn generalizing q with
    | nil => exact .start (Option.mem_toList.2 h)
    | append_singleton w b ih =>
      rw [read_snoc] at h
      cases hp : A.read A.start w with
      | none => rw [hp] at h; cases h
      | some p =>
        rw [hp] at h
        exact (ih hp).step (A.mem_edges.2 h)

end Words

/-! ## Maps between automata -/

/-- The steps, the start and the acceptance of `M` are those of `A` along `f`. -/
structure Embeds (M A : Automaton) (f : Fin M.size → Fin A.size) : Prop where
  start : M.start.map f = A.start
  step : ∀ q b, (M.step q b).map f = A.step (f q) b
  accepting : ∀ q, M.accepting q = A.accepting (f q)

variable {M A : Automaton} {f : Fin M.size → Fin A.size}

theorem Embeds.advance (h : Embeds M A f) (q : Option (Fin M.size)) (b : UInt8) :
    (M.advance q b).map f = A.advance (q.map f) b := by
  cases q with
  | none => rfl
  | some q => exact h.step q b

theorem Embeds.read (h : Embeds M A f) (q : Option (Fin M.size)) (w : Word) :
    (M.read q w).map f = A.read (q.map f) w := by
  induction w generalizing q with
  | nil => rfl
  | cons b w ih => rw [read_cons, ih, h.advance, read_cons]

theorem Embeds.acceptsFrom (h : Embeds M A f) (q : Option (Fin M.size)) (w : Word) :
    M.acceptsFrom q w = A.acceptsFrom (q.map f) w := by
  rw [Automaton.acceptsFrom, Automaton.acceptsFrom, ← h.read]
  cases M.read q w with
  | none => rfl
  | some p => exact h.accepting p

theorem Embeds.accepts (h : Embeds M A f) (w : Word) : M.accepts w = A.accepts w := by
  rw [Automaton.accepts, Automaton.accepts, h.acceptsFrom, h.start]

/-! ## The reachable part -/

variable (A)

theorem passed_explore : Search.Passed A.edges A.start.toList (fun _ => false) A.explore.nodes.size A.explore :=
  Search.passed_explore _ _ (by rw [Fintype.card_fin])

/-- The position at which a state of the reachable part was found. -/
def slot (i : Fin A.reachable.size) : Fin A.explore.nodes.size := i

/-- The state of `A` that a state of the reachable part stands for. -/
def origin (i : Fin A.reachable.size) : Fin A.size := A.explore.nodes[A.slot i].1

/-- The word by which a state of the reachable part was found. -/
def accessWord (i : Fin A.reachable.size) : Word := A.explore.nodes[A.slot i].2.reverse

theorem node_origin (i : Fin A.reachable.size) : A.explore.Node i.val (A.origin i) (A.accessWord i) := by
  unfold Search.Node origin accessWord
  rw [List.reverse_reverse]
  exact Array.getElem?_eq_getElem i.isLt

theorem origin_injective : Function.Injective A.origin := by
  intro i j h
  have hj := A.node_origin j
  rw [← h] at hj
  exact Fin.ext (A.passed_explore.valid.node_inj (A.node_origin i) hj)

/-- The number of a state that was found. -/
theorem exists_name {q : Fin A.size} (h : A.explore.Knows q) :
    ∃ i : Fin A.reachable.size,
      A.explore.index[q]?.bind (toState? A.explore.nodes.size) = some i ∧ A.origin i = q := by
  obtain ⟨k, w, hk⟩ := h
  refine ⟨⟨k, hk.lt⟩, ?_, ?_⟩
  · rw [(A.passed_explore.valid.index q k).2 ⟨w, hk⟩]
    exact toState?_eq_some.2 rfl
  · exact (Search.Node.unique (A.node_origin ⟨k, hk.lt⟩) hk).1

theorem embeds_reachable : Embeds A.reachable A A.origin where
  start := by
    change (A.start.bind fun q => A.explore.index[q]?.bind (toState? A.explore.nodes.size)).map A.origin = A.start
    cases hs : A.start with
    | none => rfl
    | some q =>
      obtain ⟨i, hi, ho⟩ := A.exists_name (A.passed_explore.starts q (Option.mem_toList.2 hs))
      rw [Option.bind_some, hi, Option.map_some, ho]
  step q b := by
    have hstep : A.reachable.step q b = (A.step (A.origin q) b).bind fun t =>
        A.explore.index[t]?.bind (toState? A.explore.nodes.size) := by
      exact (congrArg (ByteMap.get · b) (get_ofFn _ _)).trans (ByteMap.get_ofFn _ b)
    rw [hstep]
    cases ht : A.step (A.origin q) b with
    | none => rfl
    | some t =>
      obtain ⟨i, hi, ho⟩ := A.exists_name
        (A.passed_explore.expanded q.val q.isLt _ _ (A.node_origin q) (b, t) (A.mem_edges.2 ht))
      rw [Option.bind_some, hi, Option.map_some, ho]
  accepting q := get_ofFn _ _

theorem accepts_reachable (w : Word) : A.reachable.accepts w = A.accepts w := A.embeds_reachable.accepts w

theorem read_reachable (w : Word) (i : Fin A.reachable.size) :
    A.reachable.read A.reachable.start w = some i ↔ A.read A.start w = some (A.origin i) := by
  rw [← A.embeds_reachable.start, ← A.embeds_reachable.read]
  cases A.reachable.read A.reachable.start w with
  | none => simp
  | some j => rw [Option.map_some, Option.some.injEq, Option.some.injEq, A.origin_injective.eq_iff]

/-- `word i` is the least word that leads to state `i`, and these words ascend. -/
structure LeastWords (M : Automaton) (word : Fin M.size → Word) : Prop where
  reads : ∀ i, M.read M.start (word i) = some i
  least : ∀ i v, M.read M.start v = some i → (shortlex (word i) v).isLE = true
  ascending : ∀ i j, i < j → shortlex (word i) (word j) = .lt

/-- The reachable part is numbered in the shortlex order of the least words. -/
theorem leastWords_reachable : LeastWords A.reachable A.accessWord := by
  have hstarts : A.start.toList.length ≤ 1 := by cases A.start <;> simp
  refine ⟨fun i => ?_, fun i v hv => ?_, fun i j hij => ?_⟩
  · rw [read_reachable]
    exact A.walk_iff.1 (A.passed_explore.valid.walk _ _ _ (A.node_origin i))
  · rw [read_reachable] at hv
    exact Search.explore_least (by rw [Fintype.card_fin]) A.pairwise_edges hstarts (A.node_origin i) (A.walk_iff.2 hv)
  · exact Search.explore_ascending (by rw [Fintype.card_fin]) A.pairwise_edges hstarts
      i.val j.val _ _ _ _ hij (A.node_origin i) (A.node_origin j)

/-! ## Live states -/

/-- For every state the sources of its edges, the last one first, if each state names the targets of its edges. -/
def sources {α : Type} {n : Nat} (target : α → Fin n) (edges : Fin n → List α) : Vector (List (Fin n)) n :=
  (List.finRange n).foldl
    (fun v p => (edges p).foldl (fun v e => v.set (target e) (p :: v.get (target e))) v) (Vector.replicate n [])

section Sources

variable {α : Type} {n : Nat} (target : α → Fin n)

theorem mem_foldl_cons (p : Fin n) (es : List α) (v : Vector (List (Fin n)) n) (t x : Fin n) :
    x ∈ (es.foldl (fun v e => v.set (target e) (p :: v.get (target e))) v).get t ↔
      x ∈ v.get t ∨ (x = p ∧ ∃ e ∈ es, target e = t) := by
  induction es generalizing v with
  | nil => simp
  | cons e es ih =>
    rw [List.foldl_cons, ih, get_set]
    by_cases h : t = target e
    · subst h
      simp only [if_true, List.mem_cons, exists_eq_or_imp, true_or, and_true]
      tauto
    · rw [if_neg h]
      simp only [List.mem_cons, exists_eq_or_imp, Ne.symm h, false_or]

theorem mem_sources (edges : Fin n → List α) (p t : Fin n) :
    p ∈ (sources target edges).get t ↔ ∃ e ∈ edges p, target e = t := by
  have hfold : ∀ (qs : List (Fin n)) (v : Vector (List (Fin n)) n),
      p ∈ (qs.foldl (fun v q => (edges q).foldl (fun v e => v.set (target e) (q :: v.get (target e))) v) v).get t ↔
        p ∈ v.get t ∨ (p ∈ qs ∧ ∃ e ∈ edges p, target e = t) := by
    intro qs
    induction qs with
    | nil => simp
    | cons q qs ih =>
      intro v
      rw [List.foldl_cons, ih, mem_foldl_cons, List.mem_cons, or_assoc]
      apply or_congr_right
      constructor
      · rintro (⟨rfl, he⟩ | ⟨hp, he⟩)
        · exact ⟨Or.inl rfl, he⟩
        · exact ⟨Or.inr hp, he⟩
      · rintro ⟨rfl | hp, he⟩
        · exact Or.inl ⟨rfl, he⟩
        · exact Or.inr ⟨hp, he⟩
  have hempty : p ∉ (Vector.replicate n ([] : List (Fin n))).get t := by
    change p ∉ (Vector.replicate n [])[t.val]
    rw [Vector.getElem_replicate]
    exact List.not_mem_nil
  unfold sources
  rw [hfold, or_iff_right hempty, and_iff_right (List.mem_finRange p)]

end Sources

theorem mem_predecessors (p t : Fin A.size) : p ∈ A.predecessors.get t ↔ ∃ b, A.step p b = some t := by
  show p ∈ (sources Prod.snd A.edges).get t ↔ _
  rw [mem_sources]
  constructor
  · intro h
    obtain ⟨⟨b, u⟩, he, rfl⟩ := h
    exact ⟨b, A.mem_edges.1 he⟩
  · intro h
    obtain ⟨b, hb⟩ := h
    exact ⟨(b, t), A.mem_edges.2 hb, rfl⟩

/-- The steps backwards. -/
def backEdges (q : Fin A.size) : List (Unit × Fin A.size) := (A.predecessors.get q).map ((), ·)

/-- The accepting states. -/
def finals : List (Fin A.size) := (List.finRange A.size).filter A.accepting

/-- The states from which a word is accepted, searched backwards. -/
def backward : Search (Fin A.size) Unit := Search.explore A.backEdges A.size A.finals

theorem passed_backward :
    Search.Passed A.backEdges A.finals (fun _ => false) A.backward.nodes.size A.backward :=
  Search.passed_explore _ _ (by rw [Fintype.card_fin])

theorem mem_backward {p q : Fin A.size} {u : Unit} :
    (u, q) ∈ A.backEdges p ↔ ∃ b, A.step q b = some p := by
  rw [← mem_predecessors, backEdges, List.mem_map]
  constructor
  · intro h
    obtain ⟨x, hx, he⟩ := h
    cases he
    exact hx
  · intro h
    exact ⟨q, h, rfl⟩

theorem exists_accepted_of_walk {w : List Unit} {q : Fin A.size}
    (h : Search.Walk A.backEdges A.finals w q) :
    ∃ u : Word, u.length = w.length ∧ A.acceptsFrom (some q) u = true := by
  induction h with
  | start h => exact ⟨[], rfl, (List.mem_filter.1 h).2⟩
  | @step w p q l _ he ih =>
    obtain ⟨u, hlen, hu⟩ := ih
    obtain ⟨b, hb⟩ := A.mem_backward.1 he
    refine ⟨b :: u, by rw [List.length_cons, hlen, List.length_append, List.length_singleton], ?_⟩
    rw [acceptsFrom_cons, advance_some, hb]
    exact hu

theorem exists_walk_of_accepted {u : Word} {q : Fin A.size} (h : A.acceptsFrom (some q) u = true) :
    ∃ w, Search.Walk A.backEdges A.finals w q := by
  induction u generalizing q with
  | nil => exact ⟨[], .start (List.mem_filter.2 ⟨List.mem_finRange q, h⟩)⟩
  | cons b u ih =>
    rw [acceptsFrom_cons, advance_some] at h
    obtain ⟨p, hp⟩ := A.exists_of_acceptsFrom h
    rw [hp] at h
    obtain ⟨w, hw⟩ := ih h
    exact ⟨w ++ [()], hw.step (A.mem_backward.2 ⟨b, hp⟩)⟩

theorem alive_eq_true (q : Fin A.size) : A.alive.get q = true ↔ A.backward.Knows q := by
  refine Iff.trans ?_ (A.passed_backward.valid.contains_iff q)
  unfold alive
  rw [get_ofFn]
  rfl

/-- A state is alive exactly if some word is accepted from it. -/
theorem alive_iff (q : Fin A.size) : A.alive.get q = true ↔ ∃ w, A.acceptsFrom (some q) w = true := by
  rw [alive_eq_true, backward, Search.explore_knows (by rw [Fintype.card_fin])]
  constructor
  · intro h
    obtain ⟨w, hw⟩ := h
    obtain ⟨u, -, hu⟩ := A.exists_accepted_of_walk hw
    exact ⟨u, hu⟩
  · intro h
    obtain ⟨u, hu⟩ := h
    exact A.exists_walk_of_accepted hu

/-- From a live state a word shorter than the number of states is accepted. -/
theorem exists_short_of_alive {q : Fin A.size} (h : A.alive.get q = true) :
    ∃ w, w.length < A.size ∧ A.acceptsFrom (some q) w = true := by
  obtain ⟨i, w, hi⟩ := (A.alive_eq_true q).1 h
  obtain ⟨u, hlen, hu⟩ := A.exists_accepted_of_walk (A.passed_backward.valid.walk i q w hi)
  have hshort : w.length ≤ i := A.passed_backward.valid.short i q w hi
  have hsize : A.backward.nodes.size ≤ A.size := by
    have := A.passed_backward.valid.size_le
    rwa [Fintype.card_fin] at this
  have := hi.lt
  exact ⟨u, by omega, hu⟩

/-! ## Trimming -/

theorem step_trim (q : Fin A.size) (b : UInt8) :
    A.trim.step q b = (A.step q b).bind fun t => if A.alive.get t then some t else none := rfl

theorem start_trim : A.trim.start = A.start.bind fun t => if A.alive.get t then some t else none := rfl

theorem acceptsFrom_dead {t : Fin A.size} (h : ¬ A.alive.get t = true) (w : Word) :
    A.acceptsFrom (some t) w = false := by
  rw [alive_iff, not_exists] at h
  exact Bool.eq_false_of_not_eq_true (h w)

/-- Trimming keeps the language of every state. -/
theorem acceptsFrom_trim (q : Fin A.size) (w : Word) :
    A.trim.acceptsFrom (some q) w = A.acceptsFrom (some q) w := by
  induction w generalizing q with
  | nil => rfl
  | cons b w ih =>
    change A.trim.acceptsFrom (A.trim.step q b) w = A.acceptsFrom (A.step q b) w
    cases ht : A.step q b with
    | none =>
      have hn : A.trim.step q b = none := by rw [step_trim, ht]; rfl
      rw [hn, acceptsFrom_none, acceptsFrom_none]
    | some t =>
      by_cases hl : A.alive.get t = true
      · have hs : A.trim.step q b = some t := by rw [step_trim, ht, Option.bind_some, if_pos hl]
        rw [hs]
        exact ih t
      · have hn : A.trim.step q b = none := by rw [step_trim, ht, Option.bind_some, if_neg hl]; rfl
        rw [hn, acceptsFrom_none, A.acceptsFrom_dead hl]

theorem accepts_trim (w : Word) : A.trim.accepts w = A.accepts w := by
  unfold accepts
  cases hs : A.start with
  | none =>
    have hn : A.trim.start = none := by rw [start_trim, hs]; rfl
    rw [hn, acceptsFrom_none, acceptsFrom_none]
  | some q =>
    by_cases hl : A.alive.get q = true
    · have hk : A.trim.start = some q := by rw [start_trim, hs, Option.bind_some, if_pos hl]
      rw [hk]
      exact A.acceptsFrom_trim q w
    · have hn : A.trim.start = none := by rw [start_trim, hs, Option.bind_some, if_neg hl]; rfl
      rw [hn, acceptsFrom_none, A.acceptsFrom_dead hl]

/-- From a state some word is accepted. -/
def Live (M : Automaton) (q : Fin M.size) : Prop := ∃ w, M.acceptsFrom (some q) w = true

theorem live_of_keep {q t : Fin A.size} (h : (if A.alive.get q then some q else none) = some t) :
    A.trim.Live t := by
  split at h
  next hl =>
    obtain rfl := Option.some.inj h
    obtain ⟨w, hw⟩ := (A.alive_iff q).1 hl
    exact ⟨w, (A.acceptsFrom_trim q w).trans hw⟩
  next => cases h

theorem live_of_step_trim {q t : Fin A.size} {b : UInt8} (h : A.trim.step q b = some t) : A.trim.Live t := by
  obtain ⟨u, -, hu⟩ := Option.bind_eq_some_iff.1 h
  exact A.live_of_keep hu

theorem live_of_start_trim {t : Fin A.size} (h : A.trim.start = some t) : A.trim.Live t := by
  obtain ⟨u, -, hu⟩ := Option.bind_eq_some_iff.1 h
  exact A.live_of_keep hu

end Automaton
end ByteAutomata
