import ByteAutomata.Proofs.LengthBounds
import ByteAutomata.Proofs.WordList

/-!
# Accepted words are listed in order

* `Automaton.wordsFrom` : the words of a length accepted from a state, in lexicographic order
  (`mem_wordsFrom`, `length_wordsFrom`, `pairwise_wordsFrom`); a rank is a position in it (`nth_getElem?`);
* `First P n ws` : `ws` are the first `n` words of a kind in shortlex order, or all of them if there are
  fewer. There is one such list only (`First.unique`);
* `Words.Remains` : the accepted words that are still to come at a place; `Words.Delivers` : one step
  takes the least of them (`next_delivers`);
* `Dfa.words_first` : the words that are listed are the first ones, so they depend on the language alone
  (`Dfa.words_eq_of_accepts`).
-/

namespace ByteAutomata

set_option autoImplicit false

/-! ## Words of one length -/

theorem shortlex_cons (b c : UInt8) (v w : Word) (h : v.length = w.length) :
    shortlex (b :: v) (c :: w) = (compare b c).then (shortlex v w) := by
  have hlength : (b :: v).length = (c :: w).length := by rw [List.length_cons, List.length_cons, h]
  unfold shortlex
  rw [h, hlength, Nat.compare_eq_eq.2 rfl, Nat.compare_eq_eq.2 rfl, List.compare_cons_cons]
  rfl

theorem ne_of_shortlex {v w : Word} (h : shortlex v w = .lt) : v ≠ w := by
  rintro rfl
  rw [shortlex_self] at h
  cases h

namespace Automaton

variable (M : Automaton)

/-- The words of a length that are accepted from a state, in lexicographic order. -/
def wordsFrom : Nat → Fin M.size → List Word
  | 0, q => if M.accepting q then [[]] else []
  | n + 1, q => (M.edges q).flatMap fun e => (wordsFrom n e.2).map (e.1 :: ·)

theorem mem_wordsFrom {n : Nat} {q : Fin M.size} {w : Word} :
    w ∈ M.wordsFrom n q ↔ w.length = n ∧ M.acceptsFrom (some q) w = true := by
  induction n generalizing q w with
  | zero =>
    unfold wordsFrom
    rw [List.length_eq_zero_iff]
    by_cases hq : M.accepting q = true
    · rw [if_pos hq, List.mem_singleton]
      constructor
      · rintro rfl
        exact ⟨rfl, hq⟩
      · exact And.left
    · rw [if_neg hq]
      constructor
      · intro hw
        cases hw
      · rintro ⟨rfl, haccepts⟩
        exact absurd haccepts hq
  | succ n ih =>
    unfold wordsFrom
    rw [List.mem_flatMap]
    constructor
    · rintro ⟨⟨b, t⟩, he, hw⟩
      obtain ⟨v, hv, rfl⟩ := List.mem_map.1 hw
      obtain ⟨hlength, haccepts⟩ := ih.1 hv
      refine ⟨by rw [List.length_cons, hlength], ?_⟩
      rw [acceptsFrom_cons, advance_some, M.mem_edges.1 he]
      exact haccepts
    · rintro ⟨hlength, haccepts⟩
      obtain ⟨b, v, rfl⟩ := List.exists_cons_of_length_eq_add_one hlength
      rw [acceptsFrom_cons, advance_some] at haccepts
      obtain ⟨t, ht⟩ := M.exists_of_acceptsFrom haccepts
      rw [ht] at haccepts
      exact ⟨(b, t), M.mem_edges.2 ht, List.mem_map_of_mem (ih.2 ⟨Nat.succ.inj hlength, haccepts⟩)⟩

theorem length_wordsFrom (n : Nat) (q : Fin M.size) : (M.wordsFrom n q).length = M.countFrom n q := by
  induction n generalizing q with
  | zero =>
    unfold wordsFrom countFrom
    split <;> rfl
  | succ n ih =>
    unfold wordsFrom countFrom
    simp only [List.length_flatMap, List.length_map, ih]

theorem pairwise_wordsFrom (n : Nat) (q : Fin M.size) :
    (M.wordsFrom n q).Pairwise fun v w => shortlex v w = .lt := by
  induction n generalizing q with
  | zero =>
    unfold wordsFrom
    split
    · exact List.pairwise_singleton _ _
    · exact List.Pairwise.nil
  | succ n ih =>
    unfold wordsFrom
    have hlength : ∀ t, ∀ v ∈ M.wordsFrom n t, v.length = n := fun t v hv => (M.mem_wordsFrom.1 hv).1
    refine List.pairwise_flatMap.2 ⟨fun e _ => ?_, (M.pairwise_edges q).imp fun {d e} hde x hx y hy => ?_⟩
    · refine List.pairwise_map.2 ((ih e.2).imp_of_mem fun {v w} hv hw hvw => ?_)
      have hself : compare e.1 e.1 = .eq := Std.ReflCmp.compare_self
      rw [shortlex_cons _ _ _ _ ((hlength _ v hv).trans (hlength _ w hw).symm), hself]
      exact hvw
    · obtain ⟨v, hv, rfl⟩ := List.mem_map.1 hx
      obtain ⟨w, hw, rfl⟩ := List.mem_map.1 hy
      have hlt : compare d.1 e.1 = .lt := Std.compare_eq_lt.2 hde
      rw [shortlex_cons _ _ _ _ ((hlength _ v hv).trans (hlength _ w hw).symm), hlt]
      rfl

/-! ### Ranks -/

/-- A rank lies with the byte whose words reach past it. -/
theorem getElem?_flatMap_choose {n : Nat} (step : UInt8 → Option (Fin n)) (words : Fin n → List Word)
    (bs : List UInt8) (rank : Nat) :
    ((bs.filterMap fun b => (step b).map (b, ·)).flatMap fun e => (words e.2).map (e.1 :: ·))[rank]? =
      (Memo.choose step (fun t => (words t).length) bs rank).bind fun r => (words r.2.1)[r.2.2]?.map (r.1 :: ·) := by
  induction bs generalizing rank with
  | nil => rfl
  | cons b bs ih =>
    unfold Memo.choose
    cases hb : step b with
    | none =>
      rw [List.filterMap_cons_none (by rw [hb]; rfl)]
      exact ih rank
    | some t =>
      have hmap : (step b).map (b, ·) = some (b, t) := by
        rw [hb]
        rfl
      rw [List.filterMap_cons, hmap]
      dsimp only
      rw [List.flatMap_cons, List.getElem?_append, List.length_map]
      by_cases hrank : rank < (words t).length
      · rw [if_pos hrank, if_pos hrank, List.getElem?_map]
        rfl
      · rw [if_neg hrank, if_neg hrank]
        exact ih _

theorem descend_getElem? {weight : Nat → Fin M.size → Nat} (length : Nat)
    (hweight : ∀ k < length, ∀ q, weight k q = M.countFrom k q) {q : Fin M.size} {rank : Nat}
    (h : rank < M.countFrom length q) :
    Memo.descend M.step weight length q rank = (M.wordsFrom length q)[rank]? := by
  induction length generalizing q rank with
  | zero =>
    unfold countFrom at h
    by_cases hq : M.accepting q = true
    · rw [if_pos hq] at h
      obtain rfl : rank = 0 := by omega
      unfold Memo.descend wordsFrom
      rw [if_pos hq]
      rfl
    · rw [if_neg hq] at h
      omega
  | succ length ih =>
    have hlayer : weight length = fun t => (M.wordsFrom length t).length := by
      funext t
      rw [hweight length (Nat.lt_succ_self _), length_wordsFrom]
    have hsum : rank < ((Byte.all.filterMap fun b => (M.step q b).map (b, ·)).map fun e => weight length e.2).sum := by
      have hcount : (fun e : UInt8 × Fin M.size => weight length e.2) = fun e => M.countFrom length e.2 :=
        funext fun e => hweight length (Nat.lt_succ_self _) e.2
      rw [hcount]
      exact h
    obtain ⟨b, t, r, hchoose, -, hr⟩ := choose_spec (M.step q) (weight length) Byte.all rank hsum
    have hword := getElem?_flatMap_choose (M.step q) (M.wordsFrom length) Byte.all rank
    rw [← hlayer, hchoose] at hword
    rw [hweight length (Nat.lt_succ_self _)] at hr
    unfold Memo.descend wordsFrom edges
    rw [hword, hchoose]
    show (Memo.descend M.step weight length t r).bind (fun w => some (b :: w)) = _
    rw [ih (fun k hk => hweight k (by omega)) hr]
    exact Option.map_eq_bind.symm

end Automaton

/-- The words of a length that `A` accepts, in lexicographic order. -/
def Dfa.wordsOf (A : Dfa) (n : Nat) : List Word := A.toAutomaton.wordsFrom n A.start

theorem Dfa.mem_wordsOf {A : Dfa} {n : Nat} {w : Word} : w ∈ A.wordsOf n ↔ w.length = n ∧ A.accepts w = true :=
  A.toAutomaton.mem_wordsFrom

theorem Dfa.pairwise_wordsOf (A : Dfa) (n : Nat) : (A.wordsOf n).Pairwise fun v w => shortlex v w = .lt :=
  A.toAutomaton.pairwise_wordsFrom n A.start

/-- The word of a rank stands at this position. -/
theorem Memo.nth_getElem? {A : Dfa} {m : Memo A} (h : m.Sound) {q : Fin A.size} {length rank : Nat}
    (hrank : rank < A.toAutomaton.countFrom length q) {w : Word} (hw : (m.nth (some q) length rank).1 = .ok w) :
    (A.toAutomaton.wordsFrom length q)[rank]? = some w := by
  obtain ⟨hsound, hlen⟩ := sound_fill h length
  have hlayer := hsound.layer_eq hlen q
  have hweight : ∀ k < length, ∀ p, (m.fill length).layer k p = A.toAutomaton.countFrom k p :=
    fun k hk p => hsound.layer_eq (by omega) p
  have hdescend := A.toAutomaton.descend_getElem? length hweight hrank
  unfold nth count at hw
  dsimp only at hw
  rw [hlayer, if_pos hrank, hsound.step] at hw
  change descend A.step (m.fill length).layer length q rank = _ at hdescend
  rw [hdescend] at hw
  cases hword : (A.toAutomaton.wordsFrom length q)[rank]? with
  | none =>
    rw [hword] at hw
    cases hw
  | some v =>
    rw [hword] at hw
    cases hw
    rfl

/-! ## The first words -/

/-- The first `n` words of a kind in shortlex order, or all of them if there are fewer. -/
structure First (P : Word → Prop) (n : Nat) (ws : List Word) : Prop where
  length_le : ws.length ≤ n
  ascending : ws.Pairwise fun v w => shortlex v w = .lt
  kind : ∀ w ∈ ws, P w
  least : ∀ w, P w → w ∈ ws ∨ (ws.length = n ∧ ∀ v ∈ ws, shortlex v w = .lt)

namespace First

variable {P Q : Word → Prop} {n : Nat} {u : Word} {ws vs : List Word}

theorem nodup (h : First P n ws) : ws.Nodup := h.ascending.imp ne_of_shortlex

/-- A word that is missing from the other list is behind all words of it, which then are more. -/
theorem subset (h : First P n ws) (h' : First P n vs) : ws ⊆ vs := by
  intro w hw
  rcases h'.least w (h.kind w hw) with hw' | ⟨hfull, hbehind⟩
  · exact hw'
  have hsub : w :: vs ⊆ ws := by
    intro v hv
    rcases List.mem_cons.1 hv with rfl | hv
    · exact hw
    rcases h.least v (h'.kind v hv) with hv' | ⟨-, hbefore⟩
    · exact hv'
    · have hself := Std.TransCmp.lt_trans (hbefore w hw) (hbehind v hv)
      rw [shortlex_self] at hself
      cases hself
  have hnodup : (w :: vs).Nodup := List.nodup_cons.2 ⟨fun hmem => ne_of_shortlex (hbehind w hmem) rfl, h'.nodup⟩
  have hlength := (List.subperm_of_subset hnodup hsub).length_le
  have hle := h.length_le
  rw [List.length_cons] at hlength
  omega

theorem unique (h : First P n ws) (h' : First P n vs) : ws = vs := by
  have hperm : ws.Perm vs := (List.perm_ext_iff_of_nodup h.nodup h'.nodup).2
    fun w => ⟨fun hw => h.subset h' hw, fun hw => h'.subset h hw⟩
  refine hperm.eq_of_pairwise (fun v w _ _ hvw hwv => ?_) h.ascending h'.ascending
  rw [← shortlex_swap, hvw] at hwv
  cases hwv

theorem zero (P : Word → Prop) : First P 0 [] :=
  ⟨Nat.le_refl 0, List.Pairwise.nil, nofun, fun _ _ => Or.inr ⟨rfl, nofun⟩⟩

theorem nil (h : ∀ w, ¬ P w) (n : Nat) : First P n [] :=
  ⟨Nat.zero_le n, List.Pairwise.nil, nofun, fun w hw => absurd hw (h w)⟩

/-- The least word, in front of the first of the others. -/
theorem cons (h : First Q n ws) (hiff : ∀ v, P v ↔ v = u ∨ Q v) (hbefore : ∀ v, Q v → shortlex u v = .lt) :
    First P (n + 1) (u :: ws) := by
  refine ⟨Nat.succ_le_succ h.length_le, ?_, fun w hw => ?_, fun w hw => ?_⟩
  · exact List.pairwise_cons.2 ⟨fun v hv => hbefore v (h.kind v hv), h.ascending⟩
  · exact (hiff w).2 ((List.mem_cons.1 hw).imp_right (h.kind w))
  · rcases (hiff w).1 hw with rfl | hw
    · exact Or.inl List.mem_cons_self
    rcases h.least w hw with hmem | ⟨hfull, hbehind⟩
    · exact Or.inl (List.mem_cons_of_mem u hmem)
    · refine Or.inr ⟨by rw [List.length_cons, hfull], fun v hv => ?_⟩
      rcases List.mem_cons.1 hv with rfl | hv
      · exact hbefore w hw
      · exact hbehind v hv

end First

/-- The empty word comes first. -/
theorem first_of_nil {P : Word → Prop} (h : P []) : First P 1 [[]] where
  length_le := Nat.le_refl 1
  ascending := List.pairwise_singleton _ _
  kind w hw := by rwa [List.mem_singleton.1 hw]
  least w _ := by
    by_cases hw : w = []
    · exact Or.inl (List.mem_singleton.2 hw)
    · refine Or.inr ⟨rfl, fun v hv => ?_⟩
      rw [List.mem_singleton.1 hv]
      exact shortlex_of_length_lt (List.length_pos_iff.2 hw)

/-! ## The iteration -/

namespace Words

variable {A : Dfa} {m : Memo A} {w : Words}

/-- The accepted words that are still to come. -/
def Remains (A : Dfa) (w : Words) (v : Word) : Prop :=
  A.accepts v = true ∧ (w.length < v.length ∨ v ∈ (A.wordsOf w.length).drop w.rank)

theorem Remains.length_le {v : Word} (h : w.Remains A v) : w.length ≤ v.length := by
  rcases h.2 with hlt | hmem
  · exact Nat.le_of_lt hlt
  · exact (Dfa.mem_wordsOf.1 (List.mem_of_mem_drop hmem)).1.ge

/-- Behind the last word of a length all longer words remain. -/
theorem remains_skip (hrank : A.toAutomaton.countFrom w.length A.start ≤ w.rank) (v : Word) :
    Remains A { w with length := w.length + 1, rank := 0 } v ↔ w.Remains A v := by
  have hlength : (A.wordsOf w.length).length ≤ w.rank :=
    Nat.le_trans (A.toAutomaton.length_wordsFrom w.length A.start).le hrank
  unfold Remains
  rw [List.drop_of_length_le hlength, List.drop_zero, Dfa.mem_wordsOf]
  constructor
  · rintro ⟨haccepts, hlt | hlength⟩
    · exact ⟨haccepts, Or.inl (by dsimp only at hlt; omega)⟩
    · exact ⟨haccepts, Or.inl (by have hlength := hlength.1; dsimp only at hlength; omega)⟩
  · rintro ⟨haccepts, hlt | hmem⟩
    · refine ⟨haccepts, ?_⟩
      by_cases hnext : v.length = w.length + 1
      · exact Or.inr ⟨hnext, haccepts⟩
      · exact Or.inl (by dsimp only; omega)
    · cases hmem

/-- The words that remain are within the limit. -/
def Limits (A : Dfa) (w : Words) : Prop := ∀ v, w.Remains A v → ∃ l, w.limit = some l ∧ l.Covers v.length

theorem Limits.not_remains (h : w.Limits A) (hexhausted : w.exhausted = true) (v : Word) : ¬ w.Remains A v := by
  intro hv
  obtain ⟨l, hl, hcovers⟩ := h v hv
  have hle := hv.length_le
  unfold exhausted at hexhausted
  rw [hl] at hexhausted
  cases l with
  | finite longest =>
    have hlt : longest < w.length := of_decide_eq_true hexhausted
    have hcovers : v.length ≤ longest := hcovers
    omega
  | infinite => cases hexhausted

/-- A step gives the least word that remains, and leaves the others. Without a word none remains. -/
structure Delivers (A : Dfa) (w : Words) (r : Except Fault (Option Word) × Words × Memo A) : Prop where
  limits : r.2.1.Limits A
  last : r.1 = .ok none → ∀ v, ¬ w.Remains A v
  word : ∀ u, r.1 = .ok (some u) → (∀ v, w.Remains A v ↔ v = u ∨ r.2.1.Remains A v) ∧
    ∀ v, r.2.1.Remains A v → shortlex u v = .lt

theorem delivers_of_exhausted (h : w.Limits A) (hexhausted : w.exhausted = true) :
    Delivers A w (.ok none, { w with limit := none }, m) where
  limits v hv := absurd hv (h.not_remains hexhausted v)
  last _ := h.not_remains hexhausted
  word _ hu := nomatch hu

/-- The word at the current rank. -/
theorem delivers_of_rank (h : w.Limits A) {u : Word}
    (hu : (A.wordsOf w.length)[w.rank]? = some u) :
    Delivers A w (.ok (some u), { w with rank := w.rank + 1 }, m) := by
  obtain ⟨hrank, hget⟩ := List.getElem?_eq_some_iff.1 hu
  have hdrop : (A.wordsOf w.length).drop w.rank =
      u :: (A.wordsOf w.length).drop (w.rank + 1) := by
    rw [List.drop_eq_getElem_cons hrank, hget]
  have hword := Dfa.mem_wordsOf.1 (List.mem_of_getElem? hu)
  have hiff : ∀ v, w.Remains A v ↔ v = u ∨ Remains A { w with rank := w.rank + 1 } v := by
    intro v
    unfold Remains
    rw [hdrop, List.mem_cons]
    constructor
    · rintro ⟨haccepts, hlt | rfl | hmem⟩
      · exact Or.inr ⟨haccepts, Or.inl hlt⟩
      · exact Or.inl rfl
      · exact Or.inr ⟨haccepts, Or.inr hmem⟩
    · rintro (rfl | ⟨haccepts, hlt | hmem⟩)
      · exact ⟨hword.2, Or.inr (Or.inl rfl)⟩
      · exact ⟨haccepts, Or.inl hlt⟩
      · exact ⟨haccepts, Or.inr (Or.inr hmem)⟩
  refine ⟨fun v hv => h v ((hiff v).2 (Or.inr hv)), fun hnone => (nomatch hnone), fun v hv => ?_⟩
  cases hv
  refine ⟨hiff, fun v hv => ?_⟩
  rcases hv.2 with hlt | hmem
  · exact shortlex_of_length_lt (by rw [hword.1]; exact hlt)
  · have hascending := (A.pairwise_wordsOf w.length).sublist (List.drop_sublist w.rank _)
    rw [hdrop] at hascending
    exact (List.pairwise_cons.1 hascending).1 v hmem

theorem seek_delivers {fuel : Nat} (hm : m.Sound) (h : w.Limits A) : Delivers A w (seek fuel w m) := by
  induction fuel generalizing w m with
  | zero => exact ⟨h, fun hnone => (nomatch hnone), fun _ hu => nomatch hu⟩
  | succ fuel ih =>
    cases hmore : w.exhausted with
    | true =>
      unfold seek
      rw [if_pos hmore]
      exact delivers_of_exhausted h hmore
    | false =>
      by_cases hrank : w.rank < A.toAutomaton.countFrom w.length A.start
      · obtain ⟨hcount, hsound⟩ := Memo.count_spec hm A.start w.length
        obtain ⟨u, hu, -⟩ := Memo.nth_spec hsound hrank
        have hword := Memo.nth_getElem? hsound hrank hu
        unfold seek
        rw [if_neg (by rw [hmore]; exact Bool.false_ne_true)]
        dsimp only
        rw [if_pos (by rw [hcount]; exact hrank)]
        generalize (m.count (some A.start) w.length).2.nth (some A.start) w.length w.rank = r at hu
        obtain ⟨answer, k⟩ := r
        dsimp only at hu
        subst hu
        exact delivers_of_rank h hword
      · obtain ⟨k, hk, hseek⟩ := seek_of_not_rank hm hmore hrank fuel
        have hskip := remains_skip (Nat.le_of_not_lt hrank)
        obtain ⟨hlimits, hlast, hword⟩ := ih (w := { w with length := w.length + 1, rank := 0 }) hk
          fun v hv => h v ((hskip v).1 hv)
        rw [hseek]
        refine ⟨hlimits, fun hnone v hv => hlast hnone v ((hskip v).2 hv), fun u hu => ?_⟩
        exact ⟨fun v => (hskip v).symm.trans ((hword u hu).1 v), (hword u hu).2⟩

theorem next_delivers (hm : m.Sound) (h : w.Limits A) : Delivers A w (w.next m) := seek_delivers hm h

/-- Several steps give the first words that remain. -/
theorem take_first (n : Nat) (hm : m.Sound) (hw : w.Attains A) (h : w.Limits A) :
    ∃ ws, (w.take n m).1 = .ok ws ∧ First (w.Remains A) n ws := by
  induction n generalizing w m with
  | zero => exact ⟨[], rfl, .zero _⟩
  | succ n ih =>
    obtain ⟨⟨next, hnext, -⟩, hattains, hsound⟩ := next_spec hm hw
    obtain ⟨hlimits, hlast, hword⟩ := next_delivers hm h
    unfold take
    generalize w.next m = r at hnext hattains hsound hlimits hlast hword
    obtain ⟨answer, w', m'⟩ := r
    dsimp only at hnext hattains hsound hlimits hlast hword
    subst hnext
    cases next with
    | none => exact ⟨[], rfl, .nil (hlast rfl) _⟩
    | some u =>
      obtain ⟨hiff, hbefore⟩ := hword u rfl
      obtain ⟨ws, hws, hfirst⟩ := ih hsound hattains hlimits
      dsimp only
      generalize w'.take n m' = rest at hws
      obtain ⟨answer, w'', m''⟩ := rest
      dsimp only at hws
      subst hws
      exact ⟨u :: ws, rfl, hfirst.cons hiff hbefore⟩

/-- Before the first step every accepted word remains. -/
theorem remains_first (v : Word) : Remains A (first m).1 v ↔ A.accepts v = true := by
  have hplace : (first m).1.length = 0 ∧ (first m).1.rank = 0 := by
    unfold first
    dsimp only
    split <;> exact ⟨rfl, rfl⟩
  unfold Remains
  rw [hplace.1, hplace.2, List.drop_zero, Dfa.mem_wordsOf]
  refine ⟨And.left, fun haccepts => ⟨haccepts, ?_⟩⟩
  by_cases hv : v.length = 0
  · exact Or.inr ⟨hv, haccepts⟩
  · exact Or.inl (Nat.pos_of_ne_zero hv)

theorem limits_first (hm : m.Sound) (hnoted : A.toAutomaton.BoundNoted m.visits) : (first m).1.Limits A := by
  obtain ⟨hshape, hsound, -, hvisits⟩ := Memo.sound_shape hm
  intro v hv
  rw [remains_first] at hv
  have hlive : (m.isDead (some A.start)).1 = false := by
    show (!m.shape.1.live.get A.start) = false
    rw [hshape, Bool.not_eq_false']
    exact (A.toAutomaton.alive_iff A.start).2 ⟨v, hv⟩
  refine ⟨(m.shape.2.maxLength (some A.start)).1, ?_, ?_⟩
  · unfold first
    dsimp only
    rw [hlive]
    rfl
  · refine (Memo.maxLength_bounds hsound ?_ A.start).1 v hv
    rw [hvisits]
    exact hnoted

end Words

/-- The words that are listed are the first ones that are accepted. -/
theorem Dfa.words_first (A : Dfa) (n : Nat) : ∃ ws, A.words n = .ok ws ∧ First (fun w => A.accepts w) n ws := by
  obtain ⟨hattains, hsound⟩ := Words.first_spec (Memo.sound_fresh A)
  have hlimits := Words.limits_first (Memo.sound_fresh A) (Memo.boundNoted_fresh A)
  obtain ⟨ws, hws, hfirst⟩ := Words.take_first n hsound hattains hlimits
  have hremains : (Words.first (Memo.fresh A)).1.Remains A = fun w => A.accepts w = true :=
    funext fun w => propext (Words.remains_first w)
  rw [hremains] at hfirst
  exact ⟨ws, hws, hfirst⟩

theorem Dfa.first_of_words {A : Dfa} {n : Nat} {ws : List Word} (h : A.words n = .ok ws) :
    First (fun w => A.accepts w) n ws := by
  obtain ⟨vs, hvs, hfirst⟩ := A.words_first n
  rw [h] at hvs
  cases hvs
  exact hfirst

/-- Automata of one language list the same words. -/
theorem Dfa.words_eq_of_accepts {A B : Dfa} (h : ∀ w, A.accepts w = B.accepts w) (n : Nat) :
    A.words n = B.words n := by
  obtain ⟨ws, hws, hfirst⟩ := A.words_first n
  obtain ⟨vs, hvs, hfirst'⟩ := B.words_first n
  rw [funext h] at hfirst
  rw [hws, hvs, hfirst.unique hfirst']

end ByteAutomata
