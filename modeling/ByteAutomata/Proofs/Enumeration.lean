import ByteAutomata.Proofs.WordOrder
import Mathlib.Data.Set.Finite.List

/-!
# The sequence of all accepted words

* `First.take`, `First.snoc` : fewer of the first words, and one more (`exists_mem_first` : enough of them);
* `Enumerates s P` : the sequence `s` lists the words of a kind, each once and in shortlex order, and ends
  exactly if there are finitely many;
* `Dfa.word?` : the accepted word at a position. These are such a sequence (`Dfa.enumerates`);
* `Words.At A w k` : the place `w` is behind the first `k` words. The next word there is the one at position
  `k`, whatever is remembered, and the place behind it is one further (`Words.At.next`).
-/

namespace ByteAutomata

set_option autoImplicit false

namespace First

variable {P : Word → Prop} {n k : Nat} {u : Word} {ws : List Word}

/-- The first of the first words. -/
theorem take (h : First P n ws) (hk : k ≤ n) : First P k (ws.take k) where
  length_le := List.length_take_le k ws
  ascending := h.ascending.sublist (List.take_sublist k ws)
  kind w hw := h.kind w (List.mem_of_mem_take hw)
  least w hw := by
    have hsplit := h.ascending
    rw [← List.take_append_drop k ws, List.pairwise_append] at hsplit
    rcases h.least w hw with hmem | ⟨hfull, hbehind⟩
    · rw [← List.take_append_drop k ws, List.mem_append] at hmem
      rcases hmem with hmem | hmem
      · exact Or.inl hmem
      · have hlong := List.length_pos_of_mem hmem
        rw [List.length_drop] at hlong
        exact Or.inr ⟨by rw [List.length_take]; omega, fun v hv => hsplit.2.2 v hv w hmem⟩
    · exact Or.inr ⟨by rw [List.length_take]; omega, fun v hv => hbehind v (List.mem_of_mem_take hv)⟩

/-- The least word that is missing comes next. -/
theorem snoc (h : First P n ws) (hu : P u) (hmissing : u ∉ ws)
    (hleast : ∀ v, P v → v ∉ ws → v ≠ u → shortlex u v = .lt) : First P (n + 1) (ws ++ [u]) := by
  obtain ⟨hfull, hbehind⟩ := (h.least u hu).resolve_left hmissing
  have hlength : (ws ++ [u]).length = n + 1 := by rw [List.length_append, hfull, List.length_singleton]
  refine ⟨hlength.le, ?_, fun w hw => ?_, fun w hw => ?_⟩
  · refine List.pairwise_append.2 ⟨h.ascending, List.pairwise_singleton _ _, fun v hv w hw => ?_⟩
    rw [List.mem_singleton.1 hw]
    exact hbehind v hv
  · rcases List.mem_append.1 hw with hw | hw
    · exact h.kind w hw
    · rw [List.mem_singleton.1 hw]
      exact hu
  · by_cases hmem : w ∈ ws ++ [u]
    · exact Or.inl hmem
    · rw [List.mem_append, List.mem_singleton, not_or] at hmem
      have huw := hleast w hw hmem.1 hmem.2
      refine Or.inr ⟨hlength, fun v hv => ?_⟩
      rcases List.mem_append.1 hv with hv | hv
      · exact Std.TransCmp.lt_trans (hbehind v hv) huw
      · rw [List.mem_singleton.1 hv]
        exact huw

/-- A list that has all words of a kind has the first ones, however many are asked for. -/
theorem of_all (h : First P n ws) (hall : ∀ w, P w → w ∈ ws) (hn : n ≤ k) : First P k ws :=
  ⟨Nat.le_trans h.length_le hn, h.ascending, h.kind, fun w hw => Or.inl (hall w hw)⟩

/-- The word at a position does not depend on how many were asked for. -/
theorem getElem?_eq {j : Nat} {vs : List Word} (h : First P n ws) (h' : First P k vs) (hj : j < n) (hj' : j < k) :
    ws[j]? = vs[j]? := by
  rw [← List.getElem?_take_of_succ, (h.take hj).unique (h'.take hj'), List.getElem?_take_of_succ]

theorem shortlex_of_lt (h : First P n ws) {i j : Nat} {v w : Word} (hij : i < j) (hv : ws[i]? = some v)
    (hw : ws[j]? = some w) : shortlex v w = .lt := by
  obtain ⟨hi, rfl⟩ := List.getElem?_eq_some_iff.1 hv
  obtain ⟨hj, rfl⟩ := List.getElem?_eq_some_iff.1 hw
  exact List.pairwise_iff_getElem.1 h.ascending i j hi hj hij

/-- If there are fewer words than were asked for then these are all. -/
theorem mem_of_length_lt (h : First P n ws) (hlength : ws.length < n) {w : Word} (hw : P w) : w ∈ ws :=
  (h.least w hw).resolve_right fun hbehind => absurd hbehind.1 (Nat.ne_of_lt hlength)

end First

/-- There are finitely many words up to a word, so it is among the first ones if enough are asked for. -/
theorem exists_mem_first {P : Word → Prop} (ws : Nat → List Word) (h : ∀ n, First P n (ws n)) {w : Word}
    (hw : P w) : ∃ n, w ∈ ws n := by
  have hbytes : Finite UInt8 := Finite.of_injective UInt8.toFin fun b c hbc => UInt8.toFin_inj.1 hbc
  have hshort := List.finite_length_le UInt8 w.length
  refine ⟨hshort.toFinset.card + 1, ?_⟩
  rcases (h (hshort.toFinset.card + 1)).least w hw with hmem | ⟨hfull, hbehind⟩
  · exact hmem
  · have hsub : (ws (hshort.toFinset.card + 1)).toFinset ⊆ hshort.toFinset := by
      intro v hv
      rw [Set.Finite.mem_toFinset, Set.mem_ofPred_eq]
      by_contra hlong
      have hlt := shortlex_of_length_lt (Nat.lt_of_not_le hlong)
      have hself := Std.TransCmp.lt_trans hlt (hbehind v (List.mem_toFinset.1 hv))
      rw [shortlex_self] at hself
      cases hself
    have hcard := Finset.card_le_card hsub
    rw [List.toFinset_card_of_nodup (h _).nodup, hfull] at hcard
    omega

/-- The sequence lists the words of a kind, each once and in shortlex order, and ends exactly if there are
finitely many. -/
structure Enumerates (s : Nat → Option Word) (P : Word → Prop) : Prop where
  complete : ∀ w, P w ↔ ∃ k, s k = some w
  once : ∀ i j w, s i = some w → s j = some w → i = j
  ascending : ∀ i j v w, i < j → s i = some v → s j = some w → shortlex v w = .lt
  ended : ∀ i j, i ≤ j → s i = none → s j = none
  ends_iff : (∃ k, s k = none) ↔ {w | P w}.Finite

/-- First words, however many are asked for, make up such a sequence. -/
theorem enumerates_of_first {P : Word → Prop} (ws : Nat → List Word) (h : ∀ n, First P n (ws n)) :
    Enumerates (fun k => (ws (k + 1))[k]?) P := by
  have hget : ∀ {n k}, k < n → (ws (k + 1))[k]? = (ws n)[k]? :=
    fun {n k} hk => (h (k + 1)).getElem?_eq (h n) (Nat.lt_succ_self k) hk
  have hascending : ∀ i j v w, i < j → (ws (i + 1))[i]? = some v → (ws (j + 1))[j]? = some w →
      shortlex v w = .lt := by
    intro i j v w hij hv hw
    rw [hget (show i < j + 1 by omega)] at hv
    exact (h (j + 1)).shortlex_of_lt hij hv hw
  have honce : ∀ i j w, (ws (i + 1))[i]? = some w → (ws (j + 1))[j]? = some w → i = j := by
    intro i j w hi hj
    rcases Nat.lt_trichotomy i j with hij | hij | hij
    · exact absurd rfl (ne_of_shortlex (hascending i j w w hij hi hj))
    · exact hij
    · exact absurd rfl (ne_of_shortlex (hascending j i w w hij hj hi))
  refine ⟨fun w => ⟨fun hw => ?_, fun hw => ?_⟩, honce, hascending, fun i j hij hi => ?_, fun hend => ?_,
    fun hfinite => ?_⟩
  · obtain ⟨n, hmem⟩ := exists_mem_first ws h hw
    obtain ⟨k, hk⟩ := List.mem_iff_getElem?.1 hmem
    have hlength := (List.getElem?_eq_some_iff.1 hk).1
    exact ⟨k, (hget (Nat.lt_of_lt_of_le hlength (h n).length_le)).trans hk⟩
  · obtain ⟨k, hk⟩ := hw
    exact (h (k + 1)).kind w (List.mem_of_getElem? hk)
  · rw [hget (show i < j + 1 by omega), List.getElem?_eq_none_iff] at hi
    exact List.getElem?_eq_none (Nat.le_trans hi hij)
  · obtain ⟨k, hk⟩ := hend
    have hlength : (ws (k + 1)).length < k + 1 := Nat.lt_succ_of_le (List.getElem?_eq_none_iff.1 hk)
    exact (List.finite_toSet (ws (k + 1))).subset fun w hw => (h (k + 1)).mem_of_length_lt hlength hw
  · by_contra hnever
    have hsome : ∀ k, ∃ w, (ws (k + 1))[k]? = some w :=
      fun k => Option.ne_none_iff_exists'.1 fun hk => hnever ⟨k, hk⟩
    choose f hf using hsome
    have hinjective : Function.Injective f := fun i j hij => honce i j (f i) (hf i) (hij ▸ hf j)
    refine Set.infinite_of_injective_forall_mem hinjective (fun k => ?_) hfinite
    exact (h (k + 1)).kind _ (List.mem_of_getElem? (hf k))

/-- The accepted word at a position. -/
def Dfa.word? (A : Dfa) (k : Nat) : Option Word :=
  match A.words (k + 1) with
  | .ok ws => ws[k]?
  | .error _ => none

namespace Dfa

theorem word?_eq {A : Dfa} {k : Nat} {ws : List Word} (h : First (fun w => A.accepts w) (k + 1) ws) :
    A.word? k = ws[k]? := by
  obtain ⟨vs, hvs, hfirst⟩ := A.words_first (k + 1)
  unfold word?
  rw [hvs, hfirst.unique h]

/-- The sequence lists the accepted words. -/
theorem enumerates (A : Dfa) : Enumerates A.word? fun w => A.accepts w := by
  choose ws _ hws using A.words_first
  have hsequence : A.word? = fun k => (ws (k + 1))[k]? := funext fun k => word?_eq (hws (k + 1))
  rw [hsequence]
  exact enumerates_of_first ws hws

end Dfa

/-! ## Places -/

namespace Words

variable {A : Dfa} {m : Memo A} {w : Words} {k : Nat}

/-- The place is behind the first `k` accepted words, and all others remain. -/
structure At (A : Dfa) (w : Words) (k : Nat) : Prop where
  attains : w.Attains A
  limits : w.Limits A
  passed : ∃ ws, First (fun v => A.accepts v) k ws ∧ ∀ v, w.Remains A v ↔ A.accepts v = true ∧ v ∉ ws

theorem at_first (hm : m.Sound) (hnoted : A.toAutomaton.BoundNoted m.visits) : (first m).1.At A 0 := by
  refine ⟨(first_spec hm).1, limits_first hm hnoted, [], .zero _, fun v => ?_⟩
  rw [remains_first]
  exact (and_iff_left List.not_mem_nil).symm

/-- Without a next word the limit is dropped. -/
theorem limit_of_seek {fuel : Nat} (h : (seek fuel w m).1 = .ok none) : (seek fuel w m).2.1.limit = none := by
  induction fuel generalizing w m with
  | zero => cases h
  | succ fuel ih =>
    unfold seek at h ⊢
    split
    · rfl
    next hmore =>
      rw [if_neg hmore] at h
      dsimp only at h ⊢
      split
      next hrank =>
        rw [if_pos hrank] at h
        split at h <;> cases h
      next hrank =>
        rw [if_neg hrank] at h
        exact ih h

section Next

variable {r : Except Fault (Option Word) × Words × Memo A}

/-- Without a next word all have been passed, and none remains behind the place. -/
theorem At.of_none (h : w.At A k) (hr : Delivers A w r) (hattains : r.2.1.Attains A) (hnone : r.1 = .ok none)
    (hlimit : r.2.1.limit = none) : A.word? k = none ∧ r.2.1.At A (k + 1) := by
  obtain ⟨-, -, ws, hfirst, hremains⟩ := h
  have hall : ∀ v, A.accepts v = true → v ∈ ws := by
    intro v hv
    by_contra hmissing
    exact hr.last hnone v ((hremains v).2 ⟨hv, hmissing⟩)
  have hend : ∀ v, ¬ r.2.1.Remains A v := by
    intro v hv
    obtain ⟨l, hl, -⟩ := hr.limits v hv
    cases hlimit.symm.trans hl
  have hfirst' := hfirst.of_all hall (Nat.le_succ k)
  rw [Dfa.word?_eq hfirst', List.getElem?_eq_none hfirst.length_le]
  refine ⟨rfl, hattains, hr.limits, ws, hfirst', fun v => ?_⟩
  exact ⟨fun hv => absurd hv (hend v), fun hv => absurd (hall v hv.1) hv.2⟩

/-- The next word is the least of those that have not been passed. -/
theorem At.of_some (h : w.At A k) (hr : Delivers A w r) (hattains : r.2.1.Attains A) {u : Word}
    (hsome : r.1 = .ok (some u)) : A.word? k = some u ∧ r.2.1.At A (k + 1) := by
  obtain ⟨-, -, ws, hfirst, hremains⟩ := h
  obtain ⟨hiff, hbefore⟩ := hr.word u hsome
  obtain ⟨hu, hmissing⟩ := (hremains u).1 ((hiff u).2 (Or.inl rfl))
  have hrest : ∀ v, A.accepts v = true → v ∉ ws → v ≠ u → r.2.1.Remains A v :=
    fun v hv hnot hne => ((hiff v).1 ((hremains v).2 ⟨hv, hnot⟩)).resolve_left hne
  have hfirst' := hfirst.snoc hu hmissing fun v hv hnot hne => hbefore v (hrest v hv hnot hne)
  have hlength : ws.length = k := ((hfirst.least u hu).resolve_left hmissing).1
  rw [Dfa.word?_eq hfirst', ← hlength, List.getElem?_concat_length, hlength]
  refine ⟨rfl, hattains, hr.limits, ws ++ [u], hfirst', fun v => ?_⟩
  rw [List.mem_append, List.mem_singleton, not_or]
  constructor
  · intro hv
    obtain ⟨haccepts, hnot⟩ := (hremains v).1 ((hiff v).2 (Or.inr hv))
    exact ⟨haccepts, hnot, fun heq => ne_of_shortlex (hbefore v hv) heq.symm⟩
  · rintro ⟨haccepts, hnot, hne⟩
    exact hrest v haccepts hnot hne

end Next

/-- The next word at a place, and the place behind it. -/
theorem At.next (h : w.At A k) (hm : m.Sound) : (w.next m).1 = .ok (A.word? k) ∧ (w.next m).2.1.At A (k + 1) := by
  obtain ⟨⟨found, hfound, -⟩, hattains, -⟩ := next_spec hm h.attains
  have hdelivers := next_delivers hm h.limits
  cases found with
  | none =>
    obtain ⟨hword, hnext⟩ := h.of_none hdelivers hattains hfound (limit_of_seek hfound)
    exact ⟨hword ▸ hfound, hnext⟩
  | some u =>
    obtain ⟨hword, hnext⟩ := h.of_some hdelivers hattains hfound
    exact ⟨hword ▸ hfound, hnext⟩

end Words
end ByteAutomata
