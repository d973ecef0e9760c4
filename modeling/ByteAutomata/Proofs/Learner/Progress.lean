import ByteAutomata.Proofs.Learner.Closing
import Mathlib.Data.Finset.Card

/-!
# What learning changes

* `withRow?_reindex` : looking states up by their rows after these have grown;
* `refresh`, `changed_spec` : with finer classes and more experiments, labels stay and rows grow;
* `heads`, `variety` : the labels and the labels with one more byte, and how many different rows
  they have. An experiment that tells two of them apart raises the number (`variety_lt`), and in a
  closed table it is at most the number of states (`variety_le_size`);
* `Progress f T U` : classes, experiments and states grow from `T` to `U`, the generation by no more than
  classes and experiments, the experiments by no more than the variety.
-/

namespace ByteAutomata.Observations

set_option autoImplicit false

open Dialogue

variable {f : Word → Bool} {T U V : Observations}

/-! ## Longer rows -/

theorem getElem?_foldl_insert_zipIdx {l : List Observed} (hl : l.Pairwise fun s t => s.row ≠ t.row) (n : Nat)
    (m : Std.HashMap (List Bool) Nat) (k : List Bool) (i : Nat) :
    ((l.zipIdx n).foldl (fun m s => m.insert s.1.row s.2) m)[k]? = some i ↔
      (∃ j s, l[j]? = some s ∧ s.row = k ∧ i = n + j) ∨ ((∀ s ∈ l, s.row ≠ k) ∧ m[k]? = some i) := by
  induction l generalizing n m with
  | nil => simp
  | cons s l ih =>
    obtain ⟨hs, hl⟩ := List.pairwise_cons.1 hl
    rw [List.zipIdx_cons, List.foldl_cons, ih hl, Std.HashMap.getElem?_insert]
    simp only [beq_iff_eq]
    by_cases hk : s.row = k
    · subst hk
      rw [if_pos rfl]
      constructor
      · rintro (⟨j, t, hj, ht, -⟩ | ⟨-, hi⟩)
        · exact absurd ht.symm (hs t (List.mem_of_getElem? hj))
        · cases hi
          exact Or.inl ⟨0, s, rfl, rfl, rfl⟩
      · rintro (⟨j, t, hj, ht, hi⟩ | ⟨hnone, -⟩)
        · cases j with
          | zero => exact Or.inr ⟨fun t ht hrow => hs t ht hrow.symm, by rw [hi]; rfl⟩
          | succ j => exact absurd ht.symm (hs t (List.mem_of_getElem? hj))
        · exact absurd rfl (hnone s List.mem_cons_self)
    · rw [if_neg hk]
      constructor
      · rintro (⟨j, t, hj, ht, hi⟩ | ⟨hnone, hi⟩)
        · exact Or.inl ⟨j + 1, t, hj, ht, by omega⟩
        · refine Or.inr ⟨fun t ht => ?_, hi⟩
          rcases List.mem_cons.1 ht with rfl | ht
          · exact hk
          · exact hnone t ht
      · rintro (⟨j, t, hj, ht, hi⟩ | ⟨hnone, hi⟩)
        · cases j with
          | zero =>
            cases hj
            exact absurd ht hk
          | succ j => exact Or.inl ⟨j, t, hj, ht, by omega⟩
        · exact Or.inr ⟨fun t ht => hnone t (List.mem_cons_of_mem s ht), hi⟩

theorem row_eq_iff {q : Nat} {row : List Bool} :
    (q < T.size ∧ T.row q = row) ↔ ∃ s, T.states[q]? = some s ∧ s.row = row := by
  unfold Observations.row
  constructor
  · intro h
    obtain ⟨hq, hrow⟩ := h
    obtain ⟨s, hs⟩ := getElem?_states_of_lt hq
    rw [hs] at hrow
    exact ⟨s, hs, hrow⟩
  · intro h
    obtain ⟨s, hs, hrow⟩ := h
    rw [hs]
    exact ⟨(Array.getElem?_eq_some_iff.1 hs).1, hrow⟩

theorem pairwise_row (h : ∀ p < T.size, ∀ q < T.size, T.row p = T.row q → p = q) :
    T.states.toList.Pairwise fun s t => s.row ≠ t.row := by
  rw [List.pairwise_iff_getElem]
  intro i j hi hj hij heq
  rw [Array.length_toList] at hi hj
  rw [Array.getElem_toList, Array.getElem_toList] at heq
  have hrowi : T.row i = T.states[i].row := (row_eq_iff.2 ⟨_, Array.getElem?_eq_getElem hi, rfl⟩).2
  have hrowj : T.row j = T.states[j].row := (row_eq_iff.2 ⟨_, Array.getElem?_eq_getElem hj, rfl⟩).2
  rw [← hrowi, ← hrowj] at heq
  exact absurd (h i hi j hj heq) (Nat.ne_of_lt hij)

/-- States with different rows are found by them. -/
theorem withRow?_reindex (h : ∀ p < T.size, ∀ q < T.size, T.row p = T.row q → p = q) (row : List Bool) (q : Nat) :
    (reindex T).withRow? row = some q ↔ q < T.size ∧ T.row q = row := by
  rw [row_eq_iff]
  refine (getElem?_foldl_insert_zipIdx (pairwise_row h) 0 ∅ row q).trans ?_
  constructor
  · rintro (⟨j, s, hj, hs, rfl⟩ | ⟨-, hnone⟩)
    · rw [Array.getElem?_toList] at hj
      exact ⟨s, by rw [Nat.zero_add]; exact hj, hs⟩
    · rw [Std.HashMap.getElem?_empty] at hnone
      cases hnone
  · intro h
    obtain ⟨s, hs, hrow⟩ := h
    refine Or.inl ⟨q, s, ?_, hrow, (Nat.zero_add q).symm⟩
    rw [Array.getElem?_toList]
    exact hs

/-- A state whose row is complete for other experiments, and whose steps are forgotten. -/
def refreshed (f : Word → Bool) (es : List Word) (s : Observed) : Observed :=
  { s with row := answers f es s.label, steps := ByteMap.const none }

/-- The table with complete rows and without steps. -/
def refresh (f : Word → Bool) (T : Observations) : Observations :=
  reindex { T with states := T.states.map (refreshed f T.experiments), generation := T.generation + 1 }

section Refresh

theorem getElem?_refresh (q : Nat) : (T.refresh f).states[q]? = T.states[q]?.map (refreshed f T.experiments) :=
  Array.getElem?_map

@[simp] theorem size_refresh : (T.refresh f).size = T.size := Array.size_map

@[simp] theorem label_refresh (q : Nat) : (T.refresh f).label q = T.label q := by
  unfold label
  rw [getElem?_refresh]
  cases T.states[q]? <;> rfl

@[simp] theorem beyond_refresh (q : Nat) (b : UInt8) : (T.refresh f).beyond q b = T.beyond q b := by
  unfold beyond
  rw [getElem?_refresh]
  cases T.states[q]? <;> rfl

@[simp] theorem step?_refresh (q : Nat) (b : UInt8) : (T.refresh f).step? q b = none := by
  unfold step?
  rw [getElem?_refresh]
  cases T.states[q]? with
  | none => rfl
  | some s => exact ByteMap.get_const none b

theorem row_refresh {q : Nat} (hq : q < T.size) : (T.refresh f).row q = answers f T.experiments (T.label q) := by
  obtain ⟨s, hs⟩ := getElem?_states_of_lt hq
  unfold Observations.row label
  rw [getElem?_refresh, hs]
  rfl

/-- Rows are completed if they hold the first answers for their labels. -/
theorem result_changed (h : ∀ q < T.size, ∃ k, T.row q = answers f (T.experiments.take k) (T.label q)) :
    T.changed.result f = .ok (T.refresh f) := by
  unfold changed
  rw [result_bind, result_mapM (g := refreshed f T.experiments)]
  · show Except.ok (reindex { T with
      states := (T.states.toList.map (refreshed f T.experiments)).toArray, generation := T.generation + 1 }) = _
    rw [← Array.toList_map, Array.toArray_toList]
    rfl
  · intro s hs
    obtain ⟨q, hq⟩ := List.mem_iff_getElem?.1 hs
    rw [Array.getElem?_toList] at hq
    obtain ⟨hlt, hrow⟩ := row_eq_iff.2 ⟨s, hq, rfl⟩
    obtain ⟨k, hk⟩ := h q hlt
    have hlabel : T.label q = s.label := by
      unfold label
      rw [hq]
    rw [hrow, hlabel] at hk
    rw [result_bind, result_observe hk]
    rfl

end Refresh

section States

variable (hstates : U.states = T.states)

include hstates

theorem size_of_states : U.size = T.size := congrArg Array.size hstates

theorem label_of_states (q : Nat) : U.label q = T.label q := by
  unfold label
  rw [hstates]

theorem row_of_states (q : Nat) : U.row q = T.row q := by
  unfold Observations.row
  rw [hstates]

theorem beyond_of_states (q : Nat) (b : UInt8) : U.beyond q b = T.beyond q b := by
  unfold beyond
  rw [hstates]

end States

theorem take_of_prefix {es ds : List Word} (h : es <+: ds) (k : Nat) : es.take k = ds.take (min k es.length) := by
  rw [← List.take_take, ← List.prefix_iff_eq_take.1 h]

/-- Further experiments do not make rows equal. -/
theorem Faithful.eq_of_answers (h : Faithful f T) {es : List Word} (hes : T.experiments <+: es) {p q : Nat}
    (hp : p < T.size) (hq : q < T.size) (heq : answers f es (T.label p) = answers f es (T.label q)) : p = q := by
  obtain ⟨ds, rfl⟩ := hes
  rw [answers_append, answers_append] at heq
  apply h.eq_of_row hp hq
  rw [h.rows p hp, h.rows q hq]
  exact List.append_inj_left heq (by rw [length_answers, length_answers])

/-- With finer classes and further experiments the states keep their labels, and complete their rows. -/
theorem faithful_refresh (h : Faithful f T) (hstates : U.states = T.states) (hes : T.experiments <+: U.experiments)
    (hdistinct : U.experiments.Nodup) (hwf : U.classes.Wf) (hsub : T.classes.canonical ⊆ U.classes.canonical) :
    Faithful f (U.refresh f) where
  classes := hwf
  experiments := by
    obtain ⟨rest, hrest⟩ := h.experiments
    obtain ⟨es, hes⟩ := hes
    exact ⟨rest ++ es, by rw [← List.cons_append, ← hrest]; exact hes.symm⟩
  distinct := hdistinct
  pos := by rw [size_refresh, size_of_states hstates]; exact h.pos
  root := by rw [label_refresh, label_of_states hstates]; exact h.root
  labels q hpos hq := by
    rw [size_refresh, size_of_states hstates] at hq
    obtain ⟨p, hp, b, hb, hpb⟩ := h.labels q hpos hq
    refine ⟨p, hp, b, hsub hb, ?_⟩
    rw [label_refresh, label_refresh, label_of_states hstates, label_of_states hstates]
    exact hpb
  rows q hq := by
    rw [size_refresh] at hq
    rw [row_refresh hq, label_refresh]
    rfl
  index := by
    refine withRow?_reindex fun p hp q hq hrow => ?_
    change p < (U.refresh f).size at hp
    change q < (U.refresh f).size at hq
    change (U.refresh f).row p = (U.refresh f).row q at hrow
    rw [size_refresh] at hp hq
    rw [row_refresh hp, row_refresh hq, label_of_states hstates, label_of_states hstates] at hrow
    rw [size_of_states hstates] at hp hq
    exact h.eq_of_answers hes hp hq hrow
  beyond q hq b := by
    rw [size_refresh, size_of_states hstates] at hq
    obtain ⟨k, hk⟩ := h.beyond q hq b
    refine ⟨min k T.experiments.length, ?_⟩
    rw [beyond_refresh, beyond_of_states hstates, hk, label_refresh, label_of_states hstates, take_of_prefix hes]
    rfl
  steps q b t ht := by
    rw [step?_refresh] at ht
    cases ht

theorem changed_spec (h : Faithful f T) (hstates : U.states = T.states) (hes : T.experiments <+: U.experiments)
    (hdistinct : U.experiments.Nodup) (hwf : U.classes.Wf) (hsub : T.classes.canonical ⊆ U.classes.canonical) :
    Ensures f False U.changed fun V => V = U.refresh f ∧ Faithful f V := by
  refine ensures_ok (result_changed fun q hq => ⟨T.experiments.length, ?_⟩)
    ⟨rfl, faithful_refresh h hstates hes hdistinct hwf hsub⟩
  rw [size_of_states hstates] at hq
  rw [row_of_states hstates, label_of_states hstates, h.rows q hq, ← List.prefix_iff_eq_take.1 hes]

/-! ## How many rows differ -/

/-- The labels of states, and these with one canonical byte behind. -/
def heads (T : Observations) : Finset Word :=
  (Finset.range T.size).biUnion fun q =>
    insert (T.label q) (T.classes.canonical.toFinset.image fun b => T.label q ++ [b])

/-- The number of different rows among them. -/
def variety (f : Word → Bool) (T : Observations) : Nat := (T.heads.image (answers f T.experiments)).card

theorem mem_heads {u : Word} :
    u ∈ T.heads ↔ ∃ q < T.size, u = T.label q ∨ ∃ b ∈ T.classes.canonical, u = T.label q ++ [b] := by
  unfold heads
  simp only [Finset.mem_biUnion, Finset.mem_range, Finset.mem_insert, Finset.mem_image, List.mem_toFinset, eq_comm]

theorem heads_subset (hclasses : T.classes.canonical ⊆ U.classes.canonical) (hsize : T.size ≤ U.size)
    (hlabel : ∀ q < T.size, U.label q = T.label q) : T.heads ⊆ U.heads := by
  intro u hu
  obtain ⟨q, hq, hu⟩ := mem_heads.1 hu
  refine mem_heads.2 ⟨q, Nat.lt_of_lt_of_le hq hsize, ?_⟩
  rw [hlabel q hq]
  rcases hu with hu | ⟨b, hb, hu⟩
  · exact Or.inl hu
  · exact Or.inr ⟨b, hclasses hb, hu⟩

/-- Shorter rows are beginnings of longer ones. -/
theorem image_answers_eq_image_take {es ds : List Word} (h : es <+: ds) (s : Finset Word) :
    s.image (answers f es) = (s.image (answers f ds)).image (List.take es.length) := by
  rw [Finset.image_image]
  apply Finset.image_congr
  intro u _
  obtain ⟨rest, rfl⟩ := h
  rw [Function.comp_apply, answers_append, List.take_left' (length_answers es u)]

theorem variety_le (hheads : T.heads ⊆ U.heads) (hexperiments : T.experiments <+: U.experiments) :
    variety f T ≤ variety f U := by
  unfold variety
  rw [image_answers_eq_image_take hexperiments]
  exact Finset.card_image_le.trans (Finset.card_le_card (Finset.image_subset_image hheads))

/-- Words that only the new experiments tell apart make for one more row. -/
theorem variety_lt (hheads : T.heads ⊆ U.heads) (hexperiments : T.experiments <+: U.experiments) {u v : Word}
    (hu : u ∈ T.heads) (hv : v ∈ T.heads) (hsame : answers f T.experiments u = answers f T.experiments v)
    (hdiffer : answers f U.experiments u ≠ answers f U.experiments v) : variety f T < variety f U := by
  unfold variety
  refine Nat.lt_of_lt_of_le ?_ (Finset.card_le_card (Finset.image_subset_image hheads))
  rw [image_answers_eq_image_take hexperiments]
  refine Nat.lt_of_le_of_ne Finset.card_image_le fun hcard => hdiffer ?_
  have hinj := Finset.card_image_iff.1 hcard
  apply hinj (Finset.mem_image_of_mem _ hu) (Finset.mem_image_of_mem _ hv)
  obtain ⟨rest, hrest⟩ := hexperiments
  rw [← hrest, answers_append, answers_append, List.take_left' (length_answers _ u),
    List.take_left' (length_answers _ v)]
  exact hsame

/-- If all steps are known, every row is the row of a state. -/
theorem variety_le_size (h : Faithful f T) (hclosed : Closed T) : variety f T ≤ T.size := by
  have hsub : T.heads.image (answers f T.experiments) ⊆ (Finset.range T.size).image T.row := by
    intro row hrow
    obtain ⟨u, hu, rfl⟩ := Finset.mem_image.1 hrow
    obtain ⟨q, hq, rfl | ⟨b, hb, rfl⟩⟩ := mem_heads.1 hu
    · exact Finset.mem_image.2 ⟨q, Finset.mem_range.2 hq, h.rows q hq⟩
    · obtain ⟨t, ht⟩ := hclosed q hq b hb
      obtain ⟨hlt, hrow⟩ := h.steps q b t ht
      exact Finset.mem_image.2 ⟨t, Finset.mem_range.2 hlt, hrow⟩
  calc variety f T ≤ ((Finset.range T.size).image T.row).card := Finset.card_le_card hsub
    _ ≤ (Finset.range T.size).card := Finset.card_image_le
    _ = T.size := Finset.card_range T.size

theorem variety_pos (h : Faithful f T) : 0 < variety f T :=
  Finset.card_pos.2 ⟨_, Finset.mem_image_of_mem _ (mem_heads.2 ⟨0, h.pos, Or.inl rfl⟩)⟩

/-! ## Growth -/

/-- What learning keeps of `T`, and how much the generation and the experiments grow at most. -/
structure Progress (f : Word → Bool) (T U : Observations) : Prop where
  classes : T.classes.canonical ⊆ U.classes.canonical
  experiments : T.experiments <+: U.experiments
  size_le : T.size ≤ U.size
  label : ∀ q < T.size, U.label q = T.label q
  generation_le : T.generation ≤ U.generation
  counted : U.generation + T.classes.canonical.length + T.experiments.length ≤
    T.generation + U.classes.canonical.length + U.experiments.length
  varied : U.experiments.length + variety f T ≤ T.experiments.length + variety f U
  unchanged : U.generation = T.generation → Extends T U

theorem Extends.progress (h : Extends T U) : Progress f T U where
  classes := by rw [h.classes]; exact List.Subset.refl _
  experiments := by rw [h.experiments]
  size_le := h.size_le
  label := h.label
  generation_le := by rw [h.generation]
  counted := by rw [h.generation, h.classes, h.experiments]
  varied := by
    have hclasses : T.classes.canonical ⊆ U.classes.canonical := by rw [h.classes]; exact List.Subset.refl _
    have hle : variety f T ≤ variety f U := variety_le (heads_subset hclasses h.size_le h.label) (by rw [h.experiments])
    rw [h.experiments]
    omega
  unchanged _ := h

theorem Progress.refl (T : Observations) : Progress f T T := (Extends.refl T).progress

theorem Progress.trans (h : Progress f T U) (h' : Progress f U V) : Progress f T V where
  classes := fun b hb => h'.classes (h.classes hb)
  experiments := h.experiments.trans h'.experiments
  size_le := Nat.le_trans h.size_le h'.size_le
  label q hq := (h'.label q (Nat.lt_of_lt_of_le hq h.size_le)).trans (h.label q hq)
  generation_le := Nat.le_trans h.generation_le h'.generation_le
  counted := by
    have h₁ := h.counted
    have h₂ := h'.counted
    omega
  varied := by
    have h₁ := h.varied
    have h₂ := h'.varied
    omega
  unchanged heq := by
    have h₁ := h.generation_le
    have h₂ := h'.generation_le
    exact (h.unchanged (by omega)).trans (h'.unchanged (by omega))

theorem heads_subset_refresh (hstates : U.states = T.states) (hsub : T.classes.canonical ⊆ U.classes.canonical) :
    T.heads ⊆ (U.refresh f).heads := by
  have hsize : U.size = T.size := congrArg Array.size hstates
  refine heads_subset hsub (by rw [size_refresh, hsize]) fun q _ => ?_
  rw [label_refresh]
  unfold label
  rw [hstates]

/-- More classes, and no new experiment. -/
theorem progress_refine {C : ByteClasses} (hsub : T.classes.canonical ⊆ C.canonical)
    (hlength : T.classes.canonical.length < C.canonical.length) :
    Progress f T (({ T with classes := C } : Observations).refresh f) where
  classes := hsub
  experiments := List.prefix_refl _
  size_le := by rw [size_refresh]; exact Nat.le_refl _
  label q _ := by rw [label_refresh]; rfl
  generation_le := Nat.le_succ _
  counted := by
    show T.generation + 1 + _ + _ ≤ T.generation + C.canonical.length + T.experiments.length
    omega
  varied := by
    have hle : variety f T ≤ variety f (({ T with classes := C } : Observations).refresh f) :=
      variety_le (heads_subset_refresh rfl hsub) (List.prefix_refl _)
    show T.experiments.length + _ ≤ _
    omega
  unchanged heq := by
    change T.generation + 1 = T.generation at heq
    omega

/-- A new experiment that tells two words apart which had the same row. -/
theorem progress_experiment {e u v : Word} (hu : u ∈ T.heads) (hv : v ∈ T.heads)
    (hsame : answers f T.experiments u = answers f T.experiments v) (hdiffer : f (u ++ e) ≠ f (v ++ e)) :
    Progress f T (({ T with experiments := T.experiments ++ [e] } : Observations).refresh f) where
  classes := List.Subset.refl _
  experiments := List.prefix_append _ _
  size_le := by rw [size_refresh]; exact Nat.le_refl _
  label q _ := by rw [label_refresh]; rfl
  generation_le := Nat.le_succ _
  counted := by
    show T.generation + 1 + _ + _ ≤ T.generation + _ + (T.experiments ++ [e]).length
    rw [List.length_append, List.length_singleton]
    show _ ≤ T.generation + T.classes.canonical.length + _
    omega
  varied := by
    have hlt : variety f T < variety f (({ T with experiments := T.experiments ++ [e] } : Observations).refresh f) := by
      refine variety_lt (heads_subset_refresh rfl (List.Subset.refl _)) (List.prefix_append _ _) hu hv hsame fun h => ?_
      change answers f (T.experiments ++ [e]) u = answers f (T.experiments ++ [e]) v at h
      rw [answers_append, answers_append] at h
      have hlast := (List.append_inj h (by rw [length_answers, length_answers])).2
      exact hdiffer (List.cons.inj hlast).1
    show (T.experiments ++ [e]).length + _ ≤ _
    rw [List.length_append, List.length_singleton]
    omega
  unchanged heq := by
    change T.generation + 1 = T.generation at heq
    omega

end ByteAutomata.Observations
