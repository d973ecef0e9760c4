import ByteAutomata.Proofs.Building
import ByteAutomata.Proofs.Memory.Usage
import ByteAutomata.Proofs.RoundTrip

/-!
# Maximal runs

* `Run.Maximal f r` : the run has the value of `f` on all its bytes, and no byte beside it has this value;
* `MaximalRuns f rs` : ascending runs that show where `f` has which value, and do not touch where the value is the
  same. Their members are the maximal runs (`MaximalRuns.mem_iff`), so that no two lists are of this kind
  (`MaximalRuns.unique`), and `runs f` is (`maximalRuns_runs`);
* `Run.push` : a byte behind the last run. What is pushed byte after byte is the same list (`foldl_push_eq_runs`);
* `Dfa.Coincides` : automata with the same numbers of states and the same steps, which is what is compared
  (`same_iff_coincides`); `Dfa.exists_rebuilt` : an automaton is built again from its entries;
* `Dfa.entries_maximal` : the entries are the maximal runs of the steps, and with the start and the accepting states
  they are all that there is to an automaton.
-/

namespace ByteAutomata

set_option autoImplicit false

variable {α : Type}

/-! ## Runs of a function -/

namespace Run

variable {f : UInt8 → Option α} {r s : Run α} {b : UInt8}

/-- All bytes of the run have its value, and the bytes next to it do not. -/
structure Maximal (f : UInt8 → Option α) (r : Run α) : Prop where
  constant : ∀ b, r.covers b = true → f b = some r.value
  below : ∀ b : UInt8, b.toNat + 1 = r.lo.toNat → f b ≠ some r.value
  above : ∀ b : UInt8, r.hi.toNat + 1 = b.toNat → f b ≠ some r.value

/-- The runs have different values, or there is a byte in between. -/
def Apart (r s : Run α) : Prop := r.value = s.value → r.hi.toNat + 1 ≠ s.lo.toNat

theorem covers_iff_toNat : r.covers b = true ↔ r.lo.toNat ≤ b.toNat ∧ b.toNat ≤ r.hi.toNat := by
  rw [covers_iff, UInt8.le_iff_toNat_le, UInt8.le_iff_toNat_le]

theorem lo_toNat_le (r : Run α) : r.lo.toNat ≤ r.hi.toNat := UInt8.le_iff_toNat_le.1 r.lo_le_hi

theorem before_iff_toNat : r.Before s ↔ r.hi.toNat < s.lo.toNat := UInt8.lt_iff_toNat_lt

theorem ext_toNat (hlo : r.lo.toNat = s.lo.toNat) (hhi : r.hi.toNat = s.hi.toNat) (hvalue : r.value = s.value) :
    r = s := by
  obtain ⟨lo, hi, value, _⟩ := r
  obtain ⟨lo', hi', value', _⟩ := s
  simp only [Run.mk.injEq]
  exact ⟨UInt8.toNat_inj.1 hlo, UInt8.toNat_inj.1 hhi, hvalue⟩

theorem exists_toNat {n : Nat} (h : n < 256) : ∃ b : UInt8, b.toNat = n :=
  ⟨UInt8.ofNat n, by rw [UInt8.toNat_ofNat', Nat.mod_eq_of_lt h]⟩

section Maximal

variable (hr : r.Maximal f) (hs : s.Maximal f) (hrb : r.covers b = true) (hsb : s.covers b = true)

include hr hs hrb hsb

theorem Maximal.value_eq : r.value = s.value :=
  Option.some.inj ((hr.constant b hrb).symm.trans (hs.constant b hsb))

/-- A run that shares a byte with a maximal one does not start below it. -/
theorem Maximal.lo_le : r.lo.toNat ≤ s.lo.toNat := by
  have hvalue := hr.value_eq hs hrb hsb
  rw [covers_iff_toNat] at hrb hsb
  by_contra hlt
  have hlo := r.lo.toNat_lt
  obtain ⟨c, hc⟩ := exists_toNat (n := r.lo.toNat - 1) (by omega)
  apply hr.below c (by omega)
  rw [hvalue]
  apply hs.constant
  rw [covers_iff_toNat]
  omega

theorem Maximal.le_hi : s.hi.toNat ≤ r.hi.toNat := by
  have hvalue := hr.value_eq hs hrb hsb
  rw [covers_iff_toNat] at hrb hsb
  by_contra hlt
  have hhi := s.hi.toNat_lt
  obtain ⟨c, hc⟩ := exists_toNat (n := r.hi.toNat + 1) (by omega)
  apply hr.above c (by omega)
  rw [hvalue]
  apply hs.constant
  rw [covers_iff_toNat]
  omega

/-- Maximal runs that share a byte are equal. -/
theorem Maximal.eq_of_covers : r = s := by
  apply ext_toNat
  · exact Nat.le_antisymm (hr.lo_le hs hrb hsb) (hs.lo_le hr hsb hrb)
  · exact Nat.le_antisymm (hs.le_hi hr hsb hrb) (hr.le_hi hs hrb hsb)
  · exact hr.value_eq hs hrb hsb

end Maximal

end Run

/-! ## Lists of maximal runs -/

/-- The runs ascend, show where the function has which value, and do not touch where the value is the same. -/
structure MaximalRuns (f : UInt8 → Option α) (rs : List (Run α)) : Prop where
  ordered : rs.Pairwise Run.Before
  covers : ∀ b x, (∃ r ∈ rs, r.covers b = true ∧ r.value = x) ↔ f b = some x
  apart : rs.IsChain Run.Apart

namespace MaximalRuns

variable {f : UInt8 → Option α} {rs ss : List (Run α)} {r s : Run α}

/-- In ascending runs only neighbours can touch. -/
theorem pairwise_apart (h : MaximalRuns f rs) : rs.Pairwise Run.Apart := by
  obtain ⟨ordered, -, apart⟩ := h
  induction rs with
  | nil => exact List.Pairwise.nil
  | cons r rest ih =>
    refine List.pairwise_cons.2 ⟨fun t ht => ?_, ih ordered.of_cons apart.tail⟩
    cases rest with
    | nil => simp at ht
    | cons s rest =>
      rcases List.mem_cons.1 ht with rfl | ht
      · exact apart.rel
      · intro _
        have hrs := Run.before_iff_toNat.1 (List.rel_of_pairwise_cons ordered (List.mem_cons_self (a := s)))
        have hst := Run.before_iff_toNat.1 (List.rel_of_pairwise_cons ordered.of_cons ht)
        have hs := s.lo_toNat_le
        omega

/-- Of two runs one is before the other, and apart from it. -/
theorem cases_of_mem (h : MaximalRuns f rs) (hr : r ∈ rs) (hs : s ∈ rs) :
    r = s ∨ (r.Before s ∧ r.Apart s) ∨ (s.Before r ∧ s.Apart r) := by
  have hpairs := h.ordered.and h.pairwise_apart
  clear h
  induction rs with
  | nil => simp at hr
  | cons t rest ih =>
    obtain ⟨ht, hrest⟩ := List.pairwise_cons.1 hpairs
    rcases List.mem_cons.1 hr with rfl | hr'
    · rcases List.mem_cons.1 hs with rfl | hs'
      · exact Or.inl rfl
      · exact Or.inr (Or.inl (ht s hs'))
    · rcases List.mem_cons.1 hs with rfl | hs'
      · exact Or.inr (Or.inr (ht r hr'))
      · exact ih hr' hs' hrest

theorem maximal (h : MaximalRuns f rs) (hr : r ∈ rs) : r.Maximal f := by
  have hle := r.lo_toNat_le
  refine ⟨fun b hb => (h.covers b _).1 ⟨r, hr, hb, rfl⟩, fun b hb hf => ?_, fun b hb hf => ?_⟩
  -- a run with this value on the byte next to `r` would touch `r`
  all_goals
    obtain ⟨s, hs, hsb, hvalue⟩ := (h.covers b _).2 hf
    rw [Run.covers_iff_toNat] at hsb
  · rcases h.cases_of_mem hr hs with rfl | ⟨hbefore, -⟩ | ⟨hbefore, hapart⟩
    · omega
    · rw [Run.before_iff_toNat] at hbefore
      omega
    · rw [Run.before_iff_toNat] at hbefore
      apply hapart hvalue
      omega
  · rcases h.cases_of_mem hr hs with rfl | ⟨hbefore, hapart⟩ | ⟨hbefore, -⟩
    · omega
    · rw [Run.before_iff_toNat] at hbefore
      apply hapart hvalue.symm
      omega
    · rw [Run.before_iff_toNat] at hbefore
      omega

/-- The members are the maximal runs of the function. -/
theorem mem_iff (h : MaximalRuns f rs) : r ∈ rs ↔ r.Maximal f := by
  refine ⟨h.maximal, fun hr => ?_⟩
  obtain ⟨s, hs, hcovers, -⟩ := (h.covers r.lo r.value).2 (hr.constant _ r.covers_lo)
  rwa [hr.eq_of_covers (h.maximal hs) r.covers_lo hcovers]

theorem unique (hr : MaximalRuns f rs) (hs : MaximalRuns f ss) : rs = ss := by
  have hirrefl : Std.Irrefl (Run.Before (α := α)) := ⟨fun r h => by
    have hle := r.lo_toNat_le
    rw [Run.before_iff_toNat] at h
    omega⟩
  have hantisymm : Std.Antisymm (Run.Before (α := α)) := ⟨fun r s h h' => by
    have hle := r.lo_toNat_le
    have hle' := s.lo_toNat_le
    rw [Run.before_iff_toNat] at h h'
    omega⟩
  exact hr.ordered.eq_of_mem_iff hs.ordered fun r => hr.mem_iff.trans hs.mem_iff.symm

/-! ### One more byte -/

section Concat

variable {front : List (Run α)} {b : UInt8} {a : α}

theorem exists_mem_concat {c : UInt8} {x : α} : (∃ s ∈ rs ++ [r], s.covers c = true ∧ s.value = x) ↔
    (∃ s ∈ rs, s.covers c = true ∧ s.value = x) ∨ (r.covers c = true ∧ r.value = x) := by
  simp [List.mem_append, or_and_right, exists_or]

theorem hi_lt (h : MaximalRuns f rs) (hbeyond : ∀ c, b ≤ c → f c = none) (hr : r ∈ rs) : r.hi.toNat < b.toNat := by
  by_contra hle
  have hhi : r.covers r.hi = true := (Run.covers_iff r r.hi).2 ⟨r.lo_le_hi, UInt8.le_refl _⟩
  have hvalue := (h.maximal hr).constant r.hi hhi
  rw [hbeyond r.hi (UInt8.le_iff_toNat_le.2 (by omega))] at hvalue
  cases hvalue

theorem update_eq_some_iff (h : MaximalRuns f rs) (hb : f b = none) {c : UInt8} {x : α} :
    Function.update f b (some a) c = some x ↔
      (∃ s ∈ rs, s.covers c = true ∧ s.value = x) ∨ (c = b ∧ a = x) := by
  rw [h.covers, Function.update_apply]
  by_cases hc : c = b
  · simp [hc, hb]
  · simp [hc]

/-- A byte above all that have a value makes a run of its own, unless it touches one of its value. -/
theorem concat (h : MaximalRuns f rs) (hbeyond : ∀ c, b ≤ c → f c = none)
    (hgap : ∀ s, rs.getLast? = some s → s.Apart (Run.single b a)) :
    MaximalRuns (Function.update f b (some a)) (rs ++ [Run.single b a]) := by
  refine ⟨?_, fun c x => ?_, ?_⟩
  · apply List.pairwise_append.2
    refine ⟨h.ordered, List.pairwise_singleton _ _, fun t ht s hs => ?_⟩
    rw [List.mem_singleton.1 hs, Run.before_iff_toNat]
    exact h.hi_lt hbeyond ht
  · rw [h.update_eq_some_iff (hbeyond b (UInt8.le_refl b)), exists_mem_concat, Run.covers_single]
    rfl
  · apply List.isChain_append.2
    refine ⟨h.apart, List.isChain_singleton _, fun t ht s hs => ?_⟩
    rw [List.head?_cons, Option.mem_def, Option.some.injEq] at hs
    subst hs
    exact hgap t ht

/-- The last run is extended to a byte that it touches, if it has its value. -/
theorem extend (h : MaximalRuns f (front ++ [r])) (hbeyond : ∀ c, b ≤ c → f c = none) (hvalue : r.value = a)
    (htouch : r.hi.toNat + 1 = b.toNat) {hle : r.lo ≤ b} :
    MaximalRuns (Function.update f b (some a)) (front ++ [⟨r.lo, b, a, hle⟩]) := by
  obtain ⟨hfront, -, hlast⟩ := List.pairwise_append.1 h.ordered
  obtain ⟨hchain, -, hneighbour⟩ := List.isChain_append.1 h.apart
  refine ⟨?_, fun c x => ?_, ?_⟩
  · apply List.pairwise_append.2
    refine ⟨hfront, List.pairwise_singleton _ _, fun t ht s hs => ?_⟩
    rw [List.mem_singleton.1 hs]
    exact hlast t ht r (by simp)
  · rw [h.update_eq_some_iff (hbeyond b (UInt8.le_refl b)), exists_mem_concat, exists_mem_concat, or_assoc]
    apply or_congr_right
    rw [hvalue, ← or_and_right]
    apply and_congr_left
    intro _
    have hlo := r.lo_toNat_le
    simp only [Run.covers_iff_toNat, ← UInt8.toNat_inj]
    omega
  · apply List.isChain_append.2
    refine ⟨hchain, List.isChain_singleton _, fun t ht s hs => ?_⟩
    rw [List.head?_cons, Option.mem_def, Option.some.injEq] at hs
    subst hs
    intro heq
    exact hneighbour t ht r (by simp) (heq.trans hvalue.symm)

end Concat

end MaximalRuns

section Runs

variable [DecidableEq α] {f : UInt8 → Option α}

theorem Run.isChain_apart_cons {b : UInt8} {a : α} {rest : List (Run α)} (h : rest.IsChain Run.Apart) :
    (Run.cons b a rest).IsChain Run.Apart := by
  cases rest with
  | nil => exact List.isChain_singleton _
  | cons s rest =>
    rw [Run.cons_cons]
    split
    next hs =>
      cases rest with
      | nil => exact List.isChain_singleton _
      | cons t rest =>
        refine List.isChain_cons_cons.2 ⟨fun hvalue => ?_, h.tail⟩
        exact h.rel (hs.1.trans hvalue)
    next hs => exact List.isChain_cons_cons.2 ⟨fun hvalue htouch => hs ⟨hvalue.symm, htouch.symm⟩, h⟩

theorem maximalRuns_runs (f : UInt8 → Option α) : MaximalRuns f (runs f) where
  ordered := runs_ordered f
  covers := mem_runs_covers f
  apart := by
    unfold runs
    induction Byte.all with
    | nil => exact List.isChain_nil
    | cons b bs ih =>
      rw [List.foldr_cons]
      split
      · exact Run.isChain_apart_cons ih
      · exact ih

theorem maximalRuns_iff {rs : List (Run α)} : MaximalRuns f rs ↔ rs = runs f := by
  constructor
  · intro h
    exact h.unique (maximalRuns_runs f)
  · rintro rfl
    exact maximalRuns_runs f

/-! ## From the front -/

namespace Run

/-- Puts byte `b` behind ascending runs, extending the last one if it ends at the byte before with the same value. -/
def push (rs : List (Run α)) (e : UInt8 × α) : List (Run α) :=
  match rs.getLast? with
  | some r =>
    if h : r.value = e.2 ∧ r.hi.toNat + 1 = e.1.toNat then
      rs.dropLast ++ [⟨r.lo, e.1, e.2, UInt8.le_trans r.lo_le_hi (by rw [UInt8.le_iff_toNat_le]; omega)⟩]
    else rs ++ [single e.1 e.2]
  | none => [single e.1 e.2]

theorem push_concat (front : List (Run α)) (r : Run α) (e : UInt8 × α) : push (front ++ [r]) e =
    if h : r.value = e.2 ∧ r.hi.toNat + 1 = e.1.toNat then
      front ++ [⟨r.lo, e.1, e.2, UInt8.le_trans r.lo_le_hi (by rw [UInt8.le_iff_toNat_le]; omega)⟩]
    else front ++ [r] ++ [single e.1 e.2] := by
  simp [push]

end Run

section Push

variable {rs : List (Run α)} {b : UInt8} {a : α}

/-- A byte above all that have a value is pushed behind the runs. -/
theorem MaximalRuns.push (h : MaximalRuns f rs) (hbeyond : ∀ c, b ≤ c → f c = none) :
    MaximalRuns (Function.update f b (some a)) (Run.push rs (b, a)) := by
  rcases List.eq_nil_or_concat' rs with rfl | ⟨front, r, rfl⟩
  · exact h.concat hbeyond (by simp)
  · rw [Run.push_concat]
    split
    next htouch => exact h.extend hbeyond htouch.1 htouch.2
    next hgap =>
      apply h.concat hbeyond
      intro s hs
      rw [List.getLast?_concat, Option.some.injEq] at hs
      subst hs
      exact fun hvalue htouch => hgap ⟨hvalue, htouch⟩

/-- The runs that are made of ascending bytes one after the other. -/
theorem maximalRuns_foldl_push (f : UInt8 → Option α) (bs : List UInt8) (hbs : bs.Pairwise (· < ·)) :
    MaximalRuns (fun c => if c ∈ bs then f c else none)
      ((bs.filterMap fun b => (f b).map (b, ·)).foldl Run.push []) := by
  induction bs using List.reverseRecOn with
  | nil => exact ⟨by simp, by simp, by simp⟩
  | append_singleton bs b ih =>
    obtain ⟨hfront, -, hlast⟩ := List.pairwise_append.1 hbs
    have hbefore := ih hfront
    rw [List.filterMap_append, List.foldl_append]
    cases hf : f b with
    | none =>
      have hsame : (fun c => if c ∈ bs ++ [b] then f c else none) = fun c => if c ∈ bs then f c else none := by
        funext c
        by_cases hc : c = b
        · simp [hc, hf]
        · simp [hc]
      rw [hsame]
      simpa [hf] using hbefore
    | some a =>
      have hmore : (fun c => if c ∈ bs ++ [b] then f c else none) =
          Function.update (fun c => if c ∈ bs then f c else none) b (some a) := by
        funext c
        rw [Function.update_apply]
        by_cases hc : c = b
        · simp [hc, hf]
        · simp [hc]
      have hbeyond : ∀ c, b ≤ c → (if c ∈ bs then f c else none) = none := by
        intro c hc
        apply if_neg
        intro hmem
        exact UInt8.not_lt.2 hc (hlast c hmem b (by simp))
      rw [hmore]
      simpa [hf] using hbefore.push (a := a) hbeyond

/-- It does not matter from which end the runs are made. -/
theorem foldl_push_eq_runs (f : UInt8 → Option α) :
    (Byte.all.filterMap fun b => (f b).map (b, ·)).foldl Run.push [] = runs f := by
  apply maximalRuns_iff.1
  have h := maximalRuns_foldl_push f Byte.all Byte.pairwise_all
  simpa [Byte.mem_all] using h

end Push

end Runs

/-! ## Automata -/

namespace Dfa

/-- The same numbers of states, the same start and accepting states, and the same steps. -/
structure Coincides (A B : Dfa) : Prop where
  start : A.start.val = B.start.val
  size : A.size = B.size
  accepting : ∀ (p : Fin A.size) (q : Fin B.size), p.val = q.val → A.accepting.get p = B.accepting.get q
  steps : ∀ (p : Fin A.size) (q : Fin B.size), p.val = q.val →
    ∀ b, (A.step p b).map Fin.val = (B.step q b).map Fin.val

theorem toAutomaton_eq_iff_coincides (A B : Dfa) : A.toAutomaton = B.toAutomaton ↔ A.Coincides B := by
  obtain ⟨m, startA, acceptingA, tablesA⟩ := A
  obtain ⟨n, startB, acceptingB, tablesB⟩ := B
  constructor
  · intro h
    simp only [toAutomaton, Automaton.mk.injEq] at h
    obtain ⟨rfl, hstart, haccepting, hstep⟩ := h
    refine ⟨congrArg Fin.val (Option.some.inj (eq_of_heq hstart)), rfl, fun p q hpq => ?_, fun p q hpq b => ?_⟩
    · rw [← Fin.ext hpq]
      exact congrFun (eq_of_heq haccepting) p
    · rw [← Fin.ext hpq]
      exact congrArg (Option.map Fin.val) (congrFun (congrFun (eq_of_heq hstep) p) b)
  · rintro ⟨hstart, hsize, haccepting, hsteps⟩
    dsimp only at hstart hsize
    subst hsize
    have hfinal : acceptingA.get = acceptingB.get := funext fun p => haccepting p p rfl
    have hstep : (step ⟨m, startA, acceptingA, tablesA⟩) = step ⟨m, startB, acceptingB, tablesB⟩ := by
      funext p b
      exact Option.map_injective Fin.val_injective (hsteps p p rfl b)
    simp only [toAutomaton, hfinal, hstep, Fin.ext hstart]

theorem same_iff_coincides (A B : Dfa) : A.same B = true ↔ A.Coincides B :=
  (same_iff A B).trans (toAutomaton_eq_iff_coincides A B)

/-- The description of an automaton by its entries. -/
def described (A : Dfa) : List StateSpec :=
  (List.finRange A.size).map fun q => .entries ((A.entries q).map fun r => ⟨r.lo, r.hi, .state r.value.val⟩)

theorem specs_encoding (A : Dfa) : A.encoding.specs = A.described := by
  simp [Encoding.specs, encoding, rows, described, Run.map, Function.comp_def]

/-- From its entries, with the start and the accepting states, an automaton is built again. -/
theorem exists_rebuilt (A : Dfa) : ∃ B,
    build A.described (A.acceptingStates.map .state) (.state A.start.val) = .ok B ∧ B.same A = true := by
  obtain ⟨B, hB⟩ := Encoding.exists_toDfa A.consistent_encoding
  refine ⟨B, ?_, ?_⟩
  · rw [← A.specs_encoding]
    exact Encoding.build_specs hB
  · apply (same_iff B A).2
    exact (Encoding.listed_of_toDfa hB).toAutomaton_eq (Encoding.listed_self A)

theorem ask_entries (A : Dfa) (ops : List Operation) (q : Fin A.size) :
    ((Usage.run A ops).memory.ask (.entries (.state q.val))).1 =
      .ok (.entries ((A.entries q).map (Run.map Fin.val))) := by
  apply (Usage.valid_run A ops).1.exact.ask_eq
  have hfind : A.toAutomaton.find (.state q.val) = .ok (some q) := dif_pos q.isLt
  show some ((A.toAutomaton.find (.state q.val)).map _) = _
  rw [hfind]
  rfl

theorem same_used (A B : Dfa) (ops others : List Operation) :
    ((Usage.run A ops).memory.same (Usage.run B others).memory).1 = A.same B :=
  Memo.same_eq (Usage.valid_run A ops).1.exact.step (Usage.valid_run B others).1.exact.step

/-- The entries of a state are the one list of maximal runs of its steps, from whichever end they are grouped and
whatever was asked before. An automaton is built again from the entries of its states, its start and its accepting
states, and two automata are the same exactly if they coincide in these and in their steps. -/
theorem entries_maximal (A : Dfa) :
    (∀ q : Fin A.size, (∀ rs, MaximalRuns (A.step q) rs ↔ rs = A.entries q) ∧
      (∀ r, r ∈ A.entries q ↔ r.Maximal (A.step q)) ∧
      (A.toAutomaton.edges q).foldl Run.push [] = A.entries q ∧
      ∀ ops : List Operation, ((Usage.run A ops).memory.ask (.entries (.state q.val))).1 =
        .ok (.entries ((A.entries q).map (Run.map Fin.val)))) ∧
    (∃ B, build A.described (A.acceptingStates.map .state) (.state A.start.val) = .ok B ∧ B.same A = true) ∧
    ∀ (B : Dfa) (ops others : List Operation),
      ((Usage.run A ops).memory.same (Usage.run B others).memory).1 = true ↔ A.Coincides B := by
  refine ⟨fun q => ⟨?_, ?_, ?_, ?_⟩, A.exists_rebuilt, fun B ops others => ?_⟩
  · intro rs
    exact maximalRuns_iff
  · intro r
    exact (maximalRuns_runs (A.step q)).mem_iff
  · exact foldl_push_eq_runs (A.step q)
  · intro ops
    exact A.ask_entries ops q
  · rw [same_used]
    exact same_iff_coincides A B

end Dfa
end ByteAutomata
