import ByteAutomata.Proofs.Learner.Session
import ByteAutomata.Proofs.Splitting

/-!
# Classes only get finer

* `Dialogue.MustEnd` : a dialogue that ends with a result, whichever of the allowed answers are given
  (`MustEnd.bind`, `MustEnd.relay`, `MustEnd.run`). A search must end if the predicate never holds far out
  (`mustEnd_boundary`), and so must a split (`mustEnd_distinguish`);
* `ByteClasses.Regular` : what holds of canonical bytes that ascend from 0 (`Wf.regular`);
* `ByteClasses.Nested C D` : the classes `D` lie within the classes `C` (`Wf.nested`);
* `ByteClasses.tryAll` : a sequence of tests of single bytes, which answer as they like (`exists_tryAll_nested`);
* `Observations.Classified` : between calls a learner's classes are regular, and its labels are in normal form
  (`Settled.classified`, `twice_spec`);
* `canonical_only_added` : classes are regular and lie within the earlier ones, behind every sequence of tests and
  behind every sequence of learned words.
-/

namespace ByteAutomata

set_option autoImplicit false

/-! ## Dialogues that must end -/

namespace Dialogue

variable {ι κ α β : Type}

/-- The dialogue ends with a result if each answer `b` to a question `i` is one that `may i b` allows. -/
def MustEnd (may : ι → Bool → Prop) : Dialogue ι α → Prop
  | done _ => True
  | fail _ => False
  | ask i next => ∀ b, may i b → MustEnd may (next b)

variable {may : ι → Bool → Prop}

theorem mustEnd_query_bind {i : ι} {k : Bool → Dialogue ι α} (h : ∀ b, may i b → MustEnd may (k b)) :
    MustEnd may (query i >>= k) := h

theorem MustEnd.bind {d : Dialogue ι β} {k : β → Dialogue ι α} (h : MustEnd may d)
    (hk : ∀ x, MayEnd may d x → MustEnd may (k x)) : MustEnd may (d >>= k) := by
  induction d with
  | done x => exact hk x (.done x)
  | fail e => exact h.elim
  | ask i next ih => exact fun b hb => ih b (h b hb) fun x hx => hk x (.ask hb hx)

/-- A relayed dialogue must end if it does with the answers that it is relayed to. -/
theorem MustEnd.relay {answer : κ → Dialogue ι Bool} {d : Dialogue κ α} (hanswer : ∀ k, MustEnd may (answer k))
    (h : MustEnd (fun k b => MayEnd may (answer k) b) d) : MustEnd may (d.relay answer) := by
  induction d with
  | done x => exact trivial
  | fail e => exact h.elim
  | ask k next ih => exact (hanswer k).bind fun b hb => ih b (h b hb)

/-- With any answers, also of something that has a state, there is a result. -/
theorem MustEnd.run {d : Dialogue ι α} (h : MustEnd (fun _ _ => True) d) {ρ : Type} (answer : ι → ρ → Bool × ρ)
    (r : ρ) : ∃ a, (d.run answer r).1 = .ok a := by
  induction d generalizing r with
  | done x => exact ⟨x, rfl⟩
  | fail e => exact h.elim
  | ask i next ih => exact ih _ (h _ trivial) _

end Dialogue

open Dialogue

section Search

variable {may : Nat → Bool → Prop} {bound : Nat}

theorem mustEnd_bisect (lo hi : Nat) : MustEnd may (bisect lo hi) := by
  fun_induction bisect lo hi with
  | case1 lo hi hgap mid ih₁ ih₂ =>
    intro b _
    cases b with
    | true => exact ih₁
    | false => exact ih₂
  | case2 lo hi hgap => exact trivial

/-- The bound is not doubled any more once it is out of reach. -/
theorem mustEnd_gallop (hmay : ∀ i, may i true → i < bound) {r lo hi : Nat} (hr : bound ≤ hi * 2 ^ r) :
    MustEnd may (gallop r lo hi) := by
  induction r generalizing lo hi with
  | zero =>
    intro b hb
    cases b with
    | true =>
      have hlt := hmay hi hb
      omega
    | false => exact mustEnd_bisect lo hi
  | succ r ih =>
    intro b _
    cases b with
    | true =>
      refine ih ?_
      rwa [Nat.mul_comm 2 hi, Nat.mul_assoc, ← Nat.pow_succ']
    | false => exact mustEnd_bisect lo hi

theorem mustEnd_climb (hmay : ∀ i, may i true → i < bound) (hbound : bound ≤ 2 ^ doublings) (steps n : Nat) :
    MustEnd may (climb steps n) := by
  induction steps generalizing n with
  | zero => exact mustEnd_gallop hmay (hbound.trans (Nat.le_mul_of_pos_left _ (Nat.succ_pos n)))
  | succ steps ih =>
    intro b _
    cases b with
    | true => exact ih (n + 1)
    | false => exact trivial

theorem mustEnd_boundary (hmay : ∀ i, may i true → i < bound) (hbound : bound ≤ 2 ^ doublings) :
    MustEnd may boundary := mustEnd_climb hmay hbound 4 0

end Search

namespace ByteClasses

variable {C D : ByteClasses} {b : UInt8}

/-- No test makes a split fail, whatever it answers. -/
theorem mustEnd_distinguish (C : ByteClasses) (b : UInt8) : MustEnd (fun _ _ => True) (C.distinguish b) := by
  unfold distinguish
  by_cases hcb : C.normalize b = b
  · rw [if_pos hcb]
    exact trivial
  simp only [if_neg hcb]
  refine mustEnd_query_bind fun value _ => mustEnd_query_bind fun other _ => ?_
  by_cases hsame : other = value
  · rw [if_pos hsame]
    exact trivial
  rw [if_neg hsame]
  have hdistance : b.toNat - (C.normalize b).toNat ≤ 2 ^ doublings := by
    have hbyte := b.toNat_lt
    have hbig : 256 ≤ 2 ^ doublings := by decide
    omega
  refine MustEnd.bind (MustEnd.relay (fun k => ?_) (mustEnd_boundary (fun k hk => ?_) hdistance)) fun _ _ => trivial
  · by_cases hk : k < b.toNat - (C.normalize b).toNat
    · rw [if_pos hk]
      exact mustEnd_query_bind fun _ _ => trivial
    · rw [if_neg hk]
      exact trivial
  · by_contra hlt
    rw [if_neg hlt] at hk
    cases hk.eq_of_pure

/-! ## Ascending canonical bytes -/

/-- The canonical bytes ascend from 0, and the one of a byte is the greatest that is not above it. -/
structure Regular (C : ByteClasses) : Prop where
  ascending : C.canonical.Pairwise (· < ·)
  head : C.canonical.head? = some 0
  inRange : ∀ b, C.normalize? b = some (C.normalize b)
  mem : ∀ b, C.normalize b ∈ C.canonical
  le : ∀ b, C.normalize b ≤ b
  greatest : ∀ b, ∀ c ∈ C.canonical, c ≤ b → c ≤ C.normalize b
  monotone : ∀ a b, a ≤ b → C.normalize a ≤ C.normalize b
  idempotent : ∀ b, C.normalize (C.normalize b) = C.normalize b

theorem Wf.head_eq_zero (h : C.Wf) : C.canonical.head? = some 0 := by
  obtain ⟨hascending, hzero⟩ := h
  cases hbytes : C.canonical with
  | nil =>
    rw [hbytes] at hzero
    cases hzero
  | cons a rest =>
    rw [hbytes] at hascending hzero
    rcases List.mem_cons.1 hzero with rfl | hrest
    · rfl
    · exact absurd (List.rel_of_pairwise_cons hascending hrest) (UInt8.not_lt.2 UInt8.zero_le)

theorem Wf.monotone (h : C.Wf) {a b : UInt8} (hab : a ≤ b) : C.normalize a ≤ C.normalize b :=
  (h.normalize_spec b).2.2 _ (h.normalize_mem a) (UInt8.le_trans (h.normalize_le a) hab)

theorem Wf.regular (h : C.Wf) : C.Regular where
  ascending := h.ascending
  head := h.head_eq_zero
  inRange := h.normalize?_eq
  mem := h.normalize_mem
  le := h.normalize_le
  greatest b := (h.normalize_spec b).2.2
  monotone _ _ hab := h.monotone hab
  idempotent := h.normalize_normalize

/-! ## Classes within classes -/

/-- Canonical bytes of `C` are canonical in `D`, and bytes that are apart in `C` are apart in `D`. -/
structure Nested (C D : ByteClasses) : Prop where
  canonical : C.canonical ⊆ D.canonical
  apart : ∀ a b, C.normalize a ≠ C.normalize b → D.normalize a ≠ D.normalize b

/-- A byte and its canonical byte among more of them are in one class. -/
theorem Wf.normalize_normalize_of_subset (hC : C.Wf) (hD : D.Wf) (h : C.canonical ⊆ D.canonical) (b : UInt8) :
    C.normalize (D.normalize b) = C.normalize b := by
  obtain ⟨hmem, hle, hmax⟩ := hC.normalize_spec b
  refine hC.normalize_eq_iff.2 ⟨hmem, (hD.normalize_spec b).2.2 _ (h hmem) hle, fun d hd hdb => ?_⟩
  exact hmax d hd (UInt8.le_trans hdb (hD.normalize_le b))

/-- Adding canonical bytes splits classes, and does nothing else. -/
theorem Wf.nested (hC : C.Wf) (hD : D.Wf) (h : C.canonical ⊆ D.canonical) : Nested C D := by
  refine ⟨h, fun a b hab heq => hab ?_⟩
  rw [← hC.normalize_normalize_of_subset hD h a, heq, hC.normalize_normalize_of_subset hD h b]

/-! ## Sequences of tests -/

/-- A byte and a test of single bytes, which has a state and answers as it likes. -/
structure Trial where
  byte : UInt8
  State : Type
  test : UInt8 → State → Bool × State
  state : State

/-- Splits the class of a byte by its test. -/
def tryOn (C : ByteClasses) (t : Trial) : Except LearnFault ByteClasses :=
  ((C.distinguish t.byte).run t.test t.state).1.map Prod.snd

/-- Splits classes by one test after the other. -/
def tryAll (C : ByteClasses) (ts : List Trial) : Except LearnFault ByteClasses := ts.foldlM tryOn C

/-- A test adds at most one canonical byte. -/
theorem Wf.exists_tryOn (h : C.Wf) (t : Trial) : ∃ D, C.tryOn t = .ok D ∧ D.Wf ∧ C.canonical ⊆ D.canonical := by
  obtain ⟨r, hr⟩ := (C.mustEnd_distinguish t.byte).run t.test t.state
  refine ⟨r.2, congrArg (Except.map Prod.snd) hr, ?_⟩
  rcases h.mayEnd_distinguish (mayEnd_run hr) with rfl | ⟨s, rfl, hlt, hle⟩
  · exact ⟨h, List.Subset.refl _⟩
  · exact ⟨h.insert (h.not_mem_of_between hlt hle), fun c hc => (mem_canonical_insert s).2 (Or.inr hc)⟩

theorem Wf.exists_tryAll (h : C.Wf) (ts : List Trial) :
    ∃ D, C.tryAll ts = .ok D ∧ D.Wf ∧ C.canonical ⊆ D.canonical := by
  induction ts generalizing C with
  | nil => exact ⟨C, rfl, h, List.Subset.refl _⟩
  | cons t ts ih =>
    obtain ⟨D, hD, hwf, hsub⟩ := h.exists_tryOn t
    obtain ⟨E, hE, hwf', hsub'⟩ := ih hwf
    refine ⟨E, ?_, hwf', List.Subset.trans hsub hsub'⟩
    rw [tryAll, List.foldlM_cons, hD]
    exact hE

/-- What later tests make of the classes that earlier ones have left. -/
theorem exists_tryAll_nested (ts more : List Trial) : ∃ C D, single.tryAll ts = .ok C ∧ C.tryAll more = .ok D ∧
    Regular C ∧ Regular D ∧ Nested C D := by
  obtain ⟨C, hC, hwf, -⟩ := wf_single.exists_tryAll ts
  obtain ⟨D, hD, hwf', hsub⟩ := hwf.exists_tryAll more
  exact ⟨C, D, hC, hD, hwf.regular, hwf'.regular, hwf.nested hwf' hsub⟩

end ByteClasses

/-! ## The classes of a learner -/

namespace Observations

open ByteClasses

variable {f : Word → Bool} {T : Observations}

/-- Labels stay in normal form when classes are split. -/
theorem Faithful.mem_label (h : Faithful f T) {q : Nat} (hq : q < T.size) {b : UInt8} (hb : b ∈ T.label q) :
    b ∈ T.classes.canonical := by
  induction q using Nat.strong_induction_on with
  | _ q ih =>
    by_cases hzero : q = 0
    · rw [hzero, h.root] at hb
      cases hb
    obtain ⟨p, hp, a, ha, hlabel⟩ := h.labels q (Nat.pos_of_ne_zero hzero) hq
    rw [hlabel, List.mem_append, List.mem_singleton] at hb
    rcases hb with hb | rfl
    · exact ih p hp (Nat.lt_trans hp hq) hb
    · exact ha

/-- The classes between calls, and labels in normal form. -/
structure Classified (T : Observations) : Prop where
  regular : Regular T.classes
  labels : ∀ q < T.size, ∀ b ∈ T.label q, b ∈ T.classes.canonical

theorem Settled.classified (h : Settled f T) : Classified T :=
  ⟨h.faithful.classes.regular, fun _ hq _ hb => h.faithful.mem_label hq hb⟩

/-- A new learner's table behind some calls, and behind more. -/
def twice (ws vs : List Word) : Dialogue Word (Observations × Observations) := do
  let T ← session ws
  let U ← T.learnAll vs
  return (T, U)

theorem twice_spec (f : Word → Bool) (ws vs : List Word) : Ensures f (∃ w ∈ ws ++ vs, Huge w) (twice ws vs)
    fun r => Classified r.1 ∧ Classified r.2 ∧ Nested r.1.classes r.2.classes := by
  have hleft : (∃ w ∈ ws, Huge w) → ∃ w ∈ ws ++ vs, Huge w :=
    fun ⟨w, hw, hhuge⟩ => ⟨w, List.mem_append_left vs hw, hhuge⟩
  have hright : (∃ w ∈ vs, Huge w) → ∃ w ∈ ws ++ vs, Huge w :=
    fun ⟨w, hw, hhuge⟩ => ⟨w, List.mem_append_right ws hw, hhuge⟩
  refine ((session_spec f ws).mono hleft fun _ hT => hT).bind fun T hT => ?_
  refine ((hT.learnAll vs).mono hright fun _ hU => hU).bind fun U hU => ?_
  obtain ⟨hU, hprogress⟩ := hU
  exact ensures_pure ⟨hT.classified, hU.classified, hT.faithful.classes.nested hU.faithful.classes hprogress.classes⟩

end Observations

open ByteClasses Observations

/-- Behind every sequence of tests of single bytes, and behind every sequence of words that a learner has learned, the
canonical bytes ascend from 0, and later tests and words only split classes. No test makes a split fail, and only
words that no memory holds could make a call fail. -/
theorem canonical_only_added :
    (∀ ts more : List Trial, ∃ C D, single.tryAll ts = .ok C ∧ C.tryAll more = .ok D ∧
      Regular C ∧ Regular D ∧ Nested C D) ∧
    ∀ {σ : Type} (oracle : Oracle σ) (s : σ) (ws vs : List Word),
      (∃ T c U d, oracle.hold (session ws) (Cache.empty s) = (.ok T, c) ∧ oracle.hold (T.learnAll vs) c = (.ok U, d) ∧
        Classified T ∧ Classified U ∧ Nested T.classes U.classes) ∨
      ((oracle.hold (twice ws vs) (Cache.empty s)).1 = .error .overflow ∧ ∃ w ∈ ws ++ vs, 5 * 2 ^ 61 ≤ w.length) := by
  refine ⟨exists_tryAll_nested, fun oracle s ws vs => ?_⟩
  rcases Oracle.hold_spec (c := Cache.empty s) fun f _ => twice_spec f ws vs with ⟨⟨T, U⟩, d, hhold, hpost⟩ | hoverflow
  · obtain ⟨V, c, hsession, hrest⟩ := Oracle.hold_bind_eq_ok hhold
    obtain ⟨W, e, hlearn, hpair⟩ := Oracle.hold_bind_eq_ok hrest
    cases hpair
    exact Or.inl ⟨T, c, U, d, hsession, hlearn, hpost d.first d.agrees_first⟩
  · exact Or.inr hoverflow

end ByteAutomata
