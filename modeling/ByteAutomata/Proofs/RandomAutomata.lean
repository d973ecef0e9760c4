import ByteAutomata.Proofs.Described
import ByteAutomata.Random.Objects

/-!
# Random automata

* `Always m P` : whatever the state of the source, what is drawn satisfies `P`, with a rule for each way to compose
  draws (`always_pure`, `Always.bind`, `always_mapM`, `always_ite`). `Wyrand.source_fair` : the generator keeps to the
  bounds it is asked for;
* `cutBytes` : the bytes cut into runs in the arithmetic of bytes, where sums stop at 255 and 255 has no next byte. It
  needs no bound on the number of runs, and that of `randomRuns` is never met (`randomRuns_eq_cutBytes`);
* `Laid symbols size es` : entries that ascend below `symbols` and lead to states below `size`. Such are all that are
  drawn (`always_randomPairs`, `always_randomRuns`);
* `StateSpec.Within` : descriptions that nothing is wrong with (`exists_build_of_within`);
* `randomDfa_builds` : a fair source always draws an automaton, within the bounds (`Dfa.Drawn`).
-/

namespace ByteAutomata

set_option autoImplicit false

/-! ## Draws -/

section Always

variable {ρ α β : Type}

/-- Whatever the state of the source, the result satisfies `P`. -/
def Always (m : StateM ρ α) (P : α → Prop) : Prop := ∀ r, P (m r).1

theorem always_pure {P : α → Prop} {a : α} (h : P a) : Always (pure a : StateM ρ α) P := fun _ => h

theorem Always.bind {P : α → Prop} {Q : β → Prop} {m : StateM ρ α} {f : α → StateM ρ β} (hm : Always m P)
    (hf : ∀ a, P a → Always (f a) Q) : Always (m >>= f) Q := fun r => hf _ (hm r) (m r).2

/-- Of a draw that does not matter nothing has to be known. -/
theorem always_bind {Q : β → Prop} {m : StateM ρ α} {f : α → StateM ρ β} (hf : ∀ a, Always (f a) Q) :
    Always (m >>= f) Q := fun r => hf _ (m r).2

theorem always_ite {P : α → Prop} {c : Prop} [Decidable c] {m k : StateM ρ α} (hm : Always m P) (hk : Always k P) :
    Always (if c then m else k) P := by
  split
  · exact hm
  · exact hk

theorem always_mapM {R : α → β → Prop} {f : α → StateM ρ β} (h : ∀ a, Always (f a) (R a)) (l : List α) :
    Always (l.mapM f) (List.Forall₂ R l) := by
  induction l with
  | nil =>
    rw [List.mapM_nil]
    exact always_pure .nil
  | cons a l ih =>
    rw [List.mapM_cons]
    refine (h a).bind fun b hb => ?_
    refine ih.bind fun bs hbs => ?_
    exact always_pure (.cons hb hbs)

end Always

theorem Source.Fair.always_small {ρ : Type} {source : Source ρ} (h : source.Fair) {n : Nat} (hn : 0 < n) :
    Always (source.small n) (· < n) := fun r => (h n hn r).1

theorem Source.Fair.always_large {ρ : Type} {source : Source ρ} (h : source.Fair) {n : Nat} (hn : 0 < n) :
    Always (source.large n) (· < n) := fun r => (h n hn r).2

namespace Wyrand

variable {n : Nat} (width : Nat)

theorem values_pos : 0 < values width := Nat.two_pow_pos width

theorem always_product (hn : 0 < n) : Always (product width n) (· / values width < n) := by
  refine always_bind fun x => always_pure ?_
  have hx : x.toNat % values width < values width := Nat.mod_lt _ (values_pos width)
  rw [Nat.div_lt_iff_lt_mul (values_pos width), Nat.mul_comm n]
  exact Nat.mul_lt_mul_of_pos_right hx hn

/-- Drawing again, however often, ends with the quotient of a product. -/
theorem always_redraw (hn : 0 < n) (threshold fuel : Nat) {p : Nat} (hp : p / values width < n) :
    Always (redraw width n threshold fuel p) (· < n) := by
  induction fuel generalizing p with
  | zero => exact always_pure hp
  | succ fuel ih =>
    rw [redraw]
    refine always_ite ?_ (always_pure hp)
    exact (always_product width hn).bind fun q hq => ih hq

theorem always_below (hn : 0 < n) : Always (below width n) (· < n) := by
  refine (always_product width hn).bind fun p hp => always_ite ?_ (always_pure hp)
  exact always_redraw width hn _ _ hp

/-- The generator keeps to the bounds, from any seed. -/
theorem source_fair : source.Fair := fun _ hn r => ⟨always_below 32 hn r, always_below 64 hn r⟩

end Wyrand

/-! ## Runs in the arithmetic of bytes -/

variable {ρ : Type} (source : Source ρ)

/-- The sum, or 255 if it is larger. -/
def Byte.addSaturating (b : UInt8) (k : Nat) : UInt8 := UInt8.ofNat (min (b.toNat + k) 255)

/-- The byte behind `b`, if there is one. -/
def Byte.next? (b : UInt8) : Option UInt8 := if b = 255 then none else some (b + 1)

/-- The last byte of a run that starts at `lo` and goes on for `width` bytes, if there are so many below `symbols`. -/
def runEnd (symbols lo : UInt8) (width : Nat) : UInt8 :=
  let hi := Byte.addSaturating lo width
  if hi ≤ symbols - 1 then hi else symbols - 1

section Runs

variable {symbols lo : UInt8} {width size : Nat}

theorem toNat_runEnd (h : lo < symbols) (width : Nat) :
    (runEnd symbols lo width).toNat = min (lo.toNat + width) (symbols.toNat - 1) := by
  rw [UInt8.lt_iff_toNat_lt] at h
  have hsymbols := symbols.toNat_lt
  have hone : (1 : UInt8) ≤ symbols := by
    rw [UInt8.le_iff_toNat_le]
    show 1 ≤ symbols.toNat
    omega
  have hlast : (symbols - 1).toNat = symbols.toNat - 1 := UInt8.toNat_sub_of_le _ _ hone
  have hsum : (Byte.addSaturating lo width).toNat = min (lo.toNat + width) 255 := by
    rw [Byte.addSaturating, UInt8.toNat_ofNat', Nat.mod_eq_of_lt (by omega)]
  simp only [runEnd, UInt8.le_iff_toNat_le, hlast, hsum]
  split
  · rw [hsum]
    omega
  · rw [hlast]
    omega

/-- The last byte of a run is below `symbols`, so there is a next one. -/
theorem next?_runEnd (h : lo < symbols) (width : Nat) :
    ∃ next, Byte.next? (runEnd symbols lo width) = some next ∧
      next.toNat = (runEnd symbols lo width).toNat + 1 := by
  have hend := toNat_runEnd h width
  have hsymbols := symbols.toNat_lt
  rw [UInt8.lt_iff_toNat_lt] at h
  refine ⟨runEnd symbols lo width + 1, if_neg fun h255 => ?_, ?_⟩
  · rw [h255] at hend
    change 255 = _ at hend
    omega
  · rw [UInt8.toNat_add]
    show ((runEnd symbols lo width).toNat + 1) % 256 = _
    omega

theorem next?_lt (h : lo < symbols) {next : UInt8} (hnext : Byte.next? (runEnd symbols lo width) = some next) :
    symbols.toNat - next.toNat < symbols.toNat - lo.toNat := by
  have hend := toNat_runEnd h width
  obtain ⟨next', hnext', hsucc⟩ := next?_runEnd h width
  obtain rfl : next = next' := Option.some.inj (hnext.symm.trans hnext')
  rw [UInt8.lt_iff_toNat_lt] at h
  omega

/-- An entry for the bytes from `lo` to `hi`, or none. -/
def drawEntry (size : Nat) (lo hi : UInt8) : StateM ρ (List EntrySpec) := do
  if ← source.chance edgeChance then return [⟨lo, hi, .state (← source.small size)⟩] else return []

/-- Cuts the bytes from `lo` to `symbols` into runs, some of which get a target. -/
def cutBytes (symbols : UInt8) (size : Nat) (lo : UInt8) : StateM ρ (List EntrySpec) :=
  if _h : lo < symbols then do
    let hi := runEnd symbols lo (← source.small 4)
    let entry ← drawEntry source size lo hi
    match _hnext : Byte.next? hi with
    | some next => return entry ++ (← cutBytes symbols size next)
    | none => return entry
  else pure []
termination_by symbols.toNat - lo.toNat
decreasing_by exact next?_lt _h _hnext

theorem randomRuns_succ {symbols size fuel lo : Nat} (h : lo < symbols) :
    randomRuns source symbols size (fuel + 1) lo = do
      let hi := min (lo + (← source.small 4)) (symbols - 1)
      let entry ← drawEntry source size (UInt8.ofNat lo) (UInt8.ofNat hi)
      return entry ++ (← randomRuns source symbols size fuel (hi + 1)) := by
  rw [randomRuns, if_pos h]
  apply congrArg (source.small 4 >>= ·)
  funext width
  dsimp only
  rw [drawEntry, bind_assoc]
  apply congrArg (source.chance edgeChance >>= ·)
  funext hit
  cases hit with
  | true => simp
  | false => simp

theorem randomRuns_of_le {symbols size fuel lo : Nat} (h : symbols ≤ lo) :
    randomRuns source symbols size fuel lo = pure [] := by
  cases fuel with
  | zero => rfl
  | succ fuel => rw [randomRuns, if_neg (by omega)]

/-- There are no more runs than bytes, whatever is drawn, and no sum of bytes is out of range. -/
theorem randomRuns_eq_cutBytes (symbols : UInt8) (size : Nat) {fuel : Nat} {lo : UInt8}
    (h : symbols.toNat - lo.toNat ≤ fuel) :
    randomRuns source symbols.toNat size fuel lo.toNat = cutBytes source symbols size lo := by
  induction fuel generalizing lo with
  | zero =>
    rw [randomRuns_of_le source (by omega), cutBytes, dif_neg]
    rw [UInt8.lt_iff_toNat_lt]
    omega
  | succ fuel ih =>
    by_cases hlo : lo < symbols
    · rw [randomRuns_succ source (UInt8.lt_iff_toNat_lt.1 hlo), cutBytes, dif_pos hlo]
      apply congrArg (source.small 4 >>= ·)
      funext width
      have hend := toNat_runEnd hlo width
      obtain ⟨next, hnext, hsucc⟩ := next?_runEnd hlo width
      have hless := next?_lt hlo hnext
      dsimp only
      rw [← hend, UInt8.ofNat_toNat, UInt8.ofNat_toNat, ← hsucc, ih (by omega)]
      apply congrArg (drawEntry source size lo _ >>= ·)
      funext entry
      split
      next next' hnext' =>
        obtain rfl : next = next' := Option.some.inj (hnext.symm.trans hnext')
        rfl
      next hnone =>
        rw [hnext] at hnone
        cases hnone
    · rw [cutBytes, dif_neg hlo]
      rw [UInt8.lt_iff_toNat_lt] at hlo
      exact randomRuns_of_le source (by omega)

end Runs

/-! ## Descriptions that nothing is wrong with -/

/-- The entries ascend from `lo` on, stay below `symbols` and lead to states below `size`. -/
structure Laid (symbols size lo : Nat) (es : List EntrySpec) : Prop where
  ascending : es.Pairwise fun e f => e.hi < f.lo
  upright : ∀ e ∈ es, e.lo ≤ e.hi
  from_lo : ∀ e ∈ es, lo ≤ e.lo.toNat
  below : ∀ e ∈ es, e.hi.toNat < symbols
  named : ∀ e ∈ es, e.target.Names size

section Laid

variable {symbols size lo : Nat} {es : List EntrySpec}

theorem laid_nil : Laid symbols size lo [] := ⟨.nil, nofun, nofun, nofun, nofun⟩

theorem Laid.mono {lo' : Nat} (h : Laid symbols size lo es) (hle : lo' ≤ lo) : Laid symbols size lo' es :=
  { h with from_lo := fun e he => hle.trans (h.from_lo e he) }

/-- An entry in front of others. -/
theorem Laid.cons {e : EntrySpec} (h : Laid symbols size (e.hi.toNat + 1) es) (hlo : lo ≤ e.lo.toNat)
    (hle : e.lo ≤ e.hi) (hhi : e.hi.toNat < symbols) (hnamed : e.target.Names size) :
    Laid symbols size lo (e :: es) := by
  have hfrom : ∀ f ∈ es, e.hi < f.lo := by
    intro f hf
    have hstart := h.from_lo f hf
    rw [UInt8.lt_iff_toNat_lt]
    omega
  refine ⟨List.pairwise_cons.2 ⟨hfrom, h.ascending⟩, List.forall_mem_cons.2 ⟨hle, h.upright⟩,
    List.forall_mem_cons.2 ⟨hlo, fun f hf => ?_⟩, List.forall_mem_cons.2 ⟨hhi, h.below⟩,
    List.forall_mem_cons.2 ⟨hnamed, h.named⟩⟩
  have hbefore := UInt8.lt_iff_toNat_lt.1 (hfrom f hf)
  have hself := UInt8.le_iff_toNat_le.1 hle
  omega

end Laid

/-- Nothing is wrong with the description in an automaton of `size` states, and it leads nowhere from `symbols` on. -/
structure StateSpec.Within (symbols size : Nat) (s : StateSpec) : Prop where
  upright : s.Upright
  apart : ¬ s.Overlaps
  named : ∀ q, s.Demands q → q.Names size
  below : ∀ b q, s.Leads b q → b.toNat < symbols

section Within

variable {symbols size : Nat}

theorem Laid.within_entries {lo : Nat} {es : List EntrySpec} (h : Laid symbols size lo es) :
    (StateSpec.entries es).Within symbols size := by
  refine ⟨h.upright, ?_, ?_, ?_⟩
  · rintro ⟨e, f, hsub, b, hb, hb'⟩
    have hlt := List.pairwise_iff_forall_sublist.1 h.ascending hsub
    exact UInt8.lt_irrefl b (UInt8.lt_of_le_of_lt hb.2 (UInt8.lt_of_lt_of_le hlt hb'.1))
  · rintro q ⟨e, he, rfl⟩
    exact h.named e he
  · intro b q hleads
    cases hleads with
    | entry he hb _ =>
      have hle := UInt8.le_iff_toNat_le.1 hb.2
      have hlt := h.below _ he
      omega

theorem within_map {pairs : List (UInt8 × StateRef)} (h : ∀ p ∈ pairs, p.1.toNat < symbols ∧ p.2.Names size) :
    (StateSpec.map pairs).Within symbols size := by
  have hmem : ∀ b q, (StateSpec.map pairs).Leads b q → (b, q) ∈ pairs := by
    intro b q hleads
    cases hleads with
    | pair _ => simp
  refine ⟨trivial, id, ?_, ?_⟩
  · rintro q ⟨-, b, hleads⟩
    exact (h _ (hmem b q hleads)).2
  · intro b q hleads
    exact (h _ (hmem b q hleads)).1

end Within

/-- What is described within bounds is built. -/
theorem exists_build_of_within {states : List StateSpec} {accepting : List StateRef} {start : StateRef} {symbols : Nat}
    (hstates : ∀ s ∈ states, s.Within symbols states.length) (haccepting : ∀ q ∈ accepting, q.Names states.length)
    (hstart : start.Names states.length) :
    ∃ A, Dfa.build states accepting start = .ok A ∧ A.Described states accepting start := by
  have hnot : ¬ Rejected states accepting start := by
    rintro (⟨hs, hoverlaps⟩ | hempty | hunknown | ⟨hs, hq, hunknown⟩ | ⟨hq, hunknown⟩)
    · exact (hstates _ hs).apart hoverlaps
    · obtain ⟨i, hi, -⟩ := hstart
      simp [hempty] at hi
    · exact hunknown hstart
    · exact hunknown ((hstates _ hs).named _ hq)
    · exact hunknown (haccepting _ hq)
  obtain ⟨A, hA⟩ := (Dfa.exists_build_iff fun s hs => (hstates s hs).upright).2 hnot
  exact ⟨A, hA, Dfa.described_of_build hA⟩

/-- From a byte to which no description leads there is no step. -/
theorem Dfa.Described.step_eq_none {A : Dfa} {states : List StateSpec} {accepting : List StateRef} {start : StateRef}
    {symbols : Nat} (h : A.Described states accepting start)
    (hstates : ∀ s ∈ states, s.Within symbols states.length) (q : Fin A.size) {b : UInt8} (hb : symbols ≤ b.toNat) :
    A.step q b = none := by
  have hq : q.val < states.length := h.size ▸ q.isLt
  obtain ⟨f, hconsistent, hfollows⟩ := h.reads q states[q.val] (List.getElem?_eq_getElem hq)
  have hsink : StateRef.ofState? (f b) = .sink := by
    apply (hfollows b).2
    intro p hleads
    have hlt := (hstates _ (List.getElem_mem hq)).below b p hleads
    omega
  have hstep : A.step q b = f b := hconsistent.lookup b
  rw [hstep]
  cases hf : f b with
  | none => rfl
  | some t =>
    rw [hf] at hsink
    cases hsink

/-! ## What is drawn -/

section Drawn

variable {source} {symbols size : Nat}

theorem names_of_lt {n : Nat} (h : n < size) : (StateRef.state n).Names size := ⟨n, h, rfl⟩

/-- Something that leads to a state that exists, or nothing. -/
theorem always_hit {β : Type} (hfair : source.Fair) (hsize : 0 < size) (make : StateRef → β) :
    Always (do if ← source.chance edgeChance then return [make (.state (← source.small size))] else return [])
      fun l => l = [] ∨ ∃ q : StateRef, q.Names size ∧ l = [make q] := by
  refine always_bind fun hit => always_ite ?_ ?_
  · refine (hfair.always_small hsize).bind fun t ht => ?_
    exact always_pure (Or.inr ⟨_, names_of_lt ht, rfl⟩)
  · exact always_pure (Or.inl rfl)

theorem toNat_ofNat_of_lt {n : Nat} (hsymbols : symbols ≤ 256) (h : n < symbols) : (UInt8.ofNat n).toNat = n := by
  rw [UInt8.toNat_ofNat', Nat.mod_eq_of_lt (by omega)]

/-- The runs ascend and stay below `symbols`, whatever their widths. -/
theorem always_randomRuns (hfair : source.Fair) (hsize : 0 < size) (hsymbols : symbols ≤ 256) (fuel lo : Nat) :
    Always (randomRuns source symbols size fuel lo) (Laid symbols size lo) := by
  induction fuel generalizing lo with
  | zero => exact always_pure laid_nil
  | succ fuel ih =>
    by_cases hlo : lo < symbols
    · rw [randomRuns_succ source hlo]
      refine always_bind fun width => ?_
      refine (always_hit hfair hsize fun q => EntrySpec.mk _ _ q).bind fun entry hentry => ?_
      refine (ih _).bind fun rest hrest => always_pure ?_
      have hend : min (lo + width) (symbols - 1) < symbols := by omega
      have hhi := toNat_ofNat_of_lt hsymbols hend
      have hstart := toNat_ofNat_of_lt hsymbols hlo
      rcases hentry with rfl | ⟨q, hq, rfl⟩
      · exact hrest.mono (by omega)
      · have hbelow := hhi.trans_lt hend
        refine Laid.cons (e := ⟨_, _, q⟩) ?_ hstart.ge ?_ hbelow hq
        · rw [hhi]
          exact hrest
        · rw [UInt8.le_iff_toNat_le, hstart, hhi]
          omega
    · rw [randomRuns_of_le source (by omega)]
      exact always_pure laid_nil

/-- The entries of pairs. -/
def singles (pairs : List (UInt8 × StateRef)) : List EntrySpec := pairs.map fun p => ⟨p.1, p.1, p.2⟩

/-- Every byte has at most one pair, as bytes are tried one after the other. -/
theorem laid_flatten {bs : List Nat} {steps : List (List (UInt8 × StateRef))} (hsymbols : symbols ≤ 256) {lo : Nat}
    (h : List.Forall₂ (fun b ps => ps = [] ∨ ∃ q : StateRef, q.Names size ∧ ps = [(UInt8.ofNat b, q)]) bs steps)
    (hbs : ∀ b ∈ bs, lo ≤ b ∧ b < symbols) (hascending : bs.Pairwise (· < ·)) :
    Laid symbols size lo (singles steps.flatten) := by
  induction h generalizing lo with
  | nil => exact laid_nil
  | @cons b ps bs steps hps _ ih =>
    obtain ⟨hb, hrest⟩ := List.forall_mem_cons.1 hbs
    obtain ⟨hless, hascending⟩ := List.pairwise_cons.1 hascending
    have hlaid : Laid symbols size (b + 1) (singles steps.flatten) :=
      ih (fun c hc => ⟨hless c hc, (hrest c hc).2⟩) hascending
    rcases hps with rfl | ⟨q, hq, rfl⟩
    · exact hlaid.mono (by omega)
    · have hbyte := toNat_ofNat_of_lt hsymbols hb.2
      refine Laid.cons (e := ⟨UInt8.ofNat b, UInt8.ofNat b, q⟩) ?_ ?_ (UInt8.le_refl _) ?_ hq
      · show Laid symbols size ((UInt8.ofNat b).toNat + 1) _
        rw [hbyte]
        exact hlaid
      · exact hbyte.symm ▸ hb.1
      · exact hbyte.symm ▸ hb.2

theorem always_randomPairs (hfair : source.Fair) (hsize : 0 < size) (hsymbols : symbols ≤ 256) :
    Always (randomPairs source symbols size) fun pairs => Laid symbols size 0 (singles pairs) := by
  have hstep := fun b : Nat => always_hit hfair hsize fun q => (UInt8.ofNat b, q)
  refine (always_mapM hstep _).bind fun steps hsteps => always_pure ?_
  exact laid_flatten hsymbols hsteps (fun b hb => ⟨Nat.zero_le b, List.mem_range.1 hb⟩) List.pairwise_lt_range

theorem Laid.of_singles {lo : Nat} {pairs : List (UInt8 × StateRef)} (h : Laid symbols size lo (singles pairs)) :
    ∀ p ∈ pairs, p.1.toNat < symbols ∧ p.2.Names size := by
  intro p hp
  have hmem : (⟨p.1, p.1, p.2⟩ : EntrySpec) ∈ singles pairs := List.mem_map_of_mem hp
  exact ⟨h.below _ hmem, h.named _ hmem⟩

theorem always_randomState (hfair : source.Fair) (hsize : 0 < size) (hsymbols : symbols ≤ 256) :
    Always (randomState source symbols size) (StateSpec.Within symbols size) := by
  refine always_bind fun form => ?_
  split
  · refine (always_randomPairs hfair hsize hsymbols).bind fun pairs hpairs => ?_
    exact always_pure hpairs.within_entries
  · refine (always_randomRuns hfair hsize hsymbols _ _).bind fun es hes => ?_
    exact always_pure hes.within_entries
  · refine (always_randomPairs hfair hsize hsymbols).bind fun pairs hpairs => ?_
    exact always_pure (within_map hpairs.of_singles)

/-- Some state accepts, and all that do exist. -/
theorem always_randomAccepting (hfair : source.Fair) (hsize : 0 < size) :
    Always (randomAccepting source size) fun qs => qs ≠ [] ∧ ∀ q ∈ qs, q.Names size := by
  have hmark : ∀ i, Always (do return if ← source.chance acceptingChance then [StateRef.state i] else [])
      fun qs => ∀ q ∈ qs, q = StateRef.state i := by
    intro i
    refine always_bind fun hit => always_pure ?_
    cases hit with
    | true => simp
    | false => simp
  refine (always_mapM hmark _).bind fun marks hmarks => ?_
  have hnamed : ∀ q ∈ marks.flatten, q.Names size := by
    intro q hq
    obtain ⟨qs, hqs, hq⟩ := List.mem_flatten.1 hq
    obtain ⟨i, hi, hall⟩ := (exists_of_forall₂ hmarks).2 qs hqs
    rw [hall q hq]
    exact names_of_lt (List.mem_range.1 hi)
  split
  · refine (hfair.always_small hsize).bind fun t ht => always_pure ⟨by simp, ?_⟩
    simpa using names_of_lt ht
  next hne => exact always_pure ⟨hne, hnamed⟩

end Drawn

/-- What is drawn has up to `maxStates` states, accepts somewhere and leads nowhere from `symbols` on. -/
structure Dfa.Drawn (maxStates : Nat) (symbols : UInt8) (A : Dfa) : Prop where
  positive : 1 ≤ A.size
  bounded : A.size ≤ maxStates
  accepts : ∃ q, A.accepting.get q = true
  below : ∀ q b, symbols ≤ b → A.step q b = none

theorem Dfa.Described.drawn {A : Dfa} {states : List StateSpec} {accepting : List StateRef} {start : StateRef}
    {maxStates : Nat} {symbols : UInt8} (h : A.Described states accepting start)
    (hlength : states.length ≤ maxStates) (hne : accepting ≠ [])
    (haccepting : ∀ q ∈ accepting, q.Names states.length)
    (hstates : ∀ s ∈ states, s.Within symbols.toNat states.length) : A.Drawn maxStates symbols := by
  refine ⟨A.start.pos, h.size ▸ hlength, ?_, ?_⟩
  · obtain ⟨q, hq⟩ := List.exists_mem_of_ne_nil accepting hne
    obtain ⟨i, hi, rfl⟩ := haccepting q hq
    exact ⟨⟨i, h.size ▸ hi⟩, (h.accepting _).2 hq⟩
  · intro q b hb
    exact h.step_eq_none hstates q (UInt8.le_iff_toNat_le.1 hb)

/-- All states are drawn within the number of states that was drawn first, so that nothing is wrong with them. -/
theorem always_randomDfa {source : Source ρ} (hfair : source.Fair) {maxStates : Nat} (hpos : 0 < maxStates)
    {symbols : UInt8} (hsymbols : symbols ≠ 0) :
    Always (randomDfa source maxStates symbols) fun result => ∃ A, result = .ok A ∧ A.Drawn maxStates symbols := by
  unfold randomDfa
  rw [if_neg hpos.ne', if_neg hsymbols]
  refine (hfair.always_large hpos).bind fun extra hextra => ?_
  have hsize : 0 < 1 + extra := by omega
  have hrange : symbols.toNat ≤ 256 := symbols.toNat_lt.le
  refine (always_mapM (fun _ => always_randomState hfair hsize hrange) _).bind fun states hstates => ?_
  have hlength : states.length = 1 + extra := by
    rw [← hstates.length_eq, List.length_replicate]
  have hwithin : ∀ s ∈ states, s.Within symbols.toNat states.length := by
    intro s hs
    obtain ⟨-, -, h⟩ := (exists_of_forall₂ hstates).2 s hs
    exact hlength ▸ h
  refine (always_randomAccepting hfair hsize).bind fun accepting haccepting => ?_
  obtain ⟨hne, hnames⟩ := haccepting
  rw [← hlength] at hnames
  refine (hfair.always_small hsize).bind fun start hstart => always_pure ?_
  rw [← hlength] at hstart
  obtain ⟨A, hA, hdescribed⟩ := exists_build_of_within hwithin hnames (names_of_lt hstart)
  exact ⟨A, by rw [hA]; rfl, hdescribed.drawn (by omega) hne hnames hwithin⟩

/-- Whatever a fair source draws, an automaton comes out. Its numbers of states are below that of the sink. No run is
left out, as the number of runs has no bound in the arithmetic of bytes. -/
theorem randomDfa_builds {source : Source ρ} (hfair : source.Fair) {maxStates : Nat} (hpos : 0 < maxStates)
    (hmax : maxStates ≤ StateRef.sinkNumber) {symbols : UInt8} (hsymbols : symbols ≠ 0) (r : ρ) :
    (∃ A r', randomDfa source maxStates symbols r = (.ok A, r') ∧ A.Drawn maxStates symbols ∧
      ∀ q : Fin A.size, q.val < StateRef.sinkNumber) ∧
    ∀ size, randomRuns source symbols.toNat size symbols.toNat 0 = cutBytes source symbols size 0 := by
  obtain ⟨A, hok, hA⟩ := always_randomDfa hfair hpos hsymbols r
  refine ⟨⟨A, (randomDfa source maxStates symbols r).2, Prod.ext hok rfl, hA, fun q => ?_⟩, fun size => ?_⟩
  · have hq := q.isLt
    have hbounded := hA.bounded
    omega
  · have hbytes : symbols.toNat - (0 : UInt8).toNat ≤ symbols.toNat := Nat.sub_le _ _
    exact randomRuns_eq_cutBytes source symbols size hbytes

theorem randomDfa_builds_wyrand : Wyrand.source.Fair ∧ 0 < 8 ∧ 8 ≤ StateRef.sinkNumber ∧ (4 : UInt8) ≠ 0 ∧
    ∃ A r', randomDfa Wyrand.source 8 4 7 = (.ok A, r') ∧ A.Drawn 8 4 := by
  have hmax : 8 ≤ StateRef.sinkNumber := by decide
  have hsymbols : (4 : UInt8) ≠ 0 := by decide
  obtain ⟨⟨A, r', hA, hdrawn, -⟩, -⟩ := randomDfa_builds Wyrand.source_fair (by decide : 0 < 8) hmax hsymbols 7
  exact ⟨Wyrand.source_fair, by decide, hmax, hsymbols, A, r', hA, hdrawn⟩

end ByteAutomata
