import ByteAutomata.Proofs.Shrink.Cores
import Mathlib.Data.List.DropRight
import Mathlib.Data.Finset.Card

/-!
# What a session compares

* `Comparison` : a shrunk outcome and the outcome that was recorded for its origin then: there was none, it was
  the `same`, or it `differs`; `comparisons` : those of a session; `sinceDivergence` : those behind the last one
  that differs;
* `Recorded`, `Counted` : what the record and the counters tell of the comparisons so far (`recorded_move`,
  `counted_move`);
* `normalize_tallied` : the comparisons of a session that succeeds.
-/

namespace ByteAutomata

set_option autoImplicit false

/-- A shrunk outcome, and the outcome recorded for its origin when they are compared. -/
structure Comparison (κ : Type) where
  origin : κ
  shrunk : Outcome κ
  recorded : Option (Outcome κ)

namespace Comparison

variable {κ : Type}

/-- Whether the buffers are identical. -/
def same (c : Comparison κ) : Bool := c.recorded.any fun existing => existing.buffer == c.shrunk.buffer

/-- Whether the buffers are different. -/
def differs (c : Comparison κ) : Bool := c.recorded.any fun existing => existing.buffer != c.shrunk.buffer

section Kinds

variable {c : Comparison κ} {existing : Outcome κ}

theorem kind_of_first (h : c.recorded = none) : c.same = false ∧ c.differs = false := by simp [same, differs, h]

theorem kind_of_same (h : c.recorded = some existing) (hb : existing.buffer = c.shrunk.buffer) :
    c.same = true ∧ c.differs = false := by simp [same, differs, h, hb]

theorem kind_of_differs (h : c.recorded = some existing) (hb : existing.buffer ≠ c.shrunk.buffer) :
    c.same = false ∧ c.differs = true := by simp [same, differs, h, hb]

theorem same_or_first (h : c.differs = false) : c.same = true ∨ c.recorded = none := by
  cases hrecorded : c.recorded with
  | none => exact Or.inr rfl
  | some existing =>
    by_cases hb : existing.buffer = c.shrunk.buffer
    · exact Or.inl (kind_of_same hrecorded hb).1
    · rw [(kind_of_differs hrecorded hb).2] at h
      cases h

end Kinds

/-- The comparisons behind the last one that differs. -/
def sinceDivergence (cs : List (Comparison κ)) : List (Comparison κ) := cs.rtakeWhile fun c => !c.differs

theorem sinceDivergence_of_differs {c : Comparison κ} (h : c.differs = true) (cs : List (Comparison κ)) :
    sinceDivergence (cs ++ [c]) = [] := List.rtakeWhile_concat_neg _ _ _ (by simp [h])

theorem sinceDivergence_of_not_differs {c : Comparison κ} (h : c.differs = false) (cs : List (Comparison κ)) :
    sinceDivergence (cs ++ [c]) = sinceDivergence cs ++ [c] := List.rtakeWhile_concat_pos _ _ _ (by simp [h])

end Comparison

namespace Session

open Comparison

variable {ε κ σ : Type} [DecidableEq κ] {E : Engine ε κ} {settings : Settings} {base : String} {rounds : Nat}

/-- The comparison that is due. -/
def comparison? : Phase κ × World ε κ σ → Option (Comparison κ)
  | (.comparing _ origin shrunk, w) => some ⟨origin, shrunk, recorded? origin w.seen⟩
  | _ => none

/-- The comparisons of a session, in order. -/
def comparisons (E : Engine ε κ) (settings : Settings) (base : String) (rounds steps : Nat) (w : World ε κ σ) :
    List (Comparison κ) :=
  (states E settings base rounds steps .seeking w).filterMap comparison?

theorem append_comparison? {cs : List (Comparison κ)} {phase : Phase κ} {w : World ε κ σ}
    (h : comparison? (phase, w) = none) : cs ++ (comparison? (phase, w)).toList = cs := by
  rw [h, Option.toList_none, List.append_nil]

/-! ## The record -/

section Record

variable {origin : κ} {r : Outcome κ} {seen : List (κ × Outcome κ)}

theorem recorded?_eq_none_iff : recorded? origin seen = none ↔ origin ∉ seen.map Prod.fst := by
  unfold recorded?
  simp only [Option.map_eq_none_iff, List.find?_eq_none, decide_eq_true_eq, List.mem_map, not_exists, not_and]

theorem mem_keys_of_recorded? (h : recorded? origin seen = some r) : origin ∈ seen.map Prod.fst := by
  by_contra hnot
  rw [recorded?_eq_none_iff.2 hnot] at h
  cases h

/-- A new origin comes last. -/
theorem record_of_not_mem (h : origin ∉ seen.map Prod.fst) : record origin r seen = seen ++ [(origin, r)] := by
  induction seen with
  | nil => rfl
  | cons e seen ih =>
    obtain ⟨hne, hrest⟩ := not_or.1 (mt List.mem_cons.2 h)
    unfold record
    rw [if_neg (Ne.symm hne), ih hrest, List.cons_append]

/-- An origin that has been recorded keeps its place. -/
theorem keys_record_of_mem (h : origin ∈ seen.map Prod.fst) :
    (record origin r seen).map Prod.fst = seen.map Prod.fst := by
  induction seen with
  | nil => cases h
  | cons e seen ih =>
    unfold record
    by_cases he : e.1 = origin
    · rw [if_pos he, List.map_cons, List.map_cons, he]
    · rw [if_neg he, List.map_cons, List.map_cons, ih ((List.mem_cons.1 h).resolve_left (Ne.symm he))]

theorem keys_refreshed (h : origin ∈ seen.map Prod.fst) (best : Option (Outcome κ)) :
    (refreshed origin best seen).map Prod.fst = seen.map Prod.fst := by
  cases best with
  | none => rfl
  | some r => exact keys_record_of_mem h

theorem length_refreshed (h : origin ∈ seen.map Prod.fst) (best : Option (Outcome κ)) :
    (refreshed origin best seen).length = seen.length := by
  simpa using congrArg List.length (keys_refreshed h best)

end Record

/-- The origin that is learned about. -/
def learning? : Phase κ → Option κ
  | .learning _ origin _ _ => some origin
  | _ => none

/-- What the record tells of the comparisons so far. -/
structure Recorded (cs : List (Comparison κ)) (phase : Phase κ) (w : World ε κ σ) : Prop where
  keys : (w.seen.map Prod.fst).Nodup
  origins : ∀ o, o ∈ w.seen.map Prod.fst ↔ o ∈ cs.map origin
  agreed : ∀ c ∈ sinceDivergence cs, ∃ r, recorded? c.origin w.seen = some r ∧ r.buffer = c.shrunk.buffer
  firsts : ∀ before c, before ++ [c] <+: cs → (c.recorded = none ↔ c.origin ∉ before.map origin)
  learning : ∀ o, learning? phase = some o → sinceDivergence cs = [] ∧ o ∈ w.seen.map Prod.fst

section Recorded

variable {cs : List (Comparison κ)} {phase phase' : Phase κ} {w w' : World ε κ σ} {attempt shrunk existing : Outcome κ}
  {origin : κ}

theorem Recorded.mono (h : Recorded cs phase w) (hseen : w'.seen = w.seen) (hphase : learning? phase' = none) :
    Recorded cs phase' w' := by
  obtain ⟨hkeys, horigins, hagreed, hfirsts, -⟩ := h
  rw [← hseen] at hkeys horigins hagreed
  exact ⟨hkeys, horigins, hagreed, hfirsts, by simp [hphase]⟩

/-- A further comparison is made with what is recorded. -/
theorem Recorded.firsts_snoc (h : Recorded cs phase w) (origin : κ) (shrunk : Outcome κ) : ∀ before c,
    before ++ [c] <+: cs ++ [⟨origin, shrunk, recorded? origin w.seen⟩] →
      (c.recorded = none ↔ c.origin ∉ before.map Comparison.origin) := by
  intro before c hprefix
  rcases List.prefix_concat_iff.1 hprefix with heq | hprefix
  · obtain ⟨rfl, hc⟩ := List.append_inj' heq rfl
    cases hc
    exact recorded?_eq_none_iff.trans (not_congr (h.origins origin))
  · exact h.firsts before c hprefix

/-- An outcome that is compared with a recorded one leaves the origins as they are. -/
theorem Recorded.origins_snoc (h : Recorded cs phase w) (c : Comparison κ) (hc : c.origin ∈ w.seen.map Prod.fst)
    (o : κ) : o ∈ w.seen.map Prod.fst ↔ o ∈ (cs ++ [c]).map Comparison.origin := by
  rw [List.map_append, List.mem_append, ← h.origins o, List.map_singleton, List.mem_singleton]
  constructor
  · exact Or.inl
  · rintro (ho | rfl)
    · exact ho
    · exact hc

theorem Recorded.first (h : Recorded cs phase w) (new : recorded? origin w.seen = none) :
    Recorded (cs ++ [⟨origin, shrunk, recorded? origin w.seen⟩]) .seeking
      { w with seen := record origin shrunk w.seen } := by
  have hnot := recorded?_eq_none_iff.1 new
  have hkeys : (record origin shrunk w.seen).map Prod.fst = w.seen.map Prod.fst ++ [origin] := by
    simp [record_of_not_mem hnot]
  constructor
  · rw [hkeys]
    exact h.keys.append (List.nodup_singleton _) (by simpa using hnot)
  · intro o
    rw [hkeys, List.map_append, List.mem_append, List.mem_append, h.origins o]
    rfl
  · intro c hc
    rw [sinceDivergence_of_not_differs (kind_of_first new).2] at hc
    rw [recorded?_record]
    rcases List.mem_append.1 hc with hc | hc
    · obtain ⟨r, hr, hbuffer⟩ := h.agreed c hc
      have hne : origin ≠ c.origin := by
        rintro rfl
        rw [new] at hr
        cases hr
      rw [if_neg hne]
      exact ⟨r, hr, hbuffer⟩
    · cases List.mem_singleton.1 hc
      exact ⟨shrunk, if_pos rfl, rfl⟩
  · exact h.firsts_snoc origin shrunk
  · nofun

theorem Recorded.matched (h : Recorded cs phase w) (known : recorded? origin w.seen = some existing)
    (same : existing.buffer = shrunk.buffer) : Recorded (cs ++ [⟨origin, shrunk, recorded? origin w.seen⟩]) .seeking
      { w with successes := w.successes + 1 } := by
  refine ⟨h.keys, h.origins_snoc _ (mem_keys_of_recorded? known), fun c hc => ?_, h.firsts_snoc origin shrunk, nofun⟩
  rw [sinceDivergence_of_not_differs (kind_of_same known same).2] at hc
  rcases List.mem_append.1 hc with hc | hc
  · exact h.agreed c hc
  · cases List.mem_singleton.1 hc
    exact ⟨existing, known, same⟩

theorem Recorded.diverged (h : Recorded cs phase w) (known : recorded? origin w.seen = some existing)
    (differ : existing.buffer ≠ shrunk.buffer) : Recorded (cs ++ [⟨origin, shrunk, recorded? origin w.seen⟩])
      (.learning attempt origin shrunk existing) { w with successes := 0 } := by
  have hsince : sinceDivergence (cs ++ [⟨origin, shrunk, recorded? origin w.seen⟩]) = [] :=
    sinceDivergence_of_differs (kind_of_differs known differ).2 cs
  have horigin := mem_keys_of_recorded? known
  refine ⟨h.keys, h.origins_snoc _ horigin, fun c hc => ?_, h.firsts_snoc origin shrunk, fun o ho => ?_⟩
  · rw [hsince] at hc
    cases hc
  · cases ho
    exact ⟨hsince, horigin⟩

theorem Recorded.taught (h : Recorded cs (.learning attempt origin shrunk existing) w) (T : Observations) :
    Recorded cs (.shrinking attempt origin)
      (Lesson.after E settings base rounds ⟨origin, shrunk, existing, w⟩ T) := by
  obtain ⟨hsince, horigin⟩ := h.learning origin rfl
  have hkeys := keys_refreshed horigin
  refine ⟨(hkeys _).symm ▸ h.keys, fun o => (hkeys _).symm ▸ h.origins o, fun c hc => ?_, h.firsts, nofun⟩
  rw [hsince] at hc
  cases hc

theorem recorded_move (h : Recorded cs phase w) (hmove : Moves E settings base rounds phase w phase' w') :
    Recorded (cs ++ (comparison? (phase, w)).toList) phase' w' := by
  cases hmove with
  | first new => exact h.first new
  | matched known same => exact h.matched known same
  | diverged known differ => exact h.diverged known differ
  | learned learns teaches =>
    rw [append_comparison? rfl]
    exact h.taught _
  | _ =>
    -- nothing is compared or recorded
    rw [append_comparison? rfl]
    exact h.mono rfl rfl

end Recorded

/-! ## The counters -/

/-- How many cases have been found that are not done with. -/
def pending : Phase κ → Nat
  | .seeking => 0
  | .finished => 0
  | _ => 1

/-- How many automata are still to be learned. -/
def owed : Phase κ → Nat
  | .learning _ _ _ _ => 1
  | _ => 0

/-- What the counters tell of the comparisons so far. -/
structure Counted (settings : Settings) (cs : List (Comparison κ)) (phase : Phase κ) (w : World ε κ σ) : Prop where
  learned : w.report.learned.length + owed phase = cs.countP differs
  budget : w.report.learned.length ≤ settings.maxDfas
  successes : w.successes = (sinceDivergence cs).countP same
  missing : w.successes + pending phase ≤ settings.requiredSuccesses
  reached : phase = .finished → w.successes = settings.requiredSuccesses
  examined : w.report.examined = cs.countP same + w.seen.length + pending phase
  bound : cs.countP same ≤ cs.countP differs * settings.requiredSuccesses + w.successes

section Counted

variable {cs : List (Comparison κ)} {phase phase' : Phase κ} {w w' : World ε κ σ} {attempt shrunk existing : Outcome κ}
  {origin : κ}

/-- The case is done with, as one more origin. -/
theorem Counted.first (h : Counted settings cs (.comparing attempt origin shrunk) w)
    (new : recorded? origin w.seen = none) :
    Counted settings (cs ++ [⟨origin, shrunk, recorded? origin w.seen⟩]) .seeking
      { w with seen := record origin shrunk w.seen } := by
  obtain ⟨hlearned, hbudget, hsuccesses, hmissing, -, hexamined, hbound⟩ := h
  obtain ⟨hsame, hdiffers⟩ := kind_of_first (c := ⟨origin, shrunk, recorded? origin w.seen⟩) new
  have hlength : (record origin shrunk w.seen).length = w.seen.length + 1 := by
    simp [record_of_not_mem (recorded?_eq_none_iff.1 new)]
  simp only [pending] at hmissing hexamined
  constructor
  · simpa [hdiffers, owed] using hlearned
  · exact hbudget
  · rw [sinceDivergence_of_not_differs hdiffers]
    simpa [hsame] using hsuccesses
  · simp only [pending]
    omega
  · nofun
  · simp [hsame, pending, hlength]
    omega
  · simpa [hsame, hdiffers] using hbound

/-- The case is done with, as one more success. -/
theorem Counted.matched (h : Counted settings cs (.comparing attempt origin shrunk) w)
    (known : recorded? origin w.seen = some existing) (same : existing.buffer = shrunk.buffer) :
    Counted settings (cs ++ [⟨origin, shrunk, recorded? origin w.seen⟩]) .seeking
      { w with successes := w.successes + 1 } := by
  obtain ⟨hlearned, hbudget, hsuccesses, hmissing, -, hexamined, hbound⟩ := h
  obtain ⟨hsame, hdiffers⟩ := kind_of_same (c := ⟨origin, shrunk, recorded? origin w.seen⟩) known same
  simp only [pending] at hmissing hexamined
  constructor
  · simpa [hdiffers, owed] using hlearned
  · exact hbudget
  · rw [sinceDivergence_of_not_differs hdiffers]
    simpa [hsame] using hsuccesses
  · exact hmissing
  · nofun
  · simp [hsame, pending]
    omega
  · simp [hsame, hdiffers]
    omega

/-- The case goes on, and the successes start anew. -/
theorem Counted.diverged (h : Counted settings cs (.comparing attempt origin shrunk) w)
    (known : recorded? origin w.seen = some existing) (differ : existing.buffer ≠ shrunk.buffer) :
    Counted settings (cs ++ [⟨origin, shrunk, recorded? origin w.seen⟩]) (.learning attempt origin shrunk existing)
      { w with successes := 0 } := by
  obtain ⟨hlearned, hbudget, -, hmissing, -, hexamined, hbound⟩ := h
  obtain ⟨hsame, hdiffers⟩ := kind_of_differs (c := ⟨origin, shrunk, recorded? origin w.seen⟩) known differ
  simp only [pending] at hmissing hexamined
  constructor
  · simpa [hdiffers, owed] using hlearned
  · exact hbudget
  · rw [sinceDivergence_of_differs hdiffers]
    rfl
  · simp only [pending]
    omega
  · nofun
  · simpa [hsame, pending] using hexamined
  · simp [hsame, hdiffers, Nat.add_mul]
    omega

theorem Counted.taught (h : Counted settings cs (.learning attempt origin shrunk existing) w) {T : Observations}
    (teaches : Teaches E settings base rounds ⟨origin, shrunk, existing, w⟩ T)
    (horigin : origin ∈ w.seen.map Prod.fst) : Counted settings cs (.shrinking attempt origin)
      (Lesson.after E settings base rounds ⟨origin, shrunk, existing, w⟩ T) := by
  have hreport : (w.report.learned ++ [nameFor base T.dfa.canonical]).length = w.report.learned.length + 1 := by simp
  constructor
  · exact hreport.trans h.learned
  · exact hreport.trans_le teaches.budget
  · exact h.successes
  · exact h.missing
  · nofun
  · unfold Lesson.after
    rw [length_refreshed horigin]
    exact h.examined
  · exact h.bound

theorem counted_move (hrecorded : Recorded cs phase w) (h : Counted settings cs phase w)
    (hmove : Moves E settings base rounds phase w phase' w') :
    Counted settings (cs ++ (comparison? (phase, w)).toList) phase' w' := by
  cases hmove with
  | first new => exact h.first new
  | matched known same => exact h.matched known same
  | diverged known differ => exact h.diverged known differ
  | learned learns teaches =>
    rw [append_comparison? rfl]
    exact h.taught teaches (hrecorded.learning _ rfl).2
  | enough reached =>
    rw [append_comparison? rfl]
    exact ⟨h.learned, h.budget, h.successes, h.missing, fun _ => Nat.le_antisymm h.missing reached, h.examined, h.bound⟩
  | found missing generated interesting =>
    rw [append_comparison? rfl]
    exact ⟨h.learned, h.budget, h.successes, missing, nofun, congrArg (· + 1) h.examined, h.bound⟩
  | rest =>
    rw [append_comparison? rfl]
    exact h
  | _ =>
    rw [append_comparison? rfl]
    exact ⟨h.learned, h.budget, h.successes, h.missing, nofun, h.examined, h.bound⟩

end Counted

/-! ## Sessions that succeed -/

theorem recorded_begin (engine : ε) (registry : Registry σ) :
    Recorded ([] : List (Comparison κ)) .seeking (begin engine registry) :=
  ⟨List.nodup_nil, fun _ => Iff.rfl, fun _ hc => (nomatch hc),
    fun _ _ h => absurd (List.prefix_nil.1 h) (by simp), nofun⟩

omit [DecidableEq κ] in
theorem counted_begin (settings : Settings) (engine : ε) (registry : Registry σ) :
    Counted settings ([] : List (Comparison κ)) .seeking (begin engine registry) :=
  ⟨rfl, Nat.zero_le _, rfl, Nat.zero_le _, nofun, rfl, Nat.zero_le _⟩

/-- What the record and the counters tell in the end. -/
theorem recorded_counted_finished {steps : Nat} {engine : ε} {registry : Registry σ} {w : World ε κ σ}
    (h : loop E settings base rounds steps .seeking (begin engine registry) = (.ok (), w)) :
    Recorded (comparisons E settings base rounds steps (begin engine registry)) .finished w ∧
      Counted settings (comparisons E settings base rounds steps (begin engine registry)) .finished w := by
  refine (loop_spec (P := fun past phase w => Recorded (past.filterMap comparison?) phase w ∧
    Counted settings (past.filterMap comparison?) phase w) (Q := fun _ _ => True) h
    (fun past phase w phase' w' hP hmove => ?_) (fun _ _ _ _ _ _ _ _ => trivial) (fun _ _ _ _ => trivial) []
    ⟨recorded_begin engine registry, counted_begin settings engine registry⟩).2 rfl
  have hlast : [(phase, w)].filterMap comparison? = (comparison? (phase, w)).toList := by
    cases hc : comparison? (phase, w) <;> simp [hc]
  rw [List.filterMap_append, hlast]
  exact ⟨recorded_move hP.1 hmove, counted_move hP.1 hP.2 hmove⟩

/-- What the comparisons of a session have to do with its report and its record. -/
structure Tallied (settings : Settings) (cs : List (Comparison κ)) (report : Report) (seen : List (κ × Outcome κ)) :
    Prop where
  /-- An automaton is learned from every divergence. -/
  divergences : cs.countP differs = report.learned.length
  budget : report.learned.length ≤ settings.maxDfas
  /-- Behind the last divergence as many outcomes as required are what was recorded. -/
  successes : (sinceDivergence cs).countP same = settings.requiredSuccesses
  others : ∀ c ∈ sinceDivergence cs, c.same = true ∨ c.recorded = none
  /-- There is no record for the first outcome of an origin only. -/
  firsts : ∀ before c, before ++ [c] <+: cs → (c.recorded = none ↔ c.origin ∉ before.map origin)
  /-- Behind the last divergence all buffers of an origin are the one that is recorded in the end. -/
  agreed : ∀ c ∈ sinceDivergence cs, ∃ r, recorded? c.origin seen = some r ∧ r.buffer = c.shrunk.buffer
  origins : seen.length = (cs.map origin).toFinset.card
  examined : report.examined = cs.countP same + seen.length
  bound : report.examined ≤ (report.learned.length + 1) * settings.requiredSuccesses + seen.length

theorem tallied_of_finished {cs : List (Comparison κ)} {w : World ε κ σ} (hrecorded : Recorded cs .finished w)
    (hcounted : Counted settings cs .finished w) : Tallied settings cs w.report w.seen where
  divergences := hcounted.learned.symm
  budget := hcounted.budget
  successes := hcounted.successes.symm.trans (hcounted.reached rfl)
  others c hc := by
    have hdiffers : c.differs = false := by simpa using List.mem_rtakeWhile_imp hc
    exact same_or_first hdiffers
  firsts := hrecorded.firsts
  agreed := hrecorded.agreed
  origins := by
    have hsets : (w.seen.map Prod.fst).toFinset = (cs.map origin).toFinset := by
      ext o
      rw [List.mem_toFinset, List.mem_toFinset, hrecorded.origins o]
    rw [← hsets, List.toFinset_card_of_nodup hrecorded.keys, List.length_map]
  examined := hcounted.examined
  bound := by
    have hlearned : w.report.learned.length = cs.countP differs := hcounted.learned
    have hexamined : w.report.examined = cs.countP same + w.seen.length := hcounted.examined
    have hbound := hcounted.bound
    rw [hcounted.reached rfl] at hbound
    rw [hlearned, Nat.add_mul, Nat.one_mul]
    omega

/-- The comparisons of a session that succeeds are told by its report and its record. -/
theorem normalize_tallied [Store σ] {E : Engine ε κ} {settings : Settings} {base : String} {rounds steps : Nat}
    {engine : ε} {registry : Registry σ} {report : Report} {w : World ε κ σ}
    (h : normalize E settings base rounds steps (begin engine registry) = (.ok report, w)) :
    Tallied settings (comparisons E settings base rounds steps (begin engine registry)) report w.seen := by
  obtain ⟨v, hloop, rfl, hseen⟩ := loop_of_normalize h
  obtain ⟨hrecorded, hcounted⟩ := recorded_counted_finished hloop
  rw [hseen]
  exact tallied_of_finished hrecorded hcounted

theorem normalize_tallied_aided : ∃ report w,
    normalize aided aidedSettings "aided" 256 11 (begin false aidedRegistry) = (.ok report, w) ∧
    Tallied aidedSettings (comparisons aided aidedSettings "aided" 256 11 (begin false aidedRegistry)) report
      w.seen := by
  obtain ⟨-, -, report, w, hnormalize, -⟩ := aided_normalizes
  exact ⟨report, w, hnormalize, normalize_tallied hnormalize⟩

end Session
end ByteAutomata
