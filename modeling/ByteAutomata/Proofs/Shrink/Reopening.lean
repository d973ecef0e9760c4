import ByteAutomata.Proofs.Registry.Reopening
import ByteAutomata.Proofs.Shrink.Cores

/-!
# What was learned is there in the next session

* `NameStart` : a text that names can start with; `plainName_nameFor_iff` : the names of learned automata are plain
  exactly if their base is such a text, and none ends like an arrow (`not_openArrow_suffix_nameFor`);
* `Session.read_of_normalize` : what is in the store behind a session that has learned something;
* `Session.Reopens` : the store can be opened, and everything that was learned is there;
* `Session.normalize_reopens_iff`, `Session.normalize_reopens_iff_of_size_le` : when this is so, for automata in range
  and so for those with no more states than there are numbers; `Session.normalize_loses_arrow` : a base with which it
  is not.
-/

namespace ByteAutomata

set_option autoImplicit false

/-! ## Names -/

/-- A text that names can start with. -/
structure NameStart (cs : List Char) : Prop where
  feed : '\n' ∉ cs
  arrow : ¬ arrow <:+: cs
  unblank : ∀ c ∈ cs.head?, isBlank c = false

section Tail

variable {cs tail : List Char} (hne : tail ≠ [])
include hne

theorem plainName_append_iff (hblank : ∀ c ∈ tail, isBlank c = false) : PlainName (cs ++ tail) ↔ NameStart cs := by
  have hout : ∀ c, isBlank c = true → c ∉ tail := by
    intro c hc hmem
    rw [hblank c hmem] at hc
    cases hc
  have harrow : arrow <:+: cs ++ tail ↔ arrow <:+: cs := arrow_infix_append_iff (hout ' ' (by decide))
  have htrim : trim (cs ++ tail) = cs ++ tail ↔ ∀ c ∈ cs.head?, isBlank c = false := by
    rw [trim_eq_self_iff]
    cases cs with
    | nil => simp [hne, hblank]
    | cons c cs => simp [List.getLast_append_of_ne_nil, hne, hblank]
  constructor
  · rintro ⟨hfeed, htrimmed, hplain⟩
    exact ⟨fun h => hfeed (List.mem_append_left _ h), fun h => hplain (harrow.2 h), htrim.1 htrimmed⟩
  · rintro ⟨hfeed, hplain, hunblank⟩
    refine ⟨fun h => ?_, htrim.2 hunblank, fun h => hplain (harrow.1 h)⟩
    exact (List.mem_append.1 h).elim hfeed (hout '\n' (by decide))

theorem not_openArrow_suffix_append (h : '>' ∉ tail) : ¬ openArrow <:+ cs ++ tail := by
  rintro ⟨p, hp⟩
  have hlast := congrArg List.getLast? hp
  rw [List.getLast?_append_of_ne_nil _ hne, List.getLast?_append_of_ne_nil _ (by decide)] at hlast
  exact h (List.mem_of_getLast? hlast.symm)

end Tail

theorem hexDigit_spec : ∀ n < 16, isBlank (hexDigit n) = false ∧ hexDigit n ≠ '>' := by decide

theorem mem_fingerprint {digest : List UInt8 → List UInt8} {text : String} {c : Char}
    (h : c ∈ (fingerprint digest text).toList) : ∃ n < 16, c = hexDigit n := by
  unfold fingerprint at h
  rw [String.toList_ofList] at h
  obtain ⟨b, -, hb⟩ := List.mem_flatMap.1 (List.mem_of_mem_take h)
  have hlt := b.toNat_lt
  rcases List.mem_pair.1 hb with rfl | rfl
  · exact ⟨b.toNat / 16, by omega, rfl⟩
  · exact ⟨b.toNat % 16, by omega, rfl⟩

/-- Behind the base comes a dash, and digits. -/
theorem exists_nameFor_eq (base : String) (A : Dfa) : ∃ tail, (nameFor base A).toList = base.toList ++ tail ∧
    tail ≠ [] ∧ ∀ c ∈ tail, isBlank c = false ∧ c ≠ '>' := by
  refine ⟨'-' :: (fingerprint Sha256.digest A.canonical.text).toList, ?_, List.cons_ne_nil _ _, ?_⟩
  · simp [nameFor, nameBy]
  · intro c hc
    rcases List.mem_cons.1 hc with rfl | hc
    · decide
    · obtain ⟨n, hn, rfl⟩ := mem_fingerprint hc
      exact hexDigit_spec n hn

theorem plainName_nameFor_iff (base : String) (A : Dfa) :
    PlainName (nameFor base A).toList ↔ NameStart base.toList := by
  obtain ⟨tail, hname, hne, htail⟩ := exists_nameFor_eq base A
  rw [hname]
  exact plainName_append_iff hne fun c hc => (htail c hc).1

theorem not_openArrow_suffix_nameFor (base : String) (A : Dfa) : ¬ openArrow <:+ (nameFor base A).toList := by
  obtain ⟨tail, hname, hne, htail⟩ := exists_nameFor_eq base A
  rw [hname]
  exact not_openArrow_suffix_append hne fun h => (htail _ h).2 rfl

/-- A name that was read from a store starts with a text that names can start with. -/
theorem nameStart_of_load {σ : Type} [Store σ] {s : σ} {R : Registry σ} {base : String} {A B : Dfa}
    (h : Registry.load s = .ok R) (hB : R.catalogue.find? (nameFor base A) = some B) : NameStart base.toList := by
  obtain ⟨text, -, hread, -⟩ := Registry.load_eq_ok_iff.1 h
  exact (plainName_nameFor_iff base A).1 (Catalogue.plain_of_read hread ((Catalogue.mem_entries_iff _).2 hB)).1

theorem Catalogue.Same.find? {C D : Catalogue} (h : C.Same D) {name : String} {A : Dfa} (hA : C.find? name = some A) :
    ∃ B, D.find? name = some B ∧ B.same A = true := by
  obtain ⟨⟨n, B⟩, hmem, hname, hsame⟩ := (exists_of_forall₂ h).1 _ ((mem_entries_iff _).2 hA)
  obtain rfl : n = name := hname
  exact ⟨B, (mem_entries_iff _).1 hmem, hsame⟩

namespace Session

variable {ε κ σ : Type} [DecidableEq κ] [Store σ] {E : Engine ε κ} {settings : Settings} {base : String}
  {rounds steps : Nat} {engine : ε} {registry : Registry σ} {report : Report} {after : World ε κ σ}
  {current : String}

/-! ## The store behind a session -/

/-- A session that has learned something has written all entries. -/
theorem read_of_normalize [LawfulStore σ]
    (h : normalize E settings base rounds steps (begin engine registry) = (.ok report, after))
    (hlearned : report.learned ≠ []) (hread : Store.read registry.store = .ok current) :
    after.report = report ∧ Store.read after.registry.store =
      .ok (String.ofList (after.registry.catalogue.render current.toList)) := by
  cases hloop : loop E settings base rounds steps .seeking (begin engine registry) with
  | mk r w =>
  have hstore := (loop_registered hloop).2
  rcases normalize_cases E settings base rounds steps (begin engine registry) hloop with
    ⟨e, -, hnormalize⟩ | ⟨-, hnothing, hnormalize⟩ | ⟨-, -, hnormalize⟩
  · rw [h] at hnormalize
    cases hnormalize
  · rw [h] at hnormalize
    cases hnormalize
    exact absurd hnothing hlearned
  · rw [h] at hnormalize
    obtain ⟨hreport, rfl⟩ := Prod.mk.inj hnormalize
    cases hflush : w.registry.flush with
    | mk result flushed =>
    rw [hflush] at hreport
    cases result with
    | error e => cases hreport
    | ok written =>
      obtain rfl : report = w.report := Except.ok.inj hreport
      obtain ⟨hcatalogue, hwritten, -⟩ := Registry.flush_ok (hstore ▸ hread) hflush
      refine ⟨rfl, ?_⟩
      rw [hcatalogue]
      exact hwritten

/-- The store of a registry can be opened, and everything that was learned is there under its name. -/
def Reopens (learned : List String) (R : Registry σ) : Prop :=
  ∃ reopened, Registry.load R.store = .ok reopened ∧ ∀ name ∈ learned, ∃ A B,
    R.catalogue.find? name = some A ∧ reopened.catalogue.find? name = some B ∧ B.same A = true

section Registered

variable {ls : List (Lesson ε κ σ)} {As : List Dfa} (hAs : Registered E settings base rounds registry ls As after)
include hAs

omit [Store σ] in
theorem exists_of_mem_learned {name : String} (h : name ∈ after.report.learned) :
    ∃ A, nameFor base A = name ∧ after.registry.catalogue.find? name = some A := by
  rw [hAs.learned] at h
  obtain ⟨A, hA, rfl⟩ := List.mem_map.1 h
  refine ⟨A, rfl, (Catalogue.mem_entries_iff _).1 (hAs.entries.mem_iff.2 ?_)⟩
  exact List.mem_append_right _ (List.mem_map_of_mem hA)

omit [Store σ] in
theorem mem_or_learned {e : String × Dfa} (he : e ∈ after.registry.catalogue.entries) :
    e ∈ registry.catalogue.entries ∨ nameFor base e.2 = e.1 ∧ e.1 ∈ after.report.learned := by
  rcases List.mem_append.1 (hAs.entries.mem_iff.1 he) with hold | hnew
  · exact Or.inl hold
  · obtain ⟨A, hA, rfl⟩ := List.mem_map.1 hnew
    rw [hAs.learned]
    exact Or.inr ⟨rfl, List.mem_map_of_mem hA⟩

theorem nameStart_of_reopens (hlearned : after.report.learned ≠ []) (h : Reopens after.report.learned after.registry) :
    NameStart base.toList := by
  obtain ⟨reopened, hload, hall⟩ := h
  obtain ⟨name, hname⟩ := List.exists_mem_of_ne_nil _ hlearned
  obtain ⟨A, rfl, -⟩ := exists_of_mem_learned hAs hname
  obtain ⟨-, B, -, hB, -⟩ := hall _ hname
  exact nameStart_of_load hload hB

/-- With a base that can start a name all names are plain, if the registry was opened from a store. -/
theorem plainName_of_mem (hopened : Registry.load registry.store = .ok registry) (hbase : NameStart base.toList)
    {e : String × Dfa} (he : e ∈ after.registry.catalogue.entries) : PlainName e.1.toList := by
  rcases mem_or_learned hAs he with hold | ⟨hname, -⟩
  · obtain ⟨text, -, hread, -⟩ := Registry.load_eq_ok_iff.1 hopened
    exact (Catalogue.plain_of_read hread hold).1
  · rw [← hname]
    exact (plainName_nameFor_iff base e.2).2 hbase

theorem storable_of_mem (hopened : Registry.load registry.store = .ok registry) (hbase : NameStart base.toList)
    (hending : ∀ e ∈ registry.catalogue.entries, ¬ openArrow <:+ e.1.toList)
    (hrange : ∀ name ∈ after.report.learned, ∀ A, after.registry.catalogue.find? name = some A → A.encoding.InRange)
    {e : String × Dfa} (he : e ∈ after.registry.catalogue.entries) :
    StorableName e.1.toList ∧ e.2.encoding.InRange := by
  have hplain := plainName_of_mem hAs hopened hbase he
  rcases mem_or_learned hAs he with hold | ⟨hname, hlearned⟩
  · obtain ⟨text, -, hread, -⟩ := Registry.load_eq_ok_iff.1 hopened
    exact ⟨⟨hplain, hending e hold⟩, (Catalogue.plain_of_read hread hold).2⟩
  · refine ⟨⟨hplain, ?_⟩, ?_⟩
    · rw [← hname]
      exact not_openArrow_suffix_nameFor base e.2
    · exact hrange _ hlearned e.2 ((Catalogue.mem_entries_iff _).1 he)

section Written

variable (hcarriage : '\r' ∉ current.toList)
  (hwritten : Store.read after.registry.store = .ok (String.ofList (after.registry.catalogue.render current.toList)))
include hcarriage hwritten

/-- One line that cannot be read is enough for the store not to open, so names from before count too. -/
theorem ending_of_reopens (hopened : Registry.load registry.store = .ok registry)
    (hlearned : after.report.learned ≠ []) (h : Reopens after.report.learned after.registry) :
    ∀ e ∈ registry.catalogue.entries, ¬ openArrow <:+ e.1.toList := by
  have hbase := nameStart_of_reopens hAs hlearned h
  intro e he
  obtain ⟨reopened, hload, -⟩ := h
  obtain ⟨text, htext, hreopened, -⟩ := Registry.load_eq_ok_iff.1 hload
  obtain rfl := Except.ok.inj (hwritten.symm.trans htext)
  rw [String.toList_ofList] at hreopened
  exact Catalogue.ending_of_read_render hcarriage (fun e he => plainName_of_mem hAs hopened hbase he) hreopened
    (hAs.entries.mem_iff.2 (List.mem_append_left _ he))

/-- Entries that can be read back are all there. -/
theorem reopens_of_storable
    (hstorable : ∀ e ∈ after.registry.catalogue.entries, StorableName e.1.toList ∧ e.2.encoding.InRange) :
    Reopens after.report.learned after.registry := by
  obtain ⟨D, hD, hsame⟩ := Catalogue.read_render hcarriage hstorable
  refine ⟨⟨after.registry.store, D⟩, Registry.load_eq_ok_iff.2 ⟨_, hwritten, ?_, rfl⟩, fun name hname => ?_⟩
  · rw [String.toList_ofList]
    exact hD
  · obtain ⟨A, -, hA⟩ := exists_of_mem_learned hAs hname
    obtain ⟨B, hB, heq⟩ := hsame.find? hA
    exact ⟨A, B, hA, hB, heq⟩

theorem reopens_iff (hopened : Registry.load registry.store = .ok registry) (hlearned : after.report.learned ≠ [])
    (hrange : ∀ name ∈ after.report.learned, ∀ A, after.registry.catalogue.find? name = some A → A.encoding.InRange) :
    Reopens after.report.learned after.registry ↔
      NameStart base.toList ∧ ∀ e ∈ registry.catalogue.entries, ¬ openArrow <:+ e.1.toList := by
  constructor
  · intro hreopens
    exact ⟨nameStart_of_reopens hAs hlearned hreopens,
      ending_of_reopens hAs hcarriage hwritten hopened hlearned hreopens⟩
  · rintro ⟨hbase, hending⟩
    exact reopens_of_storable hAs hcarriage hwritten fun e he => storable_of_mem hAs hopened hbase hending hrange he

end Written

end Registered

/-- With automata of no more states than there are numbers for states, everything that was learned is there in the next
session exactly if the base of the names can start a name, and no name from before ends like an arrow. -/
theorem normalize_reopens_iff_of_size_le [LawfulStore σ] (hopened : Registry.load registry.store = .ok registry)
    (hread : Store.read registry.store = .ok current) (hcarriage : '\r' ∉ current.toList)
    (h : normalize E settings base rounds steps (begin engine registry) = (.ok report, after))
    (hlearned : report.learned ≠ [])
    (hsizes : ∀ name ∈ report.learned, ∀ A, after.registry.catalogue.find? name = some A →
      A.size ≤ StateRef.sinkNumber) :
    Reopens report.learned after.registry ↔
      NameStart base.toList ∧ ∀ e ∈ registry.catalogue.entries, ¬ openArrow <:+ e.1.toList := by
  obtain ⟨As, hAs⟩ := normalize_registered E settings base rounds steps engine registry
  rw [h] at hAs
  obtain ⟨rfl, hwritten⟩ := read_of_normalize h hlearned hread
  exact reopens_iff hAs hcarriage hwritten hopened hlearned fun name hname A hA =>
    Dfa.inRange_encoding_of_size_le (hsizes name hname A hA)

/-- In the next session everything that was learned is there exactly if the base of the names can start a name, and no
name from before ends like an arrow. -/
theorem normalize_reopens_iff [LawfulStore σ] (hopened : Registry.load registry.store = .ok registry)
    (hread : Store.read registry.store = .ok current) (hcarriage : '\r' ∉ current.toList)
    (h : normalize E settings base rounds steps (begin engine registry) = (.ok report, after))
    (hlearned : report.learned ≠ [])
    (hrange : ∀ name ∈ report.learned, ∀ A, after.registry.catalogue.find? name = some A → A.encoding.InRange) :
    Reopens report.learned after.registry ↔
      NameStart base.toList ∧ ∀ e ∈ registry.catalogue.entries, ¬ openArrow <:+ e.1.toList := by
  obtain ⟨As, hAs⟩ := normalize_registered E settings base rounds steps engine registry
  rw [h] at hAs
  obtain ⟨rfl, hwritten⟩ := read_of_normalize h hlearned hread
  exact reopens_iff hAs hcarriage hwritten hopened hlearned hrange

/-! ### The engine that needs help -/

theorem load_aidedRegistry : Registry.load aidedRegistry.store = .ok aidedRegistry := rfl

theorem normalize_reopens_iff_aided : ∃ report after,
    Registry.load aidedRegistry.store = .ok aidedRegistry ∧ Store.read aidedRegistry.store = .ok "" ∧
    '\r' ∉ "".toList ∧
    normalize aided aidedSettings "aided" 256 11 (begin false aidedRegistry) = (.ok report, after) ∧
    report.learned ≠ [] ∧
    (∀ name ∈ report.learned, ∀ A, after.registry.catalogue.find? name = some A → A.encoding.InRange) ∧
    (Reopens report.learned after.registry ↔
      NameStart "aided".toList ∧ ∀ e ∈ aidedRegistry.catalogue.entries, ¬ openArrow <:+ e.1.toList) := by
  obtain ⟨T, report, after, hT, hnormalize, hcatalogue, hlearned⟩ := exists_normalize_aided "aided"
  have hsize : T.dfa.canonical.size ≤ 1 := hT.size_le oracle_aidedLesson encard_residual_true
  have hrange : ∀ name ∈ report.learned, ∀ A, after.registry.catalogue.find? name = some A → A.encoding.InRange := by
    intro name _ A hA
    rw [hcatalogue, Catalogue.find?_put] at hA
    split at hA
    · cases hA
      exact Dfa.inRange_encoding_of_size_le (hsize.trans (by decide))
    · cases hA
  exact ⟨report, after, load_aidedRegistry, rfl, by decide, hnormalize, hlearned, hrange,
    normalize_reopens_iff load_aidedRegistry rfl (by decide) hnormalize hlearned hrange⟩

/-- With an arrow in the base what was learned is lost. -/
theorem normalize_loses_arrow : ∃ report after,
    Registry.load aidedRegistry.store = .ok aidedRegistry ∧
    normalize aided aidedSettings "a -> b" 256 11 (begin false aidedRegistry) = (.ok report, after) ∧
    report.learned ≠ [] ∧ ¬ Reopens report.learned after.registry := by
  obtain ⟨T, report, after, -, hnormalize, -, hlearned⟩ := exists_normalize_aided "a -> b"
  obtain ⟨rfl, -⟩ := read_of_normalize hnormalize hlearned (show Store.read aidedRegistry.store = .ok "" from rfl)
  obtain ⟨As, hAs⟩ := normalize_registered aided aidedSettings "a -> b" 256 11 false aidedRegistry
  rw [hnormalize] at hAs
  refine ⟨after.report, after, load_aidedRegistry, hnormalize, hlearned, fun hreopens => ?_⟩
  exact (nameStart_of_reopens hAs hlearned hreopens).arrow (by decide)

end Session
end ByteAutomata
