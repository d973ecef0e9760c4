import ByteAutomata.Proofs.Nerode

/-!
# The minimal automaton depends on the language alone

* `Automaton.Canonical M word` : every state of `M` is live, states of one language are equal, and the
  states are numbered in the order of the least words that lead to them;
* `canonical_minimal`, `accepts_minimal` : the minimal automaton is of this kind, for the same language;
* `Canonical.follow` : what a word reaches in one automaton of a language, it reaches in another;
* `Canonical.eq` : two such automata of one language are equal, because states with the same language
  have the same least word, so that the numbers agree (`val_eq_of_strictMono`);
* `minimal_eq_iff` : two minimal automata are equal exactly if the languages are.
-/

namespace ByteAutomata

set_option autoImplicit false

theorem shortlex_antisymm {v w : Word} (h : (shortlex v w).isLE = true) (h' : (shortlex w v).isLE = true) : v = w :=
  (shortlex_eq_iff v w).1 (Std.OrientedCmp.isLE_antisymm h h')

theorem le_val_of_strictMono {m n : Nat} {f : Fin m → Fin n} (h : StrictMono f) (i : Fin m) : i.val ≤ (f i).val := by
  obtain ⟨i, hi⟩ := i
  induction i with
  | zero => exact Nat.zero_le _
  | succ i ih =>
    have hprev := ih (by omega)
    have hlt : f ⟨i, by omega⟩ < f ⟨i + 1, hi⟩ := h (Fin.mk_lt_mk.2 (Nat.lt_succ_self i))
    rw [Fin.lt_def] at hlt
    simp only at hprev ⊢
    omega

/-- Ascending maps that undo each other keep every number. -/
theorem val_eq_of_strictMono {m n : Nat} {f : Fin m → Fin n} {g : Fin n → Fin m} (hf : StrictMono f)
    (hg : StrictMono g) (h : ∀ i, g (f i) = i) (i : Fin m) : (f i).val = i.val := by
  have h₁ := le_val_of_strictMono hf i
  have h₂ := le_val_of_strictMono hg (f i)
  rw [h i] at h₂
  omega

namespace Automaton

/-- The states are live and have different languages, and they are numbered by their least words. -/
structure Canonical (M : Automaton) (word : Fin M.size → Word) : Prop extends LeastWords M word where
  live : ∀ q, M.Live q
  separated : ∀ p q, M.SameLanguage p q → p = q

/-! ## The minimal automaton is canonical -/

section Minimal

variable (A : Automaton)

theorem accepts_minimal (w : Word) : A.minimal.accepts w = A.accepts w := by
  have hlive : ∀ q b t, A.reachable.trim.step q b = some t → A.reachable.trim.Live t :=
    fun q b t => A.reachable.live_of_step_trim
  calc A.minimal.accepts w
      = A.reachable.trim.merge.accepts w := accepts_reachable _ w
    _ = A.reachable.trim.accepts w := accepts_merge hlive w
    _ = A.reachable.accepts w := accepts_trim _ w
    _ = A.accepts w := accepts_reachable A w

/-- The least words of the states of the minimal automaton. -/
def minimalWord : Fin A.minimal.size → Word := A.reachable.trim.merge.accessWord

theorem canonical_minimal : Canonical A.minimal A.minimalWord := by
  have hlive : ∀ q b t, A.reachable.trim.step q b = some t → A.reachable.trim.Live t :=
    fun q b t => A.reachable.live_of_step_trim
  have hstart : ∀ t, A.reachable.trim.start = some t → A.reachable.trim.Live t :=
    fun t => A.reachable.live_of_start_trim
  unfold minimal minimalWord
  generalize A.reachable.trim = X at hlive hstart
  have hwords := leastWords_reachable X.merge
  -- a state of the result stands for the first state of the class of a live state
  have horigin : ∀ i : Fin X.merge.reachable.size, ∃ t, X.Live t ∧ X.merge.origin i = X.classes.get t :=
    fun i => eq_leader_of_read_merge hlive hstart ((X.merge.read_reachable _ i).1 (hwords.reads i))
  have haccepts : ∀ (i : Fin X.merge.reachable.size) w,
      X.merge.reachable.acceptsFrom (some i) w = X.acceptsFrom (some (X.merge.origin i)) w := by
    intro i w
    rw [X.merge.embeds_reachable.acceptsFrom]
    exact acceptsFrom_merge hlive _ w
  refine ⟨hwords, fun i => ?_, fun i j hij => ?_⟩
  · obtain ⟨t, ⟨w, hw⟩, ht⟩ := horigin i
    refine ⟨w, ?_⟩
    rw [haccepts, ht, sameLanguage_leader hlive]
    exact hw
  · obtain ⟨t, -, ht⟩ := horigin i
    obtain ⟨u, -, hu⟩ := horigin j
    have hclass : X.classes.get (X.classes.get t) = X.classes.get (X.classes.get u) := by
      rw [get_classes_eq_iff hlive]
      intro w
      rw [← ht, ← hu, ← haccepts, ← haccepts]
      exact hij w
    have hidem := (classes_spec hlive).1.get_get
    rw [hidem, hidem] at hclass
    exact X.merge.origin_injective (ht.trans (hclass.trans hu.symm))

end Minimal

/-! ## Canonical automata of one language are equal -/

section Unique

variable {M N : Automaton} {u : Fin M.size → Word} {v : Fin N.size → Word}

/-- A word that reaches a state of one automaton reaches a state with the same language in the other. -/
theorem Canonical.follow (hM : Canonical M u) (h : ∀ w, M.accepts w = N.accepts w) {w : Word} {i : Fin M.size}
    (hi : M.read M.start w = some i) :
    ∃ j, N.read N.start w = some j ∧ ∀ x, M.acceptsFrom (some i) x = N.acceptsFrom (some j) x := by
  have hrest : ∀ x, M.acceptsFrom (some i) x = N.acceptsFrom (N.read N.start w) x := by
    intro x
    rw [← hi, ← acceptsFrom_append, ← acceptsFrom_append]
    exact h (w ++ x)
  obtain ⟨x, hx⟩ := hM.live i
  rw [hrest x] at hx
  obtain ⟨j, hj⟩ := N.exists_of_acceptsFrom hx
  refine ⟨j, hj, fun y => ?_⟩
  rw [← hj]
  exact hrest y

/-- The states of both automata correspond, and words that lead to a state lead to its partner. -/
theorem Canonical.exists_partner (hM : Canonical M u) (hN : Canonical N v) (h : ∀ w, M.accepts w = N.accepts w) :
    ∃ f : Fin M.size → Fin N.size, (∀ i x, M.acceptsFrom (some i) x = N.acceptsFrom (some (f i)) x) ∧
      ∀ i w, M.read M.start w = some i ↔ N.read N.start w = some (f i) := by
  choose f hf hlang using fun i => hM.follow h (hM.reads i)
  refine ⟨f, hlang, fun i w => ⟨fun hi => ?_, fun hj => ?_⟩⟩
  · obtain ⟨j, hj, hij⟩ := hM.follow h hi
    have : j = f i := hN.separated j (f i) fun x => (hij x).symm.trans (hlang i x)
    rw [hj, this]
  · obtain ⟨k, hk, hjk⟩ := hN.follow (fun w => (h w).symm) hj
    have : k = i := hM.separated k i fun x => (hjk x).symm.trans (hlang i x).symm
    rw [hk, this]

theorem Canonical.word_partner (hM : Canonical M u) (hN : Canonical N v) {f : Fin M.size → Fin N.size}
    (hread : ∀ i w, M.read M.start w = some i ↔ N.read N.start w = some (f i)) (i : Fin M.size) : u i = v (f i) :=
  shortlex_antisymm (hM.least i _ ((hread i _).2 (hN.reads (f i)))) (hN.least (f i) _ ((hread i _).1 (hM.reads i)))

theorem Canonical.strictMono_partner (hM : Canonical M u) (hN : Canonical N v) {f : Fin M.size → Fin N.size}
    (hread : ∀ i w, M.read M.start w = some i ↔ N.read N.start w = some (f i)) : StrictMono f := by
  intro i j hij
  have hlt := hM.ascending i j hij
  rw [hM.word_partner hN hread i, hM.word_partner hN hread j] at hlt
  rcases lt_trichotomy (f i) (f j) with h | h | h
  · exact h
  · rw [h, shortlex_self] at hlt
    cases hlt
  · have hself := Std.TransCmp.lt_trans hlt (hN.ascending _ _ h)
    rw [shortlex_self] at hself
    cases hself

/-- Automata of one size that read words alike are equal, if every state is reached. -/
theorem eq_of_reads (hsize : M.size = N.size)
    (hread : ∀ (i : Fin M.size) w, M.read M.start w = some i ↔ N.read N.start w = some (Fin.cast hsize i))
    (hacc : ∀ i : Fin M.size, M.accepting i = N.accepting (Fin.cast hsize i))
    (hreach : ∀ i, ∃ w, M.read M.start w = some i) : M = N := by
  obtain ⟨m, startM, acceptingM, stepM⟩ := M
  obtain ⟨n, startN, acceptingN, stepN⟩ := N
  change m = n at hsize
  subst hsize
  have hstart : startM = startN := Option.ext fun i => hread i []
  have haccepting : acceptingM = acceptingN := funext hacc
  have hstep : stepM = stepN := by
    funext i b
    obtain ⟨w, hw⟩ := hreach i
    have hwN := (hread i w).1 hw
    apply Option.ext
    intro j
    have hj := hread j (w ++ [b])
    rw [read_snoc, read_snoc, hw, hwN] at hj
    exact hj
  rw [hstart, haccepting, hstep]

theorem Canonical.eq (hM : Canonical M u) (hN : Canonical N v) (h : ∀ w, M.accepts w = N.accepts w) : M = N := by
  obtain ⟨f, hlang, hread⟩ := hM.exists_partner hN h
  obtain ⟨g, hlang', hread'⟩ := hN.exists_partner hM fun w => (h w).symm
  have hf := hM.strictMono_partner hN hread
  have hg := hN.strictMono_partner hM hread'
  have hgf : ∀ i, g (f i) = i := fun i =>
    hM.separated _ _ fun x => ((hlang i x).trans (hlang' (f i) x)).symm
  have hsize : M.size = N.size := by
    have hle := Fintype.card_le_of_injective f hf.injective
    have hge := Fintype.card_le_of_injective g hg.injective
    simp only [Fintype.card_fin] at hle hge
    omega
  have hcast : ∀ i, f i = Fin.cast hsize i := fun i => Fin.ext (val_eq_of_strictMono hf hg hgf i)
  refine eq_of_reads hsize (fun i w => ?_) (fun i => ?_) fun i => ⟨u i, hM.reads i⟩
  · rw [← hcast]
    exact hread i w
  · rw [← hcast]
    exact hlang i []

end Unique

/-- Two automata have the same minimal automaton exactly if they accept the same words. -/
theorem minimal_eq_iff (A B : Automaton) : A.minimal = B.minimal ↔ ∀ w, A.accepts w = B.accepts w := by
  constructor
  · intro h w
    rw [← accepts_minimal, h, accepts_minimal]
  · intro h
    apply A.canonical_minimal.eq B.canonical_minimal
    intro w
    rw [accepts_minimal, accepts_minimal]
    exact h w

end Automaton
end ByteAutomata
