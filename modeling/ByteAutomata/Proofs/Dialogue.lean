import ByteAutomata.Learner.Oracle

/-!
# What dialogues guarantee

* `Dialogue.Ensures f excuse d post` : with the answers of `f` the dialogue ends with a result of
  which `post` holds, unless it doubles past 64 bits, for which there is an `excuse` (`Ensures.bind`,
  `Ensures.mono`, `Ensures.relay`);
* `Dialogue.Yields f P d a` : with the answers of `f` the dialogue ends with `a`, and asks only questions of
  which `P` holds (`Yields.bind`);
* `Cache.Agrees c f` : `f` gives all answers that are remembered. Whatever is done behind a cache is
  what is done with the answers of any such function (`result_eq_hold`, `hold_spec`), and an answer that all of
  them give is remembered (`cached_of_agrees`), as is the answer for a word that is asked
  (`cached_of_mem_asked`). A dialogue whose questions have been asked leaves the cache as it is (`hold_of_yields`);
* `Oracle.passed` : the words that reach the oracle (`exists_passed`).
-/

namespace ByteAutomata

set_option autoImplicit false

namespace Dialogue

variable {ι κ α β : Type} {f : ι → Bool} {excuse : Prop}

/-- The dialogue ends with a result of which `post` holds, or with a bound that is too large. -/
def Ensures (f : ι → Bool) (excuse : Prop) (d : Dialogue ι α) (post : α → Prop) : Prop :=
  (∃ a, d.result f = .ok a ∧ post a) ∨ (d.result f = .error .overflow ∧ excuse)

theorem ensures_ok {d : Dialogue ι α} {post : α → Prop} {a : α} (h : d.result f = .ok a) (ha : post a) :
    Ensures f excuse d post := Or.inl ⟨a, h, ha⟩

theorem ensures_pure {post : α → Prop} {a : α} (ha : post a) : Ensures f excuse (pure a : Dialogue ι α) post :=
  ensures_ok rfl ha

theorem Ensures.mono {excuse' : Prop} {d : Dialogue ι α} {post post' : α → Prop} (h : Ensures f excuse d post)
    (hexcuse : excuse → excuse') (hpost : ∀ a, post a → post' a) : Ensures f excuse' d post' := by
  rcases h with ⟨a, hd, ha⟩ | ⟨hd, he⟩
  · exact Or.inl ⟨a, hd, hpost a ha⟩
  · exact Or.inr ⟨hd, hexcuse he⟩

theorem Ensures.imp {d : Dialogue ι α} {post post' : α → Prop} (h : Ensures f excuse d post)
    (hpost : ∀ a, post a → post' a) : Ensures f excuse d post' := h.mono id hpost

theorem Ensures.of_ok {d : Dialogue ι α} {post : α → Prop} (h : Ensures f excuse d post) {a : α}
    (hd : d.result f = .ok a) : post a := by
  rcases h with ⟨b, hb, hpost⟩ | ⟨he, -⟩
  · rw [hd] at hb
    cases hb
    exact hpost
  · rw [hd] at he
    cases he

theorem Ensures.bind {d : Dialogue ι α} {k : α → Dialogue ι β} {post : α → Prop} {post' : β → Prop}
    (h : Ensures f excuse d post) (hk : ∀ a, post a → Ensures f excuse (k a) post') :
    Ensures f excuse (d >>= k) post' := by
  unfold Ensures
  rw [result_bind]
  rcases h with ⟨a, hd, ha⟩ | ⟨hd, he⟩
  · rw [hd]
    exact hk a ha
  · rw [hd]
    exact Or.inr ⟨rfl, he⟩

theorem Ensures.map {d : Dialogue ι α} {post : α → Prop} {post' : β → Prop} {g : α → β}
    (h : Ensures f excuse d post) (hg : ∀ a, post a → post' (g a)) : Ensures f excuse (g <$> d) post' := by
  rw [map_eq_pure_bind]
  exact h.bind fun a ha => ensures_pure (hg a ha)

theorem Ensures.and {excuse' : Prop} {d : Dialogue ι α} {post post' : α → Prop} (h : Ensures f excuse d post)
    (h' : Ensures f excuse' d post') : Ensures f excuse d fun a => post a ∧ post' a := by
  rcases h with ⟨a, hd, ha⟩ | ⟨hd, he⟩
  · exact Or.inl ⟨a, hd, ha, h'.of_ok hd⟩
  · exact Or.inr ⟨hd, he⟩

theorem Ensures.keep {d : Dialogue ι α} {post : α → Prop} (h : Ensures f excuse d post) :
    Ensures f excuse d fun a => d.result f = .ok a ∧ post a := by
  rcases h with ⟨a, hd, ha⟩ | ⟨hd, he⟩
  · exact Or.inl ⟨a, hd, hd, ha⟩
  · exact Or.inr ⟨hd, he⟩

theorem result_map_of_ok {d : Dialogue ι α} {a : α} (g : α → β) (h : d.result f = .ok a) :
    (g <$> d).result f = .ok (g a) := by
  rw [map_eq_pure_bind, result_bind, h]
  rfl

theorem result_bind_eq_ok {d : Dialogue ι α} {k : α → Dialogue ι β} {b : β} (h : (d >>= k).result f = .ok b) :
    ∃ a, d.result f = .ok a ∧ (k a).result f = .ok b := by
  rw [result_bind] at h
  cases hd : d.result f with
  | error e =>
    rw [hd] at h
    cases h
  | ok a =>
    rw [hd] at h
    exact ⟨a, rfl, h⟩

/-- Behind a question the answer is known. -/
theorem ensures_query_bind {i : ι} {k : Bool → Dialogue ι α} {post : α → Prop}
    (h : Ensures f excuse (k (f i)) post) : Ensures f excuse (query i >>= k) post := by
  unfold Ensures
  rw [result_bind, result_query]
  exact h

/-- A dialogue that succeeds in any case. -/
theorem Ensures.total {d : Dialogue ι α} {post : α → Prop} (h : Ensures f False d post) :
    ∃ a, d.result f = .ok a ∧ post a := by
  rcases h with h | ⟨-, he⟩
  · exact h
  · exact he.elim

theorem ensures_total_bind {d : Dialogue ι α} {k : α → Dialogue ι β} {post : α → Prop} {post' : β → Prop}
    (h : Ensures f False d post) (hk : ∀ a, post a → Ensures f excuse (k a) post') :
    Ensures f excuse (d >>= k) post' := (h.mono False.elim fun _ => id).bind hk

/-! ## Questions passed on -/

theorem result_relay {g : κ → Bool} {answer : κ → Dialogue ι Bool} (h : ∀ k, (answer k).result f = .ok (g k))
    (d : Dialogue κ α) : (d.relay answer).result f = d.result g := by
  induction d with
  | done a => rfl
  | fail e => rfl
  | ask k next ih =>
    change (answer k >>= fun b => (next b).relay answer).result f = _
    rw [result_bind, h k]
    exact ih (g k)

theorem Ensures.relay {g : κ → Bool} {answer : κ → Dialogue ι Bool} {d : Dialogue κ α} {post : α → Prop}
    (hd : Ensures g excuse d post) (h : ∀ k, (answer k).result f = .ok (g k)) :
    Ensures f excuse (d.relay answer) post := by
  unfold Ensures
  rw [result_relay h]
  exact hd

theorem result_mapM {k : α → Dialogue ι β} {g : α → β} {l : List α} (h : ∀ a ∈ l, (k a).result f = .ok (g a)) :
    (l.mapM k).result f = .ok (l.map g) := by
  induction l with
  | nil => rfl
  | cons a l ih =>
    rw [List.mapM_cons, result_bind, h a List.mem_cons_self]
    change (l.mapM k >>= fun bs => pure (g a :: bs)).result f = _
    rw [result_bind, ih fun b hb => h b (List.mem_cons_of_mem a hb)]
    rfl

/-! ## Questions that are asked -/

theorem asked_query_bind (f : ι → Bool) (i : ι) (k : Bool → Dialogue ι α) :
    (query i >>= k).asked f = i :: (k (f i)).asked f := rfl

/-- With the answers of `f` the dialogue ends with `a`, and asks only questions of which `P` holds. -/
structure Yields (f : ι → Bool) (P : ι → Prop) (d : Dialogue ι α) (a : α) : Prop where
  result : d.result f = .ok a
  asked : ∀ i ∈ d.asked f, P i

section Yields

variable {P : ι → Prop} {a : α}

theorem yields_pure (a : α) : Yields f P (pure a : Dialogue ι α) a := ⟨rfl, fun _ hi => nomatch hi⟩

theorem Yields.bind {d : Dialogue ι α} {k : α → Dialogue ι β} {b : β} (h : Yields f P d a)
    (hk : Yields f P (k a) b) : Yields f P (d >>= k) b := by
  refine ⟨?_, fun i hi => ?_⟩
  · rw [result_bind, h.result]
    exact hk.result
  · rw [asked_bind, h.result] at hi
    exact (List.mem_append.1 hi).elim (h.asked i) (hk.asked i)

theorem yields_query_bind {i : ι} {k : Bool → Dialogue ι α} (hi : P i) (hk : Yields f P (k (f i)) a) :
    Yields f P (query i >>= k) a := by
  refine Yields.bind ⟨rfl, fun j hj => ?_⟩ hk
  rw [List.mem_singleton.1 hj]
  exact hi

end Yields

end Dialogue

/-! ## Answers behind a cache -/

namespace Cache

variable {σ : Type} {c : Cache σ} {w : Word} {a : Bool}

@[simp] theorem cached_empty (s : σ) (w : Word) : (Cache.empty s).cached w = none := Std.HashMap.getElem?_empty

/-- All answers that are remembered are those of `f`. -/
def Agrees (c : Cache σ) (f : Word → Bool) : Prop := ∀ w a, c.cached w = some a → f w = a

/-- The answers that are remembered, and `false` for all other words. -/
def first (c : Cache σ) (w : Word) : Bool := (c.cached w).getD false

theorem agrees_empty (s : σ) (f : Word → Bool) : (Cache.empty s).Agrees f := fun w a h => by simp at h

theorem agrees_first (c : Cache σ) : c.Agrees c.first := by
  intro w a h
  unfold first
  rw [h]
  rfl

/-- An answer that does not depend on words that were not asked has been given. -/
theorem cached_of_agrees (h : ∀ f, c.Agrees f → f w = a) : c.cached w = some a := by
  cases hw : c.cached w with
  | some b => rw [← h c.first c.agrees_first, c.agrees_first w b hw]
  | none =>
    have hother : c.Agrees fun v => if v = w then !a else c.first v := by
      intro v b hv
      have hne : v ≠ w := by
        rintro rfl
        rw [hw] at hv
        cases hv
      show (if v = w then !a else c.first v) = b
      rw [if_neg hne]
      exact c.agrees_first v b hv
    have hflip : (if w = w then !a else c.first w) = a := h _ hother
    rw [if_pos rfl] at hflip
    cases a <;> cases hflip

end Cache

namespace Oracle

variable {σ α : Type} (oracle : Oracle σ)

/-- Behind a question its answer is remembered, and all others as before. -/
theorem cached_ask_eq (w v : Word) (c : Cache σ) :
    (oracle.ask w c).2.cached v = if w = v then some (oracle.ask w c).1 else c.cached v := by
  by_cases hwv : w = v
  · rw [if_pos hwv, ← hwv]
    exact cached_ask oracle w c
  rw [if_neg hwv]
  cases hw : c.cached w with
  | some b => rw [ask_known hw]
  | none =>
    rw [ask_new hw]
    change (c.answers.insert w _)[v]? = _
    rw [Std.HashMap.getElem?_insert, if_neg (by simpa using hwv)]
    rfl

theorem cached_ask_of_cached {c : Cache σ} {v : Word} {a : Bool} (h : c.cached v = some a) (w : Word) :
    (oracle.ask w c).2.cached v = some a := by
  rw [cached_ask_eq]
  by_cases hwv : w = v
  · rw [if_pos hwv, hwv, ask_known h]
  · rw [if_neg hwv, h]

/-- Answers are never forgotten. -/
theorem cached_hold_of_cached {v : Word} {a : Bool} (d : Dialogue Word α) {c : Cache σ} (h : c.cached v = some a) :
    (oracle.hold d c).2.cached v = some a := by
  induction d generalizing c with
  | done x => exact h
  | fail e => exact h
  | ask i next ih => exact ih _ (oracle.cached_ask_of_cached h i)

theorem agrees_of_agrees_hold {f : Word → Bool} (d : Dialogue Word α) {c : Cache σ}
    (h : (oracle.hold d c).2.Agrees f) : c.Agrees f :=
  fun w a hw => h w a (oracle.cached_hold_of_cached d hw)

/-- A dialogue behind a cache is a dialogue with any function that gives the answers remembered in
the end. -/
theorem result_eq_hold {f : Word → Bool} (d : Dialogue Word α) {c : Cache σ} (h : (oracle.hold d c).2.Agrees f) :
    d.result f = (oracle.hold d c).1 := by
  induction d generalizing c with
  | done x => rfl
  | fail e => rfl
  | ask i next ih =>
    have hanswer : f i = (oracle.ask i c).1 :=
      h i _ (oracle.cached_hold_of_cached (next _) (oracle.cached_ask i c))
    change (next (f i)).result f = _
    rw [hanswer]
    exact ih _ h

variable {oracle}

/-- What was held is a dialogue with any function that gives the answers remembered in the end. -/
theorem result_of_hold {f : Word → Bool} {d : Dialogue Word α} {a : α} {c c' : Cache σ}
    (h : oracle.hold d c = (.ok a, c')) (hf : c'.Agrees f) : c.Agrees f ∧ d.result f = .ok a := by
  have hend : (oracle.hold d c).2.Agrees f := by
    rw [h]
    exact hf
  refine ⟨oracle.agrees_of_agrees_hold d hend, ?_⟩
  rw [oracle.result_eq_hold d hend, h]

/-- What is guaranteed for all functions that agree with the cache is guaranteed behind it. -/
theorem hold_spec {d : Dialogue Word α} {c : Cache σ} {excuse : Prop} {post : (Word → Bool) → α → Prop}
    (h : ∀ f, c.Agrees f → d.Ensures f excuse (post f)) :
    (∃ a c', oracle.hold d c = (.ok a, c') ∧ ∀ f, c'.Agrees f → post f a) ∨
      ((oracle.hold d c).1 = .error .overflow ∧ excuse) := by
  have hend := Cache.agrees_first (oracle.hold d c).2
  have hresult := oracle.result_eq_hold d hend
  rcases h _ (oracle.agrees_of_agrees_hold d hend) with ⟨a, ha, -⟩ | ⟨hfault, hexcuse⟩
  · rw [ha] at hresult
    have hhold : oracle.hold d c = (.ok a, (oracle.hold d c).2) := Prod.ext hresult.symm rfl
    refine Or.inl ⟨a, _, hhold, fun f hf => ?_⟩
    obtain ⟨hc, ha'⟩ := result_of_hold hhold hf
    exact (h f hc).of_ok ha'
  · rw [hfault] at hresult
    exact Or.inr ⟨hresult.symm, hexcuse⟩

theorem hold_bind_of_ok {β : Type} {d : Dialogue Word α} {k : α → Dialogue Word β} {a : α} {c c' : Cache σ}
    (h : oracle.hold d c = (.ok a, c')) : oracle.hold (d >>= k) c = oracle.hold (k a) c' := by
  induction d generalizing c with
  | done x =>
    cases h
    rfl
  | fail e => cases h
  | ask i next ih => exact ih _ h

theorem hold_bind_eq_ok {β : Type} {d : Dialogue Word α} {k : α → Dialogue Word β} {b : β} {c c' : Cache σ}
    (h : oracle.hold (d >>= k) c = (.ok b, c')) :
    ∃ a e, oracle.hold d c = (.ok a, e) ∧ oracle.hold (k a) e = (.ok b, c') := by
  induction d generalizing c with
  | done x => exact ⟨x, c, rfl, h⟩
  | fail e => cases h
  | ask i next ih => exact ih _ h

/-- What was asked is remembered in the end. -/
theorem cached_of_mem_asked {f : Word → Bool} {d : Dialogue Word α} {a : α} {c c' : Cache σ}
    (h : oracle.hold d c = (.ok a, c')) (hf : c'.Agrees f) {w : Word} (hw : w ∈ d.asked f) :
    c'.cached w = some (f w) := by
  induction d generalizing c with
  | done x => cases hw
  | fail e => cases hw
  | ask i next ih =>
    change oracle.hold (next (oracle.ask i c).1) (oracle.ask i c).2 = _ at h
    have hcached := oracle.cached_hold_of_cached (next (oracle.ask i c).1) (oracle.cached_ask i c)
    rw [h] at hcached
    have hanswer : f i = (oracle.ask i c).1 := hf i _ hcached
    rcases List.mem_cons.1 hw with rfl | hrest
    · rw [hanswer]
      exact hcached
    · rw [hanswer] at hrest
      exact ih _ h hrest

/-- A dialogue about words that have been asked asks the oracle nothing. -/
theorem hold_of_yields {f : Word → Bool} {d : Dialogue Word α} {a : α} {c : Cache σ}
    (h : d.Yields f (fun w => c.cached w = some (f w)) a) : oracle.hold d c = (.ok a, c) := by
  obtain ⟨hresult, hasked⟩ := h
  induction d with
  | done x =>
    cases hresult
    rfl
  | fail e => cases hresult
  | ask i next ih =>
    have hknown : oracle.ask i c = (f i, c) := ask_known (hasked i List.mem_cons_self)
    change oracle.hold (next (oracle.ask i c).1) (oracle.ask i c).2 = _
    rw [hknown]
    exact ih _ hresult fun w hw => hasked w (List.mem_cons_of_mem i hw)

/-- The words that a dialogue passes on, each with the state of the oracle that it is passed on to. -/
def passed (oracle : Oracle σ) : Dialogue Word α → Cache σ → List (Word × σ)
  | .done _, _ => []
  | .fail _, _ => []
  | .ask w next, c =>
    (if (c.cached w).isSome then [] else [(w, c.state)]) ++
      passed oracle (next (oracle.ask w c).1) (oracle.ask w c).2

/-- Every answer that is remembered was remembered before or comes from the oracle. -/
theorem exists_passed {d : Dialogue Word α} {c : Cache σ} {w : Word} {a : Bool}
    (h : (oracle.hold d c).2.cached w = some a) :
    c.cached w = some a ∨ ∃ s, (w, s) ∈ oracle.passed d c ∧ (oracle w s).1 = a := by
  induction d generalizing c with
  | done x => exact Or.inl h
  | fail e => exact Or.inl h
  | ask i next ih =>
    rcases ih (oracle.ask i c).1 (c := (oracle.ask i c).2) h with hask | ⟨s, hs, ha⟩
    · rw [cached_ask_eq] at hask
      by_cases hiw : i = w
      · rw [if_pos hiw] at hask
        subst hiw
        cases hi : c.cached i with
        | some b =>
          rw [ask_known hi] at hask
          exact Or.inl hask
        | none =>
          rw [ask_new hi] at hask
          refine Or.inr ⟨c.state, List.mem_append_left _ ?_, Option.some.inj hask⟩
          rw [hi]
          exact List.mem_singleton.2 rfl
      · rw [if_neg hiw] at hask
        exact Or.inl hask
    · exact Or.inr ⟨s, List.mem_append_right _ hs, ha⟩

theorem agrees_ask {f : Word → Bool} {w : Word} {c : Cache σ} (h : c.Agrees f)
    (hw : (oracle w c.state).1 = f w) : (oracle.ask w c).2.Agrees f := by
  intro v a hv
  rw [cached_ask_eq] at hv
  by_cases hwv : w = v
  · rw [if_pos hwv] at hv
    subst hwv
    cases hcached : c.cached w with
    | some b =>
      rw [ask_known hcached] at hv
      rw [h w b hcached]
      exact Option.some.inj hv
    | none =>
      rw [ask_new hcached] at hv
      rw [← hw]
      exact Option.some.inj hv
  · rw [if_neg hwv] at hv
    exact h v a hv

/-- An oracle that answers as `f` does leads to caches that agree with `f`. -/
theorem agrees_hold {f : Word → Bool} (hf : ∀ w s, (oracle w s).1 = f w) (d : Dialogue Word α) {c : Cache σ}
    (h : c.Agrees f) : (oracle.hold d c).2.Agrees f := by
  induction d generalizing c with
  | done x => exact h
  | fail e => exact h
  | ask i next ih => exact ih _ (agrees_ask h (hf i c.state))

end Oracle
end ByteAutomata
