import ByteAutomata.Proofs.Learner.Convergence

/-!
# First answers stay

* `Oracle.replies` : the answers to words that are asked one after the other. A cache in front of an oracle is an
  oracle as well;
* `Remembers` : what a cache holds behind any words; `Remembers.ask` : one more word (`remembers_replies`);
* `Oracle.logged` : notes down the words for which an oracle is called, and changes nothing else (`replies_logged`,
  `replies_ask_logged`);
* `Once` : the oracle is called once for each word, in the order in which they first occur (`once_replies`);
* `Observations.history` : a learner's calls from the beginning; `Consistent` : they are as if one function answered
  (`consistent_of_agrees`);
* `first_answers_stay` : both hold of every oracle, also of one that answers differently when it is asked again.
-/

namespace ByteAutomata

set_option autoImplicit false

open Dialogue

/-! ## Words in the order in which they first occur -/

theorem eraseDups_snoc_of_mem {ws : List Word} {w : Word} (h : w ∈ ws) : (ws ++ [w]).eraseDups = ws.eraseDups := by
  have hnew : [w].removeAll ws = [] := by simp [List.removeAll, h]
  rw [List.eraseDups_append, hnew]
  exact List.append_nil _

theorem eraseDups_snoc_of_not_mem {ws : List Word} {w : Word} (h : w ∉ ws) :
    (ws ++ [w]).eraseDups = ws.eraseDups ++ [w] := by
  have hnew : [w].removeAll ws = [w] := by simp [List.removeAll, h]
  rw [List.eraseDups_append, hnew]
  rfl

theorem nodup_eraseDups (ws : List Word) : ws.eraseDups.Nodup := by
  induction ws using List.reverseRecOn with
  | nil => exact List.nodup_nil
  | append_singleton ws w ih =>
    by_cases hw : w ∈ ws
    · rw [eraseDups_snoc_of_mem hw]
      exact ih
    · rw [eraseDups_snoc_of_not_mem hw]
      refine List.nodup_append.2 ⟨ih, List.nodup_singleton w, fun v hv u hu => ?_⟩
      rintro rfl
      rw [List.mem_singleton.1 hu] at hv
      exact hw (List.mem_eraseDups.1 hv)

namespace Oracle

variable {σ α β : Type}

/-- The answers to words that are asked one after the other. -/
def replies (oracle : Oracle σ) : List Word → σ → List Bool × σ
  | [], s => ([], s)
  | w :: ws, s =>
    let (a, s) := oracle w s
    let (rest, s) := replies oracle ws s
    (a :: rest, s)

theorem replies_append (oracle : Oracle σ) (us ws : List Word) (s : σ) : replies oracle (us ++ ws) s =
    ((replies oracle us s).1 ++ (replies oracle ws (replies oracle us s).2).1,
      (replies oracle ws (replies oracle us s).2).2) := by
  induction us generalizing s with
  | nil => rfl
  | cons u us ih =>
    have hrest := ih (oracle u s).2
    simp only [List.cons_append, replies, hrest]

theorem replies_snoc (oracle : Oracle σ) (ws : List Word) (w : Word) (s : σ) : replies oracle (ws ++ [w]) s =
    ((replies oracle ws s).1 ++ [(oracle w (replies oracle ws s).2).1], (oracle w (replies oracle ws s).2).2) :=
  replies_append oracle ws [w] s

/-! ## What a cache holds -/

/-- The answers to `ws` and the cache behind them: answers are remembered, those that are remembered were given when
the oracle was called for the words that first occur, and nothing else was done to its state. -/
structure Remembers (oracle : Oracle σ) (s : σ) (ws : List Word) (r : List Bool × Cache σ) : Prop where
  answers : r.1.map some = ws.map r.2.cached
  unknown : ∀ w, r.2.cached w = none ↔ w ∉ ws
  given : (replies oracle ws.eraseDups s).1.map some = ws.eraseDups.map r.2.cached
  state : r.2.state = (replies oracle ws.eraseDups s).2
  queries : r.2.queries = ws.eraseDups.length

variable {oracle : Oracle σ} {s : σ} {ws : List Word} {r : List Bool × Cache σ}

theorem remembers_nil (oracle : Oracle σ) (s : σ) : Remembers oracle s [] ([], Cache.empty s) where
  answers := rfl
  unknown w := iff_of_true (Cache.cached_empty s w) List.not_mem_nil
  given := rfl
  state := rfl
  queries := Std.HashMap.size_empty

/-- A word that was asked before changes nothing, and for any other one the oracle is called. -/
theorem Remembers.ask (h : Remembers oracle s ws r) (w : Word) :
    Remembers oracle s (ws ++ [w]) (r.1 ++ [(oracle.ask w r.2).1], (oracle.ask w r.2).2) := by
  obtain ⟨answers, c⟩ := r
  obtain ⟨hanswers, hunknown, hgiven, hstate, hqueries⟩ := h
  dsimp only at hanswers hunknown hgiven hstate hqueries ⊢
  by_cases hw : w ∈ ws
  · obtain ⟨a, ha⟩ := Option.ne_none_iff_exists'.1 fun hnone => (hunknown w).1 hnone hw
    rw [ask_known ha]
    refine ⟨?_, fun v => ?_, ?_, ?_, ?_⟩
    · rw [List.map_append, List.map_append, hanswers, List.map_singleton, List.map_singleton, ha]
    · rw [hunknown, List.mem_append, List.mem_singleton, or_iff_left_of_imp fun hv => hv ▸ hw]
    all_goals rwa [eraseDups_snoc_of_mem hw]
  · have hnew : c.cached w = none := (hunknown w).2 hw
    -- the answers to earlier words are remembered as before
    have hkept : ∀ v ∈ ws, (oracle.ask w c).2.cached v = c.cached v := by
      intro v hv
      have hne : w ≠ v := ne_of_mem_of_not_mem hv hw |>.symm
      rw [cached_ask_eq, if_neg hne]
    have hask : oracle.ask w c =
        ((oracle w c.state).1, ⟨c.answers.insert w (oracle w c.state).1, (oracle w c.state).2⟩) := ask_new hnew
    refine ⟨?_, fun v => ?_, ?_, ?_, ?_⟩
    · rw [List.map_append, List.map_append, hanswers, List.map_congr_left fun v hv => (hkept v hv).symm]
      exact congrArg (_ ++ [·]) (cached_ask oracle w c).symm
    · rw [cached_ask_eq, List.mem_append, List.mem_singleton, not_or]
      by_cases hwv : w = v
      · rw [if_pos hwv]
        exact iff_of_false nofun fun hv => hv.2 hwv.symm
      · rw [if_neg hwv, hunknown]
        exact (and_iff_left (Ne.symm hwv)).symm
    · have hearlier : ws.eraseDups.map c.cached = ws.eraseDups.map (oracle.ask w c).2.cached :=
        List.map_congr_left fun v hv => (hkept v (List.mem_eraseDups.1 hv)).symm
      rw [eraseDups_snoc_of_not_mem hw, replies_snoc, List.map_append, List.map_append, hgiven, hearlier, ← hstate]
      refine congrArg (_ ++ [·]) ?_
      rw [cached_ask, hask]
    · rw [eraseDups_snoc_of_not_mem hw, replies_snoc, ← hstate, hask]
    · have hsize : c.queries + 1 = ws.eraseDups.length + 1 := congrArg (· + 1) hqueries
      rw [eraseDups_snoc_of_not_mem hw, List.length_append, List.length_singleton, ← hsize, hask]
      have hmem : w ∉ c.answers := by
        rw [Std.HashMap.mem_iff_isSome_getElem?]
        exact fun hsome => Option.ne_none_iff_isSome.2 hsome hnew
      exact Std.HashMap.size_insert.trans (if_neg hmem)

theorem remembers_replies (oracle : Oracle σ) (s : σ) (ws : List Word) :
    Remembers oracle s ws (replies oracle.ask ws (Cache.empty s)) := by
  induction ws using List.reverseRecOn with
  | nil => exact remembers_nil oracle s
  | append_singleton ws w ih =>
    rw [replies_snoc]
    exact ih.ask w

/-! ## Calls that are noted down -/

/-- The oracle, and the words for which it was called. -/
def logged (oracle : Oracle σ) : Oracle (σ × List Word) := fun w r =>
  let (a, s) := oracle w r.1
  (a, s, r.2 ++ [w])

theorem replies_logged (oracle : Oracle σ) (ws log : List Word) (s : σ) : replies oracle.logged ws (s, log) =
    ((replies oracle ws s).1, (replies oracle ws s).2, log ++ ws) := by
  induction ws generalizing log s with
  | nil => simp [replies]
  | cons w ws ih =>
    have hrest := ih (log ++ [w]) (oracle w s).2
    rw [List.append_assoc, List.singleton_append] at hrest
    simp only [replies, logged, hrest]

/-- The cache without what was noted down. -/
def unlogged (c : Cache (σ × List Word)) : Cache σ := ⟨c.answers, c.state.1⟩

theorem ask_unlogged (oracle : Oracle σ) (w : Word) (c : Cache (σ × List Word)) :
    oracle.ask w (unlogged c) = ((oracle.logged.ask w c).1, unlogged (oracle.logged.ask w c).2) := by
  cases hw : c.cached w with
  | some a => rw [ask_known hw, ask_known (c := unlogged c) hw]
  | none =>
    rw [ask_new hw, ask_new (c := unlogged c) hw]
    rfl

/-- Answers do not depend on whether calls are noted down. -/
theorem replies_ask_logged (oracle : Oracle σ) (ws : List Word) (c : Cache (σ × List Word)) :
    replies oracle.ask ws (unlogged c) =
      ((replies oracle.logged.ask ws c).1, unlogged (replies oracle.logged.ask ws c).2) := by
  induction ws generalizing c with
  | nil => rfl
  | cons w ws ih =>
    have hask := oracle.ask_unlogged w c
    have hrest := ih (oracle.logged.ask w c).2
    simp only [replies, hask, hrest]

/-- Behind the words `ws` the oracle has been called once for each of them, in the order in which they first occur.
Its first answers are remembered, and given again. -/
structure Once (oracle : Oracle σ) (s : σ) (ws : List Word) (r : List Bool × Cache σ) : Prop where
  /-- The calls that are noted down if the same words are asked. -/
  called : ∃ c, replies oracle.logged.ask ws (Cache.empty (s, [])) = (r.1, c) ∧ unlogged c = r.2 ∧
    c.state.2 = ws.eraseDups
  nodup : ws.eraseDups.Nodup
  given : (replies oracle ws.eraseDups s).1.map some = ws.eraseDups.map r.2.cached
  state : r.2.state = (replies oracle ws.eraseDups s).2
  length : r.1.length = ws.length
  repeated : ∀ i j : Nat, ws[i]? = ws[j]? → r.1[i]? = r.1[j]?
  queries : r.2.queries = ws.eraseDups.length
  cached_iff : ∀ w a, r.2.cached w = some a ↔ w ∈ ws ∧ r.1[ws.idxOf w]? = some a

theorem Remembers.getElem? (h : Remembers oracle s ws r) (i : Nat) : r.1[i]?.map some = ws[i]?.map r.2.cached := by
  rw [← List.getElem?_map, ← List.getElem?_map, h.answers]

theorem Remembers.repeated (h : Remembers oracle s ws r) {i j : Nat} (hij : ws[i]? = ws[j]?) : r.1[i]? = r.1[j]? := by
  refine Option.map_injective (Option.some_injective Bool) ?_
  rw [h.getElem?, h.getElem?, hij]

theorem Remembers.cached_iff (h : Remembers oracle s ws r) (w : Word) (a : Bool) :
    r.2.cached w = some a ↔ w ∈ ws ∧ r.1[ws.idxOf w]? = some a := by
  by_cases hw : w ∈ ws
  · have hget := h.getElem? (ws.idxOf w)
    rw [List.getElem?_idxOf hw, Option.map_some] at hget
    rw [and_iff_right hw]
    cases hfirst : r.1[ws.idxOf w]? with
    | none =>
      rw [hfirst] at hget
      cases hget
    | some b =>
      rw [hfirst, Option.map_some, Option.some.injEq] at hget
      rw [← hget]
  · rw [(h.unknown w).2 hw]
    exact iff_of_false nofun fun h => hw h.1

theorem once_replies (oracle : Oracle σ) (s : σ) (ws : List Word) :
    Once oracle s ws (replies oracle.ask ws (Cache.empty s)) := by
  have h := remembers_replies oracle s ws
  have hlogged := remembers_replies oracle.logged (s, []) ws
  have hsame := oracle.replies_ask_logged ws (Cache.empty (s, []))
  change replies oracle.ask ws (Cache.empty s) = _ at hsame
  refine ⟨⟨_, Prod.ext (congrArg Prod.fst hsame).symm rfl, (congrArg Prod.snd hsame).symm, ?_⟩, nodup_eraseDups ws,
    h.given, h.state, ?_, fun i j => h.repeated, h.queries, h.cached_iff⟩
  · rw [hlogged.state, replies_logged]
    rfl
  · rw [← List.length_map (f := some), h.answers, List.length_map]

/-! ## Dialogues behind a cache -/

variable {f : Word → Bool} {c : Cache σ}

/-- A dialogue asks the words that it asks a function, one after the other. -/
theorem replies_asked (d : Dialogue Word α) (h : (oracle.hold d c).2.Agrees f) :
    replies oracle.ask (d.asked f) c = ((d.asked f).map f, (oracle.hold d c).2) := by
  induction d generalizing c with
  | done x => rfl
  | fail e => rfl
  | ask w next ih =>
    have hanswer : f w = (oracle.ask w c).1 :=
      h w _ (oracle.cached_hold_of_cached (next _) (oracle.cached_ask w c))
    have hrest := ih (oracle.ask w c).1 (c := (oracle.ask w c).2) h
    rw [asked, List.map_cons, hanswer]
    simp only [replies, hrest]
    rfl

theorem agrees_of_agrees_bind {d : Dialogue Word α} {k : α → Dialogue Word β}
    (h : (oracle.hold (d >>= k) c).2.Agrees f) : (oracle.hold d c).2.Agrees f := by
  induction d generalizing c with
  | done x => exact oracle.agrees_of_agrees_hold (k x) h
  | fail e => exact h
  | ask w next ih => exact ih _ h

end Oracle

/-! ## All calls of a learner -/

namespace Observations

/-- What is called on a learner. -/
inductive Call where
  | learn (word : Word)
  | stabilize (seeds : List Word) (sample rounds : Nat)

def Call.run (T : Observations) : Call → Dialogue Word Observations
  | learn w => T.learn w
  | stabilize seeds sample rounds => Observations.stabilize seeds sample rounds T

def afterCalls (T : Observations) (calls : List Call) : Dialogue Word Observations := calls.foldlM Call.run T

/-- A new learner's table behind the given calls. -/
def history (calls : List Call) : Dialogue Word Observations := do (← start).afterCalls calls

theorem history_append (us vs : List Call) : history (us ++ vs) = history us >>= fun T => T.afterCalls vs := by
  unfold history afterCalls
  rw [LawfulMonad.bind_assoc]
  exact congrArg (start >>= ·) (funext fun T => List.foldlM_append)

variable {f : Word → Bool} {T U : Observations}

theorem Calls.afterCalls (h : Calls f T) {calls : List Call} (hU : (T.afterCalls calls).result f = .ok U) :
    Calls f U := by
  induction calls generalizing T with
  | nil =>
    cases hU
    exact h
  | cons call calls ih =>
    have hcons : T.afterCalls (call :: calls) = call.run T >>= fun V => V.afterCalls calls := List.foldlM_cons
    rw [hcons] at hU
    obtain ⟨V, hV, hrest⟩ := result_bind_eq_ok hU
    cases call with
    | learn w => exact ih (.learn h hV) hrest
    | stabilize seeds sample rounds => exact ih (.stabilize h hV) hrest

theorem calls_history (calls : List Call) (h : (history calls).result f = .ok T) : Calls f T := by
  obtain ⟨U, hU, hrest⟩ := result_bind_eq_ok h
  exact (Calls.start hU).afterCalls hrest

/-- A new learner's calls, of which the oracle may answer differently when it is asked again, are as if the function `f`
gave all answers. -/
structure Consistent {σ : Type} (oracle : Oracle σ) (s : σ) (calls : List Call) (f : Word → Bool) : Prop where
  /-- Behind each call the table is that for the answers of `f`, or there is the same fault. -/
  result : ∀ us, us <+: calls → (oracle.hold (history us) (Cache.empty s)).1 = (history us).result f
  reached : ∀ us, us <+: calls → ∀ T c, oracle.hold (history us) (Cache.empty s) = (.ok T, c) → Calls f T
  /-- All questions go through the cache, and are answered by `f`. -/
  asked : Oracle.replies oracle.ask ((history calls).asked f) (Cache.empty s) =
    (((history calls).asked f).map f, (oracle.hold (history calls) (Cache.empty s)).2)

/-- Any function will do that gives the answers remembered in the end. -/
theorem consistent_of_agrees {σ : Type} {oracle : Oracle σ} {s : σ} {calls : List Call}
    (h : (oracle.hold (history calls) (Cache.empty s)).2.Agrees f) : Consistent oracle s calls f := by
  have hresult : ∀ us, us <+: calls → (oracle.hold (history us) (Cache.empty s)).1 = (history us).result f := by
    rintro us ⟨vs, rfl⟩
    rw [history_append] at h
    exact (oracle.result_eq_hold (history us) (Oracle.agrees_of_agrees_bind h)).symm
  refine ⟨hresult, fun us hus T c hT => calls_history us ?_, Oracle.replies_asked (history calls) h⟩
  rw [← hresult us hus, hT]

end Observations

open Oracle Observations

/-- Whatever an oracle answers, also one with a state, it is called once for each word behind a cache, and its first
answers stay. So a learner finds what it would find for one function that never changes. -/
theorem first_answers_stay {σ : Type} (oracle : Oracle σ) (s : σ) :
    (∀ ws, Once oracle s ws (replies oracle.ask ws (Cache.empty s))) ∧
    ∀ calls, ∃ f, Consistent oracle s calls f :=
  ⟨once_replies oracle s, fun _ => ⟨_, consistent_of_agrees (Cache.agrees_first _)⟩⟩

end ByteAutomata
