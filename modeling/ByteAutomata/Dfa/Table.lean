import ByteAutomata.Run

/-!
# Transition tables

* `Table α` : the steps out of one state, either as ascending disjoint runs or with one cell for
  every byte; `Table.lookup` reads both;
* `Table.settled` : a table of at least `denseThreshold` runs turned into cells. It reads the same
  (`Table.lookup_settled`) and stays dense (`Table.isDense_settled`);
* `Table.ofEntries` : entries in any order, or the first two that overlap;
* `Table.filterMap` : the table with other targets.
-/

namespace ByteAutomata

set_option autoImplicit false

/-- The steps out of one state. A byte without a target leads to the dead sink. -/
inductive Table (α : Type) where
  /-- Ascending runs that do not overlap. -/
  | sparse (entries : List (Run α)) (ordered : entries.Pairwise Run.Before)
  /-- One cell for every byte. -/
  | dense (targets : ByteMap (Option α))

/-- Sparse tables with at least this many entries become dense once a step is looked up. -/
def denseThreshold : Nat := 5

namespace Table

variable {α β : Type}

def none : Table α := sparse [] List.Pairwise.nil

def lookup : Table α → UInt8 → Option α
  | sparse entries _, b => (entries.find? (·.covers b)).map Run.value
  | dense targets, b => targets.get b

def isDense : Table α → Bool
  | sparse _ _ => false
  | dense _ => true

/-- Whether the table becomes dense when a step is looked up. -/
def isCrowded : Table α → Bool
  | sparse entries _ => denseThreshold ≤ entries.length
  | dense _ => false

/-- The table after a step has been looked up. -/
def settled (t : Table α) : Table α := if t.isCrowded then dense (ByteMap.ofFn t.lookup) else t

@[simp] theorem lookup_settled (t : Table α) (b : UInt8) : t.settled.lookup b = t.lookup b := by
  unfold settled
  split
  · exact ByteMap.get_ofFn _ b
  · rfl

/-- A table is dense after a step has been looked up exactly if it was dense or crowded before. -/
theorem isDense_settled (t : Table α) : t.settled.isDense = (t.isDense || t.isCrowded) := by
  unfold settled
  split
  next h => rw [h, Bool.or_true]; rfl
  next h => rw [Bool.not_eq_true] at h; rw [h, Bool.or_false]

@[simp] theorem isCrowded_settled (t : Table α) : t.settled.isCrowded = false := by
  unfold settled
  split
  · rfl
  next h => exact Bool.not_eq_true _ ▸ h

@[simp] theorem settled_settled (t : Table α) : t.settled.settled = t.settled := by
  rw [settled, isCrowded_settled]; rfl

/-- The targets in ascending order of their bytes. -/
def targets : Table α → List α
  | sparse entries _ => entries.map Run.value
  | dense cells => Byte.all.filterMap cells.get

/-- The table with targets replaced, or dropped. -/
def filterMap (f : α → Option β) : Table α → Table β
  | sparse entries ordered =>
    sparse (entries.filterMap fun r => (f r.value).map fun x => r.map fun _ => x) (by
      refine List.pairwise_filterMap.2 (ordered.imp fun {r s} h => ?_)
      simp only [Option.map_eq_some_iff]
      rintro _ ⟨x, -, rfl⟩ _ ⟨y, -, rfl⟩
      exact h)
  | dense cells => dense (ByteMap.ofFn fun b => (cells.get b).bind f)

/-! ## Entries in any order -/

/-- The first two neighbours of which the second does not start behind the first. -/
def firstOverlap : List (Run α) → Option (Run α × Run α)
  | r :: s :: rest => if r.Before s then firstOverlap (s :: rest) else some (r, s)
  | _ => Option.none

theorem ordered_of_firstOverlap {rs : List (Run α)} (h : firstOverlap rs = Option.none) :
    rs.Pairwise Run.Before := by
  fun_induction firstOverlap rs with
  | case1 r s rest hrs ih =>
    have ho := ih h
    refine List.pairwise_cons.2 ⟨fun t ht => ?_, ho⟩
    rcases List.mem_cons.1 ht with rfl | ht
    · exact hrs
    · exact UInt8.lt_trans (UInt8.lt_of_lt_of_le hrs s.lo_le_hi) ((List.pairwise_cons.1 ho).1 t ht)
  | case2 => simp at h
  | case3 rs hrs =>
    match rs, hrs with
    | [], _ => exact List.Pairwise.nil
    | [r], _ => exact List.pairwise_singleton _ r
    | r :: s :: rest, hrs => exact absurd rfl (hrs r s rest)

/-- Sorts by first byte, last byte and `rank` of the target. -/
def sortEntries (rank : α → Nat) (entries : List (Run α)) : List (Run α) :=
  entries.mergeSort fun r s =>
    ((compare r.lo s.lo).then ((compare r.hi s.hi).then (compare (rank r.value) (rank s.value)))).isLE

/-- The sparse table of entries in any order, or the first neighbours that overlap after sorting. -/
def ofEntries (rank : α → Nat) (entries : List (Run α)) : Except (Run α × Run α) (Table α) :=
  match h : firstOverlap (sortEntries rank entries) with
  | some pair => .error pair
  | Option.none => .ok (sparse (sortEntries rank entries) (ordered_of_firstOverlap h))

/-- The dense table of pairs of a byte and its target; the last pair of a byte counts. -/
def ofPairs (pairs : List (UInt8 × Option α)) : Table α :=
  dense (pairs.foldl (fun cells p => cells.set p.1 p.2) (ByteMap.const Option.none))

end Table
end ByteAutomata
