/-!
# Bytes and tables indexed by a byte

* `Byte.all` : the 256 bytes in ascending order (`Byte.mem_all`, `Byte.pairwise_all`);
* `ByteMap` : one value for every byte; `ByteMap.get_ofFn` and `ByteMap.get_set` say what each
  operation does to the value at a byte.
-/

namespace ByteAutomata

set_option autoImplicit false

/-- All bytes in ascending order. -/
def Byte.all : List UInt8 := (List.range 256).map UInt8.ofNat

theorem Byte.mem_all (b : UInt8) : b ∈ Byte.all :=
  List.mem_map.2 ⟨b.toNat, List.mem_range.2 b.toNat_lt, UInt8.ofNat_toNat⟩

theorem Byte.length_all : Byte.all.length = 256 := by simp [Byte.all]

theorem Byte.pairwise_all : Byte.all.Pairwise (· < ·) := by
  refine List.pairwise_map.2 (List.Pairwise.imp_of_mem ?_ List.pairwise_lt_range)
  intro m n hm hn h
  rw [List.mem_range] at hm hn
  rw [UInt8.lt_iff_toNat_lt, UInt8.toNat_ofNat', UInt8.toNat_ofNat', Nat.mod_eq_of_lt hm, Nat.mod_eq_of_lt hn]
  exact h

/-- One value for every byte. -/
structure ByteMap (α : Type) where
  /-- The value of byte `b` is at index `b`. -/
  cells : Vector α 256

namespace ByteMap

variable {α β : Type}

def get (m : ByteMap α) (b : UInt8) : α := m.cells[b.toFin]

def ofFn (f : UInt8 → α) : ByteMap α := ⟨Vector.ofFn fun i => f (UInt8.ofFin i)⟩

def const (a : α) : ByteMap α := ⟨Vector.replicate 256 a⟩

def set (m : ByteMap α) (b : UInt8) (a : α) : ByteMap α :=
  ⟨m.cells.set b.toNat a b.toNat_lt⟩

@[simp] theorem get_ofFn (f : UInt8 → α) (b : UInt8) : (ofFn f).get b = f b := by
  simp [get, ofFn]

@[simp] theorem get_const (a : α) (b : UInt8) : (const a).get b = a := by
  simp [get, const]

theorem get_set (m : ByteMap α) (b c : UInt8) (a : α) :
    (m.set b a).get c = if c = b then a else m.get c := by
  simp only [get, set, Fin.getElem_fin, UInt8.toFin_val, Vector.getElem_set]
  by_cases h : c = b
  · simp [h]
  · have : b.toNat ≠ c.toNat := fun e => h (UInt8.toNat_inj.1 e.symm)
    simp [h, this]

@[ext] theorem ext {m n : ByteMap α} (h : ∀ b, m.get b = n.get b) : m = n := by
  obtain ⟨⟨m, hm⟩⟩ := m
  obtain ⟨⟨n, hn⟩⟩ := n
  simp only [mk.injEq, Vector.mk.injEq]
  refine Array.ext (by omega) fun i hi hj => ?_
  have := h (UInt8.ofNat i)
  simpa [get, Nat.mod_eq_of_lt (hm ▸ hi : i < 256)] using this

end ByteMap
end ByteAutomata
