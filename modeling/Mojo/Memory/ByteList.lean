import Mojo.Memory.Bytes

/-!
# Byte strings in memory

A message that is built as a list of bytes can end up anywhere in a longer one. `Holds` says that a
memory has the bytes at some address, and what is read there follows from it.
-/

namespace Mojo.Memory

def bytesOf (n v : ℕ) : List UInt8 := (List.range n).map fun i => UInt8.ofNat (v / 256 ^ i)

def Holds (m : Mem) (a : ℕ) (bytes : List UInt8) : Prop :=
  ∀ i (h : i < bytes.length), m (a + i) = bytes[i]

section Holds

variable {m : Mem} {a n v : ℕ} {bytes bytes' : List UInt8}

@[simp] theorem length_bytesOf (n v : ℕ) : (bytesOf n v).length = n := by
  rw [bytesOf, List.length_map, List.length_range]

theorem holds_append : Holds m a (bytes ++ bytes') ↔ Holds m a bytes ∧
    Holds m (a + bytes.length) bytes' := by
  constructor
  · intro h
    constructor
    · intro i hi
      rw [h i (by rw [List.length_append]; omega), List.getElem_append_left hi]
    · intro i hi
      rw [Nat.add_assoc, h (bytes.length + i) (by rw [List.length_append]; omega),
        List.getElem_append_right (by omega)]
      congr 1
      omega
  · rintro ⟨h, h'⟩ i hi
    rw [List.length_append] at hi
    by_cases hlt : i < bytes.length
    · rw [List.getElem_append_left hlt]
      exact h i hlt
    · have hat := h' (i - bytes.length) (by omega)
      rw [show a + bytes.length + (i - bytes.length) = a + i by omega] at hat
      rw [List.getElem_append_right (by omega)]
      exact hat

theorem load_block_add (base : ℕ) (bytes : List UInt8) (a n : ℕ) :
    load (block base bytes) (base + a) n = load (block 0 bytes) a n := by
  refine load_shift fun i _ => ?_
  simp [block, Nat.add_assoc]

theorem holds_block (bytes : List UInt8) : Holds (block 0 bytes) 0 bytes := by
  intro i hi
  simp [block, hi]

theorem Holds.load_eq (h : Holds m a (bytesOf n v)) (hv : v < 256 ^ n) : load m a n = v := by
  rw [← load_store_of_lt (m := m) (a := a) hv]
  refine load_congr fun b hb => ?_
  rw [mem_span] at hb
  have hbyte := h (b - a) (by rw [length_bytesOf]; omega)
  rw [show a + (b - a) = b by omega] at hbyte
  simp [hbyte, bytesOf, store, hb]

end Holds

end Mojo.Memory
