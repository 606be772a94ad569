import Mojo.Memory.Bytes

/-!
# Pointers relative to their slot

On the wire a pointer is the distance from its own slot, and zero is the null
pointer; in memory it is an address. `target` reads a slot in either form.
Addresses wrap at 64 bits.
-/

namespace Mojo.Memory

def wrap64 (a : ℕ) : ℕ := a % 2 ^ 64

theorem wrap64_lt (a : ℕ) : wrap64 a < 2 ^ 64 := Nat.mod_lt a (by decide)

theorem wrap64_of_lt {a : ℕ} (h : a < 2 ^ 64) : wrap64 a = a := Nat.mod_eq_of_lt h

inductive Form
  | inMemory
  | onWire
deriving DecidableEq, Repr

def target : Form → Mem → ℕ → ℕ
  | .inMemory, m, slot => load m slot 8
  | .onWire, m, slot => if load m slot 8 = 0 then 0 else wrap64 (slot + load m slot 8)

theorem target_congr {f : Form} {m m' : Mem} {s : ℕ} (h : Set.EqOn m m' (span s 8)) :
    target f m' s = target f m s := by
  cases f <;> simp [target, load_congr h]

theorem target_of_wire {s t : ℕ} {m' : Mem} (ht : t < 2 ^ 64) (hlt : s < t)
    (h : load m' s 8 = t - s) : target .onWire m' s = t := by
  have hne : load m' s 8 ≠ 0 := by omega
  simp only [target, hne, ↓reduceIte]
  rw [h, Nat.add_sub_cancel' hlt.le, wrap64_of_lt ht]

theorem loads_congr {m m' : Mem} {a : ℕ} (h : Set.EqOn m m' (span a 8)) :
    load m' a 4 = load m a 4 ∧ load m' (a + 4) 4 = load m (a + 4) 4 :=
  ⟨(load_congr (h.mono (span_subset (by omega) (by omega)))).symm,
    (load_congr (h.mono (span_subset (by omega) (by omega)))).symm⟩

end Mojo.Memory
