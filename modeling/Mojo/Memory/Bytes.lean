import Mathlib.Data.Set.BooleanAlgebra
import Mathlib.Data.Set.Function
import Mathlib.Order.CompletePartialOrder
import Mathlib.Order.Interval.Set.Basic
import Mathlib.Tactic.Ring

/-!
# Byte-addressed memory

A memory gives a byte to every address. Integers are little-endian: `load`
reads and `store` writes a fixed number of bytes, and a store is described
byte by byte, so what it leaves alone is read off its definition. `copy` is a
block copy whose source is read before anything is written.
-/

namespace Mojo.Memory

variable {a n b a' n' v k dst src : ℕ} {m m' : Mem} {s : Set ℕ}

abbrev Mem := ℕ → UInt8

def load (m : Mem) (a : ℕ) : ℕ → ℕ
  | 0 => 0
  | n + 1 => (m a).toNat + 256 * load m (a + 1) n

def store (m : Mem) (a n v : ℕ) : Mem :=
  fun b => if a ≤ b ∧ b < a + n then UInt8.ofNat (v / 256 ^ (b - a)) else m b

def setBit (m : Mem) (a bit : ℕ) : Mem :=
  fun b => if b = a then m a ||| UInt8.ofNat (2 ^ bit) else m b

def copy (m : Mem) (dst src n : ℕ) : Mem :=
  fun b => if dst ≤ b ∧ b < dst + n then m (src + (b - dst)) else m b

/-- Little-endian words of four bytes. -/
def words (ws : List ℕ) : List UInt8 :=
  ws.flatMap fun w => [.ofNat w, .ofNat (w / 2 ^ 8), .ofNat (w / 2 ^ 16), .ofNat (w / 2 ^ 24)]

/-- The memory that holds `bytes` from `a` on and is zero elsewhere. -/
def block (a : ℕ) (bytes : List UInt8) : Mem :=
  fun b => if a ≤ b then bytes.getD (b - a) 0 else 0

def span (a n : ℕ) : Set ℕ := Set.Ico a (a + n)

@[simp] theorem mem_span : b ∈ span a n ↔ a ≤ b ∧ b < a + n := Iff.rfl

theorem span_subset (h₁ : a' ≤ a) (h₂ : a + n ≤ a' + n') : span a n ⊆ span a' n' := by
  intro b hb
  simp only [mem_span] at hb ⊢
  omega

theorem span_disjoint_of_le (h : a + n ≤ a') : Disjoint (span a n) (span a' n') := by
  rw [Set.disjoint_left]
  intro b hb hb'
  simp only [mem_span] at hb hb'
  omega

theorem load_congr (h : Set.EqOn m m' (span a n)) : load m a n = load m' a n := by
  induction n generalizing a with
  | zero => rfl
  | succ n ih =>
    have h0 : m a = m' a := h (by simp)
    have hs : Set.EqOn m m' (span (a + 1) n) := h.mono (span_subset (by omega) (by omega))
    simp [load, h0, ih hs]

theorem load_add (m : Mem) (a n k : ℕ) :
    load m a (n + k) = load m a n + 256 ^ n * load m (a + n) k := by
  induction n generalizing a with
  | zero => simp [load]
  | succ n ih =>
    rw [Nat.add_right_comm, load, load, ih, Nat.add_assoc a 1 n, Nat.add_comm 1 n, pow_succ]
    ring

theorem load_lt (m : Mem) (a n : ℕ) : load m a n < 256 ^ n := by
  induction n generalizing a with
  | zero => simp [load]
  | succ n ih =>
    have h := ih (a + 1)
    have hb : (m a).toNat < 256 := (m a).toNat_lt
    simp only [load, pow_succ]
    omega

theorem store_apply_of_notMem (h : b ∉ span a n) : store m a n v b = m b := by
  simp only [mem_span] at h
  simp only [store, h, ↓reduceIte]

theorem store_eqOn (h : Disjoint s (span a n)) : Set.EqOn (store m a n v) m s := by
  intro b hb
  exact store_apply_of_notMem (Set.disjoint_left.mp h hb)

theorem load_store_of_disjoint (h : Disjoint (span b k) (span a n)) :
    load (store m a n v) b k = load m b k :=
  load_congr (store_eqOn h)

theorem store_tail_eqOn (m : Mem) (a n v : ℕ) :
    Set.EqOn (store m a (n + 1) v) (store m (a + 1) n (v / 256)) (span (a + 1) n) := by
  intro b hb
  simp only [mem_span] at hb
  have h₁ : a ≤ b ∧ b < a + (n + 1) := by omega
  have h₂ : a + 1 ≤ b ∧ b < a + 1 + n := by omega
  have hd : b - a = (b - (a + 1)) + 1 := by omega
  simp only [store, h₁, h₂, and_self, ↓reduceIte, hd, pow_succ, Nat.div_div_eq_div_mul,
    Nat.mul_comm]

theorem load_store (m : Mem) (a n v : ℕ) : load (store m a n v) a n = v % 256 ^ n := by
  induction n generalizing a v with
  | zero => simp [load, Nat.mod_one]
  | succ n ih =>
    have h0 : (store m a (n + 1) v a).toNat = v % 256 := by simp [store]
    rw [load, h0, load_congr (store_tail_eqOn m a n v), ih, pow_succ, Nat.mul_comm (256 ^ n),
      Nat.mod_mul]

theorem load_store_of_lt (h : v < 256 ^ n) : load (store m a n v) a n = v := by
  rw [load_store, Nat.mod_eq_of_lt h]

theorem load_div_pow_mod (m : Mem) (a n i : ℕ) (h : i < n) :
    load m a n / 256 ^ i % 256 = (m (a + i)).toNat := by
  induction n generalizing a i with
  | zero => omega
  | succ n ih =>
    have hb : (m a).toNat < 256 := (m a).toNat_lt
    cases i with
    | zero => simp only [load, pow_zero, Nat.div_one, Nat.add_zero]; omega
    | succ i =>
      have hq : ((m a).toNat + 256 * load m (a + 1) n) / 256 = load m (a + 1) n := by omega
      rw [load, pow_succ, Nat.mul_comm (256 ^ i), ← Nat.div_div_eq_div_mul, hq,
        ih (a + 1) i (by omega)]
      congr 2
      omega

theorem eqOn_of_load_eq (h : load m a n = load m' a n) : Set.EqOn m m' (span a n) := by
  intro b hb
  simp only [mem_span] at hb
  have h₁ := load_div_pow_mod m a n (b - a) (by omega)
  have h₂ := load_div_pow_mod m' a n (b - a) (by omega)
  have hab : a + (b - a) = b := by omega
  rw [hab] at h₁ h₂
  rw [h, h₂] at h₁
  exact UInt8.toNat_inj.mp h₁.symm

theorem load_eq_zero_of_subset (h : load m a n = 0) (hsub : span b k ⊆ span a n) :
    load m b k = 0 := by
  have hzero : ∀ c j, load (fun _ => 0) c j = 0 := by
    intro c j
    induction j generalizing c with
    | zero => rfl
    | succ j ih => simp [load, ih]
  have heq : Set.EqOn m (fun _ => 0) (span a n) := eqOn_of_load_eq (h.trans (hzero a n).symm)
  rw [load_congr (heq.mono hsub), hzero]

theorem store_load (m : Mem) (a n : ℕ) : store m a n (load m a n) = m := by
  funext b
  by_cases h : a ≤ b ∧ b < a + n
  · have hd := load_div_pow_mod m a n (b - a) (by omega)
    simp only [store, h, and_self, ↓reduceIte]
    apply UInt8.toNat_inj.mp
    rw [UInt8.toNat_ofNat', hd]
    congr 2
    omega
  · simp [store, h]

theorem store_store (m : Mem) (a n v w : ℕ) : store (store m a n v) a n w = store m a n w := by
  funext b
  by_cases h : a ≤ b ∧ b < a + n <;> simp [store, h]

theorem store_zero_append (m : Mem) (a n k : ℕ) :
    store (store m a n 0) (a + n) k 0 = store m a (n + k) 0 := by
  funext b
  simp only [store, Nat.zero_div]
  split_ifs <;> first | rfl | omega

theorem testBit_setBit {bit : ℕ} (hbit : bit < 8) (b j : ℕ) :
    (setBit m a bit b).toNat.testBit j = ((m b).toNat.testBit j || decide (b = a ∧ j = bit)) := by
  by_cases hba : b = a
  · have hpow : (2 : ℕ) ^ bit < 2 ^ 8 := Nat.pow_lt_pow_right (by decide) hbit
    rw [setBit, if_pos hba, UInt8.toNat_or, UInt8.toNat_ofNat', Nat.mod_eq_of_lt hpow,
      Nat.testBit_or, Nat.testBit_two_pow, hba]
    simp [eq_comm]
  · simp [setBit, hba]

theorem copy_apply {i : ℕ} (h : i < n) : copy m dst src n (dst + i) = m (src + i) := by
  have hi : dst ≤ dst + i ∧ dst + i < dst + n := by omega
  simp [copy, hi]

theorem copy_eqOn (h : Disjoint s (span dst n)) : Set.EqOn (copy m dst src n) m s := by
  intro b hb
  have hn : ¬ (dst ≤ b ∧ b < dst + n) := Set.disjoint_left.mp h hb
  simp [copy, hn]

theorem load_shift (h : ∀ i < n, m (a + i) = m' (a' + i)) : load m a n = load m' a' n := by
  induction n generalizing a a' with
  | zero => rfl
  | succ n ih =>
    have h0 : m a = m' a' := h 0 (by omega)
    have hs : load m (a + 1) n = load m' (a' + 1) n := by
      apply ih
      intro i hi
      simpa only [Nat.add_assoc, Nat.add_comm 1 i] using h (i + 1) (by omega)
    simp [load, h0, hs]

-- Reading is used through the lemmas above; unfolding it byte by byte is never wanted.
attribute [irreducible] load

end Mojo.Memory
