import Mojo.JavaBindings.Encoder

/-!
# How the buffer of an encoder grows

`growIfNeeded` doubles an `int` until it reaches the end of the data. The sizes that it tries are
the size of the first buffer times the powers of two, as `int` values: a product of 2^31 or more is
negative, or smaller than the one before, and from some power on it is zero.
-/

namespace Mojo.JavaBindings

open Mojo.Memory

def twice (target : ℤ) : ℤ := int (target * 2)

def EncoderState.GrowthEnds (s : EncoderState) : Prop :=
  s.dataEnd ≤ s.capacity ∨ ∃ n, s.dataEnd ≤ twice^[n] (int (s.capacity * 2))

/-- `claimMemory(size)` returns, the buffer is then large enough, it has kept its bytes, and the new
ones are zero. -/
structure EncoderState.Grows (s : EncoderState) (size : ℕ) : Prop where
  ends : { s with dataEnd := int (s.dataEnd + size) }.GrowthEnds
  large : (s.claimMemory size).dataEnd ≤ (s.claimMemory size).capacity
  kept : ∀ b < s.capacity, (s.claimMemory size).mem b = s.mem b
  zero : ∀ b, s.capacity ≤ b → b < (s.claimMemory size).capacity → (s.claimMemory size).mem b = 0

/-- Every one of the calls grows the buffer as it should. The encoders have written to the buffer
before each of them. -/
def EncoderState.AllGrow : EncoderState → List (Mem × ℕ) → Prop
  | _, [] => True
  | s, (mem, size) :: calls =>
    { s with mem := mem }.Grows size ∧ ({ s with mem := mem }.claimMemory size).AllGrow calls

theorem int_int_mul (x y : ℤ) : int (int x * y) = int (x * y) := by
  simp [int]

theorem int_zero_of_large (c : ℤ) {k : ℕ} (hk : 32 ≤ k) : int (c * 2 ^ k) = 0 := by
  obtain ⟨j, rfl⟩ := Nat.exists_eq_add_of_le hk
  rw [int, pow_add, mul_comm c, mul_assoc]
  exact Int.bmod_eq_zero_of_dvd (Dvd.intro _ (by norm_cast))

theorem iterate_twice (x : ℤ) (n : ℕ) : twice^[n] (int x) = int (x * 2 ^ n) := by
  induction n with
  | zero => rw [Function.iterate_zero_apply, pow_zero, mul_one]
  | succ n ih => rw [Function.iterate_succ_apply', ih, twice, int_int_mul, mul_assoc, ← pow_succ]

theorem targetSize_of_first {n fuel : ℕ} {target dataEnd : ℤ} (hn : n ≤ fuel)
    (hge : dataEnd ≤ twice^[n] target)
    (hlt : ∀ k < n, twice^[k] target < dataEnd) :
    targetSize fuel target dataEnd = twice^[n] target := by
  induction n generalizing fuel target with
  | zero =>
    cases fuel with
    | zero => rfl
    | succ fuel => exact if_neg (not_lt.mpr hge)
  | succ n ih =>
    obtain ⟨fuel, rfl⟩ := Nat.exists_eq_add_of_le' (by omega : 1 ≤ fuel)
    have hfirst : target < dataEnd := hlt 0 (by omega)
    rw [targetSize, if_pos hfirst]
    exact ih (by omega) hge fun k hk => hlt (k + 1) (by omega)

section

variable {c : ℤ} {total size : ℕ} {s : EncoderState}

theorem dataEnd_claimMemory (s : EncoderState) (size : ℤ) :
    (s.claimMemory size).dataEnd = int (s.dataEnd + size) := by
  rw [EncoderState.claimMemory, EncoderState.growIfNeeded]
  split_ifs <;> rfl

theorem capacity_claimMemory (s : EncoderState) (size : ℤ) : (s.claimMemory size).capacity =
    if int (s.dataEnd + size) ≤ s.capacity then s.capacity
    else (targetSize 32 (int (s.capacity * 2)) (int (s.dataEnd + size))).toNat := by
  rw [EncoderState.claimMemory, EncoderState.growIfNeeded]
  split_ifs <;> rfl

theorem mem_claimMemory (s : EncoderState) (size : ℤ) :
    (∀ b < s.capacity, (s.claimMemory size).mem b = s.mem b) ∧
    ∀ b, s.capacity ≤ b → b < (s.claimMemory size).capacity → (s.claimMemory size).mem b = 0 := by
  rw [EncoderState.claimMemory, EncoderState.growIfNeeded]
  split_ifs
  · exact ⟨fun _ _ => rfl, fun b hb hb' => absurd hb' (not_lt.mpr hb)⟩
  · exact ⟨fun b hb => if_pos hb, fun b hb _ => if_neg (not_lt.mpr hb)⟩

structure Follows (c : ℤ) (total : ℕ) (s : EncoderState) : Prop where
  dataEnd : s.dataEnd = total
  capacity : ∃ k, (s.capacity : ℤ) = int (c * 2 ^ k) ∧ ∀ j < k, int (c * 2 ^ j) < total
  room : total ≤ s.capacity

theorem twice_capacity {k : ℕ} (hcap : (s.capacity : ℤ) = int (c * 2 ^ k)) (n : ℕ) :
    twice^[n] (int (s.capacity * 2)) = int (c * 2 ^ (k + 1 + n)) := by
  rw [hcap, int_int_mul, iterate_twice, mul_assoc c, ← pow_succ, mul_assoc, ← pow_add]

theorem Follows.growthEnds (h : Follows c total s) {k : ℕ}
    (hk : (total + size : ℕ) ≤ int (c * 2 ^ k)) :
    { s with dataEnd := (total + size : ℕ) }.GrowthEnds := by
  obtain ⟨k₀, hcap, hbefore⟩ := h.capacity
  by_cases hroom : total + size ≤ s.capacity
  · exact Or.inl (Int.ofNat_le.mpr hroom)
  · have hlt : k₀ < k := by
      by_contra hle
      rcases Nat.lt_or_eq_of_le (not_lt.mp hle) with hj | rfl
      · have := hbefore k hj
        omega
      · omega
    refine Or.inr ⟨k - (k₀ + 1), ?_⟩
    dsimp only
    rw [twice_capacity hcap, Nat.add_sub_cancel' hlt]
    exact hk

theorem Follows.target (h : Follows c total s) (hroom : ¬ total + size ≤ s.capacity)
    (hends : { s with dataEnd := (total + size : ℕ) }.GrowthEnds) :
    ∃ k, targetSize 32 (int (s.capacity * 2)) (total + size : ℕ) = int (c * 2 ^ k) ∧
      (total + size : ℕ) ≤ int (c * 2 ^ k) ∧ ∀ j < k, int (c * 2 ^ j) < (total + size : ℕ) := by
  obtain ⟨k, hcap, hbefore⟩ := h.capacity
  have hex := hends.resolve_left (mt Int.ofNat_le.mp hroom)
  dsimp only at hex
  have hge := Nat.find_spec hex
  have hfirst := fun j => Nat.find_min (H := hex) (m := j)
  generalize Nat.find hex = n at hge hfirst
  have htarget := fun hn : n ≤ 32 => targetSize_of_first hn hge fun j hj => not_le.mp (hfirst j hj)
  simp only [twice_capacity hcap, not_le] at hge hfirst htarget
  refine ⟨k + 1 + n, htarget ?_, hge, fun j hj => ?_⟩
  · by_contra hn
    rw [int_zero_of_large c (by omega)] at hge
    omega
  · rcases Nat.lt_trichotomy j k with hjk | rfl | hjk
    · have := hbefore j hjk
      omega
    · omega
    · have := hfirst (j - (k + 1)) (by omega)
      rwa [Nat.add_sub_cancel' hjk] at this

theorem Follows.step (h : Follows c total s) (hlt : total + size < 2 ^ 31)
    (hends : { s with dataEnd := (total + size : ℕ) }.GrowthEnds) :
    s.Grows size ∧ Follows c (total + size) (s.claimMemory size) := by
  have hint : int (s.dataEnd + size) = (total + size : ℕ) := by
    rw [h.dataEnd, ← Nat.cast_add]
    exact int_eq (by omega) (by omega)
  have hdata := (dataEnd_claimMemory s size).trans hint
  have hcapacity := capacity_claimMemory s size
  simp only [hint, Int.ofNat_le] at hcapacity
  have hnext : Follows c (total + size) (s.claimMemory size) := by
    by_cases hroom : total + size ≤ s.capacity
    · obtain ⟨k, hcap, hbefore⟩ := h.capacity
      rw [if_pos hroom] at hcapacity
      exact ⟨hdata, ⟨k, by rw [hcapacity, hcap], fun j hj => by have := hbefore j hj; omega⟩, by
        omega⟩
    · obtain ⟨k, htarget, hge, hfirst⟩ := h.target hroom hends
      rw [if_neg hroom, htarget] at hcapacity
      exact ⟨hdata, ⟨k, by omega, hfirst⟩, by omega⟩
  refine ⟨⟨hint ▸ hends, ?_, (mem_claimMemory s size).1, (mem_claimMemory s size).2⟩, hnext⟩
  rw [hdata]
  exact Int.ofNat_le.mpr hnext.room

theorem allGrow_iff (h : Follows c total s) (calls : List (Mem × ℕ))
    (hlt : total + (calls.map Prod.snd).sum < 2 ^ 31) :
    s.AllGrow calls ↔ ∃ k, (total + (calls.map Prod.snd).sum : ℕ) ≤ int (c * 2 ^ k) := by
  induction calls generalizing total s with
  | nil =>
    obtain ⟨k, hcap, -⟩ := h.capacity
    exact iff_of_true trivial ⟨k, hcap ▸ Int.ofNat_le.mpr h.room⟩
  | cons x calls ih =>
    obtain ⟨mem, size⟩ := x
    have hwritten : Follows c total { s with mem := mem } := ⟨h.dataEnd, h.capacity, h.room⟩
    simp only [EncoderState.AllGrow, List.map_cons, List.sum_cons, ← add_assoc] at hlt ⊢
    constructor
    · rintro ⟨hgrows, hall⟩
      have hends := hgrows.ends
      dsimp only at hends
      rw [h.dataEnd, ← Nat.cast_add, int_eq (by omega) (by omega)] at hends
      exact (ih (hwritten.step (by omega) hends).2 hlt).mp hall
    · rintro ⟨k, hk⟩
      obtain ⟨hgrows, hnext⟩ :=
        hwritten.step (by omega)
        (hwritten.growthEnds (by omega : (total + size : ℕ) ≤ int (c * 2 ^ k)))
      exact ⟨hgrows, (ih hnext hlt).mpr ⟨k, hk⟩⟩

end

/-- Claims of fewer than 2^31 bytes in total, with any writes between them, grow the buffer as they
should exactly if they fit into one of the sizes that the doubling of the first size reaches. -/
theorem claims_grow_iff (native : ByteOrder) {bufferSize : ℤ} (hpos : 0 < bufferSize)
    (hlt : bufferSize < 2 ^ 31)
    (calls : List (Mem × ℕ)) (htotal : (calls.map Prod.snd).sum < 2 ^ 31) :
    (EncoderState.new native bufferSize).AllGrow calls ↔ ∃ k, (calls.map Prod.snd).sum ≤
      int (bufferSize * 2 ^ k) := by
  have hcap : ((EncoderState.new native bufferSize).capacity : ℤ) = bufferSize := by
    simp only [EncoderState.new, gt_iff_lt, hpos, ↓reduceIte]
    omega
  have hnew : Follows bufferSize 0 (EncoderState.new native bufferSize) := by
    refine ⟨rfl, ⟨0, ?_, fun j hj => absurd hj (Nat.not_lt_zero j)⟩, Nat.zero_le _⟩
    rw [hcap, pow_zero, mul_one, int_eq (by omega) hlt]
  simpa using allGrow_iff hnew calls (by omega)

theorem claims_grow_default : (EncoderState.new .little 1024).AllGrow
    [(fun _ => 1, 2000), (fun _ => 2, 2 ^ 30 - 2000)] :=
  (claims_grow_iff .little (by decide) (by decide) _ (by decide)).mpr
    ⟨20, by rw [int_eq (by decide) (by decide)]; decide⟩

theorem growth_never_ends : ¬ (EncoderState.new .little 1024).Grows (2 ^ 30 + 8) := by
  have hsmall : ∀ k < 32, int (1024 * 2 ^ k) ≤ 2 ^ 30 := by
    unfold int
    decide +kernel
  intro h
  have hends := h.ends
  rw [int_eq (by decide) (by decide)] at hends
  rcases hends with h | ⟨n, h⟩
  · exact absurd h (by decide)
  · rw [twice_capacity (c := 1024) (k := 0) (by rw [int_eq (by decide) (by decide)]; decide)] at h
    have hlarge : 2 ^ 30 < int (1024 * 2 ^ (0 + 1 + n)) := lt_of_lt_of_le (by decide) h
    by_cases hn : 0 + 1 + n < 32
    · exact absurd (hsmall _ hn) (not_le.mpr hlarge)
    · rw [int_zero_of_large _ (by omega)] at hlarge
      exact absurd hlarge (by decide)

end Mojo.JavaBindings
