import Mojo.GoBindings.Decoder
import Mojo.System.Runs

/-!
# When an element fits, in the Go bindings

`ensureElementBitSizeAndCapacity` rounds the end of an element up with `align`, which rounds if the
size is a power of two. With pending bits the size is one byte more, and `align` sets a single bit
instead. The encoder asks it before each field, so a struct whose fields fit may fail to be encoded.
-/

namespace Mojo.GoBindings

open Mojo.System

def EncodingState.skipBits (s : EncodingState) (count : ℕ) : EncodingState :=
  { s with offset := s.offset + (s.bitOffset + count) / 8, bitOffset := (s.bitOffset + count) % 8 }

def EncodingState.elementEnd (s : EncodingState) (bitSize : ℕ) : ℕ :=
  if bitSize = 1 then s.offset + 1 else align s.alignOffsetToBytes.offset (bitSize / 8) +
    bitSize / 8

/-- Where `WriteBool` or the `Write` of a number leaves the encoder. -/
def EncodingState.skipElement (s : EncodingState) (bitSize : ℕ) : EncodingState :=
  let t := s.alignOffsetToBytes
  let t := if bitSize = 1 then s.skipBits 1
    else { t with offset := align t.offset (bitSize / 8) }.skipBytes (bitSize / 8)
  { t with elementsProcessed := (s.elementsProcessed + 1) % 2 ^ 32 }

def EncodingState.encodeFields (s : EncodingState) : List ℕ → Except Failure EncodingState
  | [] => .ok s
  | bitSize :: bitSizes => do
    s.ensureElementBitSizeAndCapacity bitSize
    (s.skipElement bitSize).encodeFields bitSizes

def EncodingState.fieldsEnd (s : EncodingState) (bitSizes : List ℕ) : ℕ :=
  (bitSizes.foldl skipElement s).alignOffsetToBytes.offset

def EncodingState.Misjudges (s : EncodingState) (bitSize : ℕ) : Prop :=
  bitSize = 64 ∧ 0 < s.bitOffset ∧ s.offset / 8 % 2 = 1 ∧ s.limit = 8 * (s.offset / 8) + 16

def EncodingState.NeverMisjudges : EncodingState → List ℕ → Prop :=
  Each (fun s bitSize => some (s.skipElement bitSize)) fun s bitSize => ¬ s.Misjudges bitSize

def EncodingState.HasElement (s : EncodingState) : Prop :=
  ¬ (s.checkElements = true ∧ s.elements ≤ s.elementsProcessed)

/-- What the masks of `align` do: those of a power of two fill up the low bits, the others set one.
-/
def OrMasks (n : ℕ) : Prop :=
  (n ||| 1) = n / 2 * 2 + 1 ∧ (n ||| 3) = n / 4 * 4 + 3 ∧ (n ||| 7) = n / 8 * 8 + 7 ∧
    (n ||| 2) + 2 * (n / 2 % 2) = n + 2 ∧ (n ||| 4) + 4 * (n / 4 % 2) = n + 4 ∧
      (n ||| 8) + 8 * (n / 8 % 2) = n + 8

theorem orMasks (n : ℕ) : OrMasks n := by
  have hlow : ∀ r < 16, OrMasks r := by
    unfold OrMasks
    decide
  have hor : ∀ c < 2 ^ 4, n ||| c = 2 ^ 4 * (n / 2 ^ 4) + (n % 2 ^ 4 ||| c) := by
    intro c hc
    rw [← Nat.div_add_mod (n ||| c) (2 ^ 4), Nat.or_div_two_pow, Nat.or_mod_two_pow,
      Nat.div_eq_of_lt hc, Nat.or_zero, Nat.mod_eq_of_lt hc]
  obtain ⟨h₁, h₃, h₇, h₂, h₄, h₈⟩ := hlow (n % 2 ^ 4) (Nat.mod_lt _ (by decide))
  rw [OrMasks, hor 1 (by decide), hor 3 (by decide), hor 7 (by decide), hor 2 (by decide),
    hor 4 (by decide), hor 8 (by decide)]
  refine ⟨?_, ?_, ?_, ?_, ?_, ?_⟩ <;> omega

theorem align_masks (n : ℕ) : align n 1 = n ∧ align n 2 = (n + 1) / 2 * 2 ∧
    align n 4 = (n + 3) / 4 * 4 ∧ align n 8 = (n + 7) / 8 * 8 := by
  obtain ⟨h₁, h₃, h₇, -⟩ := orMasks (n - 1)
  simp only [align, Nat.reduceSub, Nat.or_zero]
  refine ⟨?_, ?_, ?_, ?_⟩ <;> split <;> omega

theorem align_pending (n : ℕ) : align (n + 3) 3 + 2 * ((n + 2) / 2 % 2) = n + 5 ∧
    align (n + 5) 5 + 4 * ((n + 4) / 4 % 2) = n + 9 ∧ align (n + 9) 9 + 8 * ((n + 8) / 8 % 2) =
      n + 17 := by
  have h₂ := (orMasks (n + 2)).2.2.2.1
  have h₄ := (orMasks (n + 4)).2.2.2.2.1
  have h₈ := (orMasks (n + 8)).2.2.2.2.2
  simp only [align, Nat.reduceSub, Nat.add_eq_zero_iff, OfNat.ofNat_ne_zero, and_false, ↓reduceIte,
    Nat.add_succ_sub_one]
  refine ⟨?_, ?_, ?_⟩ <;> omega

theorem limit_lt_align_iff {s : EncodingState} (hlimit : 8 ∣ s.limit) (hoffset : s.offset < s.limit)
    (hbit : s.bitOffset < 8) {bitSize : ℕ} (hsize : bitSize ∈ [1, 8, 16, 32, 64]) :
    s.limit < align (s.offset + bytesForBits (s.bitOffset + bitSize))
      (bytesForBits (s.bitOffset + bitSize)) ↔
      s.limit < s.elementEnd bitSize ∨ s.Misjudges bitSize := by
  simp only [EncodingState.elementEnd, EncodingState.Misjudges, EncodingState.alignOffsetToBytes]
  simp only [List.mem_cons, List.not_mem_nil, or_false] at hsize
  obtain ⟨h₃, h₅, h₉⟩ := align_pending s.offset
  rcases Nat.eq_zero_or_pos s.bitOffset with h0 | hpos
  · have hbytes : bytesForBits (s.bitOffset + bitSize) = (bitSize + 7) / 8 := by
      rw [h0, bytesForBits, Nat.zero_add]
    rw [hbytes]
    rcases hsize with rfl | rfl | rfl | rfl | rfl <;> simp [h0, align_masks] <;> omega
  · have hbytes : bytesForBits (s.bitOffset + bitSize) = if bitSize = 1 then
        1 else bitSize / 8 + 1 := by
      rw [bytesForBits]
      split_ifs <;> omega
    rw [hbytes]
    rcases hsize with rfl | rfl | rfl | rfl | rfl <;> simp [hpos, align_masks] <;> omega

section Elements

variable {s : EncodingState} {bitSize : ℕ}

theorem ensure_ok_iff : s.ensureElementBitSizeAndCapacity bitSize = .ok () ↔ s.HasElement ∧
    ¬ s.limit < align (s.offset + bytesForBits (s.bitOffset + bitSize))
      (bytesForBits (s.bitOffset + bitSize)) := by
  simp only [EncodingState.ensureElementBitSizeAndCapacity, EncodingState.HasElement]
  split_ifs <;> simp_all

theorem ensure_limit_iff :
    s.ensureElementBitSizeAndCapacity bitSize = .error (.errorf "buffer size limit exceeded") ↔
      s.HasElement ∧ s.limit < align (s.offset + bytesForBits (s.bitOffset + bitSize))
        (bytesForBits (s.bitOffset + bitSize)) := by
  have hother (n : ℕ) : "can't process more than elements defined in header(" ++ toString n ++ ")" ≠
      "buffer size limit exceeded" := by
    intro h
    have := congrArg (fun s => s.toList.head?) h
    simp at this
  simp only [EncodingState.ensureElementBitSizeAndCapacity, EncodingState.HasElement]
  split_ifs <;> simp_all

theorem elementEnd_eq (hbit : s.bitOffset < 8) (hsize : bitSize ∈ [1, 8, 16, 32, 64]) :
    s.elementEnd bitSize = (s.skipElement bitSize).alignOffsetToBytes.offset ∧
      s.alignOffsetToBytes.offset ≤ s.elementEnd bitSize ∧ s.offset < s.elementEnd bitSize ∧
      (s.skipElement bitSize).bitOffset < 8 := by
  simp only [List.mem_cons, List.not_mem_nil, or_false] at hsize
  simp only [EncodingState.elementEnd, EncodingState.skipElement, EncodingState.skipBits,
    EncodingState.skipBytes, EncodingState.alignOffsetToBytes]
  rcases Nat.eq_zero_or_pos s.bitOffset with h0 | hpos
  · rcases hsize with rfl | rfl | rfl | rfl | rfl <;> simp [h0, align_masks] <;> omega
  · rcases hsize with rfl | rfl | rfl | rfl | rfl <;> simp [hpos, align_masks] <;> grind

theorem le_fieldsEnd {bitSizes : List ℕ} (hbit : s.bitOffset < 8)
    (hsizes : ∀ b ∈ bitSizes, b ∈ [1, 8, 16, 32, 64]) :
    s.alignOffsetToBytes.offset ≤ s.fieldsEnd bitSizes := by
  induction bitSizes generalizing s with
  | nil => exact le_rfl
  | cons bitSize bitSizes ih =>
    obtain ⟨heq, hle, -, hbit'⟩ := elementEnd_eq hbit (hsizes _ (.head _))
    exact (hle.trans_eq heq).trans (ih hbit' fun b hb => hsizes b (.tail _ hb))

theorem skipElement_kept : (s.skipElement bitSize).limit = s.limit ∧
    (s.skipElement bitSize).checkElements = s.checkElements := by
  simp only [EncodingState.skipElement, EncodingState.skipBits, EncodingState.skipBytes,
    EncodingState.alignOffsetToBytes]
  split_ifs <;> simp

theorem encodeFields_ok_iff {bitSizes : List ℕ} (hlimit : 8 ∣ s.limit) (hbit : s.bitOffset < 8)
    (hcheck : s.checkElements = false) (hsizes : ∀ b ∈ bitSizes, b ∈ [1, 8, 16, 32, 64])
    (hend : s.fieldsEnd bitSizes ≤ s.limit) :
    (∃ t, s.encodeFields bitSizes = .ok t) ↔ s.NeverMisjudges bitSizes := by
  induction bitSizes generalizing s with
  | nil => exact iff_of_true ⟨s, rfl⟩ trivial
  | cons bitSize bitSizes ih =>
    have hsize := hsizes _ (.head _)
    obtain ⟨heq, -, hlt, hbit'⟩ := elementEnd_eq hbit hsize
    obtain ⟨hlimit', hcheck'⟩ : (s.skipElement bitSize).limit = s.limit ∧ _ := skipElement_kept
    have hsizes' : ∀ b ∈ bitSizes, b ∈ [1, 8, 16, 32, 64] := fun b hb => hsizes b (.tail _ hb)
    have hfits : s.elementEnd bitSize ≤ s.limit :=
      (heq.trans_le (le_fieldsEnd hbit' hsizes')).trans hend
    have hrest := ih (hlimit' ▸ hlimit) hbit' (hcheck'.trans hcheck) hsizes'
      (hend.trans_eq hlimit'.symm)
    have hpass : s.ensureElementBitSizeAndCapacity bitSize = .ok () ↔ ¬ s.Misjudges bitSize := by
      rw [ensure_ok_iff, limit_lt_align_iff hlimit (hlt.trans_le hfits) hbit hsize]
      simp [EncodingState.HasElement, hcheck, hfits]
    rw [EncodingState.encodeFields]
    cases hrun : s.ensureElementBitSizeAndCapacity bitSize with
    | error failure =>
      refine iff_of_false (fun ⟨t, ht⟩ => by cases ht) fun h => ?_
      cases hrun.symm.trans (hpass.mpr h.1)
    | ok _ => exact hrest.trans ⟨.cons rfl (hpass.mp hrun), fun h => h.2 _ rfl⟩

end Elements

/-- The check of an element is exact unless it misjudges it. A struct whose fields fit into its
limit is encoded without an error exactly if none of them is misjudged. -/
theorem capacity_exact_iff {s : EncodingState} (hlimit : 8 ∣ s.limit) (hbit : s.bitOffset < 8) :
    (s.offset < s.limit → ∀ bitSize ∈ [1, 8, 16, 32, 64],
      ((s.ensureElementBitSizeAndCapacity bitSize = .error (.errorf "buffer size limit exceeded") ↔
          s.HasElement ∧ s.limit < s.elementEnd bitSize) ∧
        (s.ensureElementBitSizeAndCapacity bitSize = .ok () ↔
          s.HasElement ∧ s.elementEnd bitSize ≤ s.limit) ↔
        ¬ (s.HasElement ∧ s.Misjudges bitSize))) ∧
    ∀ bitSizes, (∀ b ∈ bitSizes, b ∈ [1, 8, 16, 32, 64]) → s.checkElements = false →
      s.fieldsEnd bitSizes ≤ s.limit →
      ((∃ t, s.encodeFields bitSizes = .ok t) ↔ s.NeverMisjudges bitSizes) := by
  refine ⟨fun hoffset bitSize hsize => ?_, fun bitSizes hsizes hcheck hend =>
    encodeFields_ok_iff hlimit hbit hcheck hsizes hend⟩
  have hfits : s.Misjudges bitSize → s.elementEnd bitSize ≤ s.limit := by
    rintro ⟨rfl, hpos, -, hend⟩
    simp [EncodingState.elementEnd, EncodingState.alignOffsetToBytes, hpos, align_masks]
    omega
  rw [ensure_limit_iff, ensure_ok_iff, limit_lt_align_iff hlimit hoffset hbit hsize]
  simp only [← not_lt] at hfits ⊢
  tauto

def afterBool : EncodingState := EncodingState.skipBits ⟨8, 0, 24, 0, 0, false⟩ 1

theorem capacity_exact_uint16 : afterBool.ensureElementBitSizeAndCapacity 16 = .ok () ∧
    ∃ t, afterBool.encodeFields [16, 32] = .ok t := by
  obtain ⟨hcheck, hfields⟩ := capacity_exact_iff (s := afterBool) (by decide) (by decide)
  constructor
  · refine ((hcheck (by decide) 16 (by decide)).mpr fun h => absurd h.2.1 (by decide)).2.mpr ?_
    exact ⟨nofun, by decide⟩
  · refine (hfields [16, 32] (by decide) rfl (by decide)).mpr ?_
    exact .cons rfl (fun h => absurd h.1 (by decide))
      (.cons rfl (fun h => absurd h.1 (by decide)) trivial)

/-- A bool and an int64 do not go into the 24 bytes of their struct. -/
theorem capacity_misjudged :
    afterBool.ensureElementBitSizeAndCapacity 64 = .error (.errorf "buffer size limit exceeded") ∧
      afterBool.elementEnd 64 = 24 ∧
      EncodingState.encodeFields ⟨8, 0, 24, 0, 0, false⟩ [1, 64] =
        .error (.errorf "buffer size limit exceeded") ∧
      EncodingState.fieldsEnd ⟨8, 0, 24, 0, 0, false⟩ [1, 64] = 24 :=
  ⟨rfl, rfl, rfl, rfl⟩

end Mojo.GoBindings
