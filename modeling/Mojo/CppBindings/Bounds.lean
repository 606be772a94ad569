import Mojo.CppBindings.ValidateClaims

/-!
# Bounds that hold for every message

A `BoundsChecker` is called with positions, sizes and indices that come from a message.
Whatever they are, what it grants lies in order in the range that it was created for. The storage
that the header of an array must have room for is computed in 32 bits; this holds all elements
except for arrays of bools with almost `2 ^ 32` elements.
-/

namespace Mojo.CppBindings

open Mojo.Memory

/-! ### Calls of a checker -/

inductive CheckerCall
  | claimMemory (position : UInt64) (numBytes : UInt32)
  | claimHandle (index : UInt32)
  | isValidRange (position : UInt64) (numBytes : UInt32)
deriving DecidableEq, Repr

namespace BoundsChecker

def call (bc : BoundsChecker) : CheckerCall → Bool × BoundsChecker
  | .claimMemory position numBytes =>
    match bc.claimMemory position.toNat numBytes.toNat with
    | .ok bc' => (true, bc')
    | .error _ => (false, bc)
  | .claimHandle index =>
    match bc.claimHandle index.toNat with
    | .ok bc' => (true, bc')
    | .error _ => (false, bc)
  | .isValidRange position numBytes => (decide (bc.isValidRange position.toNat numBytes.toNat), bc)

def callAll : BoundsChecker → List CheckerCall → List (CheckerCall × Bool) × BoundsChecker
  | bc, [] => ([], bc)
  | bc, c :: cs =>
    let (result, bc') := bc.call c
    let (results, bc'') := bc'.callAll cs
    ((c, result) :: results, bc'')

def grantedMemory (results : List (CheckerCall × Bool)) : List Extent :=
  results.filterMap fun
    | (.claimMemory position numBytes, true) => some ⟨position.toNat, numBytes.toNat⟩
    | _ => none

/-- The indices of the calls of `ClaimHandle` that succeeded, without the invalid one. -/
def grantedHandles (results : List (CheckerCall × Bool)) : List ℕ :=
  results.filterMap fun
    | (.claimHandle index, true) =>
      if index.toNat = encodedInvalidHandle then none else some index.toNat
    | _ => none

variable {bc' bc : BoundsChecker}

theorem claimMemory_pos {position numBytes : ℕ} (h : bc.claimMemory position numBytes = .ok bc') :
    0 < numBytes := by
  rw [claimMemory] at h
  split_ifs at h with hv
  have hlt := hv.1
  have hle := Nat.mod_le (position + numBytes) (2 ^ 64)
  rw [wrap64] at hlt
  omega

/-- Between two states of a checker: what was granted lies between the lower bounds. -/
structure Grants (bc bc' : BoundsChecker) (results : List (CheckerCall × Bool)) : Prop where
  dataEnd : bc'.dataEnd = bc.dataEnd
  handleEnd : bc'.handleEnd = bc.handleEnd
  memory : Packed bc.dataBegin (grantedMemory results) bc'.dataBegin
  memoryEnd : ∀ e ∈ grantedMemory results, 0 < e.len ∧ e.stop ≤ bc.dataEnd
  handles : Packed bc.handleBegin ((grantedHandles results).map fun i => ⟨i, 1⟩) bc'.handleBegin
  handlesEnd : ∀ i ∈ grantedHandles results, i < bc.handleEnd

theorem Grants.trans {bc₁ bc₂ bc₃ : BoundsChecker} {results results' : List (CheckerCall × Bool)}
    (h : Grants bc₁ bc₂ results) (h' : Grants bc₂ bc₃ results') :
    Grants bc₁ bc₃ (results ++ results') := by
  have hmemory : grantedMemory (results ++ results') = grantedMemory results ++
      grantedMemory results' :=
    List.filterMap_append
  have hhandles : grantedHandles (results ++ results') = grantedHandles results ++
      grantedHandles results' :=
    List.filterMap_append
  constructor
  · rw [h'.dataEnd, h.dataEnd]
  · rw [h'.handleEnd, h.handleEnd]
  · rw [hmemory]
    exact h.memory.append h'.memory
  · intro e he
    rw [hmemory] at he
    rcases List.mem_append.mp he with he | he
    · exact h.memoryEnd e he
    · rw [← h.dataEnd]
      exact h'.memoryEnd e he
  · rw [hhandles, List.map_append]
    exact h.handles.append h'.handles
  · intro i hi
    rw [hhandles] at hi
    rcases List.mem_append.mp hi with hi | hi
    · exact h.handlesEnd i hi
    · rw [← h.handleEnd]
      exact h'.handlesEnd i hi

theorem grants_nothing (bc : BoundsChecker) {results : List (CheckerCall × Bool)}
    (hmemory : grantedMemory results = []) (hhandles : grantedHandles results = []) :
    Grants bc bc results where
  dataEnd := rfl
  handleEnd := rfl
  memory := by rw [hmemory]; exact le_rfl
  memoryEnd e he := by rw [hmemory] at he; cases he
  handles := by rw [hhandles]; exact le_rfl
  handlesEnd i hi := by rw [hhandles] at hi; cases hi

theorem grants_claimMemory {position : UInt64} {numBytes : UInt32}
    (h : bc.claimMemory position.toNat numBytes.toNat = .ok bc') :
    Grants bc bc' [(.claimMemory position numBytes, true)] := by
  have hpos := claimMemory_pos h
  have hsize : numBytes.toNat < 2 ^ 64 := numBytes.toNat_lt.trans (by decide)
  obtain ⟨hbegin, hend, rfl⟩ := claimMemory_eq_ok hsize h
  constructor
  · rfl
  · rfl
  · exact ⟨hbegin, le_rfl⟩
  · intro e he
    obtain rfl := List.mem_singleton.mp he
    exact ⟨hpos, hend⟩
  · exact le_rfl
  · intro i hi
    cases hi

theorem grants_claimHandle {index : UInt32} (h : bc.claimHandle index.toNat = .ok bc') :
    Grants bc bc' [(.claimHandle index, true)] := by
  rcases claimHandle_eq_ok h with ⟨hinvalid, rfl⟩ | ⟨hvalid, hbegin, hend, rfl⟩
  · exact grants_nothing bc' rfl (by simp [grantedHandles, hinvalid])
  · have hgranted : grantedHandles [(.claimHandle index, true)] = [index.toNat] := by
      simp [grantedHandles, hvalid]
    constructor
    · rfl
    · rfl
    · exact le_rfl
    · intro e he
      cases he
    · rw [hgranted]
      exact ⟨hbegin, le_rfl⟩
    · intro i hi
      rw [hgranted, List.mem_singleton] at hi
      rw [hi]
      exact hend

theorem grants_call (bc : BoundsChecker) (c : CheckerCall) :
    Grants bc (bc.call c).2 [(c, (bc.call c).1)] := by
  cases c with
  | claimMemory position numBytes =>
    rw [call]
    cases h : bc.claimMemory position.toNat numBytes.toNat with
    | ok bc' => exact grants_claimMemory h
    | error e => exact grants_nothing bc rfl rfl
  | claimHandle index =>
    rw [call]
    cases h : bc.claimHandle index.toNat with
    | ok bc' => exact grants_claimHandle h
    | error e => exact grants_nothing bc rfl rfl
  | isValidRange position numBytes => exact grants_nothing bc rfl rfl

theorem grants_callAll (bc : BoundsChecker) (cs : List CheckerCall) :
    Grants bc (bc.callAll cs).2 (bc.callAll cs).1 := by
  induction cs generalizing bc with
  | nil => exact grants_nothing bc rfl rfl
  | cons c cs ih => exact (grants_call bc c).trans (ih (bc.call c).2)

theorem call_unchanged (bc : BoundsChecker) (c : CheckerCall)
    (h : (bc.call c).1 = false ∨ ∃ position numBytes, c = .isValidRange position numBytes) :
    (bc.call c).2 = bc := by
  rcases h with h | ⟨position, numBytes, rfl⟩
  · cases c with
    | claimMemory position numBytes =>
      rw [call] at h ⊢
      cases hrun : bc.claimMemory position.toNat numBytes.toNat with
      | ok bc' => rw [hrun] at h; cases h
      | error e => rfl
    | claimHandle index =>
      rw [call] at h ⊢
      cases hrun : bc.claimHandle index.toNat with
      | ok bc' => rw [hrun] at h; cases h
      | error e => rfl
    | isValidRange position numBytes => rfl
  · rfl

theorem granted_in_order (data : UInt64) (numBytes : UInt32) (numHandles : UInt64)
    (cs : List CheckerCall) :
    let (results, bc) := (new data.toNat numBytes.toNat numHandles.toNat).callAll cs
    (∀ e ∈ grantedMemory results, 0 < e.len ∧ data.toNat ≤ e.addr ∧ e.stop ≤ data.toNat +
      numBytes.toNat) ∧
      (grantedMemory results).Pairwise (fun e f => Disjoint e.bytes f.bytes ∧ e.addr < f.addr) ∧
      (∀ i ∈ grantedHandles results, i < numHandles.toNat) ∧
      (grantedHandles results).Pairwise (· < ·) ∧
      ∀ c, (bc.call c).1 = false ∨ (∃ position numBytes, c = .isValidRange position numBytes) →
        (bc.call c).2 = bc := by
  have h := grants_callAll (new data.toNat numBytes.toNat numHandles.toNat) cs
  have hdata := new_dataEnd_le data.toNat numBytes.toNat numHandles.toNat
  have hhandle := new_handleEnd_le data.toNat numBytes.toNat numHandles.toNat
  refine ⟨?_, ?_, ?_, ?_, call_unchanged _⟩
  · intro e he
    obtain ⟨hpos, hend⟩ := h.memoryEnd e he
    exact ⟨hpos, (h.memory.mem he).1, hend.trans hdata⟩
  · have haddr := h.memory.addr_lt fun e he => (h.memoryEnd e he).1
    rw [List.pairwise_map] at haddr
    exact h.memory.pairwise.and haddr
  · intro i hi
    exact (h.handlesEnd i hi).trans_le hhandle
  · have haddr := h.handles.addr_lt fun e he => by
      obtain ⟨i, -, rfl⟩ := List.mem_map.mp he
      exact Nat.one_pos
    rw [List.map_map] at haddr
    exact List.pairwise_map.mp haddr

end BoundsChecker

/-! ### The elements of an array -/

open BoundsChecker

theorem maxNumElements_zero {elem : Kind} (h : elem.size = 0) : maxNumElements elem = 0 := by
  cases elem with
  | number size =>
    rw [maxNumElements, h, Nat.div_zero]
    exact Kind.noConfusion
  | _ => cases h

theorem elementSlot_bytes_subset {elem : Kind} (hb : elem ≠ .bool) {t i n len : ℕ} (hi : i < n)
    (h : headerSize + elem.size * n ≤ len) :
    (elementSlot elem t i).bytes ⊆ Extent.bytes ⟨t, len⟩ := by
  have hmem : elementSlot elem t i ∈ elementSlots elem t n :=
    List.mem_map.mpr ⟨i, List.mem_range.mpr hi, rfl⟩
  obtain ⟨hstart, hstop⟩ := (slotsIn_array hb h).inside _ hmem
  intro b hbyte
  have hbyte : (elementSlot elem t i).addr ≤ b ∧ b < (elementSlot elem t i).addr +
      (elementSlot elem t i).kind.size :=
    hbyte
  rw [Extent.stop] at hstop
  show t ≤ b ∧ b < t + len
  simp only at hstart hstop
  omega

theorem boolSlots_bytes_subset_iff {t n len : ℕ} (hlen : headerSize ≤ len) :
    (∀ i < n, (elementSlot .bool t i).bytes ⊆ Extent.bytes ⟨t, len⟩) ↔
      headerSize + (n + 7) / 8 ≤ len := by
  constructor
  · intro h
    rcases Nat.eq_zero_or_pos n with rfl | hn
    · exact hlen
    · have hlast : t + headerSize + (n - 1) / 8 ∈ (elementSlot .bool t (n - 1)).bytes :=
        ⟨le_rfl, Nat.lt_succ_self _⟩
      have hbyte := (h (n - 1) (by omega) hlast).2
      simp only at hbyte
      omega
  · intro h i hi b hbyte
    have hbyte : t + headerSize + i / 8 ≤ b ∧ b < t + headerSize + i / 8 + 1 := hbyte
    show t ≤ b ∧ b < t + len
    omega

/-- The bytes of all elements are claimed with the array, except for those of too many bools. -/
theorem elements_claimed_iff {Γ : Types} {m : Mem} {fuel : ℕ} {elem : Kind} {count data : ℕ}
    {nullable : Bool} {bc bc' : BoundsChecker} (hdata : data ≠ 0)
    (h : validateObject Γ (validateSlot Γ m fuel) m (.array elem count nullable) data bc =
      .ok bc') :
    bc.claimMemory data (load m data 4) = .ok (bc.claimed data (load m data 4)) ∧
      ((∀ i < load m (data + 4) 4,
        (elementSlot elem data i).bytes ⊆ Extent.bytes ⟨data, load m data 4⟩) ↔
        (elem = .bool → load m (data + 4) 4 + 7 < 2 ^ 32 ∨ headerSize + 2 ^ 29 ≤
        load m data 4)) := by
  simp only [validateObject, hdata, ↓reduceIte] at h
  obtain ⟨bc₁, hheader, -⟩ := bind_eq_ok.mp h
  obtain ⟨hmax, hstorage, -, -, rfl⟩ := validateArrayHeader_eq_ok hheader
  have hclaim : bc.claimMemory data (load m data 4) = .ok (bc.claimed data (load m data 4)) := by
    rw [validateArrayHeader] at hheader
    split_ifs at hheader
    exact hheader
  have hlt : load m (data + 4) 4 < 2 ^ 32 := load_lt m (data + 4) 4
  refine ⟨hclaim, ?_⟩
  by_cases hb : elem = .bool
  · subst hb
    simp only [getStorageSize] at hstorage
    rw [boolSlots_bytes_subset_iff (by omega)]
    simp only [true_implies]
    omega
  · refine iff_of_true (fun i hi => ?_) fun hbool => absurd hbool hb
    rcases Nat.eq_zero_or_pos elem.size with hzero | hpos
    · rw [maxNumElements_zero hzero] at hmax
      omega
    · rw [getStorageSize_eq hb hpos hmax] at hstorage
      exact elementSlot_bytes_subset hb hi hstorage

def holdsNothing : Types where
  struct _ := ⟨[], []⟩
  union _ := ⟨[]⟩

def manyBools : Mem := block 4096 [8, 0, 0, 0, 255, 255, 255, 255]

theorem validate_accepts_manyBools :
    validateObject holdsNothing (validateSlot holdsNothing manyBools 0) manyBools
      (.array .bool 0 false) 4096 (.new 4096 8 0) =
        .ok ⟨4104, 4104, 0, 0, [⟨4096, 8⟩], []⟩ ∧
      0 < load manyBools 4100 4 ∧
      ¬ (elementSlot .bool 4096 0).bytes ⊆ Extent.bytes ⟨4096, load manyBools 4096 4⟩ := by
  refine ⟨by decide +kernel, by decide +kernel, fun h => ?_⟩
  have hbyte : 4104 ∈ (elementSlot .bool 4096 0).bytes := ⟨le_rfl, Nat.lt_succ_self _⟩
  have hlen : load manyBools 4096 4 = 8 := by decide +kernel
  have hlt := (h hbyte).2
  rw [hlen] at hlt
  exact lt_irrefl _ hlt

def twoNumbers : Mem := block 4096 (words [16, 2, 1, 255])

theorem elements_claimed_twoNumbers :
    load twoNumbers (4096 + 4) 4 = 2 ∧ ∀ i < 2,
      (elementSlot (.number 4) 4096 i).bytes ⊆ Extent.bytes ⟨4096, 16⟩ := by
  have hvalid : validateObject holdsNothing (validateSlot holdsNothing twoNumbers 0) twoNumbers
      (.array (.number 4) 0 false) 4096 (.new 4096 16 0) = .ok ⟨4112, 4112, 0, 0, [⟨4096, 16⟩],
        []⟩ := by
    decide +kernel
  have hcount : load twoNumbers (4096 + 4) 4 = 2 := by decide +kernel
  have hlen : load twoNumbers 4096 4 = 16 := by decide +kernel
  have hiff := (elements_claimed_iff (by decide) hvalid).2
  rw [hcount, hlen] at hiff
  exact ⟨hcount, hiff.mpr fun hbool => by cases hbool⟩

end Mojo.CppBindings
