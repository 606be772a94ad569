import Mathlib.Algebra.BigOperators.Ring.List
import Mojo.CBindings.Copy

/-!
# Allocation in the C bindings

`MojomBuffer_Allocate` and `MojomArray_New` on machine integers. A request is rounded up as a
`uint64_t` before it is compared with what is left, so everything that would wrap as a `uint32_t` is
refused. The regions that a buffer hands out are those of a cursor that moves by the rounded sizes.
-/

namespace Mojo.CBindings

open Mojo.Memory

def roundBitsTo8 {w : ℕ} (num : BitVec w) : BitVec w := (num + 7#w) &&& ~~~7#w

structure MojomBuffer where
  buf : BitVec 64
  bufSize : BitVec 32
  numBytesUsed : BitVec 32
deriving DecidableEq, Repr

def MojomBuffer.allocate (b : MojomBuffer) (numBytes : BitVec 32) :
    Option (BitVec 64) × MojomBuffer :=
  let bytesUsed := b.numBytesUsed.setWidth 64
  let size := roundBitsTo8 (numBytes.setWidth 64)
  if b.bufSize.setWidth 64 < bytesUsed + size then (none, b)
  else (some (b.buf + bytesUsed), { b with numBytesUsed := (bytesUsed + size).setWidth 32 })

structure ArrayHeader where
  numBytes : BitVec 32
  numElements : BitVec 32
deriving DecidableEq, Repr

structure Region where
  address : BitVec 64
  header : Option ArrayHeader
deriving DecidableEq, Repr

def MojomBuffer.arrayNew (b : MojomBuffer) (numElements elementByteSize : BitVec 32) :
    Except Fault (Option Region × MojomBuffer) :=
  let numBytes := 8#64 + numElements.setWidth 64 * elementByteSize.setWidth 64
  if 0xffffffff#64 < numBytes then .ok (none, b)
  else
    match b.allocate (numBytes.setWidth 32) with
    | (none, b) => .ok (none, b)
    | (some arr, b) =>
      if arr + roundBitsTo8 numBytes ≠ b.buf + b.numBytesUsed.setWidth 64 then .error .assertion
      else .ok (some ⟨arr, some ⟨roundBitsTo8 (numBytes.setWidth 32), numElements⟩⟩, b)

inductive Request
  | allocate (numBytes : BitVec 32)
  | arrayNew (numElements elementByteSize : BitVec 32)

def Request.size : Request → ℕ
  | .allocate numBytes => numBytes.toNat
  | .arrayNew numElements elementByteSize => 8 + numElements.toNat * elementByteSize.toNat

def MojomBuffer.serve (b : MojomBuffer) : Request → Except Fault (Option Region × MojomBuffer)
  | .allocate numBytes =>
    .ok ((b.allocate numBytes).1.map fun address => ⟨address, none⟩, (b.allocate numBytes).2)
  | .arrayNew numElements elementByteSize => b.arrayNew numElements elementByteSize

def MojomBuffer.serveAll : MojomBuffer → List Request →
    Except Fault (List (Request × Option Region) × MojomBuffer)
  | b, [] => .ok ([], b)
  | b, request :: requests => do
    let (result, b) ← b.serve request
    let (log, b) ← b.serveAll requests
    .ok ((request, result) :: log, b)

/-! ### Rounding -/

theorem toNat_and_not_seven {w : ℕ} (x : BitVec w) : (x &&& ~~~7#w).toNat = x.toNat / 8 * 8 := by
  have hmask : x &&& ~~~7#w = (x >>> 3) <<< 3 := by
    ext i hi
    have h7 : (7#w).getLsbD i = decide (i < 3) := by
      rw [BitVec.getLsbD_ofNat, show 7 = 2 ^ 3 - 1 from rfl, Nat.testBit_two_pow_sub_one]
      simp [hi]
    rw [BitVec.getElem_and, BitVec.getElem_not, BitVec.getElem_shiftLeft,
      ← BitVec.getLsbD_eq_getElem, ← BitVec.getLsbD_eq_getElem, h7]
    by_cases h : i < 3
    · simp [h]
    · simp [h, show 3 + (i - 3) = i by omega]
  rw [hmask, BitVec.toNat_shiftLeft, BitVec.toNat_ushiftRight, Nat.shiftLeft_eq,
    Nat.shiftRight_eq_div_pow]
  refine Nat.mod_eq_of_lt ?_
  have := x.isLt
  omega

theorem toNat_roundBitsTo8 {w : ℕ} {num : BitVec w} (hw : 7 < 2 ^ w) (h : num.toNat + 7 < 2 ^ w) :
    (roundBitsTo8 num).toNat = roundTo8 num.toNat := by
  rw [roundBitsTo8, toNat_and_not_seven, BitVec.toNat_add, BitVec.toNat_ofNat, Nat.mod_eq_of_lt hw,
    Nat.mod_eq_of_lt h]
  rfl

theorem toNat_roundBitsTo8_setWidth (numBytes : BitVec 32) :
    (roundBitsTo8 (numBytes.setWidth 64)).toNat = roundTo8 numBytes.toNat := by
  have hlt := numBytes.isLt
  have hwide : (numBytes.setWidth 64).toNat = numBytes.toNat := by
    rw [BitVec.toNat_setWidth, Nat.mod_eq_of_lt (by omega)]
  rw [toNat_roundBitsTo8 (by decide) (by omega), hwide]

/-! ### One call -/

namespace MojomBuffer

def toBuffer (b : MojomBuffer) : Buffer := ⟨b.buf.toNat, b.bufSize.toNat, b.numBytesUsed.toNat⟩

def Holds (b : MojomBuffer) (size : ℕ) : Prop :=
  b.numBytesUsed.toNat + roundTo8 size ≤ b.bufSize.toNat

def take (b : MojomBuffer) (size : ℕ) : MojomBuffer :=
  { b with numBytesUsed := BitVec.ofNat 32 (b.numBytesUsed.toNat + roundTo8 size) }

variable {b : MojomBuffer} {size : ℕ}

theorem Holds.lt (h : b.Holds size) : b.numBytesUsed.toNat + roundTo8 size < 2 ^ 32 :=
  Nat.lt_of_le_of_lt h b.bufSize.isLt

theorem toNat_take (h : b.Holds size) :
    (b.take size).numBytesUsed.toNat = b.numBytesUsed.toNat + roundTo8 size := by
  rw [take, BitVec.toNat_ofNat, Nat.mod_eq_of_lt h.lt]

theorem lt_iff_not_holds (b : MojomBuffer) (numBytes : BitVec 32) :
    b.bufSize.setWidth 64 < b.numBytesUsed.setWidth 64 + roundBitsTo8 (numBytes.setWidth 64) ↔
      ¬ b.Holds numBytes.toNat := by
  have hsize := toNat_roundBitsTo8_setWidth numBytes
  have hround : roundTo8 numBytes.toNat ≤ numBytes.toNat + 7 := Nat.div_mul_le_self _ 8
  have hn := numBytes.isLt
  have hb := b.bufSize.isLt
  have hu := b.numBytesUsed.isLt
  rw [BitVec.lt_def, BitVec.toNat_add, hsize, BitVec.toNat_setWidth, BitVec.toNat_setWidth, Holds,
    Nat.not_le]
  omega

variable {numBytes : BitVec 32}

theorem allocate_of_not_holds (h : ¬ b.Holds numBytes.toNat) :
    b.allocate numBytes = (none, b) := by
  simp only [allocate]
  rw [if_pos ((lt_iff_not_holds b numBytes).mpr h)]

theorem allocate_of_holds (h : b.Holds numBytes.toNat) :
    b.allocate numBytes = (some (b.buf + b.numBytesUsed.setWidth 64), b.take numBytes.toNat) := by
  have hused : (b.numBytesUsed.setWidth 64 + roundBitsTo8 (numBytes.setWidth 64)).setWidth 32 =
      (b.take numBytes.toNat).numBytesUsed := by
    apply BitVec.eq_of_toNat_eq
    have hlt := h.lt
    rw [toNat_take h, BitVec.toNat_setWidth, BitVec.toNat_add, toNat_roundBitsTo8_setWidth,
      BitVec.toNat_setWidth]
    omega
  simp only [allocate]
  rw [if_neg fun hlt => (lt_iff_not_holds b numBytes).mp hlt h, hused]
  rfl

theorem bufferAllocate_toBuffer (b : MojomBuffer) (numBytes : BitVec 32)
    (hbuf : b.buf.toNat + b.bufSize.toNat < 2 ^ 64) :
    bufferAllocate b.toBuffer numBytes.toNat =
      (b.allocate numBytes).1.map fun address =>
        (address.toNat, (b.allocate numBytes).2.toBuffer) := by
  by_cases h : b.Holds numBytes.toNat
  · have hle : b.numBytesUsed.toNat ≤ b.bufSize.toNat := (Nat.le_add_right _ _).trans h
    have haddress : (b.buf + b.numBytesUsed.setWidth 64).toNat = b.buf.toNat +
        b.numBytesUsed.toNat := by
      rw [BitVec.toNat_add, BitVec.toNat_setWidth]
      omega
    rw [allocate_of_holds h, bufferAllocate, toBuffer, if_neg (Nat.not_lt.mpr h), Option.map_some,
      haddress, toBuffer, toNat_take h]
    rfl
  · rw [allocate_of_not_holds h, bufferAllocate, toBuffer, if_pos (Nat.lt_of_not_le h),
      Option.map_none]

end MojomBuffer

theorem toNat_arrayBytes (numElements elementByteSize : BitVec 32) :
    (8#64 + numElements.setWidth 64 * elementByteSize.setWidth 64).toNat =
      (Request.arrayNew numElements elementByteSize).size := by
  have hn := numElements.isLt
  have he := elementByteSize.isLt
  have hmul : numElements.toNat * elementByteSize.toNat ≤ (2 ^ 32 - 1) * (2 ^ 32 - 1) :=
    Nat.mul_le_mul (by omega) (by omega)
  rw [BitVec.toNat_add, BitVec.toNat_mul, BitVec.toNat_setWidth, BitVec.toNat_setWidth,
    BitVec.toNat_ofNat, Nat.mod_eq_of_lt (show numElements.toNat < 2 ^ 64 by omega),
    Nat.mod_eq_of_lt (show elementByteSize.toNat < 2 ^ 64 by omega), Request.size]
  omega

def Request.header : Request → Option ArrayHeader
  | .allocate _ => none
  | .arrayNew numElements elementByteSize =>
    some ⟨BitVec.ofNat 32 (roundTo8 (Request.arrayNew numElements elementByteSize).size),
      numElements⟩

variable {request : Request}

namespace MojomBuffer

variable {b : MojomBuffer}

variable {numElements elementByteSize : BitVec 32}

theorem arrayNew_of_holds
    (h : b.Holds (Request.arrayNew numElements elementByteSize).size) :
    b.arrayNew numElements elementByteSize = .ok (some ⟨b.buf + b.numBytesUsed.setWidth 64,
      (Request.arrayNew numElements elementByteSize).header⟩,
      b.take (Request.arrayNew numElements elementByteSize).size) := by
  have hbytes := toNat_arrayBytes numElements elementByteSize
  set size := (Request.arrayNew numElements elementByteSize).size with hsize
  set numBytes := 8#64 + numElements.setWidth 64 * elementByteSize.setWidth 64 with hnum
  have hle := le_roundTo8 size
  have hlt := h.lt
  -- a multiple of eight below 2³² leaves room for rounding
  have hroom : size + 7 < 2 ^ 32 := by
    have := dvd_roundTo8 size
    omega
  have hnarrow : (numBytes.setWidth 32).toNat = size := by
    rw [BitVec.toNat_setWidth, hbytes, Nat.mod_eq_of_lt (by omega)]
  have hholds : b.Holds (numBytes.setWidth 32).toNat := by rw [hnarrow]; exact h
  have hallocate := allocate_of_holds hholds
  rw [hnarrow] at hallocate
  have hround : (roundBitsTo8 numBytes).toNat = roundTo8 size := by
    rw [toNat_roundBitsTo8 (by decide) (by omega), hbytes]
  have hround' : roundBitsTo8 (numBytes.setWidth 32) = BitVec.ofNat 32 (roundTo8 size) := by
    apply BitVec.eq_of_toNat_eq
    rw [toNat_roundBitsTo8 (by decide) (by omega), hnarrow, BitVec.toNat_ofNat, Nat.mod_eq_of_lt
      (by omega)]
  have hassert : b.buf + b.numBytesUsed.setWidth 64 + roundBitsTo8 numBytes =
      (b.take size).buf + (b.take size).numBytesUsed.setWidth 64 := by
    have hwide : b.numBytesUsed.setWidth 64 + roundBitsTo8 numBytes =
        (b.take size).numBytesUsed.setWidth 64 := by
      apply BitVec.eq_of_toNat_eq
      rw [BitVec.toNat_add, hround, BitVec.toNat_setWidth, BitVec.toNat_setWidth, toNat_take h]
      omega
    rw [BitVec.add_assoc, hwide]
    rfl
  simp only [arrayNew, ← hnum]
  rw [if_neg (by rw [BitVec.lt_def, hbytes, BitVec.toNat_ofNat]; omega), hallocate]
  simp only [hassert, ne_eq, not_true_eq_false, if_false, hround']
  rfl

theorem arrayNew_of_not_holds
    (h : ¬ b.Holds (Request.arrayNew numElements elementByteSize).size) :
    b.arrayNew numElements elementByteSize = .ok (none, b) := by
  have hbytes := toNat_arrayBytes numElements elementByteSize
  simp only [arrayNew]
  by_cases hlarge : 0xffffffff#64 < 8#64 + numElements.setWidth 64 * elementByteSize.setWidth 64
  · rw [if_pos hlarge]
  · rw [if_neg hlarge]
    rw [BitVec.lt_def, hbytes, BitVec.toNat_ofNat] at hlarge
    have hnarrow : ((8#64 + numElements.setWidth 64 * elementByteSize.setWidth 64).setWidth
        32).toNat = (Request.arrayNew numElements elementByteSize).size := by
      rw [BitVec.toNat_setWidth, hbytes, Nat.mod_eq_of_lt (by omega)]
    rw [allocate_of_not_holds (by rw [hnarrow]; exact h)]

theorem serve_of_holds (h : b.Holds request.size) :
    b.serve request = .ok (some ⟨b.buf + b.numBytesUsed.setWidth 64, request.header⟩,
      b.take request.size) := by
  cases request with
  | allocate numBytes => rw [serve, allocate_of_holds h]; rfl
  | arrayNew numElements elementByteSize => exact arrayNew_of_holds h

theorem serve_of_not_holds (h : ¬ b.Holds request.size) : b.serve request = .ok (none, b) := by
  cases request with
  | allocate numBytes => rw [serve, allocate_of_not_holds h]; rfl
  | arrayNew numElements elementByteSize => exact arrayNew_of_not_holds h

end MojomBuffer

/-! ### Sequences of calls -/

def granted (log : List (Request × Option Region)) : List (Request × Region) :=
  log.filterMap fun e => e.2.map (e.1, ·)

/-- The regions of the requests that were granted, as offsets into the buffer. -/
def grantedExtents (used : ℕ) (log : List (Request × Option Region)) : List Extent :=
  stack roundTo8 used ((granted log).map fun g => g.1.size)

structure Served (b : MojomBuffer) (log : List (Request × Option Region)) (b' : MojomBuffer) :
    Prop where
  buf : b'.buf = b.buf
  bufSize : b'.bufSize = b.bufSize
  used : b'.numBytesUsed.toNat = b.numBytesUsed.toNat +
    (((granted log).map fun g => g.1.size).map roundTo8).sum
  inside : b.numBytesUsed.toNat ≤ b.bufSize.toNat → b'.numBytesUsed.toNat ≤ b'.bufSize.toNat
  addresses : (granted log).map (fun g => g.2.address) =
    (grantedExtents b.numBytesUsed.toNat log).map fun e => b.buf + BitVec.ofNat 64 e.addr
  headers : ∀ g ∈ granted log, g.2.header = g.1.header ∧ roundTo8 g.1.size < 2 ^ 32

theorem Served.nil (b : MojomBuffer) : Served b [] b where
  buf := rfl
  bufSize := rfl
  used := rfl
  inside h := h
  addresses := rfl
  headers g hg := by cases hg

variable {b' : MojomBuffer}

variable {b : MojomBuffer}

theorem Served.granted {log : List (Request × Option Region)}
    (hroom : b.Holds request.size) (h : Served (b.take request.size) log b') :
    Served b ((request, some ⟨b.buf + b.numBytesUsed.setWidth 64, request.header⟩) :: log) b' := by
  have hused := MojomBuffer.toNat_take hroom
  have hcons : CBindings.granted
      ((request, some ⟨b.buf + b.numBytesUsed.setWidth 64, request.header⟩) :: log) =
      (request, ⟨b.buf + b.numBytesUsed.setWidth 64, request.header⟩) :: CBindings.granted log :=
        rfl
  have hwide : b.numBytesUsed.setWidth 64 = BitVec.ofNat 64 b.numBytesUsed.toNat := by
    apply BitVec.eq_of_toNat_eq
    rw [BitVec.toNat_setWidth, BitVec.toNat_ofNat]
  have haddresses := h.addresses
  rw [grantedExtents, hused] at haddresses
  constructor
  · exact h.buf
  · exact h.bufSize
  · rw [h.used, hused, hcons]
    simp only [List.map_cons, List.sum_cons, Nat.add_assoc]
  · exact fun _ => h.inside (by rw [hused]; exact hroom)
  · rw [grantedExtents, hcons, List.map_cons, List.map_cons, stack, List.map_cons,
      haddresses, hwide]
    rfl
  · intro g hg
    rw [hcons] at hg
    rcases hg with _ | ⟨_, hg⟩
    · exact ⟨rfl, (Nat.le_add_left _ _).trans_lt hroom.lt⟩
    · exact h.headers g hg

theorem serveAll_served (b : MojomBuffer) (requests : List Request) :
    ∃ log b', b.serveAll requests = .ok (log, b') ∧ log.map Prod.fst = requests ∧
      Served b log b' := by
  induction requests generalizing b with
  | nil => exact ⟨[], b, rfl, rfl, .nil b⟩
  | cons request requests ih =>
    by_cases h : b.Holds request.size
    · obtain ⟨log, b', hrun, hlog, hserved⟩ := ih (b.take request.size)
      refine ⟨_, b', ?_, ?_, hserved.granted h⟩
      · simp [MojomBuffer.serveAll, MojomBuffer.serve_of_holds h, ok_bind, hrun]
      · rw [List.map_cons, hlog]
    · obtain ⟨log, b', hrun, hlog, hserved⟩ := ih b
      refine ⟨(request, none) :: log, b', ?_, ?_, { hserved with }⟩
      · simp [MojomBuffer.serveAll, MojomBuffer.serve_of_not_holds h, ok_bind, hrun]
      · rw [List.map_cons, hlog]

theorem serve_refused (h : b.serve request = .ok (none, b')) : b' = b := by
  by_cases hroom : b.Holds request.size
  · rw [MojomBuffer.serve_of_holds hroom] at h
    cases h
  · rw [MojomBuffer.serve_of_not_holds hroom] at h
    cases h
    rfl

/-- No assertion fails, and the granted requests get consecutive regions of the buffer. -/
theorem serveAll_consecutive (buf : BitVec 64) (bufSize : BitVec 32) (requests : List Request) :
    (∃ log b, MojomBuffer.serveAll ⟨buf, bufSize, 0⟩ requests = .ok (log, b) ∧ log.map Prod.fst =
      requests ∧ b.numBytesUsed.toNat ≤ bufSize.toNat ∧ 8 ∣ b.numBytesUsed.toNat ∧
      (granted log).map (fun g => g.2.address) =
        (grantedExtents 0 log).map (fun e => buf + BitVec.ofNat 64 e.addr) ∧
      ((grantedExtents 0 log).Pairwise fun e f => Disjoint e.bytes f.bytes) ∧
      (∀ e ∈ grantedExtents 0 log, e.stop ≤ b.numBytesUsed.toNat ∧ 8 ∣ e.addr) ∧
      ∀ numElements elementByteSize region, (Request.arrayNew numElements elementByteSize, region) ∈
        granted log → ∃ header, region.header = some header ∧ header.numElements = numElements ∧
          header.numBytes.toNat = roundTo8 (8 + numElements.toNat * elementByteSize.toNat)) ∧
    ∀ b request b', MojomBuffer.serve b request = .ok (none, b') → b' = b := by
  refine ⟨?_, fun b request b' h => serve_refused h⟩
  obtain ⟨log, b, hrun, hlog, hserved⟩ := serveAll_served ⟨buf, bufSize, 0⟩ requests
  have hinside := hserved.inside (Nat.zero_le _)
  have hused := hserved.used
  have hpacked : Packed 0 (grantedExtents 0 log) b.numBytesUsed.toNat := by
    rw [hused]
    exact packed_stack le_roundTo8 0 _
  rw [hserved.bufSize] at hinside
  refine ⟨log, b, hrun, hlog, hinside, ?_, hserved.addresses, hpacked.pairwise, fun e he =>
    ⟨(hpacked.mem he).2,
    stack_aligned (dvd_zero 8) dvd_roundTo8 _ e he⟩,
      fun numElements elementByteSize region hmem => ?_⟩
  · rw [hused]
    refine Nat.dvd_add (dvd_zero 8) (List.dvd_sum fun k hk => ?_)
    obtain ⟨size, -, rfl⟩ := List.mem_map.mp hk
    exact dvd_roundTo8 size
  · obtain ⟨hheader, hlt⟩ := hserved.headers _ hmem
    exact ⟨_, hheader, rfl, by rw [BitVec.toNat_ofNat, Nat.mod_eq_of_lt hlt]; rfl⟩

end Mojo.CBindings
