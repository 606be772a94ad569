import Mojo.System.Triples
import Mojo.System.Search
import Mojo.Memory.Bytes

/-!
# Decoding in the Go bindings

A `Decoder` claims the bytes of a buffer in increasing order. It keeps a stack of states, one for
every object that is being decoded, that read their object at a cursor of bytes and bits. Generated
code reads the header of a struct first and looks its version up with `sort.Search`.

The integers of the decoder are `int` values of 64 bits, which do not overflow here: sizes in
messages have 32 bits. An index that is out of range is a panic.
-/

namespace Mojo.GoBindings

open Mojo.Memory Mojo.System

inductive ErrorCode
  | differentSizedArraysInMap
  | illegalHandle
  | illegalMemoryRange
  | illegalPointer
  | messageHeaderInvalidFlags
  | messageHeaderMissingRequestId
  | messageHeaderUnknownMethod
  | misalignedObject
  | unexpectedArrayHeader
  | unexpectedInvalidHandle
  | unexpectedNullPointer
  | unexpectedNullUnion
  | unexpectedStructHeader
deriving DecidableEq, Repr

inductive Failure
  | validation (errorCode : ErrorCode) (message : String)
  | errorf (message : String)
  | panic
deriving DecidableEq, Repr

structure DataHeader where
  size : ℕ
  elementsOrVersion : ℕ
deriving DecidableEq, Repr

def dataHeaderSize : ℕ := 8

def align (size alignment : ℕ) : ℕ :=
  if size = 0 then 0 else ((size - 1) ||| (alignment - 1)) + 1

def bytesForBits (bits : ℕ) : ℕ := (bits + 7) / 8

structure EncodingState where
  offset : ℕ
  bitOffset : ℕ
  limit : ℕ
  elements : ℕ
  elementsProcessed : ℕ
  checkElements : Bool
deriving DecidableEq, Repr

def EncodingState.alignOffsetToBytes (s : EncodingState) : EncodingState :=
  if 0 < s.bitOffset then { s with offset := s.offset + 1, bitOffset := 0 } else s

def EncodingState.skipBytes (s : EncodingState) (count : ℕ) : EncodingState :=
  { s with bitOffset := 0, offset := s.offset + count }

structure Decoder where
  buf : List UInt8
  stop : ℕ
  handles : List ℕ
  nextHandle : ℕ
  stateStack : List EncodingState
deriving DecidableEq, Repr

def newDecoder (bytes : List UInt8) (handles : List ℕ) : Decoder where
  buf := bytes
  stop := 0
  handles := handles
  nextHandle := 0
  stateStack := []

abbrev Decoding := EStateM Failure Decoder

def errorIf (c : Prop) [Decidable c] (failure : Failure) : Decoding Unit :=
  if c then throw failure else pure ()

def littleEndian (numBytes offset : ℕ) : Decoding ℕ := do
  let d ← get
  errorIf (d.buf.length < offset + numBytes) .panic
  pure (load (block 0 d.buf) offset numBytes)

def claimData (size : ℕ) : Decoding Unit := do
  let d ← get
  errorIf (d.buf.length < d.stop + size)
    (.validation .illegalMemoryRange "data buffer is too small")
  modify fun d => { d with stop := d.stop + size }

def popState : Decoding Unit := modify fun d => { d with stateStack := d.stateStack.tail }

def pushState (header : DataHeader) (checkElements : Bool) : Decoding Unit := do
  let d ← get
  claimData ((header.size + 2 ^ 32 - dataHeaderSize) % 2 ^ 32)
  modify fun d' => { d' with
    stateStack :=
      { offset := d.stop
        bitOffset := 0
        limit := d'.stop
        elements := if checkElements then header.elementsOrVersion else 0
        elementsProcessed := 0
        checkElements := checkElements } :: d'.stateStack }

def readDataHeader : Decoding DataHeader := do
  claimData dataHeaderSize
  let d ← get
  let size ← littleEndian 4 (d.stop - dataHeaderSize)
  let elementsOrVersion ← littleEndian 4 (d.stop - dataHeaderSize + 4)
  pure ⟨size, elementsOrVersion⟩

def startStruct : Decoding DataHeader := do
  let header ← readDataHeader
  errorIf (header.size < dataHeaderSize) (.validation .unexpectedStructHeader
    ("data header size(" ++ toString header.size ++ ") should be at least " ++
      toString dataHeaderSize))
  pushState header false
  pure header

def finish : Decoding Unit := do
  let d ← get
  match d.stateStack with
  | [] => throw (.errorf "state stack is empty")
  | s :: _ =>
    errorIf (s.checkElements = true ∧ s.elementsProcessed ≠ s.elements) (.errorf
      ("unexpected number of elements read: defined in header " ++ toString s.elements ++
        ", but read " ++ toString s.elementsProcessed))
    popState

def EncodingState.ensureElementBitSizeAndCapacity (s : EncodingState) (bitSize : ℕ) :
    Except Failure Unit :=
  let byteSize := bytesForBits (s.bitOffset + bitSize)
  if s.checkElements = true ∧ s.elements ≤ s.elementsProcessed then .error (.errorf
    ("can't process more than elements defined in header(" ++ toString s.elements ++ ")"))
  else if s.limit < align (s.offset + byteSize) byteSize then
    .error (.errorf "buffer size limit exceeded")
  else .ok ()

def ensureElementBitSizeAndCapacity (bitSize : ℕ) : Decoding EncodingState := do
  let d ← get
  match d.stateStack with
  | [] => throw (.errorf "empty state stack")
  | s :: _ =>
    match s.ensureElementBitSizeAndCapacity bitSize with
    | .error failure => throw failure
    | .ok _ => pure s

def readUint (numBytes : ℕ) : Decoding ℕ := do
  let s ← ensureElementBitSizeAndCapacity (8 * numBytes)
  let s := s.alignOffsetToBytes
  let s := { s with offset := align s.offset numBytes }
  let value ← littleEndian numBytes s.offset
  let s := { s.skipBytes numBytes with elementsProcessed := (s.elementsProcessed + 1) % 2 ^ 32 }
  modify fun d => { d with stateStack := s :: d.stateStack.tail }
  pure value

def readUint32 : Decoding ℕ := readUint 4

def readUint64 : Decoding ℕ := readUint 8

/-- The size of the header is compared with that of the version at the index, or the version before
it. -/
def checkVersion (versions : List DataHeader) (header : DataHeader) (index : ℕ) : Decoding Unit :=
  if index < versions.length then do
    let version := (versions.getD index ⟨0, 0⟩).elementsOrVersion
    -- An index of -1 is out of range.
    errorIf (header.elementsOrVersion < version ∧ index = 0) .panic
    let index := if header.elementsOrVersion < version then index - 1 else index
    let expectedSize := (versions.getD index ⟨0, 0⟩).size
    errorIf (expectedSize ≠ header.size) (.validation .unexpectedStructHeader
      ("invalid struct header size: should be " ++ toString expectedSize ++ ", but was " ++
        toString header.size))
  else pure ()

def decodeStructHeader (versions : List DataHeader) : Decoding DataHeader := do
  let header ← startStruct
  checkVersion versions header
    (search versions.length fun i => header.elementsOrVersion ≤
      (versions.getD i ⟨0, 0⟩).elementsOrVersion)
  pure header

section Runs

variable {d : Decoder} {size : ℕ}

theorem errorIf_ok {c : Prop} [Decidable c] (h : ¬ c) (failure : Failure) (d : Decoder) :
    errorIf c failure d = .ok () d := by
  rw [errorIf, if_neg h]
  rfl

theorem errorIf_error {c : Prop} [Decidable c] (h : c) (failure : Failure) (d : Decoder) :
    errorIf c failure d = .error failure d := by
  rw [errorIf, if_pos h]
  rfl

theorem succeeds_errorIf {c : Prop} [Decidable c] {failure : Failure} :
    Succeeds (errorIf c failure) d ↔ ¬ c := by
  by_cases h : c <;> simp [Succeeds, errorIf_error, errorIf_ok, h]

theorem succeeds_errorIf_bind {α : Type} {c : Prop} [Decidable c] {failure : Failure}
    {f : Unit → Decoding α} :
    Succeeds (errorIf c failure >>= f) d ↔ ¬ c ∧ Succeeds (f ()) d := by
  by_cases h : c
  · constructor
    · intro hf
      exact absurd hf.of_bind (not_succeeds_of_error (errorIf_error h _ d))
    · rintro ⟨hno, -⟩
      exact absurd h hno
  · rw [succeeds_bind_of_ok (errorIf_ok h _ d)]
    simp [h]

theorem littleEndian_ok {numBytes offset : ℕ} (h : offset + numBytes ≤ d.buf.length) :
    littleEndian numBytes offset d = .ok (load (block 0 d.buf) offset numBytes) d :=
  bind_of_ok (x := get) rfl |>.trans (bind_of_ok (errorIf_ok (not_lt.mpr h) _ d))

theorem claimData_ok (h : d.stop + size ≤ d.buf.length) :
    claimData size d = .ok () { d with stop := d.stop + size } :=
  bind_of_ok (x := get) rfl |>.trans (bind_of_ok (errorIf_ok (not_lt.mpr h) _ d))

theorem pushState_ok {header : DataHeader} {checkElements : Bool}
    (hheader : dataHeaderSize ≤ header.size)
    (hsize : header.size < 2 ^ 32) (h : d.stop + (header.size - dataHeaderSize) ≤ d.buf.length) :
    pushState header checkElements d = .ok () { d with
      stop := d.stop + (header.size - dataHeaderSize)
      stateStack :=
        { offset := d.stop
          bitOffset := 0
          limit := d.stop + (header.size - dataHeaderSize)
          elements := if checkElements then header.elementsOrVersion else 0
          elementsProcessed := 0
          checkElements := checkElements } :: d.stateStack } := by
  have hwrap : (header.size + 2 ^ 32 - dataHeaderSize) % 2 ^ 32 = header.size - dataHeaderSize := by
    rw [show header.size + 2 ^ 32 - dataHeaderSize = header.size - dataHeaderSize + 2 ^ 32 by omega,
      Nat.add_mod_right, Nat.mod_eq_of_lt (by omega)]
  refine (bind_of_ok (x := get) rfl).trans ?_
  rw [hwrap]
  exact bind_of_ok (claimData_ok h)

def Decoder.header (d : Decoder) : DataHeader :=
  ⟨load (block 0 d.buf) d.stop 4, load (block 0 d.buf) (d.stop + 4) 4⟩

theorem readDataHeader_ok (h : d.stop + dataHeaderSize ≤ d.buf.length) :
    readDataHeader d = .ok d.header { d with stop := d.stop + dataHeaderSize } := by
  have hsub : d.stop + dataHeaderSize - dataHeaderSize = d.stop := Nat.add_sub_cancel _ _
  have hroom : d.stop + 8 ≤ d.buf.length := h
  refine (bind_of_ok (claimData_ok h)).trans ((bind_of_ok (x := get) rfl).trans ?_)
  simp only [hsub]
  exact (bind_of_ok (littleEndian_ok (by simp only; omega))).trans
    (bind_of_ok (littleEndian_ok (by simp only; omega)))

def Decoder.entered (d : Decoder) : Decoder :=
  { d with
    stop := d.stop + d.header.size
    stateStack :=
      { offset := d.stop + dataHeaderSize
        bitOffset := 0
        limit := d.stop + d.header.size
        elements := 0
        elementsProcessed := 0
        checkElements := false } :: d.stateStack }

theorem startStruct_ok (hheader : dataHeaderSize ≤ d.header.size)
    (h : d.stop + d.header.size ≤ d.buf.length) :
    startStruct d = .ok d.header d.entered := by
  have hlt : d.header.size < 2 ^ 32 := load_lt _ _ 4
  refine (bind_of_ok (readDataHeader_ok (by omega))).trans
    ((bind_of_ok (errorIf_ok (not_lt.mpr hheader) _ _)).trans ?_)
  have hsum : d.stop + dataHeaderSize + (d.header.size - dataHeaderSize) = d.stop +
      d.header.size := by omega
  refine (bind_of_ok (pushState_ok hheader hlt (by simp only; omega))).trans ?_
  simp only [hsum]
  rfl

theorem align_of_dvd {k a : ℕ} (h : a % 2 ^ k = 0) : align a (2 ^ k) = a := by
  rw [align]
  by_cases h0 : a = 0
  · rw [if_pos h0, h0]
  have hpos := Nat.two_pow_pos k
  obtain ⟨q, rfl⟩ := Nat.dvd_of_mod_eq_zero h
  have hq : q ≠ 0 := fun hq => h0 (by rw [hq, Nat.mul_zero])
  -- The low bits of the last byte before an aligned offset are set.
  have hsplit : 2 ^ k * q - 1 = 2 ^ k * (q - 1) + (2 ^ k - 1) := by
    obtain ⟨p, rfl⟩ := Nat.exists_eq_succ_of_ne_zero hq
    rw [Nat.succ_eq_add_one, Nat.mul_add, Nat.add_sub_cancel]
    omega
  have hor : (2 ^ k * q - 1) ||| (2 ^ k - 1) = 2 ^ k * q - 1 := by
    refine Nat.eq_of_testBit_eq fun i => ?_
    rw [Nat.testBit_or, hsplit, Nat.testBit_two_pow_mul_add _ (by omega),
      Nat.testBit_two_pow_sub_one]
    by_cases hi : i < k <;> simp [hi]
  rw [if_neg h0, hor]
  omega

theorem readUint_ok {s : EncodingState} {rest : List EncodingState} {k : ℕ}
    (hstack : d.stateStack = s :: rest)
    (hcheck : s.checkElements = false) (hbit : s.bitOffset = 0) (halign : s.offset % 2 ^ k = 0)
    (hlimit : s.offset + 2 ^ k ≤ s.limit) (hbuf : s.limit ≤ d.buf.length) :
    readUint (2 ^ k) d = .ok (load (block 0 d.buf) s.offset (2 ^ k)) { d with
      stateStack :=
        { s with
          bitOffset := 0
          offset := s.offset + 2 ^ k
          elementsProcessed := (s.elementsProcessed + 1) % 2 ^ 32 } :: rest } := by
  have hbytes : bytesForBits (s.bitOffset + 8 * 2 ^ k) = 2 ^ k := by
    rw [bytesForBits, hbit]
    omega
  have hroom : align (s.offset + 2 ^ k) (2 ^ k) = s.offset + 2 ^ k :=
    align_of_dvd (by rw [Nat.add_mod_right, halign])
  have hensure : ensureElementBitSizeAndCapacity (8 * 2 ^ k) d = .ok s d := by
    refine (bind_of_ok (x := get) rfl).trans ?_
    simp only [hstack, EncodingState.ensureElementBitSizeAndCapacity, hbytes, hroom]
    rw [if_neg (by simp [hcheck]), if_neg hlimit.not_gt]
    rfl
  have hcursor : s.alignOffsetToBytes = s := by
    rw [EncodingState.alignOffsetToBytes, if_neg (by omega)]
  refine (bind_of_ok hensure).trans ?_
  simp only [hcursor, align_of_dvd halign]
  have htail : d.stateStack.tail = rest := by rw [hstack, List.tail_cons]
  rw [← htail]
  exact bind_of_ok (littleEndian_ok (by omega))

theorem not_succeeds_startStruct (h : d.stop + dataHeaderSize ≤ d.buf.length)
    (hheader : d.header.size < dataHeaderSize) :
    ¬ Succeeds startStruct d := by
  rw [startStruct, succeeds_bind_of_ok (readDataHeader_ok h), succeeds_errorIf_bind]
  exact fun hstart => hstart.1 hheader

theorem succeeds_checkVersion {versions : List DataHeader} {header : DataHeader} {index : ℕ} :
    Succeeds (checkVersion versions header index) d ↔ (index < versions.length →
      ¬ (header.elementsOrVersion < (versions.getD index ⟨0, 0⟩).elementsOrVersion ∧ index = 0) ∧
      (versions.getD (if header.elementsOrVersion < (versions.getD index ⟨0, 0⟩).elementsOrVersion
        then index - 1 else index) ⟨0, 0⟩).size = header.size) := by
  rw [checkVersion]
  by_cases hindex : index < versions.length
  · rw [if_pos hindex, succeeds_errorIf_bind, succeeds_errorIf, not_not]
    simp [hindex]
  · rw [if_neg hindex]
    simp only [hindex, false_imp_iff, iff_true]
    exact succeeds_pure () d

end Runs

end Mojo.GoBindings
