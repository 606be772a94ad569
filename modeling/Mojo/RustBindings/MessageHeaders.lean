import Mojo.Message.Header
import Mojo.RustBindings.DecodeMembers

/-!
# The message header of the Rust bindings

The size of a header is computed from its flags, both when it is written and when the payload behind
it is looked for. When a header is read, its size is checked against its version. For version 1
without flags the two differ.
-/

namespace Mojo.RustBindings

open Mojo.Memory Mojo.CppBindings Mojo.Message DecodingState

def messageHeaderNoFlag : ℕ := 0

def messageHeaderExpectResponse : ℕ := 1

def messageHeaderIsResponse : ℕ := 2

def messageHeaderVersions : StructType where
  versions := [⟨0, 16⟩, ⟨1, 24⟩]
  fields := []

structure MessageHeader where
  version : ℕ
  name : ℕ
  flags : ℕ
  requestId : ℕ
deriving DecidableEq, Repr

def MessageHeader.serializedSize (h : MessageHeader) : ℕ :=
  alignDefault
    (if h.flags ≠ messageHeaderNoFlag then dataHeaderSize + 8 + 8 else dataHeaderSize + 8)

def MessageHeader.decodeValue (m : Mem) : DecodingState.Action MessageHeader := fun s => do
  let (version, s) ← decodeStructHeader m messageHeaderVersions s
  let (name, s) ← DecodingState.decode m 4 s
  let (flags, s) ← DecodingState.decode m 4 s
  if messageHeaderIsResponse < flags then .error (.invalid .messageHeaderInvalidFlags)
  else if version = 0 then
    if flags = messageHeaderIsResponse ∨ flags = messageHeaderExpectResponse then
      .error (.invalid .messageHeaderMissingRequestId)
    else .ok (⟨version, name, flags, 0⟩, s)
  else if version = 1 then do
    let (requestId, s) ← DecodingState.decode m 8 s
    .ok (⟨version, name, flags, requestId⟩, s)
  else .error (.invalid .unexpectedStructHeader)

def MessageHeader.deserialize (buffer : List UInt8) : Except Failure MessageHeader := do
  let (context, d) ← (Decoder.new buffer.length []).claim (block 0 buffer) 0
  let (header, _) ← d.update context (MessageHeader.decodeValue (block 0 buffer))
  .ok header

def decodeMessage (buffer : List UInt8) : Except Failure (MessageHeader × List UInt8) := do
  let header ← MessageHeader.deserialize buffer
  if buffer.length < header.serializedSize then .error .panic
  else .ok (header, buffer.drop header.serializedSize)

namespace MessageHeader

structure Typed (h : MessageHeader) : Prop where
  version : h.version < 2 ^ 32
  name : h.name < 2 ^ 32
  flags : h.flags < 2 ^ 32
  requestId : h.requestId < 2 ^ 64

def encodeValue (h : MessageHeader) (context : Context) (e : Encoder) : Except Failure Encoder := do
  let e ← e.update context (EncodingState.encode 4 h.name)
  let e ← e.update context (EncodingState.encode 4 h.flags)
  if h.flags ≠ messageHeaderNoFlag then e.update context (EncodingState.encode 8 h.requestId)
  else .ok e

def encodeNew (h : MessageHeader) (e : Encoder) : Except Failure Encoder := do
  let (newContext, e) ← e.add h.serializedSize h.version
  h.encodeValue newContext e

def autoSerialize (h : MessageHeader) : Except Failure (List UInt8) := do
  let e ← h.encodeNew (.new h.serializedSize)
  .ok ((List.range e.size).map e.mem)

end MessageHeader

theorem serializedSize_eq (header : MessageHeader) :
    header.serializedSize = if header.flags = 0 then 16 else 24 := by
  by_cases hf : header.flags = 0 <;>
    simp [MessageHeader.serializedSize, messageHeaderNoFlag, hf] <;> rfl

/-! ### Reading -/

section Reading

variable {bytes : List UInt8} {header : MessageHeader}

def stateAt (bytes : List UInt8) (offset : ℕ) : DecodingState :=
  .of ⟨0, numBytes bytes, ⟨offset, 0⟩, none⟩

theorem decode_stateAt {n offset : ℕ} (hn : 0 < n) (halign : offset % n = 0)
    (hlimit : offset + n ≤ numBytes bytes) :
    DecodingState.decode (block 0 bytes) n (stateAt bytes offset) =
      .ok (load (block 0 bytes) offset n, stateAt bytes (offset + n)) := by
  have halignUp : Wire.alignUp offset n = offset :=
    Wire.alignUp_of_dvd hn (Nat.dvd_of_mod_eq_zero halign)
  have hrun : DecodingState.decode (block 0 bytes) n (stateAt bytes offset) =
      .ok (load (block 0 bytes) (0 + offset) n, stateAt bytes (offset + n)) :=
    decode_of hn halignUp hlimit
  rwa [Nat.zero_add] at hrun

theorem messageHeaderVersions_newest (version : ℕ) :
    messageHeaderVersions.newest version = some (if version = 0 then ⟨0, 16⟩ else ⟨1, 24⟩) := by
  by_cases h0 : version = 0
  · rw [if_pos h0, h0]
    rfl
  · have hle : 1 ≤ version := by omega
    simp [StructType.newest, messageHeaderVersions, hle, h0]

/-- The size has to be the one of the version, or at least that of the last version before it. -/
theorem decodeStructHeader_eq (bytes : List UInt8) :
    decodeStructHeader (block 0 bytes) messageHeaderVersions (stateAt bytes 0) =
      if messageSizeOk (version bytes) (numBytes bytes) then .ok (version bytes, stateAt bytes 8)
      else .error (.invalid .unexpectedStructHeader) := by
  have hsize : (stateAt bytes 0).size = numBytes bytes := rfl
  have hlast : messageHeaderVersions.last.version = 1 := rfl
  by_cases h8 : numBytes bytes < 8
  · have hno : ¬ messageSizeOk (version bytes) (numBytes bytes) := fun hok => by
      have hge := messageSizeOk_ge hok
      omega
    rw [if_neg hno, decodeStructHeader, hsize]
    by_cases h4 : numBytes bytes < 4
    · rw [if_pos h4]
    · rw [if_neg h4, decode_stateAt (by decide) rfl (by omega), ok_bind]
      exact if_pos h8
  · have hread : ¬ load (block 0 bytes) 0 4 < dataHeaderSize := h8
    have hversion : DecodingState.decode (block 0 bytes) 4 (stateAt bytes 4) =
        .ok (version bytes, stateAt bytes 8) := decode_stateAt (by decide) rfl (by omega)
    rw [decodeStructHeader, hsize, if_neg (by omega),
      decode_stateAt (by decide) rfl (by omega), ok_bind]
    simp only
    rw [if_neg hread, hversion, ok_bind]
    have hread' : load (block 0 bytes) 0 4 = numBytes bytes := rfl
    simp only [messageHeaderVersions_newest, hlast, hread', messageSizeOk, messageSize,
      messageWithRequestIdSize]
    by_cases h0 : version bytes = 0
    · simp [h0]
    · by_cases h1 : version bytes = 1
      · simp [h1]
      · have hnew : 1 < version bytes := by omega
        by_cases h24 : 24 ≤ numBytes bytes
        · simp [h0, h1, Ne.symm h1, hnew, h24]
        · simp [h0, h1, Ne.symm h1, hnew, h24]

/-- What is read from a header: the version decides about the request id, the flags do not. -/
def Reads (bytes : List UInt8) (header : MessageHeader) : Prop :=
  version bytes = 0 ∧ flags bytes = 0 ∧ numBytes bytes = 16 ∧ header = ⟨0, name bytes, 0, 0⟩ ∨
    version bytes = 1 ∧ flags bytes ≤ 2 ∧ numBytes bytes = 24 ∧
      header = ⟨1, name bytes, flags bytes, requestId bytes⟩

theorem decodeValue_ok_iff :
    (∃ s, MessageHeader.decodeValue (block 0 bytes) (stateAt bytes 0) = .ok (header, s)) ↔
      Reads bytes header := by
  by_cases hok : messageSizeOk (version bytes) (numBytes bytes)
  · have hheader := messageSizeOk_ge hok
    have hname : DecodingState.decode (block 0 bytes) 4 (stateAt bytes 8) =
        .ok (name bytes, stateAt bytes 12) := decode_stateAt (by decide) rfl (by omega)
    have hflags : DecodingState.decode (block 0 bytes) 4 (stateAt bytes 12) =
        .ok (flags bytes, stateAt bytes 16) := decode_stateAt (by decide) rfl (by omega)
    rw [MessageHeader.decodeValue, decodeStructHeader_eq, if_pos hok, ok_bind]
    simp only
    rw [hname, ok_bind]
    simp only
    rw [hflags, ok_bind]
    simp only [messageHeaderIsResponse, messageHeaderExpectResponse]
    rw [messageSizeOk, messageSize, messageWithRequestIdSize] at hok
    by_cases h0 : version bytes = 0
    · rw [if_pos h0] at hok
      by_cases hf : flags bytes = 0
      · simp [Reads, h0, hf, hok, eq_comm]
      · simp only [Reads, h0, hf, if_true, false_and, and_false, zero_ne_one, or_false, iff_false]
        rintro ⟨s, h⟩
        split_ifs at h with hinvalid hmissing
        omega
    · rw [if_neg h0] at hok
      by_cases h1 : version bytes = 1
      · rw [if_pos h1] at hok
        have hid : DecodingState.decode (block 0 bytes) 8 (stateAt bytes 16) =
            .ok (requestId bytes, stateAt bytes 24) := decode_stateAt (by decide) rfl (by omega)
        by_cases hf : flags bytes ≤ 2
        · simp [Reads, h1, hf, Nat.not_lt.mpr hf, hok, hid, ok_bind, eq_comm]
        · simp [Reads, h1, hf, Nat.lt_of_not_le hf]
      · simp only [Reads, h0, h1, if_false, false_and, or_false, iff_false]
        rintro ⟨s, h⟩
        split_ifs at h
  · have hno : ¬ Reads bytes header := by
      rintro (⟨hv, -, hn, -⟩ | ⟨hv, -, hn, -⟩) <;> exact hok (by rw [hv, hn]; decide)
    rw [MessageHeader.decodeValue, decodeStructHeader_eq, if_neg hok]
    refine iff_of_false ?_ hno
    rintro ⟨s, h⟩
    cases h

theorem deserialize_ok_iff : MessageHeader.deserialize bytes = .ok header ↔
    numBytes bytes ≤ bytes.length ∧ Reads bytes header := by
  have hsize : load (block 0 bytes) 0 4 = numBytes bytes := rfl
  by_cases hin : 4 ≤ bytes.length ∧ numBytes bytes ≤ bytes.length
  · have hclaim : (Decoder.new bytes.length []).claim (block 0 bytes) 0 = .ok (⟨0, false⟩,
        { Decoder.new bytes.length [] with
          bytes := 0 + numBytes bytes
          states := [stateAt bytes 0] }) := by
      simp only [Decoder.claim, Decoder.new, hsize]
      rw [if_neg (by omega), if_neg (by omega), if_neg (by omega), if_neg (by omega),
        if_neg (by omega)]
      rfl
    rw [MessageHeader.deserialize, hclaim, ok_bind, and_iff_right hin.2, ← decodeValue_ok_iff]
    simp only [Decoder.update, List.getElem?_cons_zero]
    cases MessageHeader.decodeValue (block 0 bytes) (stateAt bytes 0) with
    | ok r => simp [ok_bind, Prod.ext_iff]
    | error e => exact iff_of_false (fun h => by cases h) (by simp)
  · have hno : ¬ (numBytes bytes ≤ bytes.length ∧ Reads bytes header) := by
      rintro ⟨hle, ⟨-, -, hn, -⟩ | ⟨-, -, hn, -⟩⟩ <;> omega
    refine iff_of_false (fun h => ?_) hno
    obtain ⟨r, hclaim, -⟩ := bind_eq_ok.mp h
    simp only [Decoder.claim, Decoder.new, hsize] at hclaim
    split_ifs at hclaim
    omega

end Reading

/-! ### Writing -/

section Writing

variable {h : MessageHeader}

def written (h : MessageHeader) (size : ℕ) : Mem :=
  store (store (store (store (fun _ => 0) 0 4 size) 4 4 (h.version % 2 ^ 32)) 8 4 h.name)
    12 4 h.flags

theorem autoSerialize_unflagged (hf : h.flags = 0) :
    h.autoSerialize = .ok ((List.range 16).map (written h 16)) := by
  have hsize : h.serializedSize = 16 := by rw [serializedSize_eq, if_pos hf]
  have hnone : ¬ h.flags ≠ messageHeaderNoFlag := not_not.mpr hf
  simp only [MessageHeader.autoSerialize, MessageHeader.encodeNew, MessageHeader.encodeValue, hsize,
    if_neg hnone]
  rfl

theorem autoSerialize_flagged (hf : h.flags ≠ 0) :
    h.autoSerialize = .ok ((List.range 24).map (store (written h 24) 16 8 h.requestId)) := by
  have hsize : h.serializedSize = 24 := by rw [serializedSize_eq, if_neg hf]
  have hsome : h.flags ≠ messageHeaderNoFlag := hf
  simp only [MessageHeader.autoSerialize, MessageHeader.encodeNew, MessageHeader.encodeValue, hsize,
    if_pos hsome]
  rfl

theorem load_range {m : Mem} {n a k : ℕ} (h : a + k ≤ n) :
    load (block 0 ((List.range n).map m)) a k = load m a k := by
  refine load_shift fun i hi => ?_
  have hlt : a + i < n := by omega
  simp [block, List.getD_eq_getElem?_getD, hlt]

theorem load_store_before {m : Mem} {a n v b k : ℕ} (h : b + k ≤ a) :
    load (store m a n v) b k = load m b k :=
  load_store_of_disjoint (span_disjoint_of_le h)

theorem load_written (htyped : h.Typed) {size : ℕ} (hsize : size < 2 ^ 32) :
    load (written h size) 0 4 = size ∧ load (written h size) 4 4 = h.version ∧
      load (written h size) 8 4 = h.name ∧ load (written h size) 12 4 = h.flags := by
  have hversion : h.version % 2 ^ 32 = h.version := Nat.mod_eq_of_lt htyped.version
  rw [written, hversion]
  refine ⟨?_, ?_, ?_, ?_⟩
  · rw [load_store_before (by decide), load_store_before (by decide), load_store_before (by decide),
      load_store_of_lt hsize]
  · rw [load_store_before (by decide), load_store_before (by decide), load_store_of_lt
      htyped.version]
  · rw [load_store_before (by decide), load_store_of_lt htyped.name]
  · rw [load_store_of_lt htyped.flags]

theorem fields_unflagged (htyped : h.Typed) (hf : h.flags = 0) :
    ∃ bytes, h.autoSerialize = .ok bytes ∧ bytes.length = 16 ∧ numBytes bytes = 16 ∧ version bytes =
      h.version ∧ name bytes = h.name ∧ flags bytes = 0 := by
  obtain ⟨hnum, hversion, hname, hflags⟩ := load_written htyped (show 16 < 2 ^ 32 by decide)
  refine ⟨_, autoSerialize_unflagged hf, by simp, ?_, ?_, ?_, ?_⟩
  · rw [numBytes, load_range (by decide), hnum]
  · rw [Message.version, load_range (by decide), hversion]
  · rw [Message.name, load_range (by decide), hname]
  · rw [Message.flags, load_range (by decide), hflags, hf]

theorem fields_flagged (htyped : h.Typed) (hf : h.flags ≠ 0) :
    ∃ bytes, h.autoSerialize = .ok bytes ∧ bytes.length = 24 ∧ numBytes bytes = 24 ∧ version bytes =
      h.version ∧ name bytes = h.name ∧ flags bytes = h.flags ∧ requestId bytes = h.requestId := by
  obtain ⟨hnum, hversion, hname, hflags⟩ := load_written htyped (show 24 < 2 ^ 32 by decide)
  refine ⟨_, autoSerialize_flagged hf, by simp, ?_, ?_, ?_, ?_, ?_⟩
  · rw [numBytes, load_range (by decide), load_store_before (by decide), hnum]
  · rw [Message.version, load_range (by decide), load_store_before (by decide), hversion]
  · rw [Message.name, load_range (by decide), load_store_before (by decide), hname]
  · rw [Message.flags, load_range (by decide), load_store_before (by decide), hflags]
  · rw [Message.requestId, load_range (by decide), load_store_of_lt htyped.requestId]

end Writing

theorem deserialize_autoSerialize_iff {h : MessageHeader} (htyped : h.Typed) :
    (∃ bytes, h.autoSerialize = .ok bytes ∧ MessageHeader.deserialize bytes = .ok h) ↔
      h.version = 0 ∧ h.flags = 0 ∧ h.requestId = 0 ∨ h.version = 1 ∧
        (h.flags = 1 ∨ h.flags = 2) := by
  by_cases hf : h.flags = 0
  · obtain ⟨bytes, hrun, hlen, hsize, hversion, hname, hflags⟩ := fields_unflagged htyped hf
    constructor
    · rintro ⟨bytes', hrun', hback⟩
      obtain rfl := Except.ok.inj (hrun.symm.trans hrun')
      rcases (deserialize_ok_iff.mp hback).2 with ⟨h0, -, -, heq⟩ | ⟨-, -, h24, -⟩
      · exact .inl ⟨by rw [← hversion, h0], hf, by rw [heq]⟩
      · omega
    · rintro (⟨h0, -, hid⟩ | ⟨-, hflag⟩)
      · have heq : (⟨0, h.name, 0, 0⟩ : MessageHeader) = h := by
          cases h
          simp only at h0 hf hid
          rw [h0, hf, hid]
        refine ⟨bytes, hrun, deserialize_ok_iff.mpr
          ⟨by omega, .inl ⟨hversion.trans h0, hflags, hsize, ?_⟩⟩⟩
        rw [hname, heq]
      · omega
  · obtain ⟨bytes, hrun, hlen, hsize, hversion, hname, hflags, hid⟩ := fields_flagged htyped hf
    constructor
    · rintro ⟨bytes', hrun', hback⟩
      obtain rfl := Except.ok.inj (hrun.symm.trans hrun')
      rcases (deserialize_ok_iff.mp hback).2 with ⟨-, -, h16, -⟩ | ⟨h1, hle, -, -⟩
      · omega
      · exact .inr ⟨by rw [← hversion, h1], by omega⟩
    · rintro (⟨-, hzero, -⟩ | ⟨h1, hflag⟩)
      · exact absurd hzero hf
      · refine ⟨bytes, hrun, deserialize_ok_iff.mpr ⟨by omega,
          .inr ⟨hversion.trans h1, by omega, hsize, ?_⟩⟩⟩
        rw [hname, hflags, hid, ← h1]

/-- The payload is looked for at the end of the header, and headers survive, except for version 1
without flags; a request id needs a flag, and there are two flags. -/
theorem payload_and_round_trip_iff (bytes : List UInt8) (header h : MessageHeader) :
    (MessageHeader.deserialize bytes = .ok header →
      (header.serializedSize = numBytes bytes ↔ ¬ (header.version = 1 ∧ header.flags = 0))) ∧
    (h.Typed → ((∃ bytes, h.autoSerialize = .ok bytes ∧ MessageHeader.deserialize bytes = .ok h) ↔
        h.version = 0 ∧ h.flags = 0 ∧ h.requestId = 0 ∨ h.version = 1 ∧
        (h.flags = 1 ∨ h.flags = 2))) := by
  refine ⟨fun hread => ?_, deserialize_autoSerialize_iff⟩
  rw [serializedSize_eq]
  rcases (deserialize_ok_iff.mp hread).2 with ⟨-, -, hsize, rfl⟩ | ⟨-, -, hsize, rfl⟩
  · simp [hsize]
  · by_cases hf : flags bytes = 0 <;> simp [hsize, hf]

/-- A header of version 1 without flags is read with a payload that starts in it, and cannot be read
after it was written. -/
theorem version_one_without_flags :
    (∃ header, MessageHeader.deserialize unflagged = .ok header ∧ header.serializedSize = 16 ∧
      numBytes unflagged = 24) ∧
    (MessageHeader.autoSerialize ⟨1, 5, 0, 9⟩).bind MessageHeader.deserialize =
      .error (.invalid .unexpectedStructHeader) := by
  refine ⟨⟨⟨1, 5, 0, 9⟩, by decide +kernel, by decide +kernel, by decide +kernel⟩, by
    decide +kernel⟩

theorem request_round_trip : (∃ bytes, MessageHeader.autoSerialize ⟨1, 5, 1, 9⟩ = .ok bytes ∧
      MessageHeader.deserialize bytes = .ok ⟨1, 5, 1, 9⟩) ∧
    MessageHeader.serializedSize ⟨1, 5, 1, 9⟩ = numBytes request := by
  have hback : MessageHeader.deserialize request = .ok ⟨1, 5, 1, 9⟩ := by decide +kernel
  have hiff := payload_and_round_trip_iff request ⟨1, 5, 1, 9⟩ ⟨1, 5, 1, 9⟩
  exact ⟨(hiff.2 ⟨by decide, by decide, by decide, by decide⟩).mpr (by decide), (hiff.1 hback).mpr
    (by decide)⟩

end Mojo.RustBindings
