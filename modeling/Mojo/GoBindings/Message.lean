import Mojo.Message.Header
import Mojo.GoBindings.Decoder

/-!
# The message header of the Go bindings

The header is decoded like a struct, but its version, its size and its flags have to be one of the
two combinations that the bindings write. The payload is behind the fields that the flags promise.
-/

namespace Mojo.GoBindings

open Mojo.Memory Mojo.Message

structure MessageHeader where
  type : ℕ
  flags : ℕ
  requestId : ℕ
deriving DecidableEq, Repr

def messageNoFlag : ℕ := 0

def messageExpectsResponseFlag : ℕ := 1

def messageIsResponseFlag : ℕ := 2

def MessageHeader.decode : Decoding MessageHeader := do
  let header ← startStruct
  let version := header.elementsOrVersion
  errorIf (1 < version) (.validation .unexpectedStructHeader
    ("invalid message header: it should be of version 0 or 1, but has " ++ toString version))
  let expectedSize := if version = 1 then dataHeaderSize + 2 * 4 + 8 else dataHeaderSize + 2 * 4
  errorIf (expectedSize ≠ header.size) (.validation .unexpectedStructHeader
    ("unexpected struct header size: expected " ++ toString expectedSize ++ ", but got " ++
      toString header.size))
  let type ← readUint32
  let flags ← readUint32
  if version = 1 then do
    errorIf (flags ≠ messageExpectsResponseFlag ∧ flags ≠ messageIsResponseFlag)
      (.validation .messageHeaderInvalidFlags
      ("message header flags(" ++ toString flags ++
        ") should be MessageExpectsResponseFlag or MessageIsResponseFlag"))
    let requestId ← readUint64
    finish
    pure ⟨type, flags, requestId⟩
  else do
    errorIf (flags ≠ messageNoFlag)
      (.validation .messageHeaderMissingRequestId "missing request ID in message header")
    finish
    pure ⟨type, flags, 0⟩

def MessageHeader.dataSize (h : MessageHeader) : ℕ :=
  if h.flags ≠ messageNoFlag then 2 * 4 + 8 else 2 * 4

structure Message where
  header : MessageHeader
  bytes : List UInt8
  handles : List ℕ
  payload : List UInt8
deriving DecidableEq, Repr

def newMessage (header : MessageHeader) (bytes : List UInt8) (handles : List ℕ) :
    Except Failure Message :=
  if bytes.length < header.dataSize + dataHeaderSize then .error .panic
  else .ok ⟨header, bytes, handles, bytes.drop (header.dataSize + dataHeaderSize)⟩

def parseMessage (bytes : List UInt8) (handles : List ℕ) : Except Failure Message :=
  match MessageHeader.decode (newDecoder bytes []) with
  | .ok header _ => newMessage header bytes handles
  | .error failure _ => .error failure

section

variable {bytes : List UInt8} (hheader : 16 ≤ numBytes bytes)
  (hinside : numBytes bytes ≤ bytes.length)

include hheader hinside

def cursorAt (bytes : List UInt8) (offset processed : ℕ) : Decoder where
  buf := bytes
  stop := numBytes bytes
  handles := []
  nextHandle := 0
  stateStack := [⟨offset, 0, numBytes bytes, 0, processed, false⟩]

theorem startStruct_header :
    startStruct (newDecoder bytes []) =
      .ok ⟨numBytes bytes, version bytes⟩ (cursorAt bytes 8 0) := by
  have hsize : (newDecoder bytes []).header.size = numBytes bytes := rfl
  have hentered : (newDecoder bytes []).entered = cursorAt bytes 8 0 := by
    simp only [Decoder.entered, hsize]
    simp [newDecoder, cursorAt, dataHeaderSize]
  rw [← hentered]
  exact startStruct_ok (by rw [hsize, dataHeaderSize]; omega)
    (by rw [hsize]; simpa [newDecoder] using hinside)

omit hheader in
theorem readUint_cursorAt {k offset processed : ℕ} (halign : offset % 2 ^ k = 0)
    (hlimit : offset + 2 ^ k ≤ numBytes bytes) (hprocessed : processed < 8) :
    readUint (2 ^ k) (cursorAt bytes offset processed) =
      .ok (load (block 0 bytes) offset (2 ^ k))
        (cursorAt bytes (offset + 2 ^ k) (processed + 1)) := by
  have hrun := readUint_ok (d := cursorAt bytes offset processed) rfl rfl rfl halign hlimit hinside
  rw [Nat.mod_eq_of_lt (show processed + 1 < 2 ^ 32 by omega)] at hrun
  exact hrun

theorem readName : readUint32 (cursorAt bytes 8 0) = .ok (name bytes) (cursorAt bytes 12 1) := by
  exact readUint_cursorAt hinside (k := 2) rfl (by omega) (by decide)

theorem readFlags : readUint32 (cursorAt bytes 12 1) = .ok (flags bytes) (cursorAt bytes 16 2) := by
  exact readUint_cursorAt hinside (k := 2) rfl (by omega) (by decide)

omit hheader in
theorem readRequestId (hsize : numBytes bytes = 24) :
    readUint64 (cursorAt bytes 16 2) = .ok (requestId bytes) (cursorAt bytes 24 3) := by
  exact readUint_cursorAt hinside (k := 3) rfl (by omega) (by decide)

omit hheader hinside in
theorem finish_cursorAt (offset processed : ℕ) :
    finish (cursorAt bytes offset processed) =
      .ok () { cursorAt bytes offset processed with stateStack := [] } :=
  (System.bind_of_ok (x := get) rfl).trans (System.bind_of_ok (errorIf_ok (by simp) _ _))

theorem not_succeeds_decode (hs : ¬ Standard bytes) :
    ¬ System.Succeeds MessageHeader.decode (newDecoder bytes []) := by
  rw [MessageHeader.decode, System.succeeds_bind_of_ok (startStruct_header hheader hinside),
    succeeds_errorIf_bind,
    succeeds_errorIf_bind, System.succeeds_bind_of_ok (readName hheader hinside),
      System.succeeds_bind_of_ok (readFlags hheader hinside)]
  rintro ⟨hversion, -, hrun⟩
  by_cases hone : version bytes = 1
  · rw [if_pos hone, succeeds_errorIf_bind] at hrun
    exact hrun.1 ⟨fun hf => hs (.inr ⟨hone, .inl hf⟩), fun hf => hs (.inr ⟨hone, .inr hf⟩)⟩
  · rw [if_neg hone, succeeds_errorIf_bind] at hrun
    simp only at hversion
    exact hrun.1 fun hf => hs (.inl ⟨by omega, hf⟩)

theorem decode_zero (hsize : numBytes bytes = 16) (hversion : version bytes = 0)
    (hf : flags bytes = 0) :
    ∃ d, MessageHeader.decode (newDecoder bytes []) = .ok ⟨name bytes, flags bytes, 0⟩ d := by
  refine ⟨{ cursorAt bytes 16 2 with stateStack := [] },
    (System.bind_of_ok (startStruct_header hheader hinside)).trans ?_⟩
  rw [hversion, hsize]
  refine (System.bind_of_ok (errorIf_ok (by decide) _ _)).trans
    ((System.bind_of_ok (errorIf_ok (by decide) _ _)).trans
    ((System.bind_of_ok (readName hheader hinside)).trans
      ((System.bind_of_ok (readFlags hheader hinside)).trans ?_)))
  rw [if_neg (by decide)]
  exact (System.bind_of_ok (errorIf_ok (not_not.mpr hf) _ _)).trans
    (System.bind_of_ok (finish_cursorAt 16 2))

theorem decode_one (hsize : numBytes bytes = 24) (hversion : version bytes = 1)
    (hf : flags bytes = 1 ∨ flags bytes = 2) :
    ∃ d, MessageHeader.decode (newDecoder bytes []) =
      .ok ⟨name bytes, flags bytes, requestId bytes⟩ d := by
  refine ⟨{ cursorAt bytes 24 3 with stateStack := [] },
    (System.bind_of_ok (startStruct_header hheader hinside)).trans ?_⟩
  rw [hversion, hsize]
  refine (System.bind_of_ok (errorIf_ok (by decide) _ _)).trans
    ((System.bind_of_ok (errorIf_ok (by decide) _ _)).trans
    ((System.bind_of_ok (readName hheader hinside)).trans
      ((System.bind_of_ok (readFlags hheader hinside)).trans ?_)))
  rw [if_pos rfl]
  have hknown : ¬ (flags bytes ≠ messageExpectsResponseFlag ∧
      flags bytes ≠ messageIsResponseFlag) :=
    fun hno => hf.elim hno.1 hno.2
  exact (System.bind_of_ok (errorIf_ok hknown _ _)).trans
    ((System.bind_of_ok (readRequestId hinside hsize)).trans
    (System.bind_of_ok (finish_cursorAt 24 3)))

end

end Mojo.GoBindings
