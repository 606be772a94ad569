import Mojo.GoBindings.Message
import Mojo.RustBindings.MessageHeaders
import Mojo.PythonBindings.Messaging

/-!
# The header of a message as four bindings read it

The C++ bindings validate the header of a message and then read its name, its flags, its request id
and, from the size of the header on, its payload. The Go, Rust and Python bindings have parsers of
their own, which find the payload by the flags. On the headers that the bindings themselves write,
version 0 without flags and version 1 with one of the two flags, all read the same; on all others
that the C++ bindings accept they do not.
-/

namespace Mojo.Message.Readings

open Mojo.Memory

structure Reading where
  name : ℕ
  flags : ℕ
  requestId : Option ℕ
  payload : List UInt8
deriving DecidableEq, Repr

def requestIdOf (flags requestId : ℕ) : Option ℕ :=
  if flags &&& expectsResponse ≠ 0 ∨ flags &&& isResponse ≠ 0 then some requestId else none

section Bytes

variable (bytes : List UInt8)

def cppReading : Reading where
  name := name bytes
  flags := flags bytes
  requestId := requestIdOf (flags bytes) (requestId bytes)
  payload := bytes.drop (numBytes bytes)

def goReading : Option Reading :=
  match GoBindings.parseMessage bytes [] with
  | .ok message => some ⟨message.header.type, message.header.flags,
      requestIdOf message.header.flags message.header.requestId, message.payload⟩
  | .error _ => none

def rustReading : Option Reading :=
  match RustBindings.decodeMessage bytes with
  | .ok (header, payload) =>
    some ⟨header.name, header.flags, requestIdOf header.flags header.requestId, payload⟩
  | .error _ => none

def pythonReading : Option Reading :=
  match PythonBindings.MessageHeader.deserialize bytes with
  | .ok header => some ⟨header.messageType, header.flags, requestIdOf header.flags header.requestId,
      PythonBindings.payload bytes header⟩
  | .error _ => none

end Bytes

structure Accepted (bytes : List UInt8) : Prop where
  inside : numBytes bytes ≤ bytes.length
  size : CppBindings.messageSizeOk (version bytes) (numBytes bytes)
  missing : version bytes = 0 → flags bytes &&& expectsResponse = 0 ∧ flags bytes &&& isResponse = 0
  exclusive : ¬ (flags bytes &&& expectsResponse ≠ 0 ∧ flags bytes &&& isResponse ≠ 0)

theorem accepted_of_validate {base : ℕ} {bytes : List UInt8} (halign : base % 8 = 0)
    (hfit : base + bytes.length < 2 ^ 64)
    (h : (CppBindings.messageHeaderValidatorValidate (block base bytes) base bytes.length).value =
      some (.ok ())) :
    Accepted bytes := by
  obtain ⟨verdict, hverdict, hsame⟩ := value_cpp_header (m := block base bytes) halign hfit
  rw [h] at hverdict
  cases hverdict
  have hnone := hsame.eq_none
  have hfirst : load (block base bytes) base 4 = numBytes bytes := load_block_add base bytes 0 4
  rw [hfirst, load_block_add, load_block_add, headerResult] at hnone
  split_ifs at hnone with h₁ h₂ h₃ h₄
  push Not at h₁ h₃
  exact ⟨h₁.2, h₂, h₃, h₄⟩

section Readers

variable {bytes : List UInt8} (h : Accepted bytes)

include h

theorem Accepted.header : 16 ≤ numBytes bytes := messageSizeOk_ge h.size

theorem Accepted.size_zero (hversion : version bytes = 0) : numBytes bytes = 16 := by
  have := h.size
  rwa [CppBindings.messageSizeOk, if_pos hversion] at this

theorem Accepted.size_one (hversion : version bytes = 1) : numBytes bytes = 24 := by
  have := h.size
  rwa [CppBindings.messageSizeOk, if_neg (by omega), if_pos hversion] at this

section Go

open Mojo.GoBindings

theorem goReading_eq : goReading bytes = if Standard bytes then
    some (cppReading bytes) else none := by
  have hinside := h.inside
  rw [goReading, parseMessage]
  by_cases hs : Standard bytes
  · rw [if_pos hs]
    rcases hs with ⟨hversion, hf⟩ | ⟨hversion, hf⟩
    · have hsize := h.size_zero hversion
      obtain ⟨d, hrun⟩ := decode_zero h.header hinside hsize hversion hf
      have hlen : ¬ bytes.length < 16 := by omega
      simp [hrun, newMessage, MessageHeader.dataSize, hf, messageNoFlag, dataHeaderSize, hlen,
        cppReading, hsize, requestIdOf]
    · have hsize := h.size_one hversion
      obtain ⟨d, hrun⟩ := decode_one h.header hinside hsize hversion hf
      have hlen : ¬ bytes.length < 24 := by omega
      have hflag : flags bytes ≠ 0 := by omega
      simp [hrun, newMessage, MessageHeader.dataSize, hflag, messageNoFlag, dataHeaderSize, hlen,
        cppReading, hsize]
  · rw [if_neg hs]
    cases hrun : MessageHeader.decode (newDecoder bytes []) with
    | ok header d => exact absurd ⟨header, d, hrun⟩ (not_succeeds_decode h.header hinside hs)
    | error failure d => rfl

end Go

section Rust

open Mojo.RustBindings

theorem rustReading_of_reads {header : RustBindings.MessageHeader} (hreads : Reads bytes header)
    (hlen : header.serializedSize ≤ bytes.length) :
    rustReading bytes = some ⟨header.name, header.flags, requestIdOf header.flags header.requestId,
      bytes.drop header.serializedSize⟩ := by
  rw [rustReading, decodeMessage, deserialize_ok_iff.mpr ⟨h.inside, hreads⟩, ok_bind,
    if_neg (not_lt.mpr hlen)]

omit h in
theorem rustReading_of_not (hno : ∀ header, ¬ Reads bytes header) : rustReading bytes = none := by
  rw [rustReading, decodeMessage]
  cases hrun : RustBindings.MessageHeader.deserialize bytes with
  | ok header => exact absurd (deserialize_ok_iff.mp hrun).2 (hno header)
  | error failure => rfl

theorem rustReading_eq : rustReading bytes = if Standard bytes then some (cppReading bytes)
    else if version bytes = 1 ∧ flags bytes = 0 then
      some { cppReading bytes with payload := bytes.drop 16 }
    else none := by
  have hheader := h.header
  have hinside := h.inside
  by_cases hs : Standard bytes
  · rw [if_pos hs]
    rcases hs with ⟨h0, hf⟩ | ⟨h1, hf⟩
    · have hsize := h.size_zero h0
      rw [rustReading_of_reads h (.inl ⟨h0, hf, hsize, rfl⟩)
        (by rw [serializedSize_eq, if_pos rfl]; omega), serializedSize_eq, if_pos rfl,
          cppReading, hsize]
      simp [requestIdOf, hf]
    · have hsize := h.size_one h1
      have hne : flags bytes ≠ 0 := by omega
      rw [rustReading_of_reads h (.inr ⟨h1, by omega, hsize, rfl⟩)
        (by rw [serializedSize_eq, if_neg hne]; omega), serializedSize_eq, if_neg hne,
          cppReading, hsize]
  · rw [if_neg hs]
    by_cases hflag : version bytes = 1 ∧ flags bytes = 0
    · obtain ⟨h1, hf⟩ := hflag
      rw [if_pos ⟨h1, hf⟩, rustReading_of_reads h (.inr ⟨h1, by omega, h.size_one h1, rfl⟩)
        (by rw [serializedSize_eq, if_pos hf]; omega), serializedSize_eq, if_pos hf]
      rfl
    · rw [if_neg hflag]
      refine rustReading_of_not fun header => ?_
      rintro (⟨h0, hf, -, -⟩ | ⟨h1, hf, -, -⟩)
      · exact hs (.inl ⟨h0, hf⟩)
      · rw [Standard] at hs
        omega

end Rust

section Python

theorem Accepted.size_of_requestId (hid : PythonBindings.hasRequestId (flags bytes)) :
    ¬ version bytes < 1 ∧ 24 ≤ numBytes bytes := by
  have hflag := (PythonBindings.hasRequestId_iff _).mp hid
  have hversion : ¬ version bytes < 1 := by
    intro hlt
    obtain ⟨h₁, h₂⟩ := h.missing (by omega)
    exact hflag.elim (fun hne => hne h₁) fun hne => hne h₂
  have hok := h.size
  rw [CppBindings.messageSizeOk, messageWithRequestIdSize, if_neg (by omega)] at hok
  refine ⟨hversion, ?_⟩
  split_ifs at hok <;> omega

theorem pythonDeserialize_eq : PythonBindings.MessageHeader.deserialize bytes =
    .ok ⟨name bytes, flags bytes, if PythonBindings.hasRequestId (flags bytes) then
      requestId bytes else 0⟩ := by
  have hheader := h.header
  have hinside := h.inside
  have hlen : ¬ bytes.length < PythonBindings.simpleMessageSize := by
    rw [PythonBindings.simpleMessageSize]
    omega
  rw [PythonBindings.MessageHeader.deserialize, if_neg hlen]
  by_cases hid : PythonBindings.hasRequestId (flags bytes) = true
  · obtain ⟨hversion, hsize⟩ := h.size_of_requestId hid
    have hroom : ¬ (numBytes bytes < PythonBindings.messageWithRequestIdSize ∨
        bytes.length < PythonBindings.messageWithRequestIdSize) := by
      rw [PythonBindings.messageWithRequestIdSize]
      omega
    rw [if_pos hid]
    refine (if_pos hid).trans ((if_neg hversion).trans ((if_neg hroom).trans ?_))
    rfl
  · rw [if_neg hid]
    exact if_neg hid

theorem pythonReading_eq : pythonReading bytes =
    some { cppReading bytes with
      payload := bytes.drop (if PythonBindings.hasRequestId (flags bytes) then 24 else 16) } := by
  rw [pythonReading, pythonDeserialize_eq h]
  simp only [PythonBindings.payload, PythonBindings.MessageHeader.size, cppReading]
  by_cases hid : PythonBindings.hasRequestId (flags bytes) = true
  · simp only [hid, if_true]
    rfl
  · have hno := mt (PythonBindings.hasRequestId_iff _).mpr hid
    simp only [hid, requestIdOf, hno]
    rfl

end Python

omit h in
theorem header_readings_agree_iff {base : ℕ} (halign : base % 8 = 0)
    (hfit : base + bytes.length < 2 ^ 64)
    (h : (CppBindings.messageHeaderValidatorValidate (block base bytes) base bytes.length).value =
      some (.ok ())) :
    goReading bytes = some (cppReading bytes) ∧ rustReading bytes = some (cppReading bytes) ∧
        pythonReading bytes = some (cppReading bytes) ↔
      version bytes = 0 ∧ flags bytes = 0 ∨ version bytes = 1 ∧
        (flags bytes = 1 ∨ flags bytes = 2) := by
  have hacc := accepted_of_validate halign hfit h
  rw [goReading_eq hacc, rustReading_eq hacc, pythonReading_eq hacc]
  constructor
  · rintro ⟨hgo, -, -⟩
    by_contra hs
    rw [if_neg (show ¬ Standard bytes from hs)] at hgo
    cases hgo
  · intro hs
    have hstandard : Standard bytes := hs
    rw [if_pos hstandard, if_pos hstandard]
    refine ⟨rfl, rfl, ?_⟩
    have hsize : numBytes bytes = if PythonBindings.hasRequestId (flags bytes) then 24 else 16 := by
      rcases hs with ⟨hversion, hf⟩ | ⟨hversion, hf | hf⟩
      · rw [hf]
        exact hacc.size_zero hversion
      · rw [hf]
        exact hacc.size_one hversion
      · rw [hf]
        exact hacc.size_one hversion
    rw [← hsize]
    rfl

end Readers

/-- Version 2 with a response, version 1 without flags, and version 0 with a flag that nothing
defines. -/
def newerResponse : List UInt8 :=
  words [24, 2, 5, 2, 9, 0]

def unknownFlag : List UInt8 := words [16, 0, 5, 4]

theorem header_readings_differ :
    ((CppBindings.messageHeaderValidatorValidate (block 64 newerResponse) 64 24).value =
      some (.ok ()) ∧ goReading newerResponse = none ∧ rustReading newerResponse = none) ∧
    ((CppBindings.messageHeaderValidatorValidate (block 64 unflagged) 64 24).value = some (.ok ()) ∧
      goReading unflagged = none ∧ rustReading unflagged ≠ some (cppReading unflagged) ∧
      pythonReading unflagged ≠ some (cppReading unflagged)) ∧
    ((CppBindings.messageHeaderValidatorValidate (block 64 unknownFlag) 64 16).value =
      some (.ok ()) ∧ goReading unknownFlag = none ∧ rustReading unknownFlag = none) := by
  decide +kernel

theorem header_readings_agree_request :
    (CppBindings.messageHeaderValidatorValidate (block 64 request) 64 24).value = some (.ok ()) ∧
    goReading request = some (cppReading request) ∧ rustReading request =
      some (cppReading request) ∧ pythonReading request = some (cppReading request) := by
  have h : (CppBindings.messageHeaderValidatorValidate (block 64 request) 64 24).value =
      some (.ok ()) := by
    decide +kernel
  exact ⟨h, (header_readings_agree_iff (by decide) (by decide) h).mpr (by decide +kernel)⟩

end Mojo.Message.Readings
