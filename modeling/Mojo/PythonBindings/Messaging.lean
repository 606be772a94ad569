import Mojo.Message.Header
import Mojo.PythonBindings.Descriptor

/-!
# The message header of the Python bindings

A header is read with two fixed formats, and the flags alone decide which of them it has; the size
and the version only have to be large enough for a request id.
-/

namespace Mojo.PythonBindings

open Mojo.Memory

def messageExpectsResponseFlag : ℕ := 1

def messageIsResponseFlag : ℕ := 2

def hasRequestId (flags : ℕ) : Bool :=
  flags &&& (messageExpectsResponseFlag ||| messageIsResponseFlag) ≠ 0

def simpleMessageSize : ℕ := 16

def messageWithRequestIdSize : ℕ := 24

structure MessageHeader where
  messageType : ℕ
  flags : ℕ
  requestId : ℕ
deriving DecidableEq, Repr

def MessageHeader.deserialize (data : List UInt8) : Except Failure MessageHeader :=
  if data.length < simpleMessageSize then .error (.deserialization "Header is too short.")
  else
    let size := load (block 0 data) 0 4
    let version := load (block 0 data) 4 4
    let messageType := load (block 0 data) 8 4
    let flags := load (block 0 data) 12 4
    if hasRequestId flags then
      if version < 1 then .error (.deserialization "Incorrect version.")
      else if size < messageWithRequestIdSize ∨ data.length < messageWithRequestIdSize then
        .error (.deserialization "Header is too short.")
      else .ok ⟨messageType, flags, load (block 0 data) simpleMessageSize 8⟩
    else .ok ⟨messageType, flags, 0⟩

def MessageHeader.size (h : MessageHeader) : ℕ :=
  if hasRequestId h.flags then messageWithRequestIdSize else simpleMessageSize

def payload (data : List UInt8) (header : MessageHeader) : List UInt8 := data.drop header.size

theorem hasRequestId_iff (flags : ℕ) :
    hasRequestId flags ↔ flags &&& Message.expectsResponse ≠ 0 ∨
      flags &&& Message.isResponse ≠ 0 := by
  rw [hasRequestId, decide_eq_true_eq, Nat.and_or_distrib_left, ne_eq, Nat.or_eq_zero_iff,
    not_and_or]
  exact Iff.rfl

end Mojo.PythonBindings
