import Mojo.CppBindings.Kind
import Mojo.Memory.Extent
import Mojo.Memory.Traced

/-!
# Validation in the C++ bindings

A message is validated before any of it is used. A `BoundsChecker` lets every
byte and every handle be claimed at most once, because it only moves forward.
The checker also records what has been claimed; nothing depends on the record.

The `Validate` functions of the generated classes, of `Array_Data` and of
`Map_Data` follow. The two arrays of a map are validated as array members are.
-/

namespace Mojo.CppBindings

open Mojo.Memory

inductive ValidationError
  | misalignedObject
  | illegalMemoryRange
  | unexpectedStructHeader
  | unexpectedArrayHeader
  | illegalHandle
  | unexpectedInvalidHandle
  | illegalPointer
  | unexpectedNullPointer
  | messageHeaderInvalidFlags
  | messageHeaderMissingRequestId
  | messageHeaderUnknownMethod
  | differentSizedArraysInMap
  | unexpectedNullUnion
deriving DecidableEq, Repr

/-- Why a run ends early: an error that it reports, a crash or a failed check of
the program, or the end of the fuel. -/
inductive Failure
  | invalid (error : ValidationError)
  | crash
  | fuel
deriving DecidableEq, Repr

structure BoundsChecker where
  dataBegin : ℕ
  dataEnd : ℕ
  handleBegin : ℕ
  handleEnd : ℕ
  memory : List Extent
  handles : List ℕ
deriving DecidableEq, Repr

namespace BoundsChecker

def new (data dataNumBytes numHandles : ℕ) : BoundsChecker where
  dataBegin := data
  dataEnd := if wrap64 (data + dataNumBytes) < data then data else wrap64 (data + dataNumBytes)
  handleBegin := 0
  handleEnd := if numHandles % 2 ^ 32 < numHandles then 0 else numHandles % 2 ^ 32
  memory := []
  handles := []

def isValidRange (bc : BoundsChecker) (position numBytes : ℕ) : Prop :=
  position < wrap64 (position + numBytes) ∧ bc.dataBegin ≤ position ∧ wrap64 (position + numBytes) ≤
    bc.dataEnd

instance (bc : BoundsChecker) (position numBytes : ℕ) :
    Decidable (bc.isValidRange position numBytes) := inferInstanceAs (Decidable (_ ∧ _ ∧ _))

def claimMemory (bc : BoundsChecker) (position numBytes : ℕ) : Except Failure BoundsChecker :=
  if bc.isValidRange position numBytes then
    .ok { bc with
      dataBegin := wrap64 (position + numBytes)
      memory := bc.memory ++ [⟨position, numBytes⟩] }
  else
    .error (.invalid .illegalMemoryRange)

def claimHandle (bc : BoundsChecker) (index : ℕ) : Except Failure BoundsChecker :=
  if index = encodedInvalidHandle then .ok bc
  else if index < bc.handleBegin ∨ bc.handleEnd ≤ index then .error (.invalid .illegalHandle)
  else .ok { bc with handleBegin := index + 1, handles := bc.handles ++ [index] }

end BoundsChecker

def validateEncodedPointer (m : Mem) (slot : ℕ) : Prop :=
  load m slot 8 ≤ maxUint32 ∧ slot ≤ wrap64 (slot + load m slot 8)

instance (m : Mem) (slot : ℕ) : Decidable (validateEncodedPointer m slot) :=
  inferInstanceAs (Decidable (_ ∧ _))

def validateStructHeaderAndClaimMemory (m : Mem) (data : ℕ) (bc : BoundsChecker) :
    Except Failure BoundsChecker :=
  if data % 8 ≠ 0 then .error (.invalid .misalignedObject)
  else if ¬ bc.isValidRange data headerSize then .error (.invalid .illegalMemoryRange)
  else if load m data 4 < headerSize then .error (.invalid .unexpectedStructHeader)
  else bc.claimMemory data (load m data 4)

def StructType.sizeOk (d : StructType) (version numBytes : ℕ) : Prop :=
  if version ≤ d.last.version then
    match d.newest version with
    | some v => numBytes = v.numBytes
    | none => True
  else
    d.last.numBytes ≤ numBytes

instance (d : StructType) (version numBytes : ℕ) : Decidable (d.sizeOk version numBytes) := by
  unfold StructType.sizeOk
  split
  · split <;> infer_instance
  · infer_instance

def maxNumElements : Kind → ℕ
  | .bool => maxUint32
  | elem => (maxUint32 - headerSize) / elem.size

def getStorageSize (elem : Kind) (numElements : ℕ) : ℕ :=
  match elem with
  | .bool => headerSize + (numElements + 7) % 2 ^ 32 / 8
  | _ => (headerSize + elem.size * numElements) % 2 ^ 32

def validateArrayHeader (m : Mem) (elem : Kind) (expectedNumElements data : ℕ)
    (bc : BoundsChecker) : Except Failure BoundsChecker :=
  if data % 8 ≠ 0 then .error (.invalid .misalignedObject)
  else if ¬ bc.isValidRange data headerSize then .error (.invalid .illegalMemoryRange)
  else if maxNumElements elem < load m (data + 4) 4 ∨ load m data 4 <
    getStorageSize elem (load m (data + 4) 4) then
    .error (.invalid .unexpectedArrayHeader)
  else if expectedNumElements ≠ 0 ∧ load m (data + 4) 4 ≠ expectedNumElements then
    .error (.invalid .unexpectedArrayHeader)
  else bc.claimMemory data (load m data 4)

def validateHandle (m : Mem) (nullable : Bool) (slot : ℕ) (bc : BoundsChecker) :
    Except Failure BoundsChecker :=
  if nullable = false ∧ load m slot 4 = encodedInvalidHandle then
    .error (.invalid .unexpectedInvalidHandle)
  else bc.claimHandle (load m slot 4)

abbrev ValidateSlot := ValidationError → Slot → BoundsChecker → Except Failure BoundsChecker

def validateMapArray (rec : ValidateSlot) (m : Mem) (elem : Kind) (slot : ℕ) (bc : BoundsChecker) :
    Except Failure BoundsChecker :=
  if ¬ validateEncodedPointer m slot then .error (.invalid .illegalPointer)
  else if load m slot 8 = 0 then .error (.invalid .unexpectedNullPointer)
  else rec .unexpectedNullPointer ⟨.array elem 0 false, slot, 0⟩ bc

def validateObject (Γ : Types) (rec : ValidateSlot) (m : Mem) (kind : Kind) (data : ℕ)
    (bc : BoundsChecker) : Except Failure BoundsChecker :=
  if data = 0 then .ok bc else
  match kind with
  | .string _ => validateArrayHeader m (.number 1) 0 data bc
  | .array elem count _ => do
    let bc ← validateArrayHeader m elem count data bc
    forEach (rec .unexpectedNullUnion) (objectSlots Γ m kind data) bc
  | .map key value _ => do
    let bc ← validateStructHeaderAndClaimMemory m data bc
    if load m data 4 ≠ 24 ∨ load m (data + 4) 4 ≠ 0 then
      .error (.invalid .unexpectedStructHeader)
    else do
      let bc ← validateMapArray rec m key (data + 8) bc
      let bc ← validateMapArray rec m value (data + 16) bc
      if load m (target .onWire m (data + 8) + 4) 4 ≠
          load m (target .onWire m (data + 16) + 4) 4 then
        .error (.invalid .differentSizedArraysInMap)
      else
        .ok bc
  | .struct name _ => do
    let bc ← validateStructHeaderAndClaimMemory m data bc
    if ¬ (Γ.struct name).sizeOk (load m (data + 4) 4) (load m data 4) then
      .error (.invalid .unexpectedStructHeader)
    else
      forEach (rec .unexpectedNullPointer) (objectSlots Γ m kind data) bc
  | .number _ | .bool | .handle _ | .interface _ | .union _ _ | .unionPointer _ _ => .ok bc

/-- `Validate` of a union. Members that are arrays, strings or handles are validated
as in a struct. For other objects it is only the pointer that is looked at, and for
interfaces nothing is. -/
def validateUnion (Γ : Types) (rec : ValidateSlot) (m : Mem) (name data : ℕ) (inlined : Bool)
    (bc : BoundsChecker) : Except Failure BoundsChecker :=
  if data = 0 then .ok bc
  else if data % 8 ≠ 0 then .error (.invalid .misalignedObject)
  else do
    let bc ← if inlined then .ok bc else bc.claimMemory data unionSize
    if load m data 4 = 0 then .ok bc
    else
      match (Γ.union name).active (load m (data + 4) 4) with
      | none => .ok bc
      | some kind =>
        match kind with
        | .string _ | .array _ _ _ | .handle _ => rec .unexpectedNullPointer ⟨kind, data + 8, 0⟩ bc
        | .map _ _ nullable | .struct _ nullable | .unionPointer _ nullable =>
          if nullable = false ∧ load m (data + 8) 8 = 0 then
            .error (.invalid .unexpectedNullPointer)
          else if ¬ validateEncodedPointer m (data + 8) then .error (.invalid .illegalPointer)
          else .ok bc
        | .number _ | .bool | .interface _ | .union _ _ => .ok bc

/-- The validation that the templates emit for a member of a struct, and that
`ValidateElements` does for an element of an array. -/
def validateSlot (Γ : Types) (m : Mem) : ℕ → ValidateSlot
  | 0, _, _, _ => .error .fuel
  | fuel + 1, nullUnion, s, bc =>
    match s.kind with
    | .number _ | .bool | .unionPointer _ _ => .ok bc
    | .handle nullable | .interface nullable => validateHandle m nullable s.addr bc
    | .union name nullable =>
      if nullable = false ∧ load m s.addr 4 = 0 then .error (.invalid nullUnion)
      else validateUnion Γ (validateSlot Γ m fuel) m name s.addr true bc
    | .string nullable | .array _ _ nullable | .map _ _ nullable | .struct _ nullable =>
      if nullable = false ∧ load m s.addr 8 = 0 then .error (.invalid .unexpectedNullPointer)
      else if ¬ validateEncodedPointer m s.addr then .error (.invalid .illegalPointer)
      else validateObject Γ (validateSlot Γ m fuel) m s.kind (target .onWire m s.addr) bc

def validateStruct (Γ : Types) (m : Mem) (fuel name data : ℕ) (bc : BoundsChecker) :
    Except Failure BoundsChecker :=
  validateObject Γ (validateSlot Γ m fuel) m (.struct name false) data bc

end Mojo.CppBindings
