import Mojo.CBindings.Descriptor
import Mojo.Memory.Traced

/-!
# Validation in the C bindings

The five mutually recursive validators, over a memory that they only read. A
run logs every read, the remaining size that each callee is told, and every
out-of-line union that is followed. Recursion through `elem_descriptor` is
bounded by fuel; a run that exhausts it, or that fails an assertion, is stuck.
-/

namespace Mojo.CBindings

open Mojo.Memory Traced

inductive ValidationResult
  | errorNone
  | misalignedObject
  | illegalMemoryRange
  | unexpectedStructHeader
  | unexpectedArrayHeader
  | illegalHandle
  | unexpectedInvalidHandle
  | illegalPointer
  | unexpectedNullPointer
  | messageHeaderInvalidFlags
  | messageHeaderMissingRequestId
  | messageHeaderUnknownMethod
  | differentSizedArraysInMap
  | unexpectedNullUnion
deriving DecidableEq, Repr

structure ValidationContext where
  nextHandleIndex : ℕ
  nextPointer : ℕ
deriving DecidableEq, Repr

abbrev Verdict := ValidationResult × ValidationContext

inductive Event
  | read (addr len : ℕ)
  | rest (addr size : ℕ)
  | follow (desc : ℕ) (nullable : Bool) (addr size : ℕ)
deriving DecidableEq, Repr

def fetch (m : Mem) (addr len : ℕ) : Traced Event ℕ := ⟨[.read addr len], some (load m addr len)⟩

@[simp] theorem value_fetch (m : Mem) (addr len : ℕ) :
    (fetch m addr len).value = some (load m addr len) := rfl

@[simp] theorem logs_fetch (P : Event → Prop) (m : Mem) (addr len : ℕ) :
    (fetch m addr len).Logs P ↔ P (.read addr len) := by
  simp [Logs, fetch]

def validatePointer (m : Mem) (pointer maxOffset : ℕ) (isNullable : Bool)
    (ctx : ValidationContext) : Traced Event Verdict := do
  let offset ← fetch m pointer 8
  if maxOffset < offset ∨ uint32Max < offset then
    pure (.illegalPointer, ctx)
  else if offset ≠ 0 ∧ wrap64 (pointer + offset) < ctx.nextPointer then
    pure (.illegalMemoryRange, ctx)
  else
    let ctx := if offset ≠ 0 then { ctx with nextPointer := wrap64 (pointer + offset) } else ctx
    if offset % 8 ≠ 0 then
      pure (.misalignedObject, ctx)
    else if isNullable = false ∧ offset = 0 then
      pure (.unexpectedNullPointer, ctx)
    else
      pure (.errorNone, ctx)

def validateHandle (encodedHandle numHandles : ℕ) (isNullable : Bool) (ctx : ValidationContext) :
    Verdict :=
  if isNullable = false ∧ encodedHandle = encodedHandleInvalid then
    (.unexpectedInvalidHandle, ctx)
  else if encodedHandle = encodedHandleInvalid then
    (.errorNone, ctx)
  else if numHandles ≤ encodedHandle ∨ encodedHandle < ctx.nextHandleIndex then
    (.illegalHandle, ctx)
  else
    (.errorNone, { ctx with nextHandleIndex := encodedHandle + 1 })

/-- What `MojomType_DispatchValidate` looks like to the validators below it:
element type, descriptor, nullability, buffer, remaining size, context. -/
abbrev DispatchValidate :=
  TypeDescriptorType → ℕ → Bool → ℕ → ℕ → ValidationContext → Traced Event Verdict

def isValidSizeForVersion (m : Mem) (inStruct : ℕ)
    (versions : List TypeDescriptorStructVersion) : Traced Event Bool := do
  let version ← fetch m (inStruct + 4) 4
  let numBytes ← fetch m inStruct 4
  let r := seekLast versions version
  pure (if version = r.version then numBytes = r.numBytes else r.numBytes ≤ numBytes)

def structValidateEntries (dispatch : DispatchValidate) (m : Mem) (inStruct inStructSize : ℕ) :
    List TypeDescriptorStructEntry → ValidationContext → Traced Event Verdict
  | [], ctx => pure (.errorNone, ctx)
  | entry :: entries, ctx => do
    let version ← fetch m (inStruct + 4) 4
    if version < entry.minVersion then
      structValidateEntries dispatch m inStruct inStructSize entries ctx
    else
      let elemData := inStruct + headerSize + entry.offset
      let (result, ctx) ← dispatch entry.elemType entry.elemDescriptor entry.nullable elemData
        (sub32 inStructSize (elemData - inStruct)) ctx
      if result ≠ .errorNone then
        pure (result, ctx)
      else
        structValidateEntries dispatch m inStruct inStructSize entries ctx

def structValidate (dispatch : DispatchValidate) (m : Mem) (desc : TypeDescriptorStruct)
    (inStruct inStructSize : ℕ) (ctx : ValidationContext) : Traced Event Verdict := do
  note (.rest inStruct inStructSize)
  if inStruct = 0 then
    stuck
  else if inStructSize < headerSize then
    pure (.illegalMemoryRange, ctx)
  else
    let numBytes ← fetch m inStruct 4
    if inStructSize < numBytes then
      pure (.illegalMemoryRange, ctx)
    else
      let valid ← isValidSizeForVersion m inStruct desc.versions
      if valid = false then
        pure (.unexpectedStructHeader, ctx)
      else if numBytes % 8 ≠ 0 then
        pure (.misalignedObject, ctx)
      else
        structValidateEntries dispatch m inStruct inStructSize desc.entries
          { ctx with nextPointer := inStruct + numBytes }

def bitsToBytes (bits : ℕ) : ℕ := (bits + 7) / 8

def validateArrayHeader (m : Mem) (desc : TypeDescriptorArray) (inArray inBufSize : ℕ) :
    Traced Event ValidationResult := do
  if inBufSize < headerSize then
    pure .illegalMemoryRange
  else
    let numBytes ← fetch m inArray 4
    if numBytes < headerSize then
      pure .unexpectedArrayHeader
    else if inBufSize < numBytes then
      pure .illegalMemoryRange
    else
      let numElements ← fetch m (inArray + 4) 4
      if desc.numElements ≠ 0 ∧ numElements ≠ desc.numElements then
        pure .unexpectedArrayHeader
      else if numBytes < headerSize + bitsToBytes (desc.elemNumBits * numElements) then
        pure .unexpectedArrayHeader
      else
        pure .errorNone

def arrayValidateElements (dispatch : DispatchValidate) (desc : TypeDescriptorArray)
    (inArray inArraySize : ℕ) : List ℕ → ValidationContext → Traced Event Verdict
  | [], ctx => pure (.errorNone, ctx)
  | i :: is, ctx =>
    match arrayIndexByType inArray desc.elemType i with
    | none => stuck
    | some elemData => do
      let (result, ctx) ← dispatch desc.elemType desc.elemDescriptor desc.nullable elemData
        (sub32 inArraySize (elemData - inArray)) ctx
      if result ≠ .errorNone then
        pure (result, ctx)
      else
        arrayValidateElements dispatch desc inArray inArraySize is ctx

def arrayValidate (dispatch : DispatchValidate) (m : Mem) (desc : TypeDescriptorArray)
    (inArray inArraySize : ℕ) (ctx : ValidationContext) : Traced Event Verdict := do
  note (.rest inArray inArraySize)
  if inArray = 0 then
    stuck
  else
    let result ← validateArrayHeader m desc inArray inArraySize
    if result ≠ .errorNone then
      pure (result, ctx)
    else
      let numBytes ← fetch m inArray 4
      let ctx := { ctx with nextPointer := inArray + numBytes }
      if desc.elemType = .pod then
        pure (.errorNone, ctx)
      else
        let numElements ← fetch m (inArray + 4) 4
        arrayValidateElements dispatch desc inArray inArraySize (List.range numElements) ctx

def unionValidateEntries (dispatch : DispatchValidate) (m : Mem) (inNullable : Bool)
    (inUnion inUnionSize : ℕ) :
    List TypeDescriptorUnionEntry → ValidationContext → Traced Event Verdict
  | [], ctx => pure (.errorNone, ctx)
  | entry :: entries, ctx => do
    let tag ← fetch m (inUnion + 4) 4
    if tag ≠ entry.tag then
      unionValidateEntries dispatch m inNullable inUnion inUnionSize entries ctx
    else if entry.elemType = .pod then
      pure (.errorNone, ctx)
    else
      let size ← if inNullable then pure unionLayoutSize else fetch m inUnion 4
      if size ≠ unionLayoutSize then
        pure (.unexpectedNullUnion, ctx)
      else
        dispatch entry.elemType entry.elemDescriptor entry.nullable (inUnion + 8)
          (sub32 inUnionSize 8) ctx

def unionValidate (dispatch : DispatchValidate) (m : Mem) (desc : TypeDescriptorUnion)
    (inNullable : Bool) (inUnion inUnionSize : ℕ) (ctx : ValidationContext) :
    Traced Event Verdict := do
  note (.rest inUnion inUnionSize)
  unionValidateEntries dispatch m inNullable inUnion inUnionSize desc.entries ctx

def mapValidate (m : Mem) (inStruct inBufSize : ℕ) (ctx : ValidationContext) :
    Traced Event Verdict := do
  note (.rest inStruct inBufSize)
  let keysOffset ← fetch m (inStruct + 8) 8
  let valuesOffset ← fetch m (inStruct + 16) 8
  let keys ← fetch m (wrap64 (inStruct + 8 + keysOffset) + 4) 4
  let values ← fetch m (wrap64 (inStruct + 16 + valuesOffset) + 4) 4
  if keys ≠ values then
    pure (.differentSizedArraysInMap, ctx)
  else
    pure (.errorNone, ctx)

/-- The case of `MojomType_DispatchValidate` that both kinds of unions end in. -/
def unionDataValidate (dispatch : DispatchValidate) (m : Mem) (desc : TypeDescriptorUnion)
    (inNullable : Bool) (unionData unionSize : ℕ) (ctx : ValidationContext) :
    Traced Event Verdict := do
  let size ← fetch m unionData 4
  if size = 0 then
    pure (if inNullable then .errorNone else .unexpectedNullUnion, ctx)
  else
    unionValidate dispatch m desc inNullable unionData unionSize ctx

/-- What the cases of `MojomType_DispatchValidate` for pointers share: the
pointer is validated, and unless it is NULL, `next` is run with its offset. -/
def followPointer (m : Mem) (inBuf inBufSize : ℕ) (inNullable : Bool) (ctx : ValidationContext)
    (next : ℕ → ValidationContext → Traced Event Verdict) : Traced Event Verdict := do
  let (result, ctx) ← validatePointer m inBuf inBufSize inNullable ctx
  if result ≠ .errorNone then
    pure (result, ctx)
  else
    let offset ← fetch m inBuf 8
    if offset = 0 then
      pure (result, ctx)
    else
      next offset ctx

def dispatchValidate (Γ : Descriptors) (m : Mem) (inNumHandles : ℕ) : ℕ → DispatchValidate
  | 0, _, _, _, _, _, _ => stuck
  | fuel + 1, inElemType, inTypeDesc, inNullable, inBuf, inBufSize, ctx => do
    note (.rest inBuf inBufSize)
    if inBuf = 0 then stuck else
    match inElemType with
    | .structPtr | .mapPtr =>
      followPointer m inBuf inBufSize inNullable ctx fun offset ctx => do
        let (result, ctx) ← structValidate (dispatchValidate Γ m inNumHandles fuel) m
          (Γ.struct inTypeDesc) (wrap64 (inBuf + offset)) (sub32 inBufSize offset) ctx
        if result = .errorNone ∧ inElemType = .mapPtr then
          mapValidate m (wrap64 (inBuf + offset)) (sub32 inBufSize offset) ctx
        else
          pure (result, ctx)
    | .arrayPtr =>
      followPointer m inBuf inBufSize inNullable ctx fun offset ctx =>
        arrayValidate (dispatchValidate Γ m inNumHandles fuel) m (Γ.array inTypeDesc)
          (wrap64 (inBuf + offset)) (sub32 inBufSize offset) ctx
    | .unionPtr =>
      followPointer m inBuf inBufSize inNullable ctx fun offset ctx => do
        note (.follow inTypeDesc inNullable (wrap64 (inBuf + offset)) (sub32 inBufSize offset))
        unionDataValidate (dispatchValidate Γ m inNumHandles fuel) m (Γ.union inTypeDesc)
          inNullable (wrap64 (inBuf + offset)) (sub32 inBufSize offset)
          { ctx with nextPointer := ctx.nextPointer + unionLayoutSize }
    | .union =>
      unionDataValidate (dispatchValidate Γ m inNumHandles fuel) m (Γ.union inTypeDesc) inNullable
        inBuf inBufSize ctx
    | .handle =>
      let encodedHandle ← fetch m inBuf 4
      pure (validateHandle encodedHandle inNumHandles inNullable ctx)
    | .interface =>
      let encodedHandle ← fetch m inBuf 4
      pure (validateHandle encodedHandle inNumHandles inNullable ctx)
    | .pod => pure (.errorNone, ctx)

end Mojo.CBindings
