import Mojo.CBindings.Codec

/-!
# Serialized size and deep copy in the C bindings

The size of a value in memory, the buffer that its copy is allocated from, and
the copy itself. A copy reports failure when the buffer is too small or when a
union has a tag that its descriptor does not know. Sizes are `size_t` and wrap
at 64 bits. A union out of line is measured through the slot of its pointer.
-/

namespace Mojo.CBindings

open Mojo.Memory

def roundTo8 (num : ℕ) : ℕ := (num + 7) / 8 * 8

theorem le_roundTo8 (k : ℕ) : k ≤ roundTo8 k := by
  unfold roundTo8
  omega

theorem roundTo8_of_dvd {k : ℕ} (h : k % 8 = 0) : roundTo8 k = k := by
  unfold roundTo8
  omega

theorem dvd_roundTo8 (k : ℕ) : 8 ∣ roundTo8 k := Nat.dvd_mul_left 8 _

abbrev DispatchSize := TypeDescriptorType → ℕ → Bool → ℕ → Except Fault ℕ

def structSizeEntries (dispatch : DispatchSize) (m : Mem) (inStruct : ℕ) :
    List TypeDescriptorStructEntry → ℕ → Except Fault ℕ
  | [], size => .ok size
  | entry :: entries, size =>
    if isPointer entry.elemType = false ∧ entry.elemType ≠ .union then
      structSizeEntries dispatch m inStruct entries size
    else if load m (inStruct + 4) 4 < entry.minVersion then
      structSizeEntries dispatch m inStruct entries size
    else do
      let s ← dispatch entry.elemType entry.elemDescriptor entry.nullable
        (inStruct + headerSize + entry.offset)
      structSizeEntries dispatch m inStruct entries (wrap64 (size + s))

def structComputeSerializedSize (dispatch : DispatchSize) (m : Mem) (desc : TypeDescriptorStruct)
    (inStruct : ℕ) : Except Fault ℕ :=
  if inStruct = 0 then .error .assertion
  else structSizeEntries dispatch m inStruct desc.entries (load m inStruct 4)

def arraySizeElements (dispatch : DispatchSize) (desc : TypeDescriptorArray) (inArray : ℕ) :
    List ℕ → ℕ → Except Fault ℕ
  | [], size => .ok size
  | i :: is, size =>
    match arrayIndexByType inArray desc.elemType i with
    | none => .error .assertion
    | some elemData => do
      let s ← dispatch desc.elemType desc.elemDescriptor desc.nullable elemData
      arraySizeElements dispatch desc inArray is (wrap64 (size + s))

def arrayComputeSerializedSize (dispatch : DispatchSize) (m : Mem) (desc : TypeDescriptorArray)
    (inArray : ℕ) : Except Fault ℕ :=
  if inArray = 0 then .error .assertion
  else if isPointer desc.elemType = false ∧ desc.elemType ≠ .union then .ok (load m inArray 4)
  else arraySizeElements dispatch desc inArray (List.range (load m (inArray + 4) 4))
    (load m inArray 4)

/-- `MojomUnion_ComputeSerializedSize`, from the entry at the head of the list on. -/
def unionComputeSerializedSize (dispatch : DispatchSize) (m : Mem) (inUnionData : ℕ) :
    List TypeDescriptorUnionEntry → Except Fault ℕ
  | [] => .ok 0
  | entry :: entries =>
    if load m (inUnionData + 4) 4 ≠ entry.tag then
      unionComputeSerializedSize dispatch m inUnionData entries
    else if isPointer entry.elemType = false then
      .ok 0
    else
      dispatch entry.elemType entry.elemDescriptor entry.nullable (inUnionData + 8)

def dispatchComputeSerializedSize (Γ : Descriptors) (m : Mem) : ℕ → DispatchSize
  | 0, _, _, _, _ => .error .fuel
  | fuel + 1, type, typeDesc, nullable, data =>
    match type with
    | .structPtr | .mapPtr =>
      if nullable = false ∨ load m data 8 ≠ 0 then
        structComputeSerializedSize (dispatchComputeSerializedSize Γ m fuel) m (Γ.struct typeDesc)
          (load m data 8)
      else
        .ok 0
    | .arrayPtr =>
      if nullable = false ∨ load m data 8 ≠ 0 then
        arrayComputeSerializedSize (dispatchComputeSerializedSize Γ m fuel) m (Γ.array typeDesc)
          (load m data 8)
      else
        .ok 0
    | .unionPtr =>
      let udata := load m data 8
      let size := if udata ≠ 0 then unionLayoutSize else 0
      if nullable = false ∨ (udata ≠ 0 ∧ load m udata 4 ≠ 0) then do
        let s ← unionComputeSerializedSize (dispatchComputeSerializedSize Γ m fuel) m data
          (Γ.union typeDesc).entries
        .ok (wrap64 (size + s))
      else
        .ok size
    | .union =>
      if nullable = false ∨ (data ≠ 0 ∧ load m data 4 ≠ 0) then
        unionComputeSerializedSize (dispatchComputeSerializedSize Γ m fuel) m data
          (Γ.union typeDesc).entries
      else
        .ok 0
    | .handle | .interface | .pod => .error .assertion

structure Buffer where
  buf : ℕ
  bufSize : ℕ
  numBytesUsed : ℕ
deriving DecidableEq, Repr

def bufferAllocate (b : Buffer) (numBytes : ℕ) : Option (ℕ × Buffer) :=
  if b.bufSize < b.numBytesUsed + roundTo8 numBytes then none
  else some (b.buf + b.numBytesUsed, { b with numBytesUsed := b.numBytesUsed + roundTo8 numBytes })

structure CopyState where
  mem : Mem
  buffer : Buffer

abbrev DispatchDeepCopy :=
  TypeDescriptorType → ℕ → ℕ → ℕ → CopyState → Except Fault (Bool × CopyState)

def structDeepCopyEntries (dispatch : DispatchDeepCopy) (inStruct outStruct : ℕ) :
    List TypeDescriptorStructEntry → CopyState → Except Fault (Bool × CopyState)
  | [], st => .ok (true, st)
  | entry :: entries, st =>
    if load st.mem (inStruct + 4) 4 < entry.minVersion then
      structDeepCopyEntries dispatch inStruct outStruct entries st
    else do
      let (copied, st) ← dispatch entry.elemType entry.elemDescriptor
        (inStruct + headerSize + entry.offset)
        (load st.mem outStruct 8 + headerSize + entry.offset) st
      if copied then structDeepCopyEntries dispatch inStruct outStruct entries st
      else .ok (false, st)

/-- `MojomStruct_DeepCopy`; `outStruct` is where the address of the copy goes. -/
def structDeepCopy (dispatch : DispatchDeepCopy) (desc : TypeDescriptorStruct)
    (inStruct outStruct : ℕ) (st : CopyState) : Except Fault (Bool × CopyState) :=
  if inStruct = 0 ∨ outStruct = 0 then .error .assertion
  else
    let numBytes := load st.mem inStruct 4
    match bufferAllocate st.buffer numBytes with
    | none => .ok (false, { st with mem := store st.mem outStruct 8 0 })
    | some (addr, buffer) =>
      structDeepCopyEntries dispatch inStruct outStruct desc.entries
        ⟨copy (store st.mem outStruct 8 addr) addr inStruct numBytes, buffer⟩

def arrayDeepCopyElements (dispatch : DispatchDeepCopy) (desc : TypeDescriptorArray)
    (inArray outArray : ℕ) : List ℕ → CopyState → Except Fault (Bool × CopyState)
  | [], st => .ok (true, st)
  | i :: is, st =>
    match arrayIndexByType inArray desc.elemType i, arrayIndexByType (load st.mem outArray 8)
      desc.elemType i with
    | some inElemData, some outElemData => do
      let (copied, st) ← dispatch desc.elemType desc.elemDescriptor inElemData outElemData st
      if copied then arrayDeepCopyElements dispatch desc inArray outArray is st
      else .ok (false, st)
    | _, _ => .error .assertion

def arrayDeepCopy (dispatch : DispatchDeepCopy) (desc : TypeDescriptorArray)
    (inArray outArray : ℕ) (st : CopyState) : Except Fault (Bool × CopyState) :=
  if inArray = 0 ∨ outArray = 0 then .error .assertion
  else
    let numBytes := load st.mem inArray 4
    match bufferAllocate st.buffer numBytes with
    | none => .ok (false, { st with mem := store st.mem outArray 8 0 })
    | some (addr, buffer) =>
      let st' : CopyState := ⟨copy (store st.mem outArray 8 addr) addr inArray numBytes, buffer⟩
      if desc.elemType = .pod then .ok (true, st')
      else arrayDeepCopyElements dispatch desc inArray outArray
        (List.range (load st.mem (inArray + 4) 4)) st'

def unionTagUnknown : ℕ := uint32Max

def unionDeepCopyEntries (dispatch : DispatchDeepCopy) (numFields inUnionData outUnionData : ℕ) :
    List TypeDescriptorUnionEntry → CopyState → Except Fault (Bool × CopyState)
  | [], st => .ok (load st.mem (inUnionData + 4) 4 < numFields ||
      load st.mem (inUnionData + 4) 4 == unionTagUnknown, st)
  | entry :: entries, st =>
    if load st.mem (inUnionData + 4) 4 ≠ entry.tag then
      unionDeepCopyEntries dispatch numFields inUnionData outUnionData entries st
    else if entry.elemType = .pod then
      .ok (true, st)
    else
      dispatch entry.elemType entry.elemDescriptor (inUnionData + 8) (outUnionData + 8) st

def unionDeepCopy (dispatch : DispatchDeepCopy) (desc : TypeDescriptorUnion)
    (inUnionData outUnionData : ℕ) (st : CopyState) : Except Fault (Bool × CopyState) :=
  let st := { st with mem := copy st.mem outUnionData inUnionData unionLayoutSize }
  if load st.mem inUnionData 4 = 0 then .ok (true, st)
  else unionDeepCopyEntries dispatch desc.numFields inUnionData outUnionData desc.entries st

def dispatchDeepCopy (Γ : Descriptors) : ℕ → DispatchDeepCopy
  | 0, _, _, _, _, _ => .error .fuel
  | fuel + 1, inElemType, inTypeDesc, inData, outData, st =>
    if inData = 0 then .error .assertion else
    match inElemType with
    | .structPtr | .mapPtr =>
      if load st.mem inData 8 = 0 then
        .ok (true, { st with mem := store st.mem outData 8 0 })
      else
        structDeepCopy (dispatchDeepCopy Γ fuel) (Γ.struct inTypeDesc) (load st.mem inData 8)
          outData st
    | .arrayPtr =>
      if load st.mem inData 8 = 0 then
        .ok (true, { st with mem := store st.mem outData 8 0 })
      else
        arrayDeepCopy (dispatchDeepCopy Γ fuel) (Γ.array inTypeDesc) (load st.mem inData 8)
          outData st
    | .unionPtr =>
      let inUnionData := load st.mem inData 8
      if inUnionData = 0 then
        .ok (true, { st with mem := store st.mem outData 8 0 })
      else
        match bufferAllocate st.buffer unionLayoutSize with
        | none => .ok (false, st)
        | some (outUnionData, buffer) =>
          unionDeepCopy (dispatchDeepCopy Γ fuel) (Γ.union inTypeDesc) inUnionData outUnionData
            ⟨store st.mem outData 8 outUnionData, buffer⟩
    | .union => unionDeepCopy (dispatchDeepCopy Γ fuel) (Γ.union inTypeDesc) inData outData st
    | .handle | .interface | .pod => .ok (true, st)

end Mojo.CBindings
