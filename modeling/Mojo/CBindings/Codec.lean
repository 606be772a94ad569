import Mojo.CBindings.Descriptor
import Mojo.Memory.Extent
import Mojo.Memory.Traced

/-!
# Encoding and decoding of pointers and handles in the C bindings

Encoding turns the pointers of a value into relative offsets and moves its
handles into a handle buffer; decoding does the reverse. Both rewrite the
buffer in place. A failed assertion, or exhausted fuel, is a fault. The states
carry a trace of what was done: the slots that were encoded, and on the way
back the pointers written, the objects entered and the handles taken.

An array is walked with the element count found on entry.
-/

namespace Mojo.CBindings

open Mojo.Memory

inductive Fault
  | assertion
  | fuel
deriving DecidableEq, Repr

structure HandleBuffer where
  handles : Option (List ℕ)
  numHandles : ℕ
  numHandlesUsed : ℕ

structure EncodeState where
  mem : Mem
  buffer : HandleBuffer
  trace : List ℕ

def EncodeState.write (st : EncodeState) (slot n v : ℕ) : EncodeState :=
  { st with mem := store st.mem slot n v, trace := st.trace ++ [slot] }

def encodePointer (pointer maxOffset : ℕ) (st : EncodeState) : Except Fault EncodeState :=
  let ptr := load st.mem pointer 8
  if ptr = 0 then
    .ok (st.write pointer 8 0)
  else if ptr ≤ pointer then
    .error .assertion
  else if maxOffset ≤ ptr - pointer then
    .error .assertion
  else
    .ok (st.write pointer 8 (ptr - pointer))

def encodeHandle (nullable : Bool) (handle : ℕ) (st : EncodeState) : Except Fault EncodeState :=
  match st.buffer.handles with
  | none => .error .assertion
  | some handles =>
    let h := load st.mem handle 4
    if h = handleInvalid then
      if nullable then .ok (st.write handle 4 encodedHandleInvalid) else .error .assertion
    else if st.buffer.numHandlesUsed < st.buffer.numHandles then
      .ok { st.write handle 4 st.buffer.numHandlesUsed with
        buffer := { st.buffer with
          handles := some (handles.set st.buffer.numHandlesUsed h)
          numHandlesUsed := st.buffer.numHandlesUsed + 1 } }
    else
      .error .assertion

abbrev Dispatch (σ : Type) := TypeDescriptorType → ℕ → Bool → ℕ → ℕ → σ → Except Fault σ

/-! The loops over entries and elements are the same in both directions. -/

section Loops

variable {σ : Type} (mem : σ → Mem) (dispatch : Dispatch σ)

def forEntries (inoutStruct inStructSize : ℕ) : List TypeDescriptorStructEntry → σ → Except Fault σ
  | [], st => .ok st
  | entry :: entries, st =>
    if load (mem st) (inoutStruct + 4) 4 < entry.minVersion then
      forEntries inoutStruct inStructSize entries st
    else if inStructSize ≤ headerSize + entry.offset then
      .error .assertion
    else do
      let elemData := inoutStruct + headerSize + entry.offset
      let st ← dispatch entry.elemType entry.elemDescriptor entry.nullable elemData
        (sub32 inStructSize (elemData - inoutStruct)) st
      forEntries inoutStruct inStructSize entries st

def forElements (desc : TypeDescriptorArray) (inoutArray inArraySize : ℕ) :
    List ℕ → σ → Except Fault σ
  | [], st => .ok st
  | i :: is, st =>
    match arrayIndexByType inoutArray desc.elemType i with
    | none => .error .assertion
    | some elemData =>
      if inoutArray + inArraySize ≤ elemData then .error .assertion
      else do
        let st ← dispatch desc.elemType desc.elemDescriptor desc.nullable elemData
          (sub32 inArraySize (elemData - inoutArray)) st
        forElements desc inoutArray inArraySize is st

def forActiveEntry (inoutUnion inBufSize : ℕ) :
    List TypeDescriptorUnionEntry → σ → Except Fault σ
  | [], st => .ok st
  | entry :: entries, st =>
    if load (mem st) (inoutUnion + 4) 4 ≠ entry.tag then
      forActiveEntry inoutUnion inBufSize entries st
    else if entry.elemType = .pod then
      .ok st
    else
      dispatch entry.elemType entry.elemDescriptor entry.nullable (inoutUnion + 8)
        (sub32 inBufSize 8) st

end Loops

def structEncode (dispatch : Dispatch EncodeState) (desc : TypeDescriptorStruct)
    (inoutStruct inStructSize : ℕ) (st : EncodeState) : Except Fault EncodeState :=
  if inoutStruct = 0 then .error .assertion
  else if inStructSize < headerSize then .error .assertion
  else forEntries EncodeState.mem dispatch inoutStruct inStructSize desc.entries st

def arrayEncode (dispatch : Dispatch EncodeState) (desc : TypeDescriptorArray)
    (inoutArray inArraySize : ℕ) (st : EncodeState) : Except Fault EncodeState :=
  if inoutArray = 0 then .error .assertion
  else if inArraySize < headerSize then .error .assertion
  else if inArraySize < load st.mem inoutArray 4 then .error .assertion
  else if desc.elemType = .pod then .ok st
  else forElements dispatch desc inoutArray inArraySize
    (List.range (load st.mem (inoutArray + 4) 4)) st

def unionEncode (dispatch : Dispatch EncodeState) (desc : TypeDescriptorUnion)
    (inoutUnion inBufSize : ℕ) (st : EncodeState) : Except Fault EncodeState :=
  if inBufSize < unionLayoutSize then .error .assertion
  else forActiveEntry EncodeState.mem dispatch inoutUnion inBufSize desc.entries st

/-- `MojomType_DispatchEncodePointersAndHandles`. A union out of line is looked
up through its pointer, but what is handed on is the slot of the pointer. -/
def dispatchEncode (Γ : Descriptors) : ℕ → Dispatch EncodeState
  | 0, _, _, _, _, _, _ => .error .fuel
  | fuel + 1, inElemType, inTypeDesc, inNullable, inoutBuf, inBufSize, st =>
    if inoutBuf = 0 then .error .assertion else
    match inElemType with
    | .structPtr | .mapPtr => do
      let inoutStruct := load st.mem inoutBuf 8
      let st ← encodePointer inoutBuf inBufSize st
      if inNullable = false ∨ inoutStruct ≠ 0 then
        structEncode (dispatchEncode Γ fuel) (Γ.struct inTypeDesc) inoutStruct
          (sub32 inBufSize (inoutStruct - inoutBuf)) st
      else
        .ok st
    | .arrayPtr => do
      let inoutArray := load st.mem inoutBuf 8
      let st ← encodePointer inoutBuf inBufSize st
      if inNullable = false ∨ inoutArray ≠ 0 then
        arrayEncode (dispatchEncode Γ fuel) (Γ.array inTypeDesc) inoutArray
          (sub32 inBufSize (inoutArray - inoutBuf)) st
      else
        .ok st
    | .unionPtr => do
      let unionBuf := load st.mem inoutBuf 8
      let st ← encodePointer inoutBuf inBufSize st
      if inNullable = false ∨ (unionBuf ≠ 0 ∧ load st.mem unionBuf 4 ≠ 0) then
        unionEncode (dispatchEncode Γ fuel) (Γ.union inTypeDesc) inoutBuf inBufSize st
      else
        .ok st
    | .union =>
      if inNullable = false ∨ load st.mem inoutBuf 4 ≠ 0 then
        unionEncode (dispatchEncode Γ fuel) (Γ.union inTypeDesc) inoutBuf inBufSize st
      else
        .ok st
    | .handle => encodeHandle inNullable inoutBuf st
    | .interface => encodeHandle inNullable inoutBuf st
    | .pod => .error .assertion

inductive DecodeEvent
  | pointer (slot value : ℕ)
  | object (e : Extent)
  | taken (index : ℕ)
deriving DecidableEq, Repr

structure DecodeState where
  mem : Mem
  handles : Option (List ℕ)
  trace : List DecodeEvent

def DecodeState.log (st : DecodeState) (e : DecodeEvent) : DecodeState :=
  { st with trace := st.trace ++ [e] }

def DecodeEvent.entered : DecodeEvent → Option Extent
  | .object e => some e
  | .pointer _ _ | .taken _ => none

def DecodeEvent.index : DecodeEvent → Option ℕ
  | .taken index => some index
  | .pointer _ _ | .object _ => none

def DecodeState.objects (st : DecodeState) : List Extent := st.trace.filterMap DecodeEvent.entered

def DecodeState.taken (st : DecodeState) : List ℕ := st.trace.filterMap DecodeEvent.index

def decodePointer (pointer : ℕ) (st : DecodeState) : DecodeState :=
  let offset := load st.mem pointer 8
  let ptr := if offset = 0 then 0 else wrap64 (pointer + offset)
  { st with mem := store st.mem pointer 8 ptr, trace := st.trace ++ [.pointer pointer ptr] }

def decodeHandle (handle inNumHandles : ℕ) (st : DecodeState) : Except Fault DecodeState :=
  match st.handles with
  | none => .error .assertion
  | some handles =>
    let index := load st.mem handle 4
    if index = encodedHandleInvalid then
      .ok { st with mem := store st.mem handle 4 handleInvalid }
    else if index < inNumHandles then
      .ok { mem := store st.mem handle 4 (handles.getD index handleInvalid)
            handles := some (handles.set index handleInvalid)
            trace := st.trace ++ [.taken index] }
    else
      .error .assertion

def structDecode (dispatch : Dispatch DecodeState) (desc : TypeDescriptorStruct)
    (inoutStruct inStructSize inNumHandles : ℕ) (st : DecodeState) : Except Fault DecodeState :=
  if inoutStruct = 0 then .error .assertion
  else if st.handles = none ∧ inNumHandles ≠ 0 then .error .assertion
  else forEntries DecodeState.mem dispatch inoutStruct inStructSize desc.entries
    (st.log (.object ⟨inoutStruct, load st.mem inoutStruct 4⟩))

def arrayDecode (dispatch : Dispatch DecodeState) (desc : TypeDescriptorArray)
    (inoutArray inArraySize inNumHandles : ℕ) (st : DecodeState) : Except Fault DecodeState :=
  if inoutArray = 0 then .error .assertion
  else if st.handles = none ∧ inNumHandles ≠ 0 then .error .assertion
  else
    let st' := st.log (.object ⟨inoutArray, load st.mem inoutArray 4⟩)
    if desc.elemType = .pod then .ok st'
    else forElements dispatch desc inoutArray inArraySize
      (List.range (load st.mem (inoutArray + 4) 4)) st'

def unionDecode (dispatch : Dispatch DecodeState) (desc : TypeDescriptorUnion)
    (inoutUnion inUnionSize inNumHandles : ℕ) (st : DecodeState) : Except Fault DecodeState :=
  if inUnionSize < unionLayoutSize then .error .assertion
  else if st.handles = none ∧ inNumHandles ≠ 0 then .error .assertion
  else forActiveEntry DecodeState.mem dispatch inoutUnion inUnionSize desc.entries st

def dispatchDecode (Γ : Descriptors) (inNumHandles : ℕ) : ℕ → Dispatch DecodeState
  | 0, _, _, _, _, _, _ => .error .fuel
  | fuel + 1, inElemType, inTypeDesc, inNullable, inoutBuf, inBufSize, st =>
    if inoutBuf = 0 then .error .assertion else
    match inElemType with
    | .structPtr | .mapPtr =>
      let st := decodePointer inoutBuf st
      let inoutStruct := load st.mem inoutBuf 8
      if inoutStruct ≠ 0 ∧ inoutBuf + inBufSize ≤ inoutStruct then .error .assertion
      else if inNullable = false ∨ inoutStruct ≠ 0 then
        structDecode (dispatchDecode Γ inNumHandles fuel) (Γ.struct inTypeDesc) inoutStruct
          (sub32 inBufSize (inoutStruct - inoutBuf)) inNumHandles st
      else
        .ok st
    | .arrayPtr =>
      let st := decodePointer inoutBuf st
      let inoutArray := load st.mem inoutBuf 8
      if inoutArray ≠ 0 ∧ inoutBuf + inBufSize ≤ inoutArray then .error .assertion
      else if inNullable = false ∨ inoutArray ≠ 0 then
        arrayDecode (dispatchDecode Γ inNumHandles fuel) (Γ.array inTypeDesc) inoutArray
          (sub32 inBufSize (inoutArray - inoutBuf)) inNumHandles st
      else
        .ok st
    | .unionPtr =>
      let st := decodePointer inoutBuf st
      let unionBuf := load st.mem inoutBuf 8
      if unionBuf ≠ 0 ∧ inoutBuf + inBufSize ≤ unionBuf then .error .assertion
      else if inNullable = false ∨ (unionBuf ≠ 0 ∧ load st.mem unionBuf 4 ≠ 0) then
        unionDecode (dispatchDecode Γ inNumHandles fuel) (Γ.union inTypeDesc) inoutBuf inBufSize
          inNumHandles st
      else
        .ok st
    | .union =>
      if inNullable = false ∨ load st.mem inoutBuf 4 ≠ 0 then
        unionDecode (dispatchDecode Γ inNumHandles fuel) (Γ.union inTypeDesc) inoutBuf inBufSize
          inNumHandles st
      else
        .ok st
    | .handle => decodeHandle inoutBuf inNumHandles st
    | .interface => decodeHandle inoutBuf inNumHandles st
    | .pod => .error .assertion

end Mojo.CBindings
