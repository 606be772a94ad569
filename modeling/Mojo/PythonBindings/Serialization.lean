import Mojo.PythonBindings.Descriptor
import Mojo.System.Triples

/-!
# Serialization in the Python bindings

A struct is serialized into a byte array of its own: zeros first, then for every group of fields
what is to be packed, with the objects behind the group appended. A pointer is the distance from the
position of the field to the end of the array at that moment. Deserialization goes through the
groups again; a context is an offset into the message, and the root context claims memory and
handles in increasing order.
-/

namespace Mojo.PythonBindings

open Mojo.Memory Mojo.Wire Mojo.CppBindings

def convertBooleansToByte (booleans : List Bool) : ℕ :=
  booleans.reverse.foldl (fun x y => x * 2 + y.toNat) 0

def byteToBooleans : ℕ → ℕ → List Bool
  | 0, _ => []
  | fuel + 1, value =>
    if value = 0 then [] else decide (value % 2 = 1) :: byteToBooleans fuel (value / 2)

def convertByteToBooleans (value minSize : ℕ) : List Bool :=
  let res := byteToBooleans value value
  res ++ List.replicate (minSize - res.length) false

/-! ### Serialization -/

structure Serialized where
  encoded : Encoded
  data : List UInt8
  handles : List ℕ

/-- `Serialize` of a type: the value, `data_offset`, `data` and `handle_offset`. -/
abbrev Serializer := FieldType → Value → ℤ → List UInt8 → ℕ → Except Failure Serialized

def nullMessage : String := "Trying to serialize null for non nullable type."

def serializeNativeArray (value : List UInt8) (dataOffset : ℤ) (data : List UInt8) (length : ℕ) :
    Except Failure Serialized := do
  let extended := data ++ List.replicate headerSize 0 ++ value
  let dataLength := extended.length - data.length
  let extended := extended ++ List.replicate (neededPaddingForAlignment dataLength 8) 0
  let extended ← packInto headerFormat extended data.length [.int dataLength, .int length]
  .ok ⟨.entry (.int dataOffset), extended, []⟩

section Serializers

variable (serialize : Serializer)

def serializeGroup (group : FieldGroup) (values : List Value) (dataOffset : ℤ) (data : List UInt8)
    (handleOffset : ℕ) : Except Failure Serialized :=
  match group with
  | .single d => serialize d.fieldType (values.headD d.default) dataOffset data handleOffset
  | .boolean _ => .ok ⟨.entry (.int (convertBooleansToByte (values.map Value.toBool))), data, []⟩

/-- The loop of `Serialization.Serialize`: what to pack, the data and the handles. -/
def serializeGroups (handleOffset : ℕ) : List FieldGroup → List Value → ℕ → List UInt8 → List ℕ →
    Except Failure (List Entry × List UInt8 × List ℕ)
  | [], _, _, data, handles => .ok ([], data, handles)
  | group :: groups, values, position, data, handles => do
    let position := position + neededPaddingForAlignment position group.getAlignment
    let count := group.getDescriptors.length
    let s ← serializeGroup serialize group (values.take count) (data.length - position) data
      (handleOffset + handles.length)
    let (toPack, data, handles) ← serializeGroups handleOffset groups (values.drop count)
      (position + group.getByteSize) s.data (handles ++ s.handles)
    .ok (flatten s.encoded ++ toPack, data, handles)

def serializeStruct (groups : List FieldGroup) (fields : List Value) (handleOffset : ℕ) :
    Except Failure (List UInt8 × List ℕ) := do
  let format := getStruct groups
  let size := headerSize + format.size
  let data ← packInto headerFormat (List.replicate size 0) 0 [.int size, .int (getVersion groups)]
  let (toPack, data, handles) ← serializeGroups serialize handleOffset groups fields
    headerSize data []
  let data ← packInto format data headerSize toPack
  .ok (data, handles)

def serializeElements (subType : FieldType) (handleOffset : ℕ) :
    List Value → ℕ → List UInt8 → List ℕ →
    Except Failure (List Entry × List UInt8 × List ℕ)
  | [], _, data, handles => .ok ([], data, handles)
  | item :: items, position, data, handles => do
    let s ← serialize subType item (data.length - position) data (handleOffset + handles.length)
    let (toPack, data, handles) ← serializeElements subType handleOffset items
      (position + subType.getByteSize) s.data (handles ++ s.handles)
    .ok (flatten s.encoded ++ toPack, data, handles)

def elementFormat (subType : FieldType) (n : ℕ) : Format :=
  (List.replicate n (subType.getTypeCode.map FormatItem.code)).flatten

def serializeGenericArray (subType : FieldType) (elems : List Value) (dataOffset : ℤ)
    (data : List UInt8) (handleOffset : ℕ) : Except Failure Serialized := do
  let size := headerSize + subType.getByteSize * elems.length
  let extended := data ++ List.replicate (size + neededPaddingForAlignment size 8) 0
  let (toPack, extended, handles) ← serializeElements serialize subType handleOffset elems
    (data.length + headerSize) extended []
  let extended ← packInto headerFormat extended data.length [.int size, .int elems.length]
  let extended ←
    packInto (elementFormat subType elems.length) extended (data.length + headerSize) toPack
  .ok ⟨.entry (.int dataOffset), extended, handles⟩

/-- `UnionSerializer.SerializeInline`, without the size and the tag. A member that is a union comes
first in the data, and its address is left to the caller. -/
def serializeInline (c : Classes) (name tag : ℕ) (field : Value) (handleOffset : ℕ) :
    Except Failure Serialized :=
  match (c.union name)[tag]? with
  | none => .error .keyError
  | some d => do
    let s ← serialize d.fieldType field (-1) [] handleOffset
    if d.fieldType.isUnion then
      match s.encoded with
      | .tuple [.entry size, .entry tag, .entry entry] => do
        let header ← pack headerFormat [size, tag]
        let value ← pack [.code .Q] [entry]
        .ok ⟨.entry (.int (-1)), header ++ value ++ s.data, s.handles⟩
      | _ => .error .structError
    else .ok s

def serializeUnion (c : Classes) (name tag : ℕ) (field : Value) (dataOffset : ℤ) (data : List UInt8)
    (handleOffset : ℕ) : Except Failure Serialized := do
  let s ← serializeInline serialize c name tag field handleOffset
  let entry := if 0 < s.data.length then .entry (.int (dataOffset - 8)) else s.encoded
  .ok ⟨.tuple [.entry (.int unionSize), .entry (.int tag), entry], data ++ s.data, s.handles⟩

def serializeHandle (nullable : Bool) (v : Value) (data : List UInt8) (handleOffset : ℕ) :
    Except Failure Serialized :=
  match v with
  | .handle h | .interface h _ => .ok ⟨.entry (.int handleOffset), data, [h]⟩
  | _ =>
    if nullable then .ok ⟨.entry (.int (-1)), data, []⟩
    else .error (.serialization nullMessage)

def serializePointer (nullable : Bool) (v : Value) (data : List UInt8)
    (pointer : Except Failure Serialized) : Except Failure Serialized :=
  match v with
  | .null =>
    if nullable then .ok ⟨.entry (.int 0), data, []⟩
    else .error (.serialization nullMessage)
  | _ => pointer

def serializeArray (length : ℕ) (elems : List Value) (array : Except Failure Serialized) :
    Except Failure Serialized :=
  if length ≠ 0 ∧ elems.length ≠ length then .error (.serialization "Incorrect array size")
  else array

def booleanBytes : ℕ → List Bool → List UInt8
  | 0, _ => []
  | n + 1, booleans =>
    UInt8.ofNat (convertBooleansToByte (booleans.take 8)) :: booleanBytes n (booleans.drop 8)

def serializeType (c : Classes) : Serializer
  | .boolean, v, _, data, _ => .ok ⟨.entry (.int (convertBooleansToByte [v.toBool])), data, []⟩
  | .integer typecode, v, _, data, _ | .float typecode, v, _, data, _ =>
    .ok ⟨.entry (typecode.entry v.toNat), data, []⟩
  | .handle nullable, v, _, data, handleOffset | .interfaceRequest nullable, v, _, data,
    handleOffset =>
    serializeHandle nullable v data handleOffset
  | .interface nullable, v, _, data, handleOffset => do
    let s ← serializeHandle nullable v data handleOffset
    let version := match v with
      | .interface _ version => version
      | _ => 0
    .ok { s with encoded := .tuple [s.encoded, .entry (.int version)] }
  | .string nullable, v, dataOffset, data, _ =>
    serializePointer nullable v data <|
      match v with
      | .string bytes => serializeNativeArray bytes dataOffset data bytes.length
      | _ => .error .attributeError
  | .booleanArray nullable length, v, dataOffset, data, _ =>
    serializePointer nullable v data <|
      match v with
      | .array elems => serializeArray length elems <|
        serializeNativeArray (booleanBytes ((elems.length + 7) / 8) (elems.map Value.toBool))
          dataOffset data
          elems.length
      | _ => .error .typeError
  | .nativeArray typecode nullable length, v, dataOffset, data, _ =>
    serializePointer nullable v data <|
      match v with
      | .array elems => serializeArray length elems <|
        serializeNativeArray (elems.flatMap fun v => bytesOf typecode.size v.toNat) dataOffset data
          elems.length
      | _ => .error .typeError
  | .genericArray subType nullable length, v, dataOffset, data, handleOffset =>
    serializePointer nullable v data <|
      match v with
      | .array elems => serializeArray length elems <|
        serializeGenericArray serialize subType elems dataOffset data handleOffset
      | _ => .error .typeError
  | .struct name nullable, v, dataOffset, data, handleOffset =>
    serializePointer nullable v data <|
      match v with
      | .struct fields => do
        let (newData, newHandles) ← serializeStruct serialize (c.struct name) fields handleOffset
        .ok ⟨.entry (.int dataOffset), data ++ newData, newHandles⟩
      | _ => .error .attributeError
  | .map keyType valueType nullable, v, dataOffset, data, handleOffset =>
    serializePointer nullable v data <|
      match v with
      | .map keys values => do
        -- the properties of the struct convert what they are set to
        let keys ← convert (getArrayType keyType) (.array keys)
        let values ← convert (getArrayType valueType) (.array values)
        let (newData, newHandles) ← serializeStruct serialize (mapGroups keyType valueType)
          [keys, values] handleOffset
        .ok ⟨.entry (.int dataOffset), data ++ newData, newHandles⟩
      | _ => .error .attributeError
  | .union name nullable, v, dataOffset, data, handleOffset =>
    match v with
    | .union tag field => serializeUnion serialize c name tag field dataOffset data handleOffset
    | _ =>
      if nullable then .ok ⟨.tuple [.entry (.int 0), .entry (.int 0), .entry (.int 0)], data, []⟩
      else .error (.serialization nullMessage)

end Serializers

def serialize (c : Classes) : ℕ → Serializer
  | 0 => serializeType (fun _ _ _ _ _ => .error .recursion) c
  | depth + 1 => serializeType (serialize c depth) c

/-! ### Deserialization -/

/-- The data of `RootDeserializationContext`. A string is made of the bytes that the codec accepts.
-/
structure RootContext where
  data : List UInt8
  handles : List ℕ
  unicode : List UInt8 → Option (List UInt8)

/-- What decoding leaves to the interpreter to check: that the fields behind a header are there,
that a pointer is an index, that there is a handle, that bytes are elements or a string, and that
calls are not nested too deeply. -/
inductive Visit
  | fields (context size : ℕ)
  | pointer (target : ℤ)
  | handle (index : ℕ)
  | elements (elementSize size : ℕ)
  | string (bytes : List UInt8)
  | nested
deriving DecidableEq, Repr

/-- What the root context has claimed, with the ranges of memory, and what decoding got to, the
newest first. -/
structure Claimed where
  nextHandle : ℤ
  nextMemory : ℕ
  claims : List (ℕ × ℕ)
  visits : List Visit
deriving DecidableEq, Repr

abbrev Decoding := EStateM Failure Claimed

def throwIf (c : Prop) [Decidable c] (message : String) : Decoding Unit :=
  if c then throw (.deserialization message) else pure ()

def visit (v : Visit) : Decoding Unit := modify fun s => { s with visits := v :: s.visits }

section Contexts

variable (root : RootContext)

def RootContext.mem : Mem := block 0 root.data

def claimHandle (handle : ℤ) : Decoding ℕ := do
  let s ← get
  throwIf (handle < s.nextHandle) "Accessing handles out of order."
  modify fun s => { s with nextHandle := handle + 1 }
  visit (.handle handle.toNat)
  match root.handles[handle.toNat]? with
  | some h => pure h
  | none => throw .indexError

def claimMemory (start size : ℕ) : Decoding Unit := do
  let s ← get
  throwIf (start < s.nextMemory) "Accessing buffer out of order."
  modify fun s => { s with nextMemory := start + size, claims := (start, size) :: s.claims }

/-- `GetSubContext` of a pointer; a buffer has no offset beyond the largest index. -/
def getSubContext (context : ℕ) (offset : ℤ) : Decoding ℕ := do
  visit (.pointer (context + offset))
  if context + offset < 2 ^ 63 then pure (context + offset).toNat else throw .overflowError

def length (context : ℕ) : ℕ := root.data.length - context

def unpackFrom (format : Format) (context offset : ℕ) : Decoding (List Entry) := do
  visit (.fields context (offset + format.size))
  if length root context < offset + format.size then throw .structError
  else pure (unpack root.mem format (context + offset))

def unpackHeader (context : ℕ) : ℕ × ℕ := (load root.mem context 4, load root.mem (context + 4) 4)

end Contexts

abbrev Deserializer := FieldType → Encoded → ℕ → Decoding Value

/-- The bytes of an integer that was unpacked; type codes that unpack to floats are not asked for
it. -/
def Encoded.toInt : Encoded → ℤ
  | .entry (.int z) => z
  | _ => 0

def Encoded.bits (typecode : TypeCode) : Encoded → ℕ
  | .entry e => typecode.bits e
  | .tuple _ => 0

section Deserializers

variable (deserialize : Deserializer) (root : RootContext)

def deserializeGroup (group : FieldGroup) (value : Encoded) (context : ℕ) : Decoding (List Value) :=
  match group with
  | .single d => do
    let entity ← deserialize d.fieldType value context
    pure [entity]
  | .boolean ds =>
    pure ((convertByteToBooleans value.toInt.toNat ds.length).take ds.length |>.map .bool)

def valueOf : List Entry → Encoded
  | [e] => .entry e
  | es => .tuple (es.map .entry)

def deserializeGroups (context : ℕ) : List FieldGroup → List Entry → ℕ → Decoding (List Value)
  | [], _, _ => pure []
  | group :: groups, entities, position => do
    let position := position + neededPaddingForAlignment position group.getAlignment
    let count := group.getTypeCode.length
    let values ← deserializeGroup deserialize group (valueOf (entities.take count))
      (context + position)
    let rest ← deserializeGroups context groups (entities.drop count) (position + group.getByteSize)
    pure (values ++ rest)

def getGroups (groups : List FieldGroup) (version : ℕ) : List FieldGroup :=
  if getVersion groups ≤ version then groups else filterGroups groups version

def withDefaults (version : ℕ) : List FieldDescriptor → List Value → List Value
  | [], _ => []
  | d :: ds, values =>
    if d.version ≤ version then values.headD d.default :: withDefaults version ds values.tail
    else d.default :: withDefaults version ds values

def deserializeStruct (groups : List FieldGroup) (isInitialContext : Bool) (context : ℕ) :
    Decoding (List Value) := do
  throwIf (length root context < headerSize) "Available data too short to contain header."
  let (size, version) := unpackHeader root context
  throwIf (length root context < size ∨ size < headerSize) "Header size is incorrect."
  if isInitialContext then claimMemory context size
  let filteredGroups := getGroups groups version
  let versionStruct := getStruct filteredGroups
  let entities ← unpackFrom root versionStruct context headerSize
  throwIf ((version ≤ getVersion groups ∧ size ≠ versionStruct.size + headerSize) ∨
    size < versionStruct.size + headerSize) "Struct size in incorrect."
  let values ← deserializeGroups deserialize context filteredGroups entities headerSize
  pure (withDefaults (min version (getVersion groups))
    (groups.flatMap FieldGroup.getDescriptors) values)

def nullPointerMessage : String := "Trying to deserialize null for non nullable type."

def deserializeHandle (nullable : Bool) (value : ℤ) : Decoding (Option ℕ) :=
  if value = -1 then do
    throwIf (nullable = false) nullPointerMessage
    pure none
  else do
    let h ← claimHandle root value
    pure (some h)

def deserializePointer (nullable : Bool) (value : Encoded) (context : ℕ)
    (pointer : ℕ → ℕ → ℕ → Decoding Value) : Decoding Value :=
  if value.toInt = 0 then do
    throwIf (nullable = false) nullPointerMessage
    pure .null
  else do
    throwIf (value.toInt % 8 ≠ 0) "Pointer alignment is incorrect."
    let subContext ← getSubContext context value.toInt
    throwIf (length root subContext < headerSize) "Available data too short to contain header."
    let (size, nbElements) := unpackHeader root subContext
    throwIf (length root subContext < size ∨ size < headerSize) "Header size is incorrect."
    claimMemory subContext size
    pointer size nbElements subContext

def deserializeArray (length sizeForLength : ℕ) (size nbElements : ℕ) (array : Decoding Value) :
    Decoding Value := do
  throwIf (length ≠ 0 ∧ nbElements ≠ length) "Incorrect array size"
  throwIf (size < headerSize + sizeForLength) "Incorrect array size"
  array

def deserializeNativeArray (elementSize size context : ℕ) : Decoding (List ℕ) := do
  visit (.elements elementSize (size - headerSize))
  if (size - headerSize) % elementSize ≠ 0 then throw .valueError
  else pure ((List.range ((size - headerSize) / elementSize)).map fun i =>
    load root.mem (context + headerSize + elementSize * i) elementSize)

def deserializeElements (subType : FieldType) : ℕ → List Entry → ℕ → Decoding (List Value)
  | 0, _, _ => pure []
  | n + 1, values, context => do
    let count := subType.getTypeCode.length
    let item ← deserialize subType (valueOf (values.take count)) context
    let items ← deserializeElements subType n (values.drop count) (context + subType.getByteSize)
    pure (item :: items)

def deserializeUnion (c : Classes) (name context : ℕ) : Decoding Value := do
  throwIf (length root context < headerSize) "Available data too short to contain header."
  let (size, tag) := unpackHeader root context
  if size = 0 then pure .null
  else do
    throwIf (size ≠ unionSize) ("Invalid union size " ++ toString size)
    match (c.union name)[tag]? with
    | none => pure (.union tag .null)
    | some d =>
      if d.fieldType.isUnion then do
        let ptr ← unpackFrom root [.code .Q] context headerSize
        let subContext ← getSubContext context ((valueOf ptr).toInt + 8)
        let value ← deserialize d.fieldType (valueOf ptr) subContext
        pure (.union tag value)
      else do
        let raw ← unpackFrom root (d.fieldType.getTypeCode.map .code) context headerSize
        let value ← deserialize d.fieldType (valueOf (raw.take 1)) (context + headerSize)
        pure (.union tag value)

def deserializeType (c : Classes) : Deserializer
  | .boolean, value, _ =>
    pure (.bool ((convertByteToBooleans value.toInt.toNat 1).headD false))
  | .integer typecode, value, _ | .float typecode, value, _ => pure (.number (value.bits typecode))
  | .handle nullable, value, _ | .interfaceRequest nullable, value, _ => do
    match ← deserializeHandle root nullable value.toInt with
    | some h => pure (.handle h)
    | none => pure .null
  | .interface nullable, value, _ =>
    match value with
    | .tuple [handle, version] => do
      match ← deserializeHandle root nullable handle.toInt with
      | some h => pure (.interface h (version.bits .I))
      | none => pure .null
    | _ => throw .typeError
  | .string nullable, value, context =>
    deserializePointer root nullable value context fun size _ context => do
      let items ← deserializeNativeArray root 1 size context
      let bytes := items.map UInt8.ofNat
      visit (.string bytes)
      match root.unicode bytes with
      | some string => pure (.string string)
      | none => throw .unicodeDecodeError
  | .booleanArray nullable length, value, context =>
    deserializePointer root nullable value context fun size nbElements context =>
      deserializeArray length ((nbElements + 7) / 8) size nbElements do
        let converted ← deserializeNativeArray root 1 size context
        pure (.array ((converted.flatMap fun x => convertByteToBooleans x 8).take
          nbElements |>.map .bool))
  | .nativeArray typecode nullable length, value, context =>
    deserializePointer root nullable value context fun size nbElements context =>
      deserializeArray length (nbElements * typecode.size) size nbElements do
        let items ← deserializeNativeArray root typecode.size size context
        pure (.array (items.map .number))
  | .genericArray subType nullable length, value, context =>
    deserializePointer root nullable value context fun size nbElements context =>
      deserializeArray length (nbElements * subType.getByteSize) size nbElements do
        let values ← unpackFrom root (elementFormat subType nbElements) context headerSize
        let result ← deserializeElements deserialize subType nbElements values
          (context + headerSize)
        pure (.array result)
  | .struct name nullable, value, context =>
    deserializePointer root nullable value context fun _ _ context => do
      let fields ← deserializeStruct deserialize root (c.struct name) false context
      pure (.struct fields)
  | .map keyType valueType nullable, value, context =>
    deserializePointer root nullable value context fun _ _ context => do
      let fields ← deserializeStruct deserialize root (mapGroups keyType valueType) false context
      let keys := (fields.headD .null).elems
      let values := (fields.tail.headD .null).elems
      throwIf (keys.length ≠ values.length) "keys and values do not have the same length."
      pure (insertAll (keys.zip values))
  | .union name nullable, _, context => do
    match ← deserializeUnion deserialize root c name context with
    | .null => do
      throwIf (nullable = false) nullPointerMessage
      pure .null
    | result => pure result

end Deserializers

def deserialize (root : RootContext) (c : Classes) : ℕ → Deserializer
  | 0 => deserializeType (fun _ _ _ => do visit .nested; throw .recursion) root c
  | depth + 1 => deserializeType (deserialize root c depth) root c

def Classes.serialize (c : Classes) (depth name : ℕ) (fields : List Value) :
    Except Failure (List UInt8 × List ℕ) :=
  serializeStruct (PythonBindings.serialize c depth) (c.struct name) fields 0

def Classes.deserialize (c : Classes) (root : RootContext) (depth name : ℕ) :
    EStateM.Result Failure Claimed (List Value) :=
  deserializeStruct (PythonBindings.deserialize root c depth) root (c.struct name) true 0
    ⟨0, 0, [], []⟩

end Mojo.PythonBindings
