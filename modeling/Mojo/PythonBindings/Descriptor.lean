import Mojo.Wire.Cursor
import Mojo.Memory.ByteList

/-!
# Types and field groups of the Python bindings

A generated class describes its fields by groups in packed order: single fields, and up to eight
bools that share a byte. No offset is written down. The `struct` module packs a value for every type
code of a format string, and the offsets come from the padding that `_GetStruct` puts into the
format; they are the ones of `layout`.

Values are in the representation that `Convert` returns. A number is given by its bits, a float like
an integer, an invalid handle is null, and an interface is a proxy. The machine is little-endian.
-/

namespace Mojo.PythonBindings

open Mojo.Memory Mojo.Wire Mojo.CppBindings

inductive Failure
  | serialization (message : String)
  | deserialization (message : String)
  | structError
  | attributeError
  | typeError
  | keyError
  | indexError
  | valueError
  | overflowError
  | unicodeDecodeError
  | recursion
deriving DecidableEq, Repr

inductive TypeCode
  | b | B | h | H | i | I | q | Q | f | d
deriving DecidableEq, Repr

def TypeCode.size : TypeCode → ℕ
  | .b | .B => 1
  | .h | .H => 2
  | .i | .I | .f => 4
  | .q | .Q | .d => 8

def TypeCode.isFloat : TypeCode → Bool
  | .f | .d => true
  | _ => false

def TypeCode.isSigned : TypeCode → Bool
  | .b | .h | .i | .q => true
  | _ => false

/-! ### Packing -/

inductive Entry
  | int (z : ℤ)
  | float (bits : ℕ)
deriving DecidableEq, Repr

inductive Encoded
  | entry (e : Entry)
  | tuple (items : List Encoded)

mutual

def flatten : Encoded → List Entry
  | .entry e => [e]
  | .tuple items => flattenAll items

def flattenAll : List Encoded → List Entry
  | [] => []
  | e :: es => flatten e ++ flattenAll es

end

def TypeCode.entry (code : TypeCode) (n : ℕ) : Entry :=
  if code.isFloat then .float n
  else if code.isSigned && decide (256 ^ code.size ≤ 2 * n) then .int (n - 256 ^ code.size)
  else .int n

def TypeCode.bits (code : TypeCode) : Entry → ℕ
  | .int z => (z % 256 ^ code.size).toNat
  | .float bits => bits

def TypeCode.accepts (code : TypeCode) : Entry → Bool
  | .int z =>
    !code.isFloat && (if code.isSigned then
      decide (-256 ^ code.size ≤ 2 * z ∧ 2 * z < 256 ^ code.size)
      else decide (0 ≤ z ∧ z < 256 ^ code.size))
  | .float _ => code.isFloat

inductive FormatItem
  | pad
  | code (typecode : TypeCode)
deriving DecidableEq, Repr

def FormatItem.size : FormatItem → ℕ
  | .pad => 1
  | .code typecode => typecode.size

abbrev Format := List FormatItem

def Format.size (format : Format) : ℕ := (format.map FormatItem.size).sum

def pack : Format → List Entry → Except Failure (List UInt8)
  | [], [] => .ok []
  | .pad :: format, es => do
    let bytes ← pack format es
    .ok (0 :: bytes)
  | .code code :: format, e :: es =>
    if code.accepts e then do
      let bytes ← pack format es
      .ok (bytesOf code.size (code.bits e) ++ bytes)
    else .error .structError
  | _, _ => .error .structError

def packInto (format : Format) (data : List UInt8) (offset : ℕ) (es : List Entry) :
    Except Failure (List UInt8) := do
  let bytes ← pack format es
  if data.length < offset + bytes.length then .error .structError
  else .ok (data.take offset ++ bytes ++ data.drop (offset + bytes.length))

def unpack (m : Mem) : Format → ℕ → List Entry
  | [], _ => []
  | .pad :: format, a => unpack m format (a + 1)
  | .code code :: format, a => code.entry (load m a code.size) :: unpack m format (a + code.size)

def headerFormat : Format := [.code .I, .code .I]

/-! ### Types -/

inductive FieldType
  | boolean
  | integer (typecode : TypeCode)
  | float (typecode : TypeCode)
  | string (nullable : Bool)
  | handle (nullable : Bool)
  | interfaceRequest (nullable : Bool)
  | interface (nullable : Bool)
  | booleanArray (nullable : Bool) (length : ℕ)
  | nativeArray (typecode : TypeCode) (nullable : Bool) (length : ℕ)
  | genericArray (subType : FieldType) (nullable : Bool) (length : ℕ)
  | struct (name : ℕ) (nullable : Bool)
  | map (keyType valueType : FieldType) (nullable : Bool)
  | union (name : ℕ) (nullable : Bool)
deriving DecidableEq, Repr

def FieldType.getTypeCode : FieldType → List TypeCode
  | .boolean => [.B]
  | .integer typecode | .float typecode => [typecode]
  | .handle _ | .interfaceRequest _ => [.i]
  | .interface _ => [.i, .I]
  | .union _ _ => [.I, .I, .Q]
  | .string _ | .booleanArray _ _ | .nativeArray _ _ _ | .genericArray _ _ _ | .struct _ _
  | .map _ _ _ => [.Q]

def FieldType.getByteSize (t : FieldType) : ℕ := (t.getTypeCode.map TypeCode.size).sum

def FieldType.getAlignment (t : FieldType) : ℕ := (t.getTypeCode.map TypeCode.size).foldr max 0

def FieldType.isUnion : FieldType → Bool
  | .union _ _ => true
  | _ => false

def getArrayType (t : FieldType) : FieldType :=
  if t = .boolean then .booleanArray false 0 else .genericArray t false 0

def FieldType.kind : FieldType → Kind
  | .boolean => .bool
  | .integer typecode | .float typecode => .number typecode.size
  | .string nullable => .string nullable
  | .handle nullable | .interfaceRequest nullable => .handle nullable
  | .interface nullable => .interface nullable
  | .booleanArray nullable length => .array .bool length nullable
  | .nativeArray typecode nullable length => .array (.number typecode.size) length nullable
  | .genericArray subType nullable length => .array subType.kind length nullable
  | .struct name nullable => .struct name nullable
  | .map keyType valueType nullable => .map keyType.kind valueType.kind nullable
  | .union name nullable => .union name nullable

/-- `Convert`, of a value that has been converted before. An `array.array` has no attribute
`array_typecode`. -/
def convert : FieldType → Value → Except Failure Value
  | .nativeArray _ _ _, .array _ => .error .attributeError
  | .booleanArray _ _, .array elems => .ok (.array (elems.map fun v => .bool v.toBool))
  | .genericArray subType _ _, .array elems => do
    let elems ← elems.mapM' (convert subType)
    .ok (.array elems)
  | .map keyType valueType _, .map keys values => do
    let entries ← (keys.zip values).mapM' fun e => do
      let key ← convert keyType e.1
      let value ← convert valueType e.2
      Except.ok (key, value)
    .ok (insertAll entries)
  | _, v => .ok v

/-! ### Groups of fields -/

structure FieldDescriptor where
  fieldType : FieldType
  version : ℕ
  default : Value

inductive FieldGroup
  | single (descriptor : FieldDescriptor)
  | boolean (descriptors : List FieldDescriptor)

namespace FieldGroup

def getDescriptors : FieldGroup → List FieldDescriptor
  | .single descriptor => [descriptor]
  | .boolean descriptors => descriptors

def getTypeCode : FieldGroup → List TypeCode
  | .single descriptor => descriptor.fieldType.getTypeCode
  | .boolean _ => [.B]

def getByteSize : FieldGroup → ℕ
  | .single descriptor => descriptor.fieldType.getByteSize
  | .boolean _ => 1

def getAlignment : FieldGroup → ℕ
  | .single descriptor => descriptor.fieldType.getAlignment
  | .boolean _ => 1

def getMinVersion : FieldGroup → ℕ
  | .single descriptor => descriptor.version
  | .boolean [] => 0
  | .boolean (d :: ds) => (ds.map FieldDescriptor.version).foldl min d.version

def getMaxVersion (group : FieldGroup) : ℕ :=
  (group.getDescriptors.map FieldDescriptor.version).foldr max 0

def filter (version : ℕ) : FieldGroup → FieldGroup
  | .single descriptor => .single descriptor
  | .boolean descriptors => .boolean (descriptors.filter fun d => d.version ≤ version)

end FieldGroup

abbrev descriptors (groups : List FieldGroup) : List FieldDescriptor :=
  groups.flatMap FieldGroup.getDescriptors

theorem descriptors_cons (g : FieldGroup) (groups : List FieldGroup) :
    descriptors (g :: groups) = g.getDescriptors ++ descriptors groups := List.flatMap_cons

def neededPaddingForAlignment (value alignment : ℕ) : ℕ :=
  if value % alignment ≠ 0 then alignment - value % alignment else 0

def getVersion (groups : List FieldGroup) : ℕ := (groups.map FieldGroup.getMaxVersion).foldr max 0

def filterGroups (groups : List FieldGroup) (version : ℕ) : List FieldGroup :=
  (groups.filter fun group => group.getMinVersion ≤ version).map (FieldGroup.filter version)

def getStructFrom : ℕ → List FieldGroup → Format
  | index, [] => List.replicate (neededPaddingForAlignment index 8) .pad
  | index, group :: groups =>
    let neededPadding := neededPaddingForAlignment index group.getAlignment
    List.replicate neededPadding .pad ++ group.getTypeCode.map .code ++
      getStructFrom (index + neededPadding + group.getByteSize) groups

def getStruct (groups : List FieldGroup) : Format := getStructFrom 0 groups

structure Classes where
  struct : ℕ → List FieldGroup
  union : ℕ → List FieldDescriptor

def mapGroups (keyType valueType : FieldType) : List FieldGroup :=
  [.single ⟨getArrayType keyType, 0, .null⟩, .single ⟨getArrayType valueType, 0, .null⟩]

/-! ### The mojom types -/

def FieldGroup.fields (offset : ℕ) : FieldGroup → List Field
  | .single d => [⟨d.fieldType.kind, offset, 0, d.version⟩]
  | .boolean ds => ds.zipIdx.map fun d => ⟨.bool, offset, d.2, d.1.version⟩

def layout : ℕ → List FieldGroup → List Field
  | _, [] => []
  | index, group :: groups =>
    let offset := alignUp index group.getAlignment
    group.fields offset ++ layout (offset + group.getByteSize) groups

def Classes.types (c : Classes) : Types where
  struct name :=
    { versions := [⟨getVersion (c.struct name), headerSize + (getStruct (c.struct name)).size⟩]
      fields := layout 0 (c.struct name) }
  union name := { fields := (c.union name).map fun d => d.fieldType.kind }

def FieldType.isValid : FieldType → Bool
  | .integer typecode => !typecode.isFloat
  | .float typecode => typecode.isFloat
  | .genericArray subType _ _ => subType ≠ .boolean && subType.isValid
  | .map keyType valueType _ =>
    (match keyType with
      | .integer typecode => !typecode.isFloat
      | .float typecode => typecode.isFloat
      | .boolean | .string false => true
      | _ => false) && valueType.isValid
  | _ => true

def FieldGroup.isValid : FieldGroup → Bool
  | .single d => d.fieldType ≠ .boolean && d.fieldType.isValid
  | .boolean ds => !ds.isEmpty && decide (ds.length ≤ 8) && ds.all fun d => d.fieldType = .boolean

end Mojo.PythonBindings
