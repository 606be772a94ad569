import Mojo.System.Triples
import Mojo.Memory.ClaimLog
import Mojo.Wire.Value

/-!
# Decoding in the Java bindings

Generated code reads the members of an object at fixed offsets from its base with a `Decoder`. All
the decoders of a message share a `Validator`, which claims memory and handles in increasing order.
Positions, sizes and counts are `int` values that wrap around; accesses to the buffer check their
index, and fail with exceptions of their own.

A number is read as its bits, a float like an int. `InvalidHandle` and null references are `null`;
an interface request is a handle. The log of the validator is what was claimed, read, taken and
allocated, and its visits are the arrays and nested unions whose elements and fields are decoded; no
function of the decoder looks at them.
-/

namespace Mojo.JavaBindings

open Mojo.Memory Mojo.Wire Mojo.CppBindings

structure Message where
  data : Mem
  limit : ℕ
  handles : List ℕ
  limit_lt : limit < 2 ^ 31
  handles_lt : handles.length < 2 ^ 31

theorem noHandles_lt : ([] : List ℕ).length < 2 ^ 31 := by
  decide

inductive Exception
  | deserialization (message : String)
  | serialization (message : String)
  | indexOutOfBounds
  | illegalArgument
  | bufferUnderflow
  | bufferOverflow
  | negativeArraySize
  | stackOverflow
deriving DecidableEq, Repr

structure DataHeader where
  size : ℤ
  elementsOrVersion : ℤ
deriving DecidableEq, Repr

/-- A boolean array with its header, an array with its header and the distance from element
to element, or a union behind a pointer. -/
inductive Visit
  | booleans (si : DataHeader)
  | elements (si : DataHeader) (size : ℕ)
  | nestedUnion
deriving DecidableEq, Repr

structure Validator where
  minNextClaimedHandle : ℤ
  minNextMemory : ℤ
  log : List Access
  visits : List Visit
deriving DecidableEq, Repr

def Validator.new : Validator := ⟨0, 0, [], []⟩

abbrev Decoding := EStateM Exception Validator

/-- What generated code and the platform provide: the types, what a constructor leaves in a field
that is not in the message, and the string that is made from bytes that need not be well-formed. -/
structure Context where
  types : Types
  message : Message
  default : Field → Value
  newString : List UInt8 → List UInt8

def int (x : ℤ) : ℤ := x.bmod (2 ^ 32)

def long (x : ℤ) : ℤ := x.bmod (2 ^ 64)

variable {x : ℤ}

theorem int_eq (h : -2 ^ 31 ≤ x) (h' : x < 2 ^ 31) : int x = x := by
  rw [int]
  exact Int.bmod_eq_of_le (by omega) (by omega)

theorem int_lt (x : ℤ) : int x < 2 ^ 31 := by
  have := Int.bmod_lt (x := x) (m := 2 ^ 32) (by decide)
  rw [int]
  omega

theorem int_of_nonneg (h : 0 ≤ x) (h' : x < 2 ^ 32) (hint : 0 ≤ int x) : int x = x := by
  have hmod : x % (2 ^ 32 : ℕ) = x := Int.emod_eq_of_lt h (by exact_mod_cast h')
  rw [int, Int.bmod_def, hmod] at hint ⊢
  split at hint
  · rw [if_pos (by assumption)]
  · omega

theorem int_of_large (h : 2 ^ 31 ≤ x) (h' : x < 2 ^ 32) : int x = x - 2 ^ 32 := by
  have hmod : x % (2 ^ 32 : ℕ) = x := Int.emod_eq_of_lt (by omega) (by exact_mod_cast h')
  rw [int, Int.bmod_def, hmod, if_neg (by omega)]
  rfl

variable {n : ℕ}

theorem int_of_lt (h : n < 2 ^ 31) : int n = n := int_eq (by omega) (by omega)

theorem int_add {m : ℕ} (h : m + n < 2 ^ 31) : int ((m : ℤ) + n) = (m + n : ℕ) := by
  rw [← Nat.cast_add, int_of_lt h]

theorem int_mul {m : ℕ} (h : m * n < 2 ^ 31) : int ((m : ℤ) * n) = (m * n : ℕ) := by
  rw [← Nat.cast_mul, int_of_lt h]

theorem int_tdiv_eight (h : n + 7 < 2 ^ 31) : (int ((n : ℤ) + 7)).tdiv 8 = ((n + 7) / 8 : ℕ) := by
  rw [int_eq (by omega) (by omega), Int.tdiv_eq_ediv_of_nonneg (by omega)]
  rfl

theorem long_eq (h : -2 ^ 63 ≤ x) (h' : x < 2 ^ 63) : long x = x := by
  rw [long]
  exact Int.bmod_eq_of_le (by omega) (by omega)

attribute [irreducible] int long

def align (size : ℤ) : ℤ := (size + 7) / 8 * 8

def throwIf (c : Prop) [Decidable c] (message : String) : Decoding Unit :=
  if c then throw (.deserialization message) else pure ()

def note (e : Access) : Decoding Unit := modify fun v => { v with log := e :: v.log }

def visit (e : Visit) : Decoding Unit := modify fun v => { v with visits := e :: v.visits }

section Claims

variable (msg : Message)

def claimHandle (handle : ℤ) : Decoding Unit := do
  let v ← get
  throwIf (handle < v.minNextClaimedHandle) "Trying to access handle out of order."
  throwIf (handle ≥ msg.handles.length) "Trying to access non present handle."
  modify fun v => { v with
    minNextClaimedHandle := int (handle + 1)
    log := .handle handle.toNat :: v.log }

def claimMemory (start stop : ℤ) : Decoding Unit := do
  let v ← get
  throwIf (start.tmod 8 ≠ 0) ("Incorrect starting alignment: " ++ toString start ++ ".")
  throwIf (start < v.minNextMemory) "Trying to access memory out of order."
  throwIf (stop < start) "Incorrect memory range."
  throwIf (stop > msg.limit) "Trying to access out of range memory."
  modify fun v => { v with
    minNextMemory := align stop
    log := .claim start.toNat stop.toNat :: v.log }

end Claims

section Buffer

variable (msg : Message)

/-- `ByteBuffer.get`, `getShort`, `getInt`, `getLong`, `getFloat` and `getDouble`. -/
def getBits (index : ℤ) (size : ℕ) : Decoding ℕ :=
  if 0 ≤ index ∧ index + size ≤ msg.limit then do
    note (.read index.toNat size)
    pure (load msg.data index.toNat size)
  else throw .indexOutOfBounds

/-- `position`, followed by a `get` of the buffer or of a view of it that fills an array. -/
def getAll (position : ℤ) (count size : ℕ) : Decoding (List ℕ) :=
  if position < 0 ∨ position > msg.limit then throw .illegalArgument
  else if (msg.limit - position.toNat) / size < count then throw .bufferUnderflow
  else do
    note (.read position.toNat (size * count))
    pure ((List.range count).map fun i => load msg.data (position.toNat + size * i) size)

def newArray (length : ℤ) (bits : ℕ) : Decoding ℕ :=
  if length < 0 then throw .negativeArraySize
  else do
    note (.alloc length.toNat bits)
    pure length.toNat

end Buffer

section Numbers

variable (msg : Message) (base : ℤ)

def validateBufferSize (offset : ℤ) (size : ℕ) : Decoding Unit :=
  throwIf (msg.limit < int (offset + size)) "Buffer is smaller than expected."

/-- `readByte`, `readShort`, `readInt`, `readFloat`, `readLong` and `readDouble`. -/
def readBits (offset : ℤ) (size : ℕ) : Decoding ℕ := do
  validateBufferSize msg offset size
  getBits msg (int (base + offset)) size

def readByte (offset : ℤ) : Decoding ℕ := readBits msg base offset 1

def readInt (offset : ℤ) : Decoding ℤ := do
  let bits ← readBits msg base offset 4
  pure (int bits)

def readLong (offset : ℤ) : Decoding ℤ := do
  let bits ← readBits msg base offset 8
  pure (long bits)

def readBoolean (offset : ℤ) (bit : ℕ) : Decoding Bool := do
  validateBufferSize msg offset 1
  let byte ← readByte msg base offset
  pure (byte.testBit bit)

end Numbers

section Headers

variable (msg : Message) (base : ℤ)

def readDataHeaderAtOffset (offset : ℤ) (isUnion : Bool) : Decoding DataHeader := do
  let size ← readInt msg base offset
  let elementsOrVersion ← readInt msg base (int (offset + 4))
  throwIf (size < 0) "Negative size. Unsigned integers are not valid for java."
  throwIf (elementsOrVersion < 0 ∧ (isUnion = false ∨ elementsOrVersion ≠ -1))
    "Negative elements or version. Unsigned integers are not valid for java."
  pure ⟨size, elementsOrVersion⟩

def readDataHeader : Decoding DataHeader := do
  claimMemory msg base (int (base + 8))
  let result ← readDataHeaderAtOffset msg base 0 false
  claimMemory msg (int (base + 8)) (int (base + result.size))
  pure result

def readDataHeaderForUnion (offset : ℤ) : Decoding DataHeader := do
  let result ← readDataHeaderAtOffset msg base offset true
  if result.size = 0 then
    throwIf (result.elementsOrVersion ≠ 0)
      ("Unexpected version tag for a null union. Expecting 0, found: " ++
        toString result.elementsOrVersion)
  else
    throwIf (result.size ≠ unionSize)
      ("Unexpected size of an union. The size must be 0 for a null union, or 16 for " ++
        "a non-null union.")
  pure result

def readAndValidateDataHeader (d : StructType) : Decoding DataHeader := do
  let header ← readDataHeader msg base
  if header.elementsOrVersion ≤ d.last.version then
    let referenceHeader := d.versions.reverse.find? fun v => header.elementsOrVersion ≥ v.version
    throwIf (referenceHeader.all fun v => v.numBytes ≠ header.size)
      "Header doesn't correspond to any known version."
  else
    throwIf (header.size < d.last.numBytes)
      ("Message newer than the last known version" ++
        " cannot be shorter than required by the last known version.")
  pure header

def checkLength (dataHeader : DataHeader) (expectedLength : ℤ) : Decoding Unit :=
  throwIf (expectedLength ≠ -1 ∧ dataHeader.elementsOrVersion ≠ expectedLength)
    ("Incorrect array length. Expected: " ++ toString expectedLength ++
      ", but got: " ++ toString dataHeader.elementsOrVersion ++ ".")

def readDataHeaderForBooleanArray (expectedLength : ℤ) : Decoding DataHeader := do
  let dataHeader ← readDataHeader msg base
  throwIf (dataHeader.size < int (8 + (int (dataHeader.elementsOrVersion + 7)).tdiv 8))
    "Array header is incorrect."
  checkLength dataHeader expectedLength
  pure dataHeader

def readDataHeaderForArray (elementSize : ℤ) (expectedLength : ℤ) : Decoding DataHeader := do
  let dataHeader ← readDataHeader msg base
  throwIf (dataHeader.size < long (8 + long (elementSize * dataHeader.elementsOrVersion)))
    "Array header is incorrect."
  checkLength dataHeader expectedLength
  pure dataHeader

def readDataHeaderForPointerArray (expectedLength : ℤ) : Decoding DataHeader :=
  readDataHeaderForArray msg base 8 expectedLength

def readDataHeaderForMap : Decoding Unit := do
  let si ← readDataHeader msg base
  throwIf (si.size ≠ 24) "Incorrect header for map. The size is incorrect."
  throwIf (si.elementsOrVersion ≠ 0) "Incorrect header for map. The version is incorrect."

end Headers

section Members

variable (msg : Message) (base : ℤ)

def readPointer (offset : ℤ) (nullable : Bool) : Decoding (Option ℤ) := do
  let basePosition := int (base + offset)
  let pointerOffset ← readLong msg base offset
  if pointerOffset = 0 then do
    throwIf (nullable = false) "Trying to decode null pointer for a non-nullable type."
    pure none
  else pure (some (int (long (basePosition + pointerOffset))))

def readHandle (offset : ℤ) (nullable : Bool) : Decoding Value := do
  let index ← readInt msg base offset
  if index = -1 then do
    throwIf (nullable = false) "Trying to decode an invalid handle for a non-nullable type."
    pure .null
  else do
    claimHandle msg index
    pure (.handle (msg.handles.getD index.toNat invalidHandle))

def readServiceInterface (offset : ℤ) (nullable : Bool) : Decoding Value := do
  let handle ← readHandle msg base offset nullable
  match handle with
  | .handle h =>
    if h = invalidHandle then pure .null
    else do
      let version ← readBits msg base (int (offset + 4)) 4
      pure (.interface h version)
  | _ => pure .null

def readTarget (offset : ℤ) (nullable : Bool) (read : ℤ → Decoding Value) : Decoding Value := do
  let d ← readPointer msg base offset nullable
  match d with
  | none => pure .null
  | some d => read d

def readBooleans (offset : ℤ) (nullable : Bool) (expectedLength : ℤ) : Decoding Value :=
  readTarget msg base offset nullable fun d => do
    let si ← readDataHeaderForBooleanArray msg d expectedLength
    visit (.booleans si)
    let length ← newArray ((int (si.elementsOrVersion + 7)).tdiv 8) 8
    let bytes ← getAll msg (int (d + 8)) length 1
    let length ← newArray si.elementsOrVersion 1
    pure (.array ((List.range length).map fun i => .bool ((bytes.getD (i / 8) 0).testBit (i % 8))))

/-- `readBytes`, `readShorts`, `readInts`, `readFloats`, `readLongs` and `readDoubles`. -/
def readNumbers (size : ℕ) (offset : ℤ) (nullable : Bool) (expectedLength : ℤ) : Decoding Value :=
  readTarget msg base offset nullable fun d => do
    let si ← readDataHeaderForArray msg d size expectedLength
    let length ← newArray si.elementsOrVersion (8 * size)
    let result ← getAll msg (int (d + 8)) length size
    pure (.array (result.map .number))

def readString (newString : List UInt8 → List UInt8) (offset : ℤ) (nullable : Bool) :
    Decoding Value := do
  let bytes ← readNumbers msg base 1 offset nullable (-1)
  match bytes with
  | .array bytes => pure (.string (newString (bytes.map fun v => .ofNat v.toNat)))
  | _ => pure .null

def readElements (si : DataHeader) (size : ℕ) (read : ℤ → Decoding Value) : Decoding Value := do
  visit (.elements si size)
  let length ← newArray si.elementsOrVersion (8 * size)
  let result ← (List.range length).mapM' fun i : ℕ => read (int (8 + int (size * i)))
  pure (.array result)

/-- `readHandles`, `readUntypedHandles`, `readConsumerHandles`, `readProducerHandles`,
`readMessagePipeHandles`, `readSharedBufferHandles` and `readInterfaceRequests`. -/
def readHandles (elementNullable : Bool) (offset : ℤ) (nullable : Bool) (expectedLength : ℤ) :
    Decoding Value :=
  readTarget msg base offset nullable fun d => do
    let si ← readDataHeaderForArray msg d 4 expectedLength
    readElements si 4 fun offset => readHandle msg d offset elementNullable

def readServiceInterfaces (elementNullable : Bool) (offset : ℤ) (nullable : Bool)
    (expectedLength : ℤ) : Decoding Value :=
  readTarget msg base offset nullable fun d => do
    let si ← readDataHeaderForArray msg d 8 expectedLength
    readElements si 8 fun offset => readServiceInterface msg d offset elementNullable

end Members

def expectedLength (count : ℕ) : ℤ := if count = 0 then -1 else count

def unknownUnion : Value := .union maxUint32 .null

section Generated

variable (c : Context)

def decodeArray (read : Kind → ℤ → ℤ → ℕ → Decoding Value) (elem : Kind) (nullable : Bool)
    (expectedLength : ℤ) (base offset : ℤ) : Decoding Value :=
  match elem with
  | .bool => readBooleans c.message base offset nullable expectedLength
  | .number size => readNumbers c.message base size offset nullable expectedLength
  | .handle elementNullable =>
    readHandles c.message base elementNullable offset nullable expectedLength
  | .interface elementNullable =>
    readServiceInterfaces c.message base elementNullable offset nullable expectedLength
  | .string _ | .array _ _ _ | .map _ _ _ | .struct _ _ | .union _ _ | .unionPointer _ _ =>
    readTarget c.message base offset nullable fun d => do
      let si ← readDataHeaderForPointerArray c.message d expectedLength
      readElements si (if elem.isPointer then 8 else unionSize) fun offset => read elem d offset 0

def decodeStruct (read : Kind → ℤ → ℤ → ℕ → Decoding Value) (name : ℕ) (base : ℤ) :
    Decoding Value := do
  let mainDataHeader ← readAndValidateDataHeader c.message base (c.types.struct name)
  let result ← (c.types.struct name).fields.mapM' fun f =>
    if mainDataHeader.elementsOrVersion ≥ f.minVersion then
      read f.kind base (8 + f.offset : ℕ) f.bit
    else pure (c.default f)
  pure (.struct result)

-- The tag of an unknown union is -1, which no member has.
def activeMember (name : ℕ) (tag : ℤ) : Option Kind :=
  if tag < 0 then none else (c.types.union name).active tag.toNat

def decodeUnion (read : Kind → ℤ → ℤ → ℕ → Decoding Value) (name : ℕ) (base offset : ℤ) :
    Decoding Value := do
  let dataHeader ← readDataHeaderForUnion c.message base offset
  if dataHeader.size = 0 then pure .null
  else
    match activeMember c name dataHeader.elementsOrVersion with
    | none => pure unknownUnion
    | some kind => do
      let field ← read kind.inUnion base (int (offset + 8)) 0
      pure (.union dataHeader.elementsOrVersion.toNat field)

def decode : ℕ → Kind → ℤ → ℤ → ℕ → Decoding Value
  | 0, _, _, _, _ => throw .stackOverflow
  | depth + 1, kind, base, offset, bit =>
    match kind with
    | .number size => return .number (← readBits c.message base offset size)
    | .bool => return .bool (← readBoolean c.message base offset bit)
    | .handle nullable => readHandle c.message base offset nullable
    | .interface nullable => readServiceInterface c.message base offset nullable
    | .string nullable => readString c.message base c.newString offset nullable
    | .array elem count nullable =>
      decodeArray c (decode depth) elem nullable (expectedLength count) base offset
    | .map key value nullable =>
      readTarget c.message base offset nullable fun d => do
        readDataHeaderForMap c.message d
        let keys ← decodeArray c (decode depth) key false (-1) d 8
        let values ← decodeArray c (decode depth) value false keys.elems.length d 16
        pure (insertAll (keys.elems.zip values.elems))
    | .struct name nullable =>
      readTarget c.message base offset nullable (decodeStruct c (decode depth) name)
    | .union name nullable => do
      let result ← decodeUnion c (decode depth) name base offset
      match result with
      | .null => do
        throwIf (nullable = false) "Trying to decode null union for a non-nullable type."
        pure .null
      | result => pure result
    | .unionPointer name nullable =>
      readTarget c.message base offset nullable fun d => do
        visit .nestedUnion
        decodeUnion c (decode depth) name d 0

def deserialize (depth name : ℕ) : EStateM.Result Exception Validator Value :=
  decodeStruct c (decode c depth) name 0 .new

/-- `decoderForSerializedUnion`, for a union that is the root object of a message. -/
def deserializeUnion (depth name : ℕ) : EStateM.Result Exception Validator Value :=
  (do
    claimMemory c.message 0 unionSize
    decodeUnion c (decode c depth) name 0 0) .new

end Generated

end Mojo.JavaBindings
