import Mojo.JavaBindings.Decoder
import Mojo.Wire.PackedBools

/-!
# Encoding in the Java bindings

All the encoders of a message write to one buffer, each at offsets from its own base. An object
starts where the data ends when it is claimed, and the buffer is replaced by a larger one if it is
too small. The first buffer is little-endian, the larger ones have the byte order of the host.

An interface is given by the handle that is passed for it and its version.
-/

namespace Mojo.JavaBindings

open Mojo.Memory Mojo.Wire Mojo.CppBindings

inductive ByteOrder
  | little
  | big
deriving DecidableEq, Repr

/-- `native` is the byte order of the host, `order` that of the buffer. The claims are kept as a
record of where objects were put. -/
structure EncoderState where
  native : ByteOrder
  order : ByteOrder
  mem : Mem
  capacity : ℕ
  dataEnd : ℤ
  handles : List ℕ
  claims : List (ℤ × ℤ)

abbrev Encoding := EncoderState → Except Exception EncoderState

def EncoderState.new (native : ByteOrder) (bufferSize : ℤ) : EncoderState where
  native := native
  order := .little
  mem := fun _ => 0
  capacity := if bufferSize > 0 then bufferSize.toNat else 1024
  dataEnd := 0
  handles := []
  claims := []

def storeBig (m : Mem) (a n v : ℕ) : Mem :=
  fun b => if a ≤ b ∧ b < a + n then UInt8.ofNat (v / 256 ^ (n - 1 - (b - a))) else m b

def ByteOrder.store : ByteOrder → Mem → ℕ → ℕ → ℕ → Mem
  | .little => Memory.store
  | .big => storeBig

def intBits (x : ℤ) : ℕ := (x % 2 ^ 32).toNat

def longBits (x : ℤ) : ℕ := (x % 2 ^ 64).toNat

/-- The loop that doubles the size. After 32 rounds an `int` is zero, and the loop would not end. -/
def targetSize : ℕ → ℤ → ℤ → ℤ
  | 0, target, _ => target
  | fuel + 1, target, dataEnd =>
    if target < dataEnd then targetSize fuel (int (target * 2)) dataEnd else target

def EncoderState.growIfNeeded (s : EncoderState) : EncoderState :=
  if s.capacity ≥ s.dataEnd then s
  else
    { s with
      capacity := (targetSize 32 (int (s.capacity * 2)) s.dataEnd).toNat
      order := s.native
      mem := fun b => if b < s.capacity then s.mem b else 0 }

def EncoderState.claimMemory (s : EncoderState) (size : ℤ) : EncoderState :=
  { s with
    dataEnd := int (s.dataEnd + size)
    claims := s.claims ++ [(s.dataEnd, size)] }.growIfNeeded

def putBits (index : ℤ) (size x : ℕ) : Encoding := fun s =>
  if 0 ≤ index ∧ index + size ≤ s.capacity then
    .ok { s with mem := s.order.store s.mem index.toNat size x }
  else .error .indexOutOfBounds

section Encoder

variable (base : ℤ)

def encodeBits (x : ℕ) (offset : ℤ) (size : ℕ) : Encoding := putBits (int (base + offset)) size x

def encodeBoolean (b : Bool) (offset : ℤ) (bit : ℕ) : Encoding := fun s =>
  if b then
    let index := int (base + offset)
    if 0 ≤ index ∧ index + 1 ≤ s.capacity then .ok { s with mem := setBit s.mem index.toNat bit }
    else .error .indexOutOfBounds
  else .ok s

def encodeNullPointer (offset : ℤ) (nullable : Bool) : Encoding := fun s =>
  if nullable then encodeBits base 0 offset 8 s
  else .error (.serialization "Trying to encode a null pointer for a non-nullable type.")

def encodeInvalidHandle (offset : ℤ) (nullable : Bool) : Encoding := fun s =>
  if nullable then encodeBits base (intBits (-1)) offset 4 s
  else .error (.serialization "Trying to encode an invalid handle for a non-nullable type.")

def encodeHeader (header : DataHeader) : Encoding := fun s => do
  let s := s.claimMemory (int (align header.size))
  let s ← encodeBits base (intBits header.size) 0 4 s
  encodeBits base (intBits header.elementsOrVersion) 4 4 s

def encodePointerToNextUnclaimedData (offset : ℤ) : Encoding := fun s =>
  encodeBits base (longBits (s.dataEnd - int (base + offset))) offset 8 s

def encodeHandle (v : Value) (offset : ℤ) (nullable : Bool) : Encoding := fun s =>
  match v with
  | .handle h =>
    if h = invalidHandle then encodeInvalidHandle base offset nullable s
    else do
      let s ← encodeBits base (intBits s.handles.length) offset 4 s
      .ok { s with handles := s.handles ++ [h] }
  | _ => encodeInvalidHandle base offset nullable s

def encodeInterface (v : Value) (offset : ℤ) (nullable : Bool) : Encoding := fun s =>
  match v with
  | .interface h version => do
    let s ← encodeHandle base (.handle h) offset nullable s
    encodeBits base version (int (offset + 4)) 4 s
  | _ => do
    let s ← encodeInvalidHandle base offset nullable s
    encodeBits base 0 (int (offset + 4)) 4 s

end Encoder

def getEncoderAtDataOffset (header : DataHeader) (body : ℤ → Encoding) : Encoding := fun s => do
  let base := s.dataEnd
  let s ← encodeHeader base header s
  body base s

section Objects

variable (base : ℤ)

def encoderForArrayByTotalSize (byteSize length offset : ℤ) (body : ℤ → Encoding) : Encoding :=
  fun s => do
  let s ← encodePointerToNextUnclaimedData base offset s
  getEncoderAtDataOffset ⟨int (8 + byteSize), length⟩ body s

def checkFixedLength (expectedLength length : ℤ) (s : EncoderState) :
    Except Exception EncoderState :=
  if expectedLength ≠ -1 ∧ expectedLength ≠ length then
    .error (.serialization "Trying to encode a fixed array of incorrect length.")
  else .ok s

def encoderForArray (elementSizeInByte length offset expectedLength : ℤ) (body : ℤ → Encoding) :
    Encoding := fun s => do
  let s ← checkFixedLength expectedLength length s
  encoderForArrayByTotalSize base (int (length * elementSizeInByte)) length offset body s

/-- `append`: the position is set, and the buffer or a view of it takes the array. -/
def append (size : ℕ) (values : List ℕ) : Encoding := fun s =>
  let position := int (base + 8)
  if position < 0 ∨ position > s.capacity then .error .illegalArgument
  else if (s.capacity - position.toNat) / size < values.length then .error .bufferOverflow
  else
    .ok { s with
      mem := (values.zipIdx).foldl
        (fun m x => s.order.store m (position.toNat + size * x.2) size x.1) s.mem }

def encodeBooleans (v : List Bool) (offset expectedLength : ℤ) : Encoding := fun s => do
  let s ← checkFixedLength expectedLength v.length s
  let length := (int (v.length + 7)).tdiv 8
  if length < 0 then .error .negativeArraySize
  else
    let bytes := (List.range length.toNat).map (packByte v)
    encoderForArrayByTotalSize base bytes.length v.length offset (fun base => append base 1 bytes) s

def encodeNumbers (size : ℕ) (v : List ℕ) (offset expectedLength : ℤ) : Encoding :=
  encoderForArray base size v.length offset expectedLength fun base => append base size v

end Objects

section Generated

variable (Γ : Types)

def encodeElements (size : ℕ) (write : Value → ℤ → Encoding) (elems : List Value) : Encoding :=
  forEach (fun x : Value × ℕ => write x.1 (int (8 + int (size * x.2)))) elems.zipIdx

/-- The `encode` macro for an array that is not null; `write` is the macro for its elements. -/
def encodeArray (write : Kind → Value → ℤ → ℤ → ℕ → Encoding) (elem : Kind) (elems : List Value)
    (expectedLength base offset : ℤ) : Encoding :=
  match elem with
  | .bool => encodeBooleans base (elems.map Value.toBool) offset expectedLength
  | .number size => encodeNumbers base size (elems.map Value.toNat) offset expectedLength
  | .handle elementNullable =>
    encoderForArray base 4 elems.length offset expectedLength fun base =>
      encodeElements 4 (fun v offset => encodeHandle base v offset elementNullable) elems
  | .interface elementNullable =>
    encoderForArray base 8 elems.length offset expectedLength fun base =>
      encodeElements 8 (fun v offset => encodeInterface base v offset elementNullable) elems
  | .string _ | .array _ _ _ | .map _ _ _ | .struct _ _ | .union _ _ | .unionPointer _ _ =>
    let size := if elem.isPointer then 8 else unionSize
    encoderForArray base size elems.length offset expectedLength fun base =>
      encodeElements size (fun v offset => write elem v base offset 0) elems

def encodeStruct (write : Kind → Value → ℤ → ℤ → ℕ → Encoding) (name : ℕ) (values : List Value) :
    Encoding :=
  let d := Γ.struct name
  getEncoderAtDataOffset ⟨d.last.numBytes, d.last.version⟩ fun base =>
    forEach (fun x : Field × Value => write x.1.kind x.2 base (8 + x.1.offset : ℕ) x.1.bit)
      (d.fields.zip values)

def encodeUnion (write : Kind → Value → ℤ → ℤ → ℕ → Encoding) (name tag : ℕ) (field : Value)
    (base offset : ℤ) : Encoding := fun s => do
  let s ← encodeBits base unionSize offset 4 s
  let s ← encodeBits base tag (int (offset + 4)) 4 s
  match (Γ.union name).active tag with
  | none => .ok s
  | some kind => write kind.inUnion field base (int (offset + 8)) 0 s

def encode : ℕ → Kind → Value → ℤ → ℤ → ℕ → Encoding
  | 0, _, _, _, _, _ => fun _ => .error .stackOverflow
  | depth + 1, kind, v, base, offset, bit =>
    match kind, v with
    | .number size, v => encodeBits base v.toNat offset size
    | .bool, v => encodeBoolean base v.toBool offset bit
    | .handle nullable, v => encodeHandle base v offset nullable
    | .interface nullable, v => encodeInterface base v offset nullable
    | .string _, .string bytes => encodeNumbers base 1 (bytes.map UInt8.toNat) offset (-1)
    | .array elem count _, .array elems =>
      encodeArray (encode depth) elem elems (expectedLength count) base offset
    | .map key value _, .map keys values => fun s => do
      let s ← encodePointerToNextUnclaimedData base offset s
      getEncoderAtDataOffset ⟨24, 0⟩ (fun base s => do
        let s ← encodeArray (encode depth) key keys (-1) base 8 s
        encodeArray (encode depth) value values (-1) base 16 s) s
    | .struct name _, .struct values => fun s => do
      let s ← encodePointerToNextUnclaimedData base offset s
      encodeStruct Γ (encode depth) name values s
    | .union name _, .union tag field => encodeUnion Γ (encode depth) name tag field base offset
    | .union _ nullable, _ => fun s =>
      if nullable then do
        let s ← encodeBits base 0 offset 8 s
        encodeBits base 0 (int (offset + 8)) 8 s
      else .error (.serialization "Trying to encode a null pointer for a non-nullable type.")
    | .unionPointer name _, .union tag field => fun s => do
      let s ← encodePointerToNextUnclaimedData base offset s
      encodeUnion Γ (encode depth) name tag field s.dataEnd 0 (s.claimMemory 16)
    | kind, _ => encodeNullPointer base offset kind.isNullable

/-- `getMessage`, after `serialize` of a struct with a hint for the size of the buffer. -/
def serialize (native : ByteOrder) (sizeHint : ℤ) (depth name : ℕ) (values : List Value) :
    Except Exception EncoderState :=
  encodeStruct Γ (encode Γ depth) name values (.new native sizeHint)

def serializeUnion (native : ByteOrder) (sizeHint : ℤ) (depth name tag : ℕ) (field : Value) :
    Except Exception EncoderState :=
  encodeUnion Γ (encode Γ depth) name tag field 0 0
    ((EncoderState.new native sizeHint).claimMemory 16)

end Generated

end Mojo.JavaBindings
