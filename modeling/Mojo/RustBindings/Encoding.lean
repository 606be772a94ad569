import Mojo.Wire.Value
import Mojo.Memory.Traced

/-!
# Encoding in the Rust bindings

An `Encoder` splits the objects off a buffer one after another. Every object has an
`EncodingState` that writes to the object's slice at a cursor of bytes and bits. A
`Context` is the index of a state together with a flag that is set directly inside of a
union: there another union is behind a pointer.

`MojomEncodable` is implemented by the types behind the kinds. A slice is given by where it
starts in the buffer and its length; a write outside of the slice is a failed assertion in a debug
build, and a failure here. Sizes and offsets are `usize` and do not overflow. Numbers are written
little-endian, whatever the byte order of the host.
-/

namespace Mojo.RustBindings

open Mojo.Memory Mojo.CppBindings Mojo.Wire

inductive ValidationError
  | differentSizedArraysInMap
  | illegalHandle
  | illegalMemoryRange
  | illegalPointer
  | messageHeaderInvalidFlags
  | messageHeaderMissingRequestId
  | messageHeaderUnknownMethod
  | misalignedObject
  | unexpectedArrayHeader
  | unexpectedInvalidHandle
  | unexpectedNullPointer
  | unexpectedNullUnion
  | unexpectedStructHeader
deriving DecidableEq, Repr

/-- Why a run ends early: an error that it returns, a panic, an access outside of an
object's slice, or the end of the fuel. -/
inductive Failure
  | invalid (error : ValidationError)
  | panic
  | outside
  | fuel
deriving DecidableEq, Repr

def alignBytes (size bytes : ℕ) : ℕ := (size + bytes - 1) / bytes * bytes

def bitsToBytes (bits : ℕ) : ℕ := (bits + 7) / 8

def alignDefault (bytes : ℕ) : ℕ := alignBytes bytes 8

def dataHeaderSize : ℕ := 8

def mapSize : ℕ := 24

def pointerBitSize : ℕ := 64

structure Context where
  id : ℕ
  isUnion : Bool
deriving DecidableEq, Repr

def Context.setIsUnion (c : Context) (value : Bool) : Context := { c with isUnion := value }

/-- The state of an object whose slice has `size` bytes and starts at `globalOffset`. -/
structure EncodingState where
  size : ℕ
  globalOffset : ℕ
  offset : ℕ
  bitOffset : ℕ
deriving DecidableEq, Repr

abbrev EncodingState.Action := EncodingState → Mem → Except Failure (EncodingState × Mem)

namespace EncodingState

def alignToByte (s : EncodingState) : EncodingState :=
  if 0 < s.bitOffset then { s with offset := s.offset + 1, bitOffset := 0 } else s

def alignToBytes (s : EncodingState) (bytes : ℕ) : EncodingState :=
  { s with offset := alignBytes s.offset bytes }

def write (numBytes data : ℕ) : Action := fun s m =>
  if numBytes + s.offset ≤ s.size then
    .ok ({ s with bitOffset := 0, offset := s.offset + numBytes },
      store m (s.globalOffset + s.offset) numBytes data)
  else .error .outside

def encode (numBytes data : ℕ) : Action := fun s m =>
  write numBytes data (s.alignToByte.alignToBytes numBytes) m

def encodeBool (data : Bool) : Action := fun s m =>
  let bitOffset := s.bitOffset + 1
  let next := { s with offset := s.offset + bitOffset / 8, bitOffset := bitOffset % 8 }
  if data then
    if s.offset < s.size then .ok (next, setBit m (s.globalOffset + s.offset) s.bitOffset)
    else .error .panic
  else .ok (next, m)

def encodeNullUnion : Action := fun s m => do
  let (s, m) ← write 4 0 (s.alignToByte.alignToBytes 8) m
  let (s, m) ← write 4 0 s m
  write 8 0 s m

def encodeNullPointer : Action := fun s m => encode 8 0 (s.alignToByte.alignToBytes 8) m

def encodeNullHandle : Action := fun s m =>
  encode 4 (2 ^ 32 - 1) (s.alignToByte.alignToBytes 4) m

def startUnion (tag : ℕ) : Action := fun s m => do
  let (s, m) ← encode 4 unionSize (s.alignToBytes 8) m
  encode 4 tag s m

def finishUnion : Action := fun s m => .ok ((s.alignToBytes 8).alignToByte, m)

def encodePointer (location : ℕ) : Action := fun s m =>
  let s := s.alignToByte.alignToBytes 8
  let currentLocation := s.globalOffset + s.offset
  if currentLocation ≤ location then encode 8 (location - currentLocation) s m
  else .error .panic

end EncodingState

structure Encoder where
  bytes : ℕ
  size : ℕ
  states : List EncodingState
  handles : List ℕ
  mem : Mem

namespace Encoder

def new (size : ℕ) : Encoder where
  bytes := 0
  size := size
  states := []
  handles := []
  mem := fun _ => 0

/-- `add` with the header's size and data as `u32`, and the `unwrap` of its result. -/
def add (e : Encoder) (size data : ℕ) : Except Failure (Context × Encoder) :=
  let objBytes := size % 2 ^ 32
  if e.size - e.bytes < objBytes then .error .panic
  else do
    let (s, m) ← EncodingState.write 4 objBytes
      { size := objBytes, globalOffset := e.bytes, offset := 0, bitOffset := 0 } e.mem
    let (s, m) ← EncodingState.write 4 (data % 2 ^ 32) s m
    let rest := e.size - e.bytes - objBytes
    let paddingBytes := alignDefault objBytes - objBytes
    let bytes := e.bytes + objBytes + if paddingBytes ≤ rest then paddingBytes else 0
    .ok (⟨e.states.length, false⟩, { e with bytes := bytes, states := e.states ++ [s], mem := m })

def addHandle (e : Encoder) (handle : ℕ) : ℕ × Encoder :=
  (e.handles.length, { e with handles := e.handles ++ [handle] })

def update (e : Encoder) (context : Context) (act : EncodingState.Action) :
    Except Failure Encoder :=
  match e.states[context.id]? with
  | none => .error .panic
  | some s => do
    let (s, m) ← act s e.mem
    .ok { e with states := e.states.set context.id s, mem := m }

end Encoder

def embedSize (context : Context) : Kind → ℕ
  | .number size => 8 * size
  | .bool => 1
  | .handle _ => 32
  | .interface _ => 64
  | .string _ | .array _ _ _ | .map _ _ _ | .struct _ _ => pointerBitSize
  | .union _ _ | .unionPointer _ _ => if context.isUnion then pointerBitSize else 128

def serializedSize (Γ : Types) (context : Context) : Kind → Value → ℕ
  | .string _, .string bytes => dataHeaderSize + bytes.length
  | .array elem _ _, .array elems =>
    dataHeaderSize + if 0 < elems.length then
      bitsToBytes (embedSize context elem * elems.length) else 0
  | .map _ _ _, _ => mapSize
  | .struct name _, _ => (Γ.struct name).last.numBytes
  | _, _ => 0

def headerData (Γ : Types) : Kind → Value → ℕ
  | .string _, .string bytes => bytes.length
  | .array _ _ _, .array elems => elems.length
  | .struct name _, _ => (Γ.struct name).last.version
  | _, _ => 0

/-- The variant of a union that a tag stands for; other tags are for the unknown variant,
which holds a `u64`. -/
def variant (Γ : Types) (name tag : ℕ) : Kind := ((Γ.union name).active tag).getD (.number 8)

def computeSize (Γ : Types) : ℕ → Kind → Value → Context → ℕ
  | _ + 1, .string nullable, .string bytes, context =>
    alignDefault (serializedSize Γ context (.string nullable) (.string bytes))
  | fuel + 1, .array elem count nullable, .array elems, context =>
    alignDefault (serializedSize Γ context (.array elem count nullable) (.array elems)) +
      (elems.map fun v => computeSize Γ fuel elem v context).sum
  | fuel + 1, .map key value _, .map keys values, context =>
    let size := alignDefault mapSize
    let size := size + dataHeaderSize + bitsToBytes (embedSize context key * keys.length)
    let size := alignDefault size
    let size := size + (keys.map fun v => computeSize Γ fuel key v context).sum
    let size := alignDefault size
    let size := size + dataHeaderSize + bitsToBytes (embedSize context value * keys.length)
    let size := alignDefault size
    let size := size + (values.map fun v => computeSize Γ fuel value v context).sum
    alignDefault size
  | fuel + 1, .struct name _, .struct fields, context =>
    alignDefault (Γ.struct name).last.numBytes +
      (List.zipWith (fun f v => computeSize Γ fuel f.kind v context)
        (Γ.struct name).fields fields).sum
  | fuel + 1, .union name _, .union tag field, context =>
    unionSize + computeSize Γ fuel (variant Γ name tag) field context
  | _, _, _, _ => 0

abbrev Encode := Kind → Value → Context → Encoder → Except Failure Encoder

def encodeValue (Γ : Types) (encode : Encode) (kind : Kind) (v : Value) (context : Context)
    (e : Encoder) : Except Failure Encoder :=
  match kind, v with
  | .string _, .string bytes =>
    forEach (fun b e => e.update context (EncodingState.encode 1 b.toNat)) bytes e
  | .array elem _ _, .array elems => forEach (fun v e => encode elem v context e) elems e
  | .map key value _, .map keys values => do
    let e ← e.update context (EncodingState.encodePointer e.bytes)
    let keysBytes := dataHeaderSize + bitsToBytes (embedSize context key * keys.length)
    let (keysContext, e) ← e.add keysBytes keys.length
    let e ← forEach (fun k e => encode key k keysContext e) keys e
    encode (.array value 0 false) (.array values) context e
  | .struct name _, .struct fields =>
    forEach (fun p e => encode p.1 p.2 context e)
      (((Γ.struct name).fields.map Field.kind).zip fields) e
  | _, _ => .error .panic

def encodeNew (Γ : Types) (encode : Encode) (kind : Kind) (v : Value) (context : Context)
    (e : Encoder) : Except Failure Encoder := do
  let (newContext, e) ← e.add (serializedSize Γ context kind v) (headerData Γ kind v)
  encodeValue Γ encode kind v newContext e

def nestedEncode (Γ : Types) (encode : Encode) (name tag : ℕ) (field : Value) (context : Context)
    (e : Encoder) : Except Failure Encoder := do
  let e ← e.update context (EncodingState.encodePointer e.bytes)
  let (newContext, e) ← e.add unionSize tag
  encode (variant Γ name tag) field (newContext.setIsUnion true) e

def inlineEncode (Γ : Types) (encode : Encode) (name tag : ℕ) (field : Value) (context : Context)
    (e : Encoder) : Except Failure Encoder := do
  let e ← e.update context (EncodingState.startUnion tag)
  let e ← encode (variant Γ name tag) field context e
  e.update context EncodingState.finishUnion

def encode (Γ : Types) : ℕ → Encode
  | _, .number size, .number n, context, e => e.update context (EncodingState.encode size n)
  | _, .bool, .bool b, context, e => e.update context (EncodingState.encodeBool b)
  | _, .handle _, .handle h, context, e =>
    let (pos, e) := e.addHandle h
    e.update context (EncodingState.encode 4 pos)
  | _, .interface _, .interface h version, context, e => do
    let (pos, e) := e.addHandle h
    let e ← e.update context (EncodingState.encode 4 pos)
    e.update context (EncodingState.encode 4 version)
  | _, .handle _, .null, context, e => e.update context EncodingState.encodeNullHandle
  | _, .interface _, .null, context, e => do
    let e ← e.update context EncodingState.encodeNullHandle
    e.update context (EncodingState.encode 4 0)
  | _, .union _ _, .null, context, e => e.update context EncodingState.encodeNullUnion
  | _, .string _, .null, context, e | _, .array _ _ _, .null, context, e
  | _, .map _ _ _, .null, context, e | _, .struct _ _, .null, context, e =>
    e.update context EncodingState.encodeNullPointer
  | fuel + 1, .union name _, .union tag field, context, e =>
    if context.isUnion then nestedEncode Γ (encode Γ fuel) name tag field context e
    else inlineEncode Γ (encode Γ fuel) name tag field (context.setIsUnion true) e
  | fuel + 1, .string nullable, .string bytes, context, e => do
    let e ← e.update context (EncodingState.encodePointer e.bytes)
    encodeNew Γ (encode Γ fuel) (.string nullable) (.string bytes) context e
  | fuel + 1, .array elem count nullable, .array elems, context, e => do
    let e ← e.update context (EncodingState.encodePointer e.bytes)
    encodeNew Γ (encode Γ fuel) (.array elem count nullable) (.array elems) context e
  | fuel + 1, .map key value nullable, .map keys values, context, e => do
    let e ← e.update context (EncodingState.encodePointer e.bytes)
    encodeNew Γ (encode Γ fuel) (.map key value nullable) (.map keys values) context e
  | fuel + 1, .struct name nullable, .struct fields, context, e => do
    let e ← e.update context (EncodingState.encodePointer e.bytes)
    encodeNew Γ (encode Γ fuel) (.struct name nullable) (.struct fields) context e
  | 0, _, _, _, _ => .error .fuel
  | _, _, _, _, _ => .error .panic

/-- `auto_serialize` of a struct, with the buffer and the handles it returns. -/
def autoSerialize (Γ : Types) (fuel name : ℕ) (fields : List Value) : Except Failure Encoder :=
  let size := computeSize Γ (fuel + 1) (.struct name false) (.struct fields) ⟨0, false⟩
  encodeNew Γ (encode Γ fuel) (.struct name false) (.struct fields) ⟨0, false⟩ (.new size)

end Mojo.RustBindings
