import Mojo.RustBindings.Encoding

/-!
# Decoding in the Rust bindings

A `Decoder` claims the objects of a buffer in increasing order. Every object has a
`DecodingState` that reads its slice at a cursor of bytes and bits. Reads are not checked
in a release build; here a read outside of the slice is a failure. The bytes of the buffer
are not changed, and so are a parameter. `deserialize` gives the value of a struct or a failure.

`read_in_place` takes the bytes in the order of the host. The host is little-endian here and in the
modules that build on this one.
-/

namespace Mojo.RustBindings

open Mojo.Memory Mojo.CppBindings Mojo.Wire

structure DecodingState where
  size : ℕ
  globalOffset : ℕ
  offset : ℕ
  bitOffset : ℕ
deriving DecidableEq, Repr

abbrev DecodingState.Action (α : Type) := DecodingState → Except Failure (α × DecodingState)

namespace DecodingState

variable (m : Mem)

def alignToByte (s : DecodingState) : DecodingState :=
  if 0 < s.bitOffset then { s with offset := s.offset + 1, bitOffset := 0 } else s

def alignToBytes (s : DecodingState) (bytes : ℕ) : DecodingState :=
  if s.offset ≠ 0 then { s with offset := alignBytes s.offset bytes } else s

def readInPlace (numBytes : ℕ) (s : DecodingState) : Except Failure ℕ :=
  if numBytes + s.offset ≤ s.size then .ok (load m (s.globalOffset + s.offset) numBytes)
  else .error .outside

def read (numBytes : ℕ) : Action ℕ := fun s => do
  let value ← s.readInPlace m numBytes
  .ok (value, { s with bitOffset := 0, offset := s.offset + numBytes })

def decode (numBytes : ℕ) : Action ℕ :=
  fun s => read m numBytes (s.alignToByte.alignToBytes numBytes)

def decodeBool : Action Bool := fun s =>
  if s.offset < s.size then
    let bitOffset := s.bitOffset + 1
    .ok ((m (s.globalOffset + s.offset)).toNat.testBit s.bitOffset,
      { s with offset := s.offset + bitOffset / 8, bitOffset := bitOffset % 8 })
  else .error .panic

/-- The four functions that skip a null value: they look at a number of `numBytes` bytes and,
if it is null, move past `skip` bytes. -/
def skipIfNull (numBytes : ℕ) (isNull : ℕ → Bool) (skip : ℕ) : Action Bool := fun s => do
  let s := s.alignToByte.alignToBytes numBytes
  let value ← s.readInPlace m numBytes
  .ok (isNull value, if isNull value then { s with offset := s.offset + skip } else s)

def skipIfNullPointer : Action Bool := skipIfNull m 8 (· == 0) 8

def skipIfNullUnion : Action Bool := fun s => do
  let s := s.alignToByte.alignToBytes 8
  let size ← s.readInPlace m 4
  .ok (size == 0, if size == 0 then { s with offset := s.offset + unionSize } else s)

def alignUnion : Action Unit := fun s => .ok ((), s.alignToByte.alignToBytes 8)

def isNegative (n : ℕ) : Bool := 2 ^ 31 ≤ n

def skipIfNullHandle : Action Bool := skipIfNull m 4 isNegative 4

def skipIfNullInterface : Action Bool := skipIfNull m 4 isNegative 8

def decodePointer : Action (Option ℕ) := fun s => do
  let s := s.alignToByte.alignToBytes 8
  let currentLocation := s.globalOffset + s.offset
  let (offset, s) ← read m 8 s
  if offset = 0 then .ok (some 0, s)
  else .ok (if offset + currentLocation < 2 ^ 64 then some (offset + currentLocation) else none, s)

def decodeArrayHeader (elem : Kind) : Action ℕ := fun s => do
  if s.size < 4 then .error (.invalid .unexpectedArrayHeader)
  else do
    let (bytes, s) ← decode m 4 s
    if bytes < dataHeaderSize then .error (.invalid .unexpectedArrayHeader)
    else do
      let (elems, s) ← decode m 4 s
      if bytes < bitsToBytes (embedSize ⟨0, false⟩ elem * elems) + dataHeaderSize then
        .error (.invalid .unexpectedArrayHeader)
      else .ok (elems, s)

/-- The version. The binary search for it finds the newest listed version that is not newer,
and panics if there is none. -/
def decodeStructHeader (d : StructType) : Action ℕ := fun s => do
  if s.size < 4 then .error (.invalid .unexpectedStructHeader)
  else do
    let (bytes, s) ← decode m 4 s
    if bytes < dataHeaderSize then .error (.invalid .unexpectedStructHeader)
    else do
      let (version, s) ← decode m 4 s
      match d.newest version with
      | none => .error .panic
      | some v =>
        if v.version = version then
          if bytes ≠ v.numBytes then .error (.invalid .unexpectedStructHeader)
          else .ok (version, s)
        else if d.last.version < version ∧ bytes < v.numBytes ∨ version ≤ d.last.version ∧
          bytes ≠ v.numBytes then
          .error (.invalid .unexpectedStructHeader)
        else .ok (version, s)

end DecodingState

structure Decoder where
  bytes : ℕ
  states : List DecodingState
  handles : List ℕ
  handlesClaimed : ℕ
  maxOffset : ℕ
deriving DecidableEq, Repr

namespace Decoder

def new (size : ℕ) (handles : List ℕ) : Decoder where
  bytes := 0
  states := []
  handles := handles
  handlesClaimed := 0
  maxOffset := size

def claim (m : Mem) (d : Decoder) (offset : ℕ) : Except Failure (Context × Decoder) :=
  if offset < d.bytes then .error (.invalid .illegalMemoryRange)
  else if offset % 8 ≠ 0 then .error (.invalid .misalignedObject)
  else if d.maxOffset < offset then .error (.invalid .illegalPointer)
  else if d.maxOffset - offset < 4 then .error (.invalid .illegalMemoryRange)
  else
    let size := load m offset 4
    if d.maxOffset - offset < size then .error (.invalid .illegalMemoryRange)
    else .ok (⟨d.states.length, false⟩,
      { d with
        bytes := offset + size
        states :=
          d.states ++ [{ size := size, globalOffset := offset, offset := 0, bitOffset := 0 }] })

def claimHandle (d : Decoder) (index : ℕ) : Except Failure (ℕ × Decoder) :=
  if DecodingState.isNegative index then .error (.invalid .unexpectedInvalidHandle)
  else if d.handles.length ≤ index ∨ index < d.handlesClaimed then .error (.invalid .illegalHandle)
  else .ok (d.handles.getD index 0, { d with handlesClaimed := index + 1 })

def update {α : Type} (d : Decoder) (context : Context) (act : DecodingState.Action α) :
    Except Failure (α × Decoder) :=
  match d.states[context.id]? with
  | none => .error .panic
  | some s => do
    let (a, s) ← act s
    .ok (a, { d with states := d.states.set context.id s })

end Decoder

def isUtf8 (bytes : List UInt8) : Bool := (ByteArray.mk bytes.toArray).validateUTF8

def defaultValue : Kind → Value
  | .number _ => .number 0
  | .bool => .bool false
  | .string false => .string []
  | .array _ _ false => .array []
  | .map _ _ false => .map [] []
  | _ => .null

def mapVersions : StructType where
  versions := [⟨0, mapSize⟩]
  fields := []

abbrev Decode := Kind → Context → Decoder → Except Failure (Value × Decoder)

section Values

variable (Γ : Types) (m : Mem) (decode : Decode)

def arrayClaimAndDecodeHeader (elem : Kind) (offset : ℕ) (d : Decoder) :
    Except Failure (Context × ℕ × Decoder) := do
  let (context, d) ← d.claim m offset
  let (elems, d) ← d.update context (DecodingState.decodeArrayHeader m elem)
  .ok (context, elems, d)

def decodeMap (key value : Kind) (context : Context) (d : Decoder) :
    Except Failure (Value × Decoder) := do
  let (_, d) ← d.update context (DecodingState.decodeStructHeader m mapVersions)
  let (keysOffset, d) ← d.update context (DecodingState.decodePointer m)
  match keysOffset with
  | none => .error (.invalid .illegalPointer)
  | some keysOffset => do
    let (valsOffset, d) ← d.update context (DecodingState.decodePointer m)
    match valsOffset with
    | none => .error (.invalid .illegalPointer)
    | some valsOffset => do
      if keysOffset = 0 ∨ valsOffset = 0 then .error (.invalid .unexpectedNullPointer)
      else do
        let (keysContext, keysElems, d) ← arrayClaimAndDecodeHeader m key keysOffset d
        let (keys, d) ←
          collect (fun _ d => decode key keysContext d) (List.replicate keysElems ()) d
        let (valsContext, valsElems, d) ← arrayClaimAndDecodeHeader m value valsOffset d
        if keysElems ≠ valsElems then .error (.invalid .differentSizedArraysInMap)
        else do
          let (values, d) ← collect (fun _ d => decode value valsContext d)
            (List.replicate keysElems ()) d
          .ok (insertAll (keys.zip values), d)

def decodeValue (kind : Kind) (context : Context) (d : Decoder) :
    Except Failure (Value × Decoder) :=
  match kind with
  | .string _ => do
    let (elems, d) ← d.update context (DecodingState.decodeArrayHeader m (.number 1))
    let (bytes, d) ← collect (fun _ d => d.update context (DecodingState.decode m 1))
      (List.replicate elems ()) d
    let bytes := bytes.map UInt8.ofNat
    if isUtf8 bytes then .ok (.string bytes, d) else .error .panic
  | .array elem count _ => do
    let (elems, d) ← d.update context (DecodingState.decodeArrayHeader m elem)
    if count ≠ 0 ∧ elems ≠ count then .error (.invalid .unexpectedArrayHeader)
    else do
      let (elems, d) ← collect (fun _ d => decode elem context d) (List.replicate elems ()) d
      .ok (.array elems, d)
  | .map key value _ => decodeMap m decode key value context d
  | .struct name _ => do
    let (version, d) ← d.update context (DecodingState.decodeStructHeader m (Γ.struct name))
    let (fields, d) ← collect (fun (f : Field) d =>
      if f.minVersion ≤ version then decode f.kind context d else .ok (defaultValue f.kind, d))
      (Γ.struct name).fields d
    .ok (.struct fields, d)
  | _ => .error .panic

def decodeNew (kind : Kind) (pointer : ℕ) (d : Decoder) : Except Failure (Value × Decoder) := do
  let (newContext, d) ← d.claim m pointer
  decodeValue Γ m decode kind newContext d

def decodeUnion (name : ℕ) (context : Context) (d : Decoder) :
    Except Failure (Value × Decoder) := do
  let (bytes, d) ← d.update context (DecodingState.decode m 4)
  if bytes ≠ unionSize then .error (.invalid .unexpectedNullUnion)
  else do
    let (tag, d) ← d.update context (DecodingState.decode m 4)
    let (field, d) ← decode (variant Γ name tag) context d
    .ok (.union (if (Γ.union name).active tag = none then 2 ^ 32 - 1 else tag) field, d)

def pointerDecode (kind : Kind) (context : Context) (d : Decoder) :
    Except Failure (Value × Decoder) := do
  let (ptr, d) ← d.update context (DecodingState.decodePointer m)
  match ptr with
  | none => .error (.invalid .illegalPointer)
  | some ptr =>
    if ptr = 0 then .error (.invalid .unexpectedNullPointer) else decodeNew Γ m decode kind ptr d

def nestedDecode (name : ℕ) (context : Context) (d : Decoder) :
    Except Failure (Value × Decoder) := do
  let (globalOffset, d) ← d.update context (DecodingState.decodePointer m)
  match globalOffset with
  | none => .error (.invalid .illegalPointer)
  | some globalOffset =>
    if globalOffset = 0 then .error (.invalid .unexpectedNullPointer)
    else do
      let (newContext, d) ← d.claim m globalOffset
      decodeUnion Γ m decode name newContext d

def inlineDecode (name : ℕ) (context : Context) (d : Decoder) :
    Except Failure (Value × Decoder) := do
  let (_, d) ← d.update context DecodingState.alignUnion
  let (value, d) ← decodeUnion Γ m decode name context d
  let (_, d) ← d.update context DecodingState.alignUnion
  .ok (value, d)

end Values

def decodeOption (nullable : Bool) (skip : DecodingState.Action Bool) (context : Context)
    (decode : Decoder → Except Failure (Value × Decoder)) (d : Decoder) :
    Except Failure (Value × Decoder) :=
  if nullable then do
    let (skipped, d) ← d.update context skip
    if skipped then .ok (.null, d) else decode d
  else decode d

def decodeHandle (m : Mem) (context : Context) (d : Decoder) :
    Except Failure (Value × Decoder) := do
  let (index, d) ← d.update context (DecodingState.decode m 4)
  let (handle, d) ← d.claimHandle index
  .ok (.handle handle, d)

/-- An interface in Rust has the version of its type. Values have it beside the handle, so it is
kept as it was read. -/
def decodeInterface (m : Mem) (context : Context) (d : Decoder) :
    Except Failure (Value × Decoder) := do
  let (index, d) ← d.update context (DecodingState.decode m 4)
  let (version, d) ← d.update context (DecodingState.decode m 4)
  let (handle, d) ← d.claimHandle index
  .ok (.interface handle version, d)

def decode (Γ : Types) (m : Mem) : ℕ → Decode
  | _, .number size, context, d => do
    let (n, d) ← d.update context (DecodingState.decode m size)
    .ok (.number n, d)
  | _, .bool, context, d => do
    let (b, d) ← d.update context (DecodingState.decodeBool m)
    .ok (.bool b, d)
  | _, .handle nullable, context, d =>
    decodeOption nullable (DecodingState.skipIfNullHandle m) context (decodeHandle m context) d
  | _, .interface nullable, context, d =>
    decodeOption nullable (DecodingState.skipIfNullInterface m) context
      (decodeInterface m context) d
  | fuel, .union name nullable, context, d =>
    decodeOption nullable (DecodingState.skipIfNullUnion m) context (fun d =>
      match fuel with
      | 0 => .error .fuel
      | fuel + 1 =>
        if context.isUnion then nestedDecode Γ m (decode Γ m fuel) name context d
        else inlineDecode Γ m (decode Γ m fuel) name (context.setIsUnion true) d) d
  | fuel, kind, context, d =>
    decodeOption kind.isNullable (DecodingState.skipIfNullPointer m) context (fun d =>
      match fuel with
      | 0 => .error .fuel
      | fuel + 1 => pointerDecode Γ m (decode Γ m fuel) kind context d) d

def deserialize (Γ : Types) (m : Mem) (fuel name size : ℕ) (handles : List ℕ) :
    Except Failure Value := do
  let (value, _) ← decodeNew Γ m (decode Γ m fuel) (.struct name false) 0 (.new size handles)
  .ok value

end Mojo.RustBindings
