import Mojo.CppBindings.Validate

/-!
# Decoding of pointers and handles in the C++ bindings

`DecodePointersAndHandles` turns the offsets of a message into pointers and takes its
handles out of the vector that the message keeps the indices of. The object behind a
pointer is decoded after the pointer. A handle index out of range is a crash.
-/

namespace Mojo.CppBindings

open Mojo.Memory

inductive DecodeEvent
  | entered (e : Extent)
  | taken (index : ℕ)
deriving DecidableEq, Repr

structure DecodeState where
  mem : Mem
  handles : List ℕ
  trace : List DecodeEvent

def DecodeEvent.extent : DecodeEvent → Option Extent
  | .entered e => some e
  | .taken _ => none

def DecodeEvent.index : DecodeEvent → Option ℕ
  | .entered _ => none
  | .taken index => some index

def DecodeState.entered (st : DecodeState) : List Extent := st.trace.filterMap DecodeEvent.extent

def DecodeState.taken (st : DecodeState) : List ℕ := st.trace.filterMap DecodeEvent.index

def decodePointer (slot : ℕ) (st : DecodeState) : DecodeState :=
  { st with mem := store st.mem slot 8 (target .onWire st.mem slot) }

def decodeHandle (slot : ℕ) (st : DecodeState) : Except Failure DecodeState :=
  let index := load st.mem slot 4
  if index = encodedInvalidHandle then .ok { st with mem := store st.mem slot 4 invalidHandle }
  else if index < st.handles.length then
    .ok { mem := store st.mem slot 4 (st.handles.getD index invalidHandle)
          handles := st.handles.set index invalidHandle
          trace := st.trace ++ [.taken index] }
  else .error .crash

def objectExtent (m : Mem) (kind : Kind) (t : ℕ) : Extent :=
  match kind with
  | .unionPointer _ _ => ⟨t, unionSize⟩
  | _ => ⟨t, load m t 4⟩

abbrev DecodeSlot := Slot → DecodeState → Except Failure DecodeState

def decodeObject (Γ : Types) (rec : DecodeSlot) (kind : Kind) (t : ℕ) (st : DecodeState) :
    Except Failure DecodeState :=
  forEach rec (objectSlots Γ st.mem kind t)
    { st with trace := st.trace ++ [.entered (objectExtent st.mem kind t)] }

def decodeSlot (Γ : Types) : ℕ → DecodeSlot
  | 0, _, _ => .error .fuel
  | fuel + 1, s, st =>
    match s.kind with
    | .number _ | .bool => .ok st
    | .handle _ | .interface _ => decodeHandle s.addr st
    | .union _ _ => forEach (decodeSlot Γ fuel) (objectSlots Γ st.mem s.kind s.addr) st
    | .string _ | .array _ _ _ | .map _ _ _ | .struct _ _ | .unionPointer _ _ =>
      let st := decodePointer s.addr st
      if load st.mem s.addr 8 = 0 then .ok st
      else decodeObject Γ (decodeSlot Γ fuel) s.kind (load st.mem s.addr 8) st

def decodeStruct (Γ : Types) (fuel name data : ℕ) (st : DecodeState) : Except Failure DecodeState :=
  decodeObject Γ (decodeSlot Γ fuel) (.struct name false) data st

end Mojo.CppBindings
