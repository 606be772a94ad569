import Mojo.Wire.Value

/-!
# Unions in the JavaScript bindings

The generated `decode` of a union reads the size and the tag, lets the codec of the member read it,
and rounds the position of the decoder up. Nothing is read for a tag that it does not know, and so
nothing is there to round up.
-/

namespace Mojo.JsBindings

open Mojo.Memory Mojo.CppBindings Mojo.Wire

structure Decoder where
  buffer : Mem
  handles : List ℕ
  next : ℕ

def Decoder.skip (d : Decoder) (offset : ℕ) : Decoder := { d with next := d.next + offset }

def Decoder.align (d : Decoder) : Decoder := { d with next := d.next + (8 - d.next % 8) % 8 }

def Decoder.decodeHandle (d : Decoder) : Value :=
  match d.handles[load d.buffer d.next 4]? with
  | some handle => .handle handle
  | none => .null

/-- The codec of a member. `object` is what a decoder of its own makes of the pointer at `next`. -/
def Decoder.decodeMember (object : Kind → Decoder → Value) (d : Decoder) : Kind → Value × Decoder
  | .number size => (.number (load d.buffer d.next size), d.skip size)
  | .bool => (.number (load d.buffer d.next 1), d.skip 1)
  | .handle _ => (d.decodeHandle, d.skip 4)
  | .interface _ => (d.decodeHandle, d.skip 8)
  | kind => (object kind d, d.skip 8)

structure Union where
  fields : List (ℕ × Kind)

def Union.kind (u : Union) (tag : ℕ) : Option Kind :=
  (u.fields.find? fun f => f.1 = tag).map Prod.snd

inductive UnionValue
  | null
  | unset
  | member (tag : ℕ) (v : Value)

def Union.decode (u : Union) (object : Kind → Decoder → Value) (d : Decoder) :
    UnionValue × Decoder :=
  if load d.buffer d.next 4 = 0 then (.null, d.skip 16)
  else
    let tag := load d.buffer (d.next + 4) 4
    match u.kind tag with
    | none => (.unset, (d.skip 8).align)
    | some kind =>
      let (v, d) := (d.skip 8).decodeMember object kind
      (.member tag v, d.align)

inductive ValidationError
  | none
  | unexpectedNullUnion
  | invalidUnionSize
  | member (code : ℕ)
deriving DecidableEq

def Union.validate (u : Union) (member : Kind → ℕ → ValidationError) (nullable : Bool)
    (buffer : Mem) (offset : ℕ) :
    ValidationError :=
  if load buffer offset 4 = 0 then if nullable then .none else .unexpectedNullUnion
  else if load buffer offset 4 ≠ unionSize then .invalidUnionSize
  else match u.kind (load buffer (offset + 4) 4) with
    | none => .none
    | some kind => member kind (offset + 8)

theorem decodeMember_next {kind : Kind} (h : kind.isMember) (object : Kind → Decoder → Value)
    (d : Decoder) :
    ∃ n, 0 < n ∧ n ≤ 8 ∧ (d.decodeMember object kind).2 = d.skip n := by
  cases kind with
  | number size =>
    refine ⟨size, ?_, ?_, rfl⟩ <;> simp [Kind.isMember] at h <;> omega
  | bool => exact ⟨1, by decide, by decide, rfl⟩
  | handle => exact ⟨4, by decide, by decide, rfl⟩
  | _ => exact ⟨8, by decide, by decide, rfl⟩

theorem kind_isMember {u : Union} (h : ∀ f ∈ u.fields, f.2.isMember) {tag : ℕ} {kind : Kind}
    (hkind : u.kind tag = some kind) : kind.isMember := by
  obtain ⟨f, hf, rfl⟩ := Option.map_eq_some_iff.mp hkind
  exact h f (List.mem_of_find?_eq_some hf)

/-- The decoder has advanced by 16 bytes if and only if the union is null or the tag is known.
Validation accepts the tags that are not. -/
theorem decode_next_iff {u : Union} (h : ∀ f ∈ u.fields, f.2.isMember = true)
    (object : Kind → Decoder → Value) {d : Decoder} (h8 : d.next % 8 = 0) :
    ((u.decode object d).2.next = d.next + 16 ↔
      load d.buffer d.next 4 = 0 ∨ u.kind (load d.buffer (d.next + 4) 4) ≠ none) ∧
    ∀ member nullable, load d.buffer d.next 4 = unionSize → u.kind (load d.buffer (d.next + 4) 4) =
      none → u.validate member nullable d.buffer d.next = .none := by
  refine ⟨?_, fun member nullable hsize hkind => ?_⟩
  · unfold Union.decode
    by_cases h0 : load d.buffer d.next 4 = 0
    · simp [h0, Decoder.skip]
    · cases hkind : u.kind (load d.buffer (d.next + 4) 4) with
      | none =>
        simp only [h0, ↓reduceIte, hkind, Decoder.align, Decoder.skip, ne_eq, not_true_eq_false,
          or_self, iff_false]
        omega
      | some kind =>
        obtain ⟨n, hpos, hle, hnext⟩ := decodeMember_next (kind_isMember h hkind) object (d.skip 8)
        simp only [h0, ↓reduceIte, hkind, hnext, ne_eq, reduceCtorEq, not_false_eq_true, or_true,
          iff_true]
        simp only [Decoder.align, Decoder.skip]
        omega
  · simp [Union.validate, hsize, hkind, unionSize]

def laterTag (tag : UInt8) : Decoder :=
  ⟨block 0 [16, 0, 0, 0, tag, 0, 0, 0, 1, 0, 0, 0, 0, 0, 0, 0], [], 0⟩

theorem decode_next_known :
    ((⟨[(0, .number 4)]⟩ : Union).decode (fun _ _ => .null) (laterTag 0)).2.next = 0 + 16 :=
  (decode_next_iff (by decide) _ rfl).1.mpr (by decide +kernel)

theorem decode_next_unknown : ∃ u : Union, u.validate (fun _ _ => .none) false (laterTag 1).buffer
    0 = .none ∧ (u.decode (fun _ _ => .null) (laterTag 1)).2.next = 8 :=
  ⟨⟨[(0, .number 4)]⟩, by decide +kernel, by decide +kernel⟩

end Mojo.JsBindings
