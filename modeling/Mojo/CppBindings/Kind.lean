import Mojo.Memory.Relative
import Mathlib.Data.List.Basic

/-!
# The data types behind the C++ bindings

For every mojom struct and union the generator emits a class that describes how
its values lie in a message. A `Kind` is the type of one member of such a class
or of one element of an array: what the templates branch on. Structs and unions
refer to each other by name and may be recursive, so they are kept in tables.
A union is stored inline in a struct or array and behind a pointer in a union.
-/

namespace Mojo.CppBindings

open Mojo.Memory

inductive Kind
  | number (size : ℕ)
  | bool
  | handle (nullable : Bool)
  | interface (nullable : Bool)
  | string (nullable : Bool)
  | array (elem : Kind) (count : ℕ) (nullable : Bool)
  | map (key value : Kind) (nullable : Bool)
  | struct (name : ℕ) (nullable : Bool)
  | union (name : ℕ) (nullable : Bool)
  | unionPointer (name : ℕ) (nullable : Bool)
deriving DecidableEq, Repr

namespace Kind

def isPointer : Kind → Bool
  | .string _ | .array _ _ _ | .map _ _ _ | .struct _ _ | .unionPointer _ _ => true
  | .number _ | .bool | .handle _ | .interface _ | .union _ _ => false

def isHandle : Kind → Bool
  | .handle _ | .interface _ => true
  | .number _ | .bool | .string _ | .array _ _ _ | .map _ _ _ | .struct _ _ | .union _ _
  | .unionPointer _ _ => false

/-- The templates emit nothing for the member: it is neither an object, nor a
handle, nor an interface. -/
def isPlain : Kind → Bool
  | .number _ | .bool => true
  | .handle _ | .interface _ | .string _ | .array _ _ _ | .map _ _ _ | .struct _ _ | .union _ _
  | .unionPointer _ _ => false

/-- An array of such elements is left to the `ArraySerializationHelper` for plain
old data. `Interface_Data` is not derived from `Handle`, is no union and no pointer. -/
def hasPlainHelper : Kind → Bool
  | .number _ | .bool | .interface _ => true
  | .handle _ | .string _ | .array _ _ _ | .map _ _ _ | .struct _ _ | .union _ _
  | .unionPointer _ _ => false

def isNullable : Kind → Bool
  | .number _ | .bool => false
  | .handle nullable | .interface nullable | .string nullable | .array _ _ nullable
  | .map _ _ nullable | .struct _ nullable | .union _ nullable | .unionPointer _ nullable =>
    nullable

def size : Kind → ℕ
  | .number size => size
  | .bool => 1
  | .handle _ => 4
  | .interface _ | .string _ | .array _ _ _ | .map _ _ _ | .struct _ _ | .unionPointer _ _ => 8
  | .union _ _ => 16

def isMember : Kind → Bool
  | .number size => size ∈ [1, 2, 4, 8]
  | .bool | .handle _ | .interface _ | .string _ | .struct _ _ | .union _ _ => true
  | .array elem _ _ => elem.isMember
  | .map key value _ =>
    (match key with
      | .number size => size ∈ [1, 2, 4, 8]
      | .bool | .string false => true
      | _ => false) && value.isMember &&
    (match value with
      | .interface _ => false
      | _ => true)
  | .unionPointer _ _ => false

def isUnionMember : Kind → Bool
  | .union _ _ => false
  | .unionPointer _ _ => true
  | kind => kind.isMember

end Kind

structure Field where
  kind : Kind
  offset : ℕ
  bit : ℕ
  minVersion : ℕ
deriving DecidableEq, Repr

structure VersionInfo where
  version : ℕ
  numBytes : ℕ
deriving DecidableEq, Repr

structure StructType where
  versions : List VersionInfo
  fields : List Field

structure UnionType where
  fields : List Kind

structure Types where
  struct : ℕ → StructType
  union : ℕ → UnionType

def headerSize : ℕ := 8

def unionSize : ℕ := 16

def maxUint32 : ℕ := 2 ^ 32 - 1

def encodedInvalidHandle : ℕ := maxUint32

def invalidHandle : ℕ := 0

def StructType.last (d : StructType) : VersionInfo := d.versions.getLastD ⟨0, 0⟩

def StructType.newest (d : StructType) (version : ℕ) : Option VersionInfo :=
  d.versions.reverse.find? fun v => v.version ≤ version

theorem StructType.newest_isSome {d : StructType} (hd : ∃ v ∈ d.versions, v.version = 0)
    (version : ℕ) :
    ∃ v ∈ d.versions, d.newest version = some v := by
  obtain ⟨w, hw, hw0⟩ := hd
  have h : (d.newest version).isSome := by
    rw [StructType.newest, List.find?_isSome]
    exact ⟨w, List.mem_reverse.mpr hw, by simp [hw0]⟩
  obtain ⟨v, hv⟩ := Option.isSome_iff_exists.mp h
  exact ⟨v, List.mem_reverse.mp (List.mem_of_find?_eq_some hv), hv⟩

theorem StructType.newest_last {d : StructType} (hd : d.versions ≠ []) {version : ℕ}
    (h : d.last.version ≤ version) : d.newest version = some d.last := by
  obtain ⟨vs, v, hvs⟩ : ∃ vs v, d.versions = vs ++ [v] :=
    ⟨_, _, (List.dropLast_append_getLast hd).symm⟩
  have hlast : d.last = v := by simp [StructType.last, hvs]
  rw [hlast] at h ⊢
  simp [StructType.newest, hvs, h]

/-- A member of an object, where it lies; `bit` is its bit in the byte there, for a bool. -/
structure Slot where
  kind : Kind
  addr : ℕ
  bit : ℕ
deriving DecidableEq, Repr

def Slot.bytes (s : Slot) : Set ℕ := span s.addr s.kind.size

def Field.slot (f : Field) (t : ℕ) : Slot := ⟨f.kind, t + headerSize + f.offset, f.bit⟩

/-- The members that generated code gets to in an object of this version: before
members that were introduced at a later version than any member before them, it
returns if the object is older. Members that `skip` holds for take no part. -/
def visibleFields (skip : Kind → Bool) (version : ℕ) : ℕ → List Field → List Field
  | _, [] => []
  | lastChecked, f :: fs =>
    if skip f.kind then visibleFields skip version lastChecked fs
    else if lastChecked < f.minVersion ∧ version < f.minVersion then []
    else f :: visibleFields skip version (max lastChecked f.minVersion) fs

def elementSlot (elem : Kind) (t i : ℕ) : Slot :=
  match elem with
  | .bool => ⟨.bool, t + headerSize + i / 8, i % 8⟩
  | _ => ⟨elem, t + headerSize + elem.size * i, 0⟩

def elementSlots (elem : Kind) (t n : ℕ) : List Slot := (List.range n).map (elementSlot elem t)

def UnionType.active (d : UnionType) (tag : ℕ) : Option Kind := d.fields[tag]?

def unionSlots (d : UnionType) (m : Mem) (u : ℕ) : List Slot :=
  match d.active (load m (u + 4) 4) with
  | none => []
  | some kind => if kind.isPlain then [] else [⟨kind, u + 8, 0⟩]

/-- The members of the object at `t` that are checked by validation and rewritten by
decoding, in order. Headers are read when the object is entered. -/
def objectSlots (Γ : Types) (m : Mem) (kind : Kind) (t : ℕ) : List Slot :=
  match kind with
  | .struct name _ =>
    (visibleFields Kind.isPlain (load m (t + 4) 4) 0 (Γ.struct name).fields).map fun f => f.slot t
  | .array elem _ _ =>
    if elem.hasPlainHelper then [] else elementSlots elem t (load m (t + 4) 4)
  | .map key value _ => [⟨.array key 0 false, t + 8, 0⟩, ⟨.array value 0 false, t + 16, 0⟩]
  | .union name _ | .unionPointer name _ => unionSlots (Γ.union name) m t
  | .number _ | .bool | .handle _ | .interface _ | .string _ => []

structure StructType.WellFormed (d : StructType) : Prop where
  increasing : d.versions.Pairwise fun v w => v.version < w.version
  start : ∃ v ∈ d.versions, v.version = 0
  header : ∀ v ∈ d.versions, headerSize ≤ v.numBytes
  kinds : ∀ f ∈ d.fields, f.kind.isMember
  inside : ∀ f ∈ d.fields, ∀ version v, f.minVersion ≤ version → d.newest version = some v →
    headerSize + f.offset + f.kind.size ≤ v.numBytes
  apart : d.fields.Pairwise fun f g =>
    f.offset + f.kind.size ≤ g.offset ∨ g.offset + g.kind.size ≤ f.offset ∨
      f.kind = .bool ∧ g.kind = .bool ∧ (f.offset ≠ g.offset ∨ f.bit ≠ g.bit)

theorem StructType.WellFormed.of_single {fields : List Field} {n : ℕ} (hheader : headerSize ≤ n)
    (hfields : ∀ f ∈ fields, f.kind.isMember ∧ headerSize + f.offset + f.kind.size ≤ n)
    (hapart : fields.Pairwise fun f g =>
      f.offset + f.kind.size ≤ g.offset ∨ g.offset + g.kind.size ≤ f.offset ∨
        f.kind = .bool ∧ g.kind = .bool ∧ (f.offset ≠ g.offset ∨ f.bit ≠ g.bit)) :
    StructType.WellFormed ⟨[⟨0, n⟩], fields⟩ where
  increasing := List.pairwise_singleton _ _
  start := ⟨_, .head _, rfl⟩
  header := by simpa using hheader
  kinds f hf := (hfields f hf).1
  inside f hf version v _ hv := by
    obtain rfl : ⟨0, n⟩ = v := by simpa [StructType.newest] using hv
    exact (hfields f hf).2
  apart := hapart

structure Types.WellFormed (Γ : Types) : Prop where
  struct : ∀ i, (Γ.struct i).WellFormed
  union : ∀ i, ∀ kind ∈ (Γ.union i).fields, kind.isUnionMember

def Kind.isUnionFree : Kind → Bool
  | .number _ | .bool | .handle _ | .interface _ | .string _ | .struct _ _ => true
  | .array elem _ _ => elem.isUnionFree
  | .map key value _ => key.isUnionFree && value.isUnionFree
  | .union _ _ | .unionPointer _ _ => false

def Types.UnionFree (Γ : Types) : Prop :=
  ∀ i, ∀ f ∈ (Γ.struct i).fields, f.kind.isUnionFree = true

end Mojo.CppBindings
