import Mojo.Memory.Relative
import Mathlib.Data.List.GetD

/-!
# Type descriptors of the C bindings

A type descriptor tells the library where the pointers and handles of a mojom
type lie. Descriptors refer to each other by address and may be cyclic, so a
set of descriptors is a table, and `elem_descriptor` is an index that
`elem_type` says how to use. Integers of the descriptors are natural numbers.
-/

namespace Mojo.CBindings

open Mojo.Memory

inductive TypeDescriptorType
  | structPtr
  | mapPtr
  | arrayPtr
  | unionPtr
  | union
  | handle
  | interface
  | pod
deriving DecidableEq, Repr

structure TypeDescriptorStructVersion where
  version : ℕ
  numBytes : ℕ
deriving DecidableEq, Repr

structure TypeDescriptorStructEntry where
  elemType : TypeDescriptorType
  elemDescriptor : ℕ
  offset : ℕ
  minVersion : ℕ
  nullable : Bool
deriving DecidableEq, Repr

structure TypeDescriptorStruct where
  versions : List TypeDescriptorStructVersion
  entries : List TypeDescriptorStructEntry
deriving DecidableEq, Repr

structure TypeDescriptorUnionEntry where
  elemType : TypeDescriptorType
  elemDescriptor : ℕ
  tag : ℕ
  nullable : Bool
deriving DecidableEq, Repr

structure TypeDescriptorUnion where
  numFields : ℕ
  entries : List TypeDescriptorUnionEntry
deriving DecidableEq, Repr

structure TypeDescriptorArray where
  elemType : TypeDescriptorType
  elemDescriptor : ℕ
  numElements : ℕ
  elemNumBits : ℕ
  nullable : Bool
deriving DecidableEq, Repr

structure Descriptors where
  struct : ℕ → TypeDescriptorStruct
  union : ℕ → TypeDescriptorUnion
  array : ℕ → TypeDescriptorArray

def isPointer : TypeDescriptorType → Bool
  | .structPtr | .mapPtr | .arrayPtr | .unionPtr => true
  | _ => false

/-- Bytes that a slot of the type takes in a struct or an array; plain data
is not described by slots. -/
def slotSize : TypeDescriptorType → ℕ
  | .structPtr | .mapPtr | .arrayPtr | .unionPtr => 8
  | .union => 16
  | .handle => 4
  | .interface => 8
  | .pod => 0

def headerSize : ℕ := 8

def unionLayoutSize : ℕ := 16

def uint32Max : ℕ := 2 ^ 32 - 1

def encodedHandleInvalid : ℕ := uint32Max

def handleInvalid : ℕ := 0

def sub32 (a b : ℕ) : ℕ := (a + (2 ^ 32 - b % 2 ^ 32)) % 2 ^ 32

theorem sub32_of_le {a b : ℕ} (h : b ≤ a) (ha : a < 2 ^ 32) : sub32 a b = a - b := by
  unfold sub32
  omega

theorem sub32_sub {lim t u : ℕ} (hlim : lim - t < 2 ^ 32) (htu : t ≤ u) (hu : u ≤ lim) :
    sub32 (lim - t) (u - t) = lim - u := by
  rw [sub32_of_le (by omega) hlim]
  omega

theorem sub32_eight {lim u : ℕ} (hlim : lim - u < 2 ^ 32) (hu : u + 8 ≤ lim) :
    sub32 (lim - u) 8 = lim - (u + 8) := by
  rw [sub32_of_le (by omega) hlim]
  omega

/-- `array_index_by_type`; the assertion fails for the types that cannot be
elements. -/
def arrayIndexByType (array : ℕ) (type : TypeDescriptorType) (index : ℕ) : Option ℕ :=
  match type with
  | .unionPtr | .pod => none
  | _ => some (array + headerSize + slotSize type * index)

theorem arrayIndexByType_eq {type : TypeDescriptorType} (h : type ≠ .unionPtr ∧ type ≠ .pod)
    (array index : ℕ) :
    arrayIndexByType array type index = some (array + headerSize + slotSize type * index) := by
  cases type <;> simp_all [arrayIndexByType]

/-- The scan of `is_valid_size_for_version`: from index `i` down to the newest
listed version that is not newer than `version`. -/
def seekVersion (versions : List TypeDescriptorStructVersion) (version : ℕ) : ℕ → ℕ
  | 0 => 0
  | i + 1 =>
    if version < (versions.getD (i + 1) ⟨0, 0⟩).version then seekVersion versions version i
    else i + 1

def seekLast (versions : List TypeDescriptorStructVersion) (version : ℕ) :
    TypeDescriptorStructVersion :=
  versions.getD (seekVersion versions version (versions.length - 1)) ⟨0, 0⟩

def Newest (versions : List TypeDescriptorStructVersion) (version : ℕ)
    (r : TypeDescriptorStructVersion) : Prop :=
  r ∈ versions ∧ r.version ≤ version ∧ ∀ r' ∈ versions, r'.version ≤ version →
    r'.version ≤ r.version

/-- Versions are listed in increasing order from version 0, a size covers the
header, and a field that a version has lies inside the size of that version,
at its natural alignment and apart from the other fields. -/
structure TypeDescriptorStruct.WellFormed (d : TypeDescriptorStruct) : Prop where
  increasing : d.versions.Pairwise fun r r' => r.version < r'.version
  start : ∃ r ∈ d.versions, r.version = 0
  header : ∀ r ∈ d.versions, headerSize ≤ r.numBytes
  elem : ∀ e ∈ d.entries, e.elemType ≠ .pod ∧ e.elemType ≠ .unionPtr
  aligned : ∀ e ∈ d.entries, (isPointer e.elemType ∨ e.elemType = .union) → e.offset % 8 = 0
  inside : ∀ e ∈ d.entries, ∀ version r, e.minVersion ≤ version → Newest d.versions version r →
    headerSize + e.offset + slotSize e.elemType ≤ r.numBytes
  apart : d.entries.Pairwise fun e e' =>
    e.offset + slotSize e.elemType ≤ e'.offset ∨ e'.offset + slotSize e'.elemType ≤ e.offset

/-- A union keeps its field in eight bytes, so a union inside it is out of line. -/
structure TypeDescriptorUnion.WellFormed (d : TypeDescriptorUnion) : Prop where
  elem : ∀ e ∈ d.entries, e.elemType ≠ .union

structure TypeDescriptorArray.WellFormed (d : TypeDescriptorArray) : Prop where
  elem : d.elemType ≠ .unionPtr
  bits : d.elemType ≠ .pod → d.elemNumBits = 8 * slotSize d.elemType

/-- A map is described as a struct of the array of keys and the array of values. -/
def TypeDescriptorStruct.IsMap (d : TypeDescriptorStruct) : Prop :=
  ∃ keys values kn vn, d.entries = [⟨.arrayPtr, keys, 0, 0, kn⟩, ⟨.arrayPtr, values, 8, 0, vn⟩]

inductive Descriptors.Uses (Γ : Descriptors) : TypeDescriptorType → ℕ → Prop
  | struct (i : ℕ) (e : TypeDescriptorStructEntry) (he : e ∈ (Γ.struct i).entries) : Uses Γ
    e.elemType e.elemDescriptor
  | union (i : ℕ) (e : TypeDescriptorUnionEntry) (he : e ∈ (Γ.union i).entries) : Uses Γ e.elemType
    e.elemDescriptor
  | array (i : ℕ) : Uses Γ (Γ.array i).elemType (Γ.array i).elemDescriptor

structure Descriptors.WellFormed (Γ : Descriptors) : Prop where
  struct : ∀ i, (Γ.struct i).WellFormed
  union : ∀ i, (Γ.union i).WellFormed
  array : ∀ i, (Γ.array i).WellFormed
  map : ∀ i, Γ.Uses .mapPtr i → (Γ.struct i).IsMap

def Descriptors.NoUnionPtr (Γ : Descriptors) : Prop := ∀ i, ¬ Γ.Uses .unionPtr i

theorem seekVersion_spec {versions : List TypeDescriptorStructVersion} {version i : ℕ}
    (hi : i < versions.length) (h0 : (versions.getD 0 ⟨0, 0⟩).version ≤ version) :
    seekVersion versions version i ≤ i ∧
      (versions.getD (seekVersion versions version i) ⟨0, 0⟩).version ≤ version ∧
      ∀ j ≤ i, seekVersion versions version i < j → version < (versions.getD j ⟨0, 0⟩).version := by
  induction i with
  | zero => exact ⟨le_rfl, h0, fun j hj hlt => absurd hlt (by simp only [seekVersion]; omega)⟩
  | succ i ih =>
    simp only [seekVersion]
    split_ifs with hv
    · obtain ⟨h₁, h₂, h₃⟩ := ih (by omega)
      refine ⟨by omega, h₂, ?_⟩
      intro j hj hlt
      rcases Nat.lt_or_ge i j with hij | hij
      · have : j = i + 1 := by omega
        exact this ▸ hv
      · exact h₃ j hij hlt
    · exact ⟨le_rfl, by omega, fun j hj hlt => by omega⟩

variable {d : TypeDescriptorStruct}

theorem TypeDescriptorStruct.WellFormed.head_version
    (h : d.WellFormed) : 0 < d.versions.length ∧ (d.versions.getD 0 ⟨0, 0⟩).version = 0 := by
  obtain ⟨r, hr, hv⟩ := h.start
  have hi := h.increasing
  cases hd : d.versions with
  | nil => simp [hd] at hr
  | cons r' rs =>
    refine ⟨by simp, ?_⟩
    rw [hd] at hr hi
    rcases hr with _ | ⟨_, hr⟩
    · exact hv
    · have := (List.pairwise_cons.mp hi).1 r hr
      omega

theorem TypeDescriptorStruct.WellFormed.newest_seekLast (h : d.WellFormed) (version : ℕ) :
    Newest d.versions version (seekLast d.versions version) := by
  obtain ⟨hlen, h0⟩ := h.head_version
  have hlast : d.versions.length - 1 < d.versions.length := by omega
  obtain ⟨h₁, h₂, h₃⟩ := seekVersion_spec hlast (h0.trans_le (Nat.zero_le version))
  have hidx : seekVersion d.versions version (d.versions.length - 1) < d.versions.length := by omega
  refine ⟨?_, h₂, ?_⟩
  · unfold seekLast
    rw [List.getD_eq_getElem _ _ hidx]
    exact List.getElem_mem hidx
  · intro r' hr' hv'
    obtain ⟨j, hj, rfl⟩ := List.mem_iff_getElem.mp hr'
    have hle : j ≤ seekVersion d.versions version (d.versions.length - 1) := by
      by_contra hlt
      have := h₃ j (by omega) (by omega)
      rw [List.getD_eq_getElem _ _ hj] at this
      omega
    unfold seekLast
    rw [List.getD_eq_getElem _ _ hidx]
    rcases Nat.lt_or_ge j (seekVersion d.versions version (d.versions.length - 1)) with hlt | hge
    · exact (List.pairwise_iff_getElem.mp h.increasing j _ hj hidx hlt).le
    · have : j = seekVersion d.versions version (d.versions.length - 1) := by omega
      simp [this]

theorem TypeDescriptorStruct.WellFormed.of_single {numBytes : ℕ}
    (hversions : d.versions = [⟨0, numBytes⟩]) (hheader : headerSize ≤ numBytes)
    (helem : ∀ e ∈ d.entries, e.elemType ≠ .pod ∧ e.elemType ≠ .unionPtr)
    (haligned : ∀ e ∈ d.entries, (isPointer e.elemType ∨ e.elemType = .union) → e.offset % 8 = 0)
    (hinside : ∀ e ∈ d.entries, headerSize + e.offset + slotSize e.elemType ≤ numBytes)
    (hapart : d.entries.Pairwise fun e e' =>
      e.offset + slotSize e.elemType ≤ e'.offset ∨ e'.offset + slotSize e'.elemType ≤ e.offset) :
    d.WellFormed where
  increasing := by simp [hversions]
  start := by simp [hversions]
  header := by simpa [hversions] using hheader
  elem := helem
  aligned := haligned
  inside e he version r hv hr := by
    have hr' : r = ⟨0, numBytes⟩ := by simpa [hversions] using hr.1
    exact hr' ▸ hinside e he
  apart := hapart

def nodeStruct : TypeDescriptorStruct :=
  ⟨[⟨0, 24⟩], [⟨.structPtr, 0, 0, 0, true⟩, ⟨.handle, 0, 8, 0, true⟩]⟩

theorem nodeStruct_wellFormed : nodeStruct.WellFormed :=
  .of_single rfl (by decide) (by decide) (by decide) (by decide) (by decide)

def nodeDescriptors : Descriptors where
  struct _ := nodeStruct
  union _ := ⟨0, []⟩
  array _ := ⟨.pod, 0, 0, 8, false⟩

def twoNodesInMemory : Mem := block 8 (words [24, 0, 32, 0, 5, 0, 24, 0, 0, 0, 6, 0])

theorem nodeDescriptors_uses {type : TypeDescriptorType} {i : ℕ}
    (h : nodeDescriptors.Uses type i) : type = .structPtr ∨ type = .handle ∨ type = .pod := by
  cases h with
  | struct j e he =>
    have hentries : ∀ e ∈ nodeStruct.entries, e.elemType = .structPtr ∨ e.elemType = .handle ∨
        e.elemType = .pod := by decide
    exact hentries e he
  | union j e he => cases he
  | array j => exact Or.inr (Or.inr rfl)

theorem nodeDescriptors_wellFormed : nodeDescriptors.WellFormed where
  struct _ := nodeStruct_wellFormed
  union _ := ⟨fun _ he => by cases he⟩
  array _ := ⟨by simp [nodeDescriptors], fun h => absurd rfl h⟩
  map _ h := by simpa using nodeDescriptors_uses h

theorem nodeDescriptors_noUnionPtr : nodeDescriptors.NoUnionPtr := by
  intro i h
  simpa using nodeDescriptors_uses h

end Mojo.CBindings
