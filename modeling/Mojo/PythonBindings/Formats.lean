import Mojo.PythonBindings.Packing

/-!
# Formats of groups

A byte of a group of bools has a bit for each of them. The format of a struct is the one of its
groups with padding behind it, and a generic array is packed like a struct with one field for each
element.
-/

namespace Mojo.PythonBindings

open Mojo.Memory Mojo.Wire Mojo.CppBindings
open List hiding Mem

variable {values : List Value} {ds : List FieldDescriptor} {g : FieldGroup}
  {groups : List FieldGroup} {h : ℕ}

/-! ### Bools in bytes -/

theorem convertBooleansToByte_cons (b : Bool) (bs : List Bool) :
    convertBooleansToByte (b :: bs) = convertBooleansToByte bs * 2 + b.toNat := by
  simp [convertBooleansToByte, foldl_append]

theorem testBit_convertBooleansToByte (bs : List Bool) (j : ℕ) :
    (convertBooleansToByte bs).testBit j = bs.getD j false := by
  induction bs generalizing j with
  | nil => simp [convertBooleansToByte]
  | cons b bs ih =>
    rw [convertBooleansToByte_cons]
    cases j with
    | zero => cases b <;> simp [Nat.testBit_zero, Nat.add_mod]
    | succ j =>
      have hhalf : (convertBooleansToByte bs * 2 + b.toNat) / 2 = convertBooleansToByte bs := by
        cases b <;> simp only [Bool.toNat_true, Bool.toNat_false] <;> omega
      rw [Nat.testBit_succ, hhalf, ih, getD_cons_succ]

theorem convertBooleansToByte_lt (bs : List Bool) (h : bs.length ≤ 8) :
    convertBooleansToByte bs < 256 := by
  refine Nat.lt_pow_two_of_testBit (n := 8) _ fun j hj => ?_
  rw [testBit_convertBooleansToByte, getD_eq_default]
  omega

theorem testBit_of_holds {m : Mem} {a : ℕ} {bs : List Bool} (hlen : bs.length ≤ 8)
    (h : Holds m a (bytesOf 1 (convertBooleansToByte bs))) (k : ℕ) :
    (m a).toNat.testBit k = bs.getD k false := by
  have hbyte := h 0 (by rw [length_bytesOf]; exact Nat.one_pos)
  have hlt := convertBooleansToByte_lt bs hlen
  simp only [bytesOf, getElem_map, getElem_range, pow_zero, Nat.div_one, Nat.add_zero] at hbyte
  rw [hbyte, UInt8.toNat_ofNat', Nat.mod_eq_of_lt hlt, testBit_convertBooleansToByte]

variable {R : Value → FieldDescriptor → Prop}

theorem booleans_of_fields
    (hR : ∀ v d, R v d → d.fieldType = .boolean → ∃ b, v = .bool b)
    (hfields : List.Forall₂ R values ds)
    (hds : ∀ d ∈ ds, d.fieldType = .boolean) : values = (values.map Value.toBool).map .bool := by
  induction hfields with
  | nil => rfl
  | cons h _ ih =>
    obtain ⟨b, rfl⟩ := hR _ _ h (hds _ (.head _))
    rw [map_cons, map_cons, ← ih fun d hd => hds d (.tail _ hd)]
    rfl

theorem boolean_group
    (hR : ∀ v d, R v d → d.fieldType = .boolean → ∃ b, v = .bool b)
    (hg : (FieldGroup.boolean ds).isValid) (hfields : List.Forall₂ R values ds) :
    values = (values.map Value.toBool).map .bool ∧ values.length = ds.length ∧ ds.length ≤ 8 := by
  simp only [FieldGroup.isValid, Bool.and_eq_true, decide_eq_true_eq, all_eq_true] at hg
  exact ⟨booleans_of_fields hR hfields hg.2, hfields.length_eq, hg.1.2⟩

/-! ### Formats -/

def formatFrom : ℕ → List FieldGroup → Format
  | _, [] => []
  | index, g :: groups =>
    List.replicate (neededPaddingForAlignment index g.getAlignment) .pad ++
      g.getTypeCode.map .code ++
      formatFrom (alignUp index g.getAlignment + g.getByteSize) groups

theorem add_size_formatFrom (h : g.isValid) (index : ℕ) (groups : List FieldGroup) :
    index + (formatFrom index (g :: groups)).size = alignUp index g.getAlignment + g.getByteSize +
      (formatFrom (alignUp index g.getAlignment + g.getByteSize) groups).size := by
  have hpad := add_neededPadding h index
  rw [formatFrom, size_append, size_append, size_pads, size_typeCode]
  omega

theorem getStructFrom_eq (hvalid : ∀ g ∈ groups, g.isValid) (index : ℕ) :
    getStructFrom index groups = formatFrom index groups ++
      List.replicate (neededPaddingForAlignment (index + (formatFrom index groups).size) 8)
        .pad := by
  induction groups generalizing index with
  | nil => rfl
  | cons g groups ih =>
    have hg := hvalid g (.head _)
    rw [add_size_formatFrom hg, getStructFrom_cons hg, ih fun g hg => hvalid g (.tail _ hg),
      formatFrom, ← append_assoc]

/-! ### Generic arrays -/

/-- The fields of the struct that a generic array is laid out like. -/
def elementGroups (subType : FieldType) (n : ℕ) : List FieldGroup :=
  List.replicate n (.single ⟨subType, 0, .null⟩)

theorem isValid_elementGroups {subType : FieldType} (hne : subType ≠ .boolean)
    (hvalid : subType.isValid) (n : ℕ) : ∀ g ∈ elementGroups subType n, g.isValid := by
  intro g hg
  obtain rfl := eq_of_mem_replicate hg
  simp [FieldGroup.isValid, hne, hvalid]

theorem getDescriptors_elementGroups (subType : FieldType) (n : ℕ) :
    descriptors (elementGroups subType n) = List.replicate n ⟨subType, 0, .null⟩ := by
  induction n with
  | zero => rfl
  | succ n ih =>
    rw [elementGroups, replicate_succ, descriptors_cons, ← elementGroups, ih, replicate_succ]
    rfl

theorem forall₂_replicate {α β : Type} {R : α → β → Prop} {l : List α} {b : β}
    (h : ∀ a ∈ l, R a b) :
    List.Forall₂ R l (List.replicate l.length b) := by
  induction l with
  | nil => exact .nil
  | cons a l ih => exact .cons (h a (.head _)) (ih fun a ha => h a (.tail _ ha))

theorem size_elementFormat (subType : FieldType) (n : ℕ) :
    (elementFormat subType n).size = subType.getByteSize * n := by
  induction n with
  | zero => rfl
  | succ n ih =>
    have hsucc : elementFormat subType (n + 1) =
        subType.getTypeCode.map FormatItem.code ++ elementFormat subType n := by
      rw [elementFormat, replicate_succ, flatten_cons]
      rfl
    rw [hsucc, size_append, ih, size_codes, Nat.mul_succ, Nat.add_comm]
    rfl

section Elements

variable {serialize : Serializer} {subType : FieldType} (hvalid : subType.isValid = true)

include hvalid

theorem neededPadding_of_mod {n : ℕ} (h : n % subType.getAlignment = 0) :
    neededPaddingForAlignment n subType.getAlignment = 0 ∧ alignUp n subType.getAlignment = n ∧
      (n + subType.getByteSize) % subType.getAlignment = 0 := by
  have hslot := Kind.isSlot_of_isMojom (isMojom_of_isValid hvalid)
  rw [getAlignment_eq, getByteSize_eq] at *
  refine ⟨by simp [neededPaddingForAlignment, h], alignUp_of_dvd (alignment_pos hslot)
    (Nat.dvd_of_mod_eq_zero h), ?_⟩
  exact Nat.mod_eq_zero_of_dvd (Nat.dvd_add (Nat.dvd_of_mod_eq_zero h) (alignment_dvd hslot).2)

theorem serializeElements_eq (h : ℕ) (items : List Value) {position : ℕ}
    (hmod : position % subType.getAlignment = 0) (data : List UInt8) (hs : List ℕ) :
    serializeElements serialize subType h items position data hs =
      serializeGroups serialize h (elementGroups subType items.length) items position data hs := by
  induction items generalizing position data hs with
  | nil => rfl
  | cons item items ih =>
    obtain ⟨hpad, -, hnext⟩ := neededPadding_of_mod hvalid hmod
    rw [length_cons, elementGroups, replicate_succ, ← elementGroups, serializeElements,
      serializeGroups]
    simp only [FieldGroup.getAlignment, hpad, Nat.add_zero, ih hnext]
    rfl

theorem formatFrom_elementGroups {index : ℕ} (hmod : index % subType.getAlignment = 0) (n : ℕ) :
    formatFrom index (elementGroups subType n) = elementFormat subType n := by
  induction n generalizing index with
  | zero => rfl
  | succ n ih =>
    obtain ⟨hpad, halign, hnext⟩ := neededPadding_of_mod hvalid hmod
    rw [elementGroups, replicate_succ, ← elementGroups, formatFrom]
    simp only [FieldGroup.getAlignment, FieldGroup.getByteSize, hpad, halign, ih hnext]
    rfl

end Elements

end Mojo.PythonBindings
