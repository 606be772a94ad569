import Mojo.PythonBindings.DeserializeValues

/-!
# Every type returns its values

The counterpart of `serialize_writes`: the elements of arrays are loaded from behind the header, a
generic array is read like a struct with one field for each element, and a map is put together from
its two arrays.
-/

namespace Mojo.PythonBindings

open Mojo.Memory Mojo.Wire Mojo.CppBindings Mojo.System List

variable {nullable : Bool} {elems : List Value}

section Arrays

variable {root : RootContext} {Γ : Types} {deserialize : Deserializer} {depth : ℕ} {t : FieldType}
  {v : Value}

theorem deserializeNativeArray_returns (root : RootContext) {size l i : ℕ} (hsize : 0 < size)
    (n a : ℕ) :
    Returns (Ready l i) (deserializeNativeArray root size (headerSize + size * n) a)
      ((List.range n).map fun k => load root.mem (a + headerSize + size * k) size) (Ready l i) := by
  rw [deserializeNativeArray, Nat.add_sub_cancel_left, if_neg (by simp),
    Nat.mul_div_cancel_left n hsize]
  exact (visit_returns _).bind (.done _)

theorem reads_native {o : Object} {f : ℕ → ℕ → ℕ → Decoding Value} (hΓ : Γ.Laid)
    (hroot : root.Bounded) (hkind : t.kind.isPointer) (hslot : t.kind.isSlot)
    (hcode : t.getTypeCode = [.Q]) (ho : object Γ t.kind v = some o)
    (hinline : ∀ p ∈ o.members, Inline Γ depth p)
    (hrun : ∀ value context, deserialize t value context =
      deserializePointer root nullable value context f)
    (hf : ∀ w pen lo i, Sees Γ w depth root.mem root.data.length root.handles pen o.members lo i →
      ∀ lo i, Returns (Ready lo i) (f o.size o.word pen.base) v (Ready lo i)) : Reads root Γ
        deserialize (depth + 1) t v := by
  refine reads_object hΓ hroot hkind hslot hcode ho hrun fun lo i _ _ _ _ hsees => ?_
  rw [outSizes_of_inline hinline, flatMap_handles_of_inline hinline]
  exact hf _ _ _ _ hsees _ _

variable {c : Classes}

theorem reads_string (hΓ : Γ.Laid) (hroot : root.Bounded) {bytes : List UInt8}
    (hunicode : root.unicode bytes = some bytes) :
    Reads root Γ (deserializeType deserialize root c) (depth + 1) (.string nullable)
      (.string bytes) := by
  have hnumbers : (bytes.map fun b => Value.number b.toNat) =
      (bytes.map UInt8.toNat).map .number := by
    rw [map_map]
    rfl
  have ho : object Γ (FieldType.string nullable).kind (.string bytes) =
      some ⟨headerSize + bytes.length, bytes.length,
      (elementSlots (.number 1) 0 bytes.length).zip (bytes.map fun b => .number b.toNat)⟩ := rfl
  refine reads_native hΓ hroot rfl rfl rfl ho (inline_zip inline_number hnumbers _)
    (fun value context => by rw [deserializeType]) fun w pen _ _ hsees lo i => ?_
  have hlen : bytes.length = (bytes.map UInt8.toNat).length := (length_map _).symm
  have hbytes := deserializeNativeArray_returns (l := lo) (i := i) root Nat.one_pos
    bytes.length pen.base
  simp only [hnumbers] at hsees
  rw [hlen] at hsees hbytes
  rw [hsees.loads_numbers, ← hlen, Nat.one_mul] at hbytes
  have hself : (bytes.map UInt8.toNat).map UInt8.ofNat = bytes := by
    rw [map_map]
    exact (map_congr_left fun b _ => UInt8.ofNat_toNat).trans (map_id bytes)
  refine hbytes.bind ((visit_returns _).bind ?_)
  rw [hself, hunicode]
  exact .done _

variable {length : ℕ}

theorem reads_nativeArray {D : Domain} (hΓ : Γ.Laid) (hroot : root.Bounded) {typecode : TypeCode}
    (hlength : length ≠ 0 → elems.length = length)
    (helems : ∀ v ∈ elems, HasKind Γ D depth (.number typecode.size) v) :
    Reads root Γ (deserializeType deserialize root c) (depth + 1)
      (.nativeArray typecode nullable length) (.array elems) := by
  have hnumbers := numbers_of_hasKind helems
  have ho : object Γ (FieldType.nativeArray typecode nullable length).kind (.array elems) =
      some ⟨headerSize + typecode.size * elems.length, elems.length,
        (elementSlots (.number typecode.size) 0 elems.length).zip elems⟩ := rfl
  have hslot : (FieldType.nativeArray typecode nullable length).kind.isSlot = true :=
    Kind.isSlot_of_isMojom (isMojom_of_isValid rfl)
  refine reads_native hΓ hroot rfl hslot rfl ho (inline_zip inline_number hnumbers _)
    (fun value context => by rw [deserializeType]) fun w pen _ _ hsees lo i => ?_
  have hpos : 0 < typecode.size := by cases typecode <;> decide
  have hlen : elems.length = (elems.map Value.toNat).length := (length_map _).symm
  have hloads := deserializeNativeArray_returns (l := lo) (i := i) root hpos elems.length pen.base
  simp only at hsees ⊢
  rw [hnumbers, length_map] at hsees
  rw [hlen, hsees.loads_numbers, ← hlen] at hloads
  refine (throwIf_returns (by omega)).bind ((throwIf_returns ?_).bind ?_)
  · rw [Nat.mul_comm]
    omega
  · refine hloads.bind ?_
    rw [← hnumbers]
    exact .done _

theorem reads_booleanArray {D : Domain} (hΓ : Γ.Laid) (hroot : root.Bounded)
    (hlength : length ≠ 0 → elems.length = length)
    (helems : ∀ v ∈ elems, HasKind Γ D depth .bool v) :
    Reads root Γ (deserializeType deserialize root c) (depth + 1) (.booleanArray nullable length)
      (.array elems) := by
  have hbools := bools_of_hasKind helems
  have ho : object Γ (FieldType.booleanArray nullable length).kind (.array elems) =
      some ⟨headerSize + (elems.length + 7) / 8, elems.length,
        (elementSlots .bool 0 elems.length).zip elems⟩ := rfl
  refine reads_native hΓ hroot rfl rfl rfl ho (inline_zip inline_bool hbools _)
    (fun value context => by rw [deserializeType]) fun w pen _ _ hsees lo i => ?_
  have hlen : elems.length = (elems.map Value.toBool).length := (length_map _).symm
  have hloads := deserializeNativeArray_returns (l := lo) (i := i) root Nat.one_pos
    ((elems.length + 7) / 8) pen.base
  simp only at hsees ⊢
  rw [hlen] at hsees
  nth_rewrite 2 [hbools] at hsees
  have hbits : ((List.range ((elems.length + 7) / 8)).map fun k =>
      load root.mem (pen.base + headerSize + 1 * k) 1).flatMap
        (fun x => convertByteToBooleans x 8) =
      (List.range (8 * ((elems.length + 7) / 8))).map fun k =>
        (root.mem (pen.base + headerSize + k / 8)).toNat.testBit (k % 8) := by
    rw [← flatMap_bytes, flatMap_map]
    refine flatMap_congr fun k _ => ?_
    have hbyte : load root.mem (pen.base + headerSize + 1 * k) 1 =
        (root.mem (pen.base + headerSize + k)).toNat := by simp [load]
    rw [hbyte, convertByteToBooleans_eight (UInt8.toNat_lt _)]
    refine map_congr_left fun b hb => ?_
    have hb8 := mem_range.mp hb
    rw [show (8 * k + b) / 8 = k by omega, show (8 * k + b) % 8 = b by omega]
  have htake : ((List.range (8 * ((elems.length + 7) / 8))).map fun k =>
      (root.mem (pen.base + headerSize + k / 8)).toNat.testBit (k % 8)).take elems.length =
      elems.map Value.toBool := by
    refine ext_getElem (by simp; omega) fun k hk hk' => ?_
    rw [getElem_take, getElem_map, getElem_range]
    exact hsees.testBit_bools hk'
  refine (throwIf_returns (by omega)).bind ((throwIf_returns (by omega)).bind ?_)
  rw [Nat.one_mul] at hloads
  refine hloads.bind ?_
  rw [hbits, htake, ← hbools]
  exact .done _

end Arrays

/-! ### Generic arrays, structs and maps -/

section Objects

variable {root : RootContext} {Γ : Types} {deserialize deserialize' : Deserializer} {depth : ℕ}
  {t : FieldType} {v : Value}

variable {subType : FieldType}

theorem deserializeElements_eq (hvalid : subType.isValid) (n : ℕ) (values : List Entry)
    {context position : ℕ} (hmod : position % subType.getAlignment = 0) :
    deserializeElements deserialize subType n values (context + position) =
      deserializeGroups deserialize context (elementGroups subType n) values position := by
  induction n generalizing values position with
  | zero => rfl
  | succ n ih =>
    obtain ⟨hpad, -, hnext⟩ := neededPadding_of_mod hvalid hmod
    have htail := ih (values.drop subType.getTypeCode.length) hnext
    rw [elementGroups, replicate_succ, ← elementGroups, deserializeElements, deserializeGroups]
    simp only [FieldGroup.getAlignment, FieldGroup.getTypeCode, FieldGroup.getByteSize,
      deserializeGroup, hpad,
      Nat.add_zero, bind_assoc, pure_bind, singleton_append, Nat.add_assoc, htail]

theorem reads_genericArray {c : Classes} (hΓ : Γ.Laid) (hroot : root.Bounded)
    {length : ℕ} (hvalid : (FieldType.genericArray subType nullable length).isValid)
    (hlength : length ≠ 0 → elems.length = length)
    (helems : ∀ v ∈ elems, Reads root Γ deserialize depth subType v) :
    Reads root Γ (deserializeType deserialize root c) (depth + 1)
      (.genericArray subType nullable length) (.array elems) := by
  have hslot : (FieldType.genericArray subType nullable length).kind.isSlot = true :=
    Kind.isSlot_of_isMojom (isMojom_of_isValid hvalid)
  simp only [FieldType.isValid, Bool.and_eq_true, decide_eq_true_eq] at hvalid
  obtain ⟨hne, hsub⟩ := hvalid
  have ho := object_genericArray Γ hne nullable length elems
  have hmembers := membersFrom_elementGroups hne hsub elems
  have hfields : List.Forall₂ (ReadsField root Γ deserialize depth) elems
      (descriptors (elementGroups subType elems.length)) := by
    rw [getDescriptors_elementGroups]
    exact forall₂_replicate fun v hv => ⟨fun h => absurd h hne, fun _ => helems v hv⟩
  refine reads_object hΓ hroot rfl hslot rfl ho (fun value context => by rw [deserializeType])
    fun lo i hlo hend _ _ hsees => ?_
  simp only at hend hsees ⊢
  rw [← hmembers] at hsees ⊢
  have hgroups := deserializeGroups_returns (isValid_elementGroups hne hsub elems.length)
    hfields hsees
  have hmod : headerSize % subType.getAlignment = 0 :=
    Nat.mod_eq_zero_of_dvd (by rw [getAlignment_eq]; exact (alignment_dvd
      (Kind.isSlot_of_isMojom (isMojom_of_isValid hsub))).1)
  have hunpack := unpackFrom_returns
    (l := lo + align8 (headerSize + subType.getByteSize * elems.length)) (i := i) root
    (elementFormat subType elems.length) lo headerSize (by rw [size_elementFormat]; omega)
  rw [formatFrom_elementGroups hsub (Nat.zero_mod _), Nat.add_zero, Nat.add_zero,
    ← deserializeElements_eq hsub _ _ hmod] at hgroups
  refine (throwIf_returns (by omega)).bind
    ((throwIf_returns ?_).bind (hunpack.bind (hgroups.bind ?_)))
  · rw [Nat.mul_comm]
    omega
  · exact .done _

theorem deserializeStruct_reads (hΓ : Γ.Laid) (hroot : root.Bounded) {groups : List FieldGroup}
    {fields : List Value}
    (hvalid : ∀ g ∈ groups, g.isValid) (hkind : t.kind.isPointer) (hslot : t.kind.isSlot)
    (hcode : t.getTypeCode = [.Q]) (ho : object Γ t.kind v =
      some ⟨headerSize + (getStruct groups).size, getVersion groups, membersFrom 0 groups fields⟩)
    (hfields : List.Forall₂ (ReadsField root Γ deserialize depth) fields (descriptors groups))
    {g : List Value → Decoding Value}
    (hrun : ∀ value context, deserialize' t value context =
      deserializePointer root nullable value context
      fun _ _ context => deserializeStruct deserialize root groups false context >>= g)
    (hg : ∀ P, Returns P (g fields) v P) : Reads root Γ deserialize' (depth + 1) t v := by
  have hround := align8_header_add hvalid
  refine reads_object hΓ hroot hkind hslot hcode ho hrun fun lo i hlo hend hsize hword hsees => ?_
  simp only [hround] at hend hsize hword hsees ⊢
  exact (deserializeStruct_returns hvalid hfields false hend hsize hword hsees).bind (hg _)

end Objects

section Types

variable {root : RootContext} {c : Classes} {D : Domain} {depth : ℕ} {t : FieldType} {v : Value}

theorem reads_scalar {Γ : Types} {deserialize : Deserializer} (hroot : root.Bounded)
    (hD : D.Words) (hne : t ≠ .boolean) (hu : t.kind.isUnionFree)
    (hv : Scalar D t.kind v) : Reads root Γ (deserializeType deserialize root c) depth t v := by
  cases t with
  | boolean => exact absurd rfl hne
  | integer typecode | float typecode =>
    cases hv with
    | number hn => exact reads_number rfl rfl hn fun value context => by rw [deserializeType]
    | null hnull => cases hnull
  | handle nullable | interfaceRequest nullable =>
    cases hv with
    | handle _ hh => exact reads_handle hroot rfl rfl fun value context => rfl
    | null hnull =>
      exact reads_nullHandle (show nullable = true from hnull) rfl rfl fun value context => rfl
  | interface nullable =>
    cases hv with
    | interface _ hh hversion => exact reads_interface hroot (hD _ hversion)
    | null hnull => exact reads_nullInterface hnull
  | union name nullable => cases hu
  | string nullable | booleanArray nullable | nativeArray _ nullable | genericArray _ nullable
    | struct _ nullable
  | map _ _ nullable =>
    cases hv with
    | null hnull =>
      exact reads_nullPointer (show nullable = true from hnull) rfl rfl fun value context => by
        rw [deserializeType]

theorem fields_read (hc : c.Valid) (hfree : c.types.UnionFree) {name : ℕ} {fields : List Value}
    (hall : ∀ {t v}, t ≠ .boolean → t.isValid → t.kind.isUnionFree →
      HasKind c.types D depth t.kind v → Reads root c.types (deserialize root c depth) depth t v)
    (hv : HasKind c.types D (depth + 1) (.struct name nullable) (.struct fields)) :
    List.Forall₂ (ReadsField root c.types (deserialize root c depth) depth) fields
      (descriptors (c.struct name)) := by
  have hvalid := hc.struct name
  have hmembers := hv.members rfl
  simp only [HasKind] at hv
  have hlen : (layout 0 (c.struct name)).length = fields.length := hv.length_eq
  refine fields_forall₂ hvalid hlen (P := fun kind v => HasKind c.types D depth kind v ∧
    kind.isUnionFree = true)
    (fun p hp => ⟨hmembers p hp, unionFree_of_mem hfree hp⟩) (forall₂_of_layout hvalid hlen) ?_
  rintro v d hd ⟨hkind, hfree⟩ -
  refine ⟨fun hb => ?_, fun hb => hall hb (isValid_of_mem hvalid hd) hfree hkind⟩
  rw [hb] at hkind
  exact bool_of_hasKind hkind

theorem deserialize_reads (hc : c.Valid) (hfree : c.types.UnionFree) (hroot : root.Bounded)
    (hD : D.Words) (hunicode : ∀ bytes, D.string bytes → root.unicode bytes = some bytes)
    (hne : t ≠ .boolean) (hvalid : t.isValid) (hu : t.kind.isUnionFree)
    (hv : HasKind c.types D depth t.kind v) :
    Reads root c.types (deserialize root c depth) depth t v := by
  induction depth generalizing t v with
  | zero => exact reads_scalar hroot hD hne hu (hv.scalar (hasKind_zero hv))
  | succ depth ih =>
    cases ho : object c.types t.kind v with
    | none => exact reads_scalar hroot hD hne hu (hv.scalar ho)
    | some o =>
      rw [deserialize]
      cases t with
      | boolean => exact absurd rfl hne
      | integer | float | handle | interfaceRequest | interface => cases v <;> cases ho
      | union => cases hu
      | string nullable =>
        cases objectOf ho
        rename_i bytes
        simp only [FieldType.kind, HasKind] at hv
        exact reads_string hc.laid hroot (hunicode bytes hv)
      | booleanArray nullable length =>
        cases objectOf ho
        simp only [FieldType.kind, HasKind] at hv
        exact reads_booleanArray hc.laid hroot hv.1 hv.2
      | nativeArray typecode nullable length =>
        cases objectOf ho
        simp only [FieldType.kind, HasKind] at hv
        exact reads_nativeArray hc.laid hroot hv.1 hv.2
      | genericArray subType nullable length =>
        cases objectOf ho
        simp only [FieldType.kind, HasKind] at hv
        refine reads_genericArray hc.laid hroot hvalid hv.1 fun v hmem => ?_
        simp only [FieldType.isValid, Bool.and_eq_true, decide_eq_true_eq] at hvalid
        exact ih hvalid.1 hvalid.2 hu (hv.2 v hmem)
      | struct name nullable =>
        cases objectOf ho
        exact deserializeStruct_reads hc.laid hroot (hc.struct name) rfl rfl rfl rfl
          (fields_read hc hfree ih hv)
          (fun value context => by rw [deserializeType]) fun P => .done _
      | map keyType valueType nullable =>
        cases objectOf ho
        rename_i keys values
        obtain ⟨hkey, hvalue⟩ := isValid_of_map hvalid
        simp only [FieldType.kind, Kind.isUnionFree, Bool.and_eq_true] at hu
        simp only [FieldType.kind, HasKind] at hv
        obtain ⟨hnodup, hlen, hks, hvs⟩ := hv
        rw [← getArrayType_kind] at hks hvs
        have hrk := ih (getArrayType_ne keyType) (getArrayType_isValid hkey)
          (by rw [getArrayType_kind]; exact hu.1) hks
        have hrv := ih (getArrayType_ne valueType) (getArrayType_isValid hvalue)
          (by rw [getArrayType_kind]; exact hu.2) hvs
        have hfields : List.Forall₂ (ReadsField root c.types (deserialize root c depth) depth)
            [.array keys, .array values] (descriptors (mapGroups keyType valueType)) :=
          .cons ⟨fun hb => absurd hb (getArrayType_ne _), fun _ => hrk⟩
            (.cons ⟨fun hb => absurd hb (getArrayType_ne _), fun _ => hrv⟩ .nil)
        have hslot : (FieldType.map keyType valueType nullable).kind.isSlot = true :=
          Kind.isSlot_of_isMojom (isMojom_of_isValid hvalid)
        refine deserializeStruct_reads hc.laid hroot (mapGroups_valid hkey hvalue) rfl hslot rfl
          (object_map c.types keyType valueType nullable keys values) hfields
          (fun value context => by rw [deserializeType]) fun P => ?_
        refine (throwIf_returns (not_not.mpr hlen)).bind ?_
        simp only [headD_cons, tail_cons, Value.elems, insertAll_eq hnodup hlen]
        exact .done _

end Types

end Mojo.PythonBindings
