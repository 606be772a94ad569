import Mojo.PythonBindings.SerializeValues

/-!
# Every type writes its values

Strings, native arrays and arrays of bools are a header and a block of bytes. A generic array is
laid out like a struct with one field for each element, and a map is a struct with two arrays. The
fields of the struct are converted once more, which an `array.array` does not survive: `Reconverts`
is what a value needs for all its maps.
-/

namespace Mojo.PythonBindings

open Mojo.Memory Mojo.Wire Mojo.CppBindings FieldGroup List

variable {value : List UInt8} {nullable : Bool} {serialize' : Serializer} {groups : List FieldGroup}
  {keyType valueType : FieldType} {x : Except Failure Serialized} {parent : Kind}
  {elems : List Value} {length : ℕ}

section Arrays

variable {Γ : Types} {serialize : Serializer} {depth : ℕ} {t : FieldType} {v : Value}

theorem serializeNativeArray_eq {count : ℕ} (off : ℤ) (data : List UInt8)
    (hsize : headerSize + value.length < 2 ^ 32) (hcount : count < 2 ^ 32) :
    serializeNativeArray value off data count = .ok ⟨.entry (.int off), data ++ (headerBytes
      (headerSize + value.length) count ++ (value ++
        List.replicate (neededPaddingForAlignment (headerSize + value.length) 8) 0)), []⟩ := by
  have hlen : (data ++ List.replicate headerSize 0 ++ value).length - data.length = headerSize +
      value.length := by
    simp only [length_append, length_replicate]
    omega
  have hinto := packInto_eq data (List.replicate headerSize 0)
    (value ++ List.replicate (neededPaddingForAlignment (headerSize + value.length) 8) 0)
    (pack_header hsize hcount) (by rw [length_headerBytes, length_replicate])
  rw [← append_assoc] at hinto
  rw [serializeNativeArray]
  simp only [hlen, hinto, ok_bind]
  rw [append_assoc data]

theorem writes_native {o : Object} (hkind : t.kind.isPointer)
    (hcode : t.getTypeCode = [.Q]) (ho : object Γ t.kind v = some o)
    (hsize : o.size = headerSize + value.length) (hsize' : o.size < 2 ^ 32)
    (hword : o.word < 2 ^ 32) (hinline : ∀ p ∈ o.members, Inline Γ depth p)
    (hrep : ∀ m lo i, Holds m (lo + headerSize) value →
      RepAll Γ (Rep Γ .onWire m depth) depth o.members lo (lo + align8 o.size) i)
    (hrun : ∀ off data h, serialize t v off data h = serializeNativeArray value off data o.word) :
    Writes Γ serialize (depth + 1) t v := by
  refine writes_object hkind hcode ho fun off data h hdata hroom hhandles => ?_
  rw [flatMap_handles_of_inline hinline, outSizes_of_inline hinline, hrun,
    serializeNativeArray_eq off data (by omega) hword, ← hsize]
  refine ⟨_, rfl, ?_, fun m lo hextra hlo => ?_⟩
  · have := add_neededPadding_eight o.size
    simp only [length_append, length_headerBytes, length_replicate]
    omega
  · rw [holds_append, length_headerBytes, holds_append] at hextra
    obtain ⟨hfirst, hsecond⟩ := holds_headerBytes hextra.1 hsize' hword
    exact ⟨hfirst, hsecond, hrep m lo h hextra.2.1⟩

theorem bytesOf_one (b : UInt8) : bytesOf 1 b.toNat = [b] := by
  simp [bytesOf]

theorem writes_string {bytes : List UInt8} (hsize : headerSize + bytes.length < 2 ^ 32)
    (hrun : ∀ off data h, serialize (.string nullable) (.string bytes) off data h =
      serializeNativeArray bytes off data bytes.length) :
    Writes Γ serialize (depth + 1) (.string nullable) (.string bytes) := by
  have hnumbers : (bytes.map fun b => Value.number b.toNat) =
      (bytes.map UInt8.toNat).map .number := by
    rw [map_map]
    rfl
  have hblock : (bytes.map UInt8.toNat).flatMap (bytesOf 1) = bytes := by
    rw [flatMap_map]
    simp only [bytesOf_one]
    exact flatMap_singleton' bytes
  refine writes_native rfl rfl rfl rfl hsize (lt_of_le_of_lt (Nat.le_add_left _ _) hsize)
    (inline_zip inline_number hnumbers _) (fun m lo i hbytes => ?_) hrun
  rw [← hblock] at hbytes
  have hlt : ∀ n ∈ bytes.map UInt8.toNat, n < 256 ^ 1 := by
    intro n hn
    obtain ⟨b, -, rfl⟩ := mem_map.mp hn
    exact b.toNat_lt
  have hlen : (bytes.map fun b => Value.number b.toNat).length = bytes.length := length_map _
  rw [← hlen]
  exact repAll_numbers hnumbers hlt hbytes

theorem writes_nativeArray {D : Domain} {typecode : TypeCode}
    (helems : ∀ v ∈ elems, HasKind Γ D depth (.number typecode.size) v)
    (hsize : headerSize + typecode.size * elems.length < 2 ^ 32) (hcount : elems.length < 2 ^ 32)
    (hrun : ∀ off data h, serialize (.nativeArray typecode nullable length) (.array elems)
      off data h =
      serializeNativeArray (elems.flatMap fun v => bytesOf typecode.size v.toNat) off data
        elems.length) :
    Writes Γ serialize (depth + 1) (.nativeArray typecode nullable length) (.array elems) := by
  have hnumbers := numbers_of_hasKind helems
  have hblock : (elems.flatMap fun v => bytesOf typecode.size v.toNat) =
      (elems.map Value.toNat).flatMap (bytesOf typecode.size) := by
    rw [flatMap_map]
  have hlen : (elems.flatMap fun v => bytesOf typecode.size v.toNat).length =
      typecode.size * elems.length := by
    rw [hblock, length_flatMap_bytesOf, length_map]
  have ho : object Γ (FieldType.nativeArray typecode nullable length).kind (.array elems) =
      some ⟨headerSize + typecode.size * elems.length, elems.length,
        (elementSlots (.number typecode.size) 0 elems.length).zip elems⟩ := rfl
  refine writes_native rfl rfl ho (congrArg (headerSize + ·) hlen.symm) hsize hcount
    (inline_zip inline_number hnumbers _) (fun m lo i hbytes => ?_) hrun
  rw [hblock] at hbytes
  have hlt : ∀ n ∈ elems.map Value.toNat, n < 256 ^ typecode.size := by
    intro n hn
    obtain ⟨v, hv, rfl⟩ := mem_map.mp hn
    have := helems v hv
    cases v <;> cases depth <;> first | exact this | cases this
  exact repAll_numbers hnumbers hlt hbytes

theorem getElem_booleanBytes {n j : ℕ} (bs : List Bool) (hj : j < (booleanBytes n bs).length) :
    (booleanBytes n bs)[j] = UInt8.ofNat (convertBooleansToByte ((bs.drop (8 * j)).take 8)) := by
  induction n generalizing bs j with
  | zero => cases hj
  | succ n ih =>
    cases j with
    | zero => rfl
    | succ j =>
      have hlt : j < (booleanBytes n (bs.drop 8)).length := Nat.lt_of_succ_lt_succ hj
      have htail := ih (bs.drop 8) hlt
      rw [drop_drop, show 8 + 8 * j = 8 * (j + 1) by omega] at htail
      exact htail

theorem length_booleanBytes (n : ℕ) (bs : List Bool) : (booleanBytes n bs).length = n := by
  induction n generalizing bs with
  | zero => rfl
  | succ n ih => rw [booleanBytes, length_cons, ih]

theorem writes_booleanArray {D : Domain} (helems : ∀ v ∈ elems, HasKind Γ D depth .bool v)
    (hsize : headerSize + (elems.length + 7) / 8 < 2 ^ 32) (hcount : elems.length < 2 ^ 32)
    (hrun : ∀ off data h, serialize (.booleanArray nullable length) (.array elems) off data h =
      serializeNativeArray (booleanBytes ((elems.length + 7) / 8) (elems.map Value.toBool)) off data
        elems.length) :
    Writes Γ serialize (depth + 1) (.booleanArray nullable length) (.array elems) := by
  have hbools := bools_of_hasKind helems
  have ho : object Γ (FieldType.booleanArray nullable length).kind (.array elems) =
      some ⟨headerSize + (elems.length + 7) / 8, elems.length,
        (elementSlots .bool 0 elems.length).zip elems⟩ := rfl
  refine writes_native rfl rfl ho (congrArg (headerSize + ·) (length_booleanBytes _ _).symm)
    hsize hcount
    (inline_zip inline_bool hbools _) (fun m lo i hbytes => ?_) hrun
  have hbits : ∀ k (hk : k < (elems.map Value.toBool).length),
      (m (lo + headerSize + k / 8)).toNat.testBit (k % 8) = (elems.map Value.toBool)[k] := by
    intro k hk
    rw [length_map] at hk
    have hbyte := hbytes (k / 8) (by rw [length_booleanBytes]; omega)
    have hlt := convertBooleansToByte_lt (((elems.map Value.toBool).drop (8 * (k / 8))).take 8)
      (by rw [length_take]; omega)
    rw [hbyte, getElem_booleanBytes, UInt8.toNat_ofNat', Nat.mod_eq_of_lt hlt,
      testBit_convertBooleansToByte]
    have hsplit : 8 * (k / 8) + k % 8 = k := Nat.div_add_mod k 8
    have hmod : k % 8 < 8 := Nat.mod_lt k (by decide)
    simp only [getD_eq_getElem?_getD, getElem?_take, getElem?_drop, hsplit, if_pos hmod,
      getElem?_map, getElem?_eq_getElem hk, Option.map_some, Option.getD_some, getElem_map]
  exact repAll_bools hbools hbits

/-! ### Generic arrays -/

theorem object_genericArray (Γ : Types) {subType : FieldType} (hne : subType ≠ .boolean)
    (nullable : Bool) (length : ℕ) (elems : List Value) :
    object Γ (FieldType.genericArray subType nullable length).kind (.array elems) =
      some ⟨headerSize + subType.getByteSize * elems.length, elems.length,
        (elementSlots subType.kind 0 elems.length).zip elems⟩ := by
  rw [getByteSize_eq, ← elementBytes_of_ne (kind_ne_bool hne)]
  rfl

section Elements

variable {subType : FieldType} (hne : subType ≠ .boolean) (hvalid : subType.isValid = true)

include hvalid hne

theorem layout_elementGroups (k n : ℕ) :
    ((layout (subType.getByteSize * k) (elementGroups subType n)).map fun f => f.slot 0) =
      (List.range' k n).map (elementSlot subType.kind 0) := by
  induction n generalizing k with
  | zero => rfl
  | succ n ih =>
    have hmod : subType.getByteSize * k % subType.getAlignment = 0 := by
      have hslot := Kind.isSlot_of_isMojom (isMojom_of_isValid hvalid)
      rw [getAlignment_eq, getByteSize_eq]
      exact Nat.mod_eq_zero_of_dvd (Dvd.dvd.mul_right (alignment_dvd hslot).2 k)
    obtain ⟨-, halign, -⟩ := neededPadding_of_mod hvalid hmod
    have htail := ih (k + 1)
    rw [Nat.mul_succ] at htail
    rw [elementGroups, replicate_succ, ← elementGroups, layout, range'_succ, map_append]
    simp only [getAlignment, getByteSize, halign, FieldGroup.fields, map_cons, map_nil,
      htail, singleton_append]
    rw [elementSlot_of_ne (kind_ne_bool hne), ← getByteSize_eq]
    rfl

theorem membersFrom_elementGroups (elems : List Value) :
    membersFrom 0 (elementGroups subType elems.length) elems =
      (elementSlots subType.kind 0 elems.length).zip elems := by
  have hlayout := layout_elementGroups hne hvalid 0 elems.length
  rw [Nat.mul_zero] at hlayout
  rw [membersFrom, hlayout, elementSlots, range_eq_range']

omit hne hvalid in
theorem serializeGenericArray_eq {h : ℕ} {data extra bytes : List UInt8} {toPack : List Entry}
    {hs : List ℕ} (hsize : headerSize + subType.getByteSize * elems.length < 2 ^ 32)
    (hcount : elems.length < 2 ^ 32)
    (off : ℤ) (hloop : serializeElements serialize subType h elems (data.length + headerSize)
      (data ++ List.replicate (align8 (headerSize + subType.getByteSize * elems.length)) 0) [] =
        .ok (toPack,
        data ++ List.replicate (align8 (headerSize + subType.getByteSize * elems.length)) 0 ++
        extra, hs))
    (hpack : pack (elementFormat subType elems.length) toPack = .ok bytes) :
    serializeGenericArray serialize subType elems off data h = .ok ⟨.entry (.int off),
      data ++ (headerBytes (headerSize + subType.getByteSize * elems.length) elems.length ++
        (bytes ++ (List.replicate
        (neededPaddingForAlignment (headerSize + subType.getByteSize * elems.length) 8) 0 ++
        extra))), hs⟩ := by
  have hbytes := length_pack hpack
  rw [size_elementFormat] at hbytes
  set size := headerSize + subType.getByteSize * elems.length with hsizedef
  set pad := neededPaddingForAlignment size 8 with hpad
  have hround : size + pad = align8 size := add_neededPadding_eight size
  have hzeros : List.replicate (size + pad) (0 : UInt8) = List.replicate headerSize 0 ++
      (List.replicate (subType.getByteSize * elems.length) 0 ++ List.replicate pad 0) := by
    rw [replicate_append_replicate, replicate_append_replicate, ← Nat.add_assoc]
  have hinto := packInto_eq data (List.replicate headerSize 0)
    (List.replicate (subType.getByteSize * elems.length) 0 ++ List.replicate pad 0 ++ extra)
    (pack_header hsize hcount) (by rw [length_headerBytes, length_replicate])
  have hinto' := packInto_eq (data ++ headerBytes size elems.length)
    (List.replicate (subType.getByteSize * elems.length) 0) (List.replicate pad 0 ++ extra) hpack
    (by rw [hbytes, length_replicate])
  rw [length_append, length_headerBytes] at hinto'
  rw [← hround, hzeros] at hloop
  simp only [append_assoc] at hinto hinto' hloop
  rw [serializeGenericArray, ← hsizedef, ← hpad, hzeros, hloop, ok_bind]
  change (packInto headerFormat _ _ _ >>= _) = _
  rw [hinto, ok_bind, hinto', ok_bind]

theorem writes_genericArray (helems : ∀ v ∈ elems, Writes Γ serialize depth subType v)
    (hsize : headerSize + subType.getByteSize * elems.length < 2 ^ 32)
    (hcount : elems.length < 2 ^ 32)
    (hrun : ∀ off data h, serialize' (.genericArray subType nullable length) (.array elems)
      off data h = serializeGenericArray serialize subType elems off data h) :
    Writes Γ serialize' (depth + 1) (.genericArray subType nullable length) (.array elems) := by
  have hfields : List.Forall₂ (WritesField Γ serialize depth) elems
      (descriptors (elementGroups subType elems.length)) := by
    rw [getDescriptors_elementGroups]
    exact forall₂_replicate fun v hv => ⟨fun h => absurd h hne, fun _ => helems v hv⟩
  have hformat := formatFrom_elementGroups hvalid (Nat.zero_mod subType.getAlignment) elems.length
  have hround := add_neededPadding_eight (headerSize + subType.getByteSize * elems.length)
  refine writes_object rfl rfl (object_genericArray Γ hne nullable length elems)
    fun off data h hdata hroom hhandles => ?_
  simp only [← membersFrom_elementGroups hne hvalid] at hroom hhandles ⊢
  have halign : (data.length + headerSize) % subType.getAlignment = 0 := by
    have hslot := Kind.isSlot_of_isMojom (isMojom_of_isValid hvalid)
    rw [getAlignment_eq]
    refine Nat.mod_eq_zero_of_dvd ((alignment_dvd hslot).1.trans (Nat.dvd_of_mod_eq_zero ?_))
    simp only [headerSize]
    omega
  have hfits : headerSize + 0 + (formatFrom 0 (elementGroups subType elems.length)).size ≤
      align8 (headerSize + subType.getByteSize * elems.length) := by
    rw [hformat, size_elementFormat]
    omega
  obtain ⟨toPack, extra, bytes, hloop, hextra, hpack, hat⟩ :=
    serializeGroups_written (isValid_elementGroups hne hvalid elems.length) hfields hdata
      (length_append.trans (congrArg _ (length_replicate (a := (0 : UInt8))))) (align8_mod _)
        hfits hroom
      (show h + ([] : List ℕ).length + _ ≤ 2 ^ 31 by simpa using hhandles)
  rw [Nat.add_zero, nil_append, ← serializeElements_eq hvalid h elems halign] at hloop
  rw [hformat] at hpack
  have hbytes := length_pack hpack
  rw [size_elementFormat] at hbytes
  refine ⟨_, (hrun off data h).trans (serializeGenericArray_eq hsize hcount off hloop hpack), ?_,
    fun m lo hheld hlo => ?_⟩
  · simp only [length_append, length_headerBytes, length_replicate, hbytes, hextra]
    omega
  · rw [holds_append, length_headerBytes, holds_append, hbytes, holds_append, length_replicate]
      at hheld
    obtain ⟨hhead, hbody, -, hrest⟩ := hheld
    obtain ⟨hfirst, hsecond⟩ := holds_headerBytes hhead hsize hcount
    refine ⟨hfirst, hsecond, hat m lo hlo hbody ?_⟩
    rw [← hround, ← Nat.add_assoc, ← Nat.add_assoc]
    exact hrest

end Elements

end Arrays

/-! ### Structs and maps -/

theorem align8_header_add (hvalid : ∀ g ∈ groups, g.isValid) :
    align8 (headerSize + (getStruct groups).size) = headerSize + (getStruct groups).size := by
  have hmod := getStructFrom_mod hvalid 0
  rw [Nat.zero_add] at hmod
  exact align8_of_mod ((Nat.add_mod_left 8 _).trans hmod)

variable {fields : List Value}

theorem writes_groups {Γ : Types} {serialize : Serializer} {depth : ℕ} {t : FieldType} {v : Value}
    (hvalid : ∀ g ∈ groups, g.isValid) (hkind : t.kind.isPointer) (hcode : t.getTypeCode = [.Q])
    (ho : object Γ t.kind v =
      some ⟨headerSize + (getStruct groups).size, getVersion groups, membersFrom 0 groups fields⟩)
    (hfields : List.Forall₂ (WritesField Γ serialize depth) fields (descriptors groups))
    (hsize : headerSize + (getStruct groups).size < 2 ^ 32) (hversion : getVersion groups < 2 ^ 32)
    (hrun : ∀ off data h, serialize' t v off data h = serializeStruct serialize groups fields h >>=
      fun r => .ok ⟨.entry (.int off), data ++ r.1, r.2⟩) :
    Writes Γ serialize' (depth + 1) t v := by
  have hround := align8_header_add hvalid
  refine writes_object hkind hcode ho fun off data h _ hroom hhandles => ?_
  simp only [hround] at hroom hhandles ⊢
  obtain ⟨newData, hok, hlen, hrep⟩ := serializeStruct_written hvalid hfields hsize hversion
    hroom hhandles
  refine ⟨newData, ?_, hlen, fun m lo hheld hlo => ?_⟩
  · rw [hrun, hok, ok_bind]
  · obtain ⟨hfirst, hsecond, hall⟩ := hrep m lo hheld hlo
    refine ⟨hfirst, hsecond, ?_⟩
    simp only [hround]
    exact hall

section Convert

/-- An `array.array` that `Convert` gets to. -/
def holdsNative : FieldType → Value → Bool
  | .nativeArray _ _ _, .array _ => true
  | .genericArray subType _ _, .array elems => elems.any (holdsNative subType)
  | .map keyType valueType _, .map keys values =>
    (keys.zip values).any fun e => holdsNative keyType e.1 || holdsNative valueType e.2
  | _, _ => false

variable {Γ : Types} {D : Domain} {depth : ℕ} {t : FieldType}

theorem mapM'_eq {ε α : Type} {f : α → Except ε α} {bad : α → Bool} {e : ε} {l : List α}
    (hf : ∀ a ∈ l, f a = if bad a then .error e else .ok a) :
    l.mapM' f = if l.any bad then .error e else .ok l := by
  induction l with
  | nil => rfl
  | cons a l ih =>
    rw [mapM'_cons, hf a (.head _), ih fun a ha => hf a (.tail _ ha), any_cons]
    cases bad a <;> cases l.any bad <;> rfl

/-- A value is converted to itself, unless an `array.array` is in the way. -/
theorem convert_eq {v : Value} (hv : HasKind Γ D depth t.kind v) :
    convert t v = if holdsNative t v then .error .attributeError else .ok v := by
  induction t generalizing depth v with
  | booleanArray nullable length =>
    cases v with
    | array elems =>
      cases depth with
      | zero => cases hv
      | succ depth =>
        simp only [FieldType.kind, HasKind] at hv
        have hbools := bools_of_hasKind hv.2
        rw [map_map] at hbools
        exact congrArg (Except.ok <| Value.array ·) hbools.symm
    | _ => rfl
  | nativeArray typecode nullable length => cases v <;> rfl
  | genericArray subType nullable length ih =>
    cases v with
    | array elems =>
      cases depth with
      | zero => cases hv
      | succ depth =>
        simp only [FieldType.kind, HasKind] at hv
        rw [convert, mapM'_eq fun v hmem => ih (hv.2 v hmem), holdsNative]
        split <;> rfl
    | _ => rfl
  | map keyType valueType nullable ihk ihv =>
    cases v with
    | map keys values =>
      cases depth with
      | zero => cases hv
      | succ depth =>
        simp only [FieldType.kind, HasKind] at hv
        obtain ⟨hnodup, hlen, hkeys, hvalues⟩ := hv
        cases depth with
        | zero => cases hkeys
        | succ depth =>
          simp only [HasKind] at hkeys hvalues
          have hentry : ∀ e ∈ keys.zip values, (do
              let key ← convert keyType e.1
              let value ← convert valueType e.2
              Except.ok (key, value)) =
              if holdsNative keyType e.1 || holdsNative valueType e.2 then .error .attributeError
                else .ok e := by
            intro e he
            obtain ⟨hmemk, hmemv⟩ := of_mem_zip he
            rw [ihk (hkeys.2 e.1 hmemk), ihv (hvalues.2 e.2 hmemv)]
            cases holdsNative keyType e.1 <;> cases holdsNative valueType e.2 <;> rfl
          rw [convert, mapM'_eq hentry, holdsNative]
          split
          · rfl
          · exact congrArg Except.ok (insertAll_eq hnodup hlen)
    | _ => rfl
  | _ => rfl

theorem convert_ok_iff {v v' : Value} (hv : HasKind Γ D depth t.kind v) :
    convert t v = .ok v' ↔ holdsNative t v = false ∧ v' = v := by
  rw [convert_eq hv]
  cases holdsNative t v <;> simp [eq_comm]

end Convert

/-- The values of all maps can be converted once more. -/
def Reconverts (c : Classes) : ℕ → FieldType → Value → Prop
  | depth + 1, .genericArray subType _ _, .array elems => ∀ v ∈ elems, Reconverts c depth subType v
  | depth + 1, .struct name _, .struct fields =>
    List.Forall₂ (fun v d => Reconverts c depth d.fieldType v) fields (descriptors (c.struct name))
  | depth + 1, .map _ valueType _, .map _ values =>
    whyFailed (convert (getArrayType valueType) (.array values)) = none ∧
      Reconverts c depth (getArrayType valueType) (.array values)
  | _, _, _ => True

section Types

variable {c : Classes} {D : Domain} {depth : ℕ} {t : FieldType} {v : Value}

theorem getArrayType_kind (t : FieldType) : (getArrayType t).kind = .array t.kind 0 false := by
  by_cases h : t = .boolean
  · rw [getArrayType, if_pos h, h]
    rfl
  · rw [getArrayType, if_neg h]
    rfl

theorem getArrayType_ne (t : FieldType) : getArrayType t ≠ .boolean := by
  rw [getArrayType]
  split <;> simp

theorem getArrayType_isValid (h : t.isValid) : (getArrayType t).isValid := by
  by_cases hb : t = .boolean
  · rw [getArrayType, if_pos hb]
    rfl
  · simp [getArrayType, hb, FieldType.isValid, h]

theorem getArrayType_getTypeCode (t : FieldType) : (getArrayType t).getTypeCode = [.Q] := by
  rw [getArrayType]
  split <;> rfl

theorem isValid_of_map (h : (FieldType.map keyType valueType nullable).isValid) :
    keyType.isValid ∧ valueType.isValid := by
  simp only [FieldType.isValid, Bool.and_eq_true] at h
  refine ⟨?_, h.2⟩
  cases keyType with
  | integer | float => exact h.1
  | boolean | string => rfl
  | _ => cases h.1

theorem mapGroups_valid (hkey : keyType.isValid)
    (hvalue : valueType.isValid) : ∀ g ∈ mapGroups keyType valueType, g.isValid := by
  intro g hg
  rcases mem_pair.mp hg with rfl | rfl
  · simp [isValid, getArrayType_ne, getArrayType_isValid hkey]
  · simp [isValid, getArrayType_ne, getArrayType_isValid hvalue]

theorem getStruct_mapGroups (keyType valueType : FieldType) :
    (getStruct (mapGroups keyType valueType)).size = 16 ∧
      getVersion (mapGroups keyType valueType) = 0 := by
  refine ⟨?_, rfl⟩
  simp [getStruct, mapGroups, getStructFrom, getAlignment, FieldType.getAlignment, getByteSize,
    FieldType.getByteSize, getTypeCode, getArrayType_getTypeCode, TypeCode.size,
      neededPaddingForAlignment,
    Format.size, FormatItem.size]

theorem membersFrom_mapGroups (keyType valueType : FieldType) (keys values : Value) :
    membersFrom 0 (mapGroups keyType valueType) [keys, values] =
      [(⟨.array keyType.kind 0 false, 8, 0⟩, keys),
        (⟨.array valueType.kind 0 false, 16, 0⟩, values)] := by
  simp [membersFrom, mapGroups, layout, getAlignment, FieldType.getAlignment, getByteSize,
    FieldType.getByteSize, getArrayType_getTypeCode, TypeCode.size, FieldGroup.fields, Field.slot,
      alignUp, headerSize,
    getArrayType_kind]

theorem object_map (Γ : Types) (keyType valueType : FieldType) (nullable : Bool)
    (keys values : List Value) :
    object Γ (FieldType.map keyType valueType nullable).kind (.map keys values) =
      some ⟨headerSize + (getStruct (mapGroups keyType valueType)).size,
        getVersion (mapGroups keyType valueType),
        membersFrom 0 (mapGroups keyType valueType) [.array keys, .array values]⟩ := by
  rw [(getStruct_mapGroups keyType valueType).1, (getStruct_mapGroups keyType valueType).2,
    membersFrom_mapGroups]
  rfl

theorem serializePointer_of_ne {data : List UInt8} (h : v ≠ .null) :
    serializePointer nullable v data x = x := by
  cases v <;> first | rfl | exact absurd rfl h

theorem serializeArray_of_length (h : length ≠ 0 → elems.length = length) :
    serializeArray length elems x = x := by
  rw [serializeArray, if_neg fun hne => hne.2 (h hne.1)]

theorem writes_scalar {Γ : Types} {serialize : Serializer} (hD : D.Words) (hne : t ≠ .boolean)
    (hu : t.kind.isUnionFree) (hv : Scalar D t.kind v) :
    Writes Γ (serializeType serialize c) depth t v := by
  cases t with
  | boolean => exact absurd rfl hne
  | integer typecode | float typecode =>
    cases hv with
    | number hn => exact writes_number rfl rfl hn fun off data h => rfl
    | null hnull => cases hnull
  | handle nullable | interfaceRequest nullable =>
    cases hv with
    | handle _ hh => exact writes_handle rfl rfl fun off data h => rfl
    | null hnull =>
      refine writes_nullHandle rfl rfl fun off data h => ?_
      obtain rfl : nullable = true := hnull
      rfl
  | interface nullable =>
    cases hv with
    | interface _ hh hversion => exact writes_interface (hD _ hversion) fun off data h => rfl
    | null hnull =>
      refine writes_nullInterface fun off data h => ?_
      obtain rfl : nullable = true := hnull
      rfl
  | union name nullable => cases hu
  | string nullable | booleanArray nullable | nativeArray _ nullable | genericArray _ nullable
    | struct _ nullable
  | map _ _ nullable =>
    cases hv with
    | null hnull =>
      refine writes_nullPointer rfl rfl fun off data h => ?_
      obtain rfl : nullable = true := hnull
      rfl

theorem forall₂_of_layout (hvalid : ∀ g ∈ groups, g.isValid)
    (hlen : (layout 0 groups).length = fields.length) :
    List.Forall₂ (fun _ _ => True) fields (descriptors groups) := by
  have hkinds := congrArg List.length (layout_kinds hvalid 0)
  rw [length_map, length_map] at hkinds
  exact forall₂_iff_get.mpr ⟨hlen.symm.trans hkinds, fun _ _ _ => trivial⟩

theorem unionFree_of_mem (hfree : c.types.UnionFree) {name : ℕ} {p : Slot × Value}
    (hp : p ∈ membersFrom 0 (c.struct name) fields) : p.1.kind.isUnionFree := by
  obtain ⟨f, hf, hs⟩ := mem_map.mp (of_mem_zip hp).1
  rw [← hs]
  exact hfree name f hf

theorem isValid_of_mem (hvalid : ∀ g ∈ groups, g.isValid) {d : FieldDescriptor}
    (hd : d ∈ descriptors groups) : d.fieldType.isValid := by
  obtain ⟨g, hg, hmem⟩ := mem_flatMap.mp hd
  have hgv := hvalid g hg
  cases g with
  | single d' =>
    obtain rfl := mem_singleton.mp hmem
    exact (isValid_single hgv).2
  | boolean ds =>
    simp only [isValid, Bool.and_eq_true, all_eq_true, decide_eq_true_eq] at hgv
    rw [hgv.2 d hmem]
    rfl

theorem fields_forall₂ (hvalid : ∀ g ∈ groups, g.isValid) {P : Kind → Value → Prop}
    {Q R : Value → FieldDescriptor → Prop} (hlen : (layout 0 groups).length = fields.length)
    (hP : ∀ p ∈ membersFrom 0 groups fields, P p.1.kind p.2)
    (hQ : List.Forall₂ Q fields (descriptors groups))
    (hR : ∀ v, ∀ d ∈ descriptors groups, P d.fieldType.kind v → Q v d → R v d) :
    List.Forall₂ R fields (descriptors groups) := by
  have hkinds := layout_kinds hvalid 0
  rw [forall₂_iff_get] at hQ ⊢
  refine ⟨hQ.1, fun i hi hi' => hR _ _ (get_mem _ _) ?_ (hQ.2 i hi hi')⟩
  have hif : i < (layout 0 groups).length := by omega
  have hmem : ((layout 0 groups)[i].slot 0, fields[i]) ∈ membersFrom 0 groups fields := by
    rw [membersFrom, mem_iff_getElem]
    refine ⟨i, ?_, ?_⟩
    · rw [length_zip, length_map]
      omega
    · rw [getElem_zip, getElem_map]
  have hkind : (layout 0 groups)[i].kind = (descriptors groups)[i].fieldType.kind := by
    have := congrArg (·[i]?) hkinds
    simpa [getElem?_map, getElem?_eq_getElem hif, getElem?_eq_getElem hi'] using this
  have := hP _ hmem
  simp only [Field.slot, hkind] at this
  exact this

theorem reconverts_keys {keys : List Value}
    (h : (FieldType.map keyType valueType nullable).isValid) :
    Reconverts c depth (getArrayType keyType) (.array keys) := by
  simp only [FieldType.isValid, Bool.and_eq_true] at h
  cases depth with
  | zero => simp [Reconverts]
  | succ depth =>
    cases keyType with
    | boolean => simp [getArrayType, Reconverts]
    | integer | float | string => simp [getArrayType, Reconverts]
    | _ => cases h.1

theorem holdsNative_keys (keys : List Value)
    (h : (FieldType.map keyType valueType nullable).isValid) :
    holdsNative (getArrayType keyType) (.array keys) = false := by
  simp only [FieldType.isValid, Bool.and_eq_true] at h
  cases keyType with
  | boolean | integer | float | string => simp [getArrayType, holdsNative]
  | _ => cases h.1

/-- A map can be serialized if there is no `array.array` in its values. -/
theorem reconverts_map_iff {keys values : List Value}
    (hv : HasKind c.types D depth (getArrayType valueType).kind (.array values)) :
    Reconverts c (depth + 1) (.map keyType valueType nullable) (.map keys values) ↔
      (∀ v ∈ values, holdsNative valueType v = false) ∧
        Reconverts c depth (getArrayType valueType) (.array values) := by
  refine and_congr_left fun _ => ?_
  have hholds : holdsNative (getArrayType valueType) (.array values) =
      values.any (holdsNative valueType) := by
    cases valueType <;> simp [getArrayType, holdsNative]
  rw [convert_eq hv, hholds]
  cases hany : values.any (holdsNative valueType) <;> simpa [whyFailed] using hany

theorem fields_written (hc : c.Valid) (hfree : c.types.UnionFree) {name : ℕ}
    (hall : ∀ {t v} {parent : Kind}, t ≠ .boolean → t.isValid → t.kind.isUnionFree →
      HasKind c.types D depth t.kind v → Always c.types (Sized c.types) depth parent t.kind v →
      Reconverts c depth t v → Writes c.types (serialize c depth) depth t v)
    (hv : HasKind c.types D (depth + 1) (.struct name nullable) (.struct fields))
    (hsized : Always c.types (Sized c.types) (depth + 1) parent (.struct name nullable)
      (.struct fields))
    (hre : Reconverts c (depth + 1) (.struct name nullable) (.struct fields)) :
    List.Forall₂ (WritesField c.types (serialize c depth) depth) fields
      (descriptors (c.struct name)) := by
  have hvalid := hc.struct name
  have hmembers := hv.members rfl
  have hsizes := hsized.2 _ rfl
  simp only [HasKind] at hv
  have hlen : (layout 0 (c.struct name)).length = fields.length := hv.length_eq
  refine fields_forall₂ hvalid hlen (P := fun kind v => HasKind c.types D depth kind v ∧
    Always c.types (Sized c.types) depth (.struct name nullable) kind v ∧ kind.isUnionFree = true)
    (fun p hp => ⟨hmembers p hp, hsizes p hp, unionFree_of_mem hfree hp⟩) hre ?_
  rintro v d hd ⟨hkind, hsize, hfree⟩ hre
  refine ⟨fun hb => ?_, fun hb => hall hb (isValid_of_mem hvalid hd) hfree hkind hsize hre⟩
  rw [hb] at hkind
  exact bool_of_hasKind hkind

theorem serialize_writes (hc : c.Valid) (hfree : c.types.UnionFree) (hD : D.Words)
    (hne : t ≠ .boolean) (hvalid : t.isValid) (hu : t.kind.isUnionFree)
    (hv : HasKind c.types D depth t.kind v)
    (hsized : Always c.types (Sized c.types) depth parent t.kind v)
    (hre : Reconverts c depth t v) : Writes c.types (serialize c depth) depth t v := by
  induction depth generalizing t v parent with
  | zero => exact writes_scalar hD hne hu (hv.scalar (hasKind_zero hv))
  | succ depth ih =>
    cases ho : object c.types t.kind v with
    | none => exact writes_scalar hD hne hu (hv.scalar ho)
    | some o =>
      obtain ⟨hsize, hword⟩ := hsized.1 o ho
      have hmembers := hv.members ho
      have hsizes := hsized.2 o ho
      rw [serialize]
      cases t with
      | boolean => exact absurd rfl hne
      | integer | float | handle | interfaceRequest | interface => cases v <;> cases ho
      | union => cases hu
      | string nullable =>
        cases objectOf ho
        exact writes_string hsize fun off data h => rfl
      | booleanArray nullable length =>
        cases objectOf ho
        simp only [FieldType.kind, HasKind] at hv
        refine writes_booleanArray hv.2 hsize hword fun off data h => ?_
        rw [serializeType, serializePointer_of_ne (by simp), serializeArray_of_length hv.1]
      | nativeArray typecode nullable length =>
        cases objectOf ho
        simp only [FieldType.kind, HasKind] at hv
        refine writes_nativeArray hv.2 hsize hword fun off data h => ?_
        rw [serializeType, serializePointer_of_ne (by simp), serializeArray_of_length hv.1]
      | genericArray subType nullable length =>
        cases objectOf ho
        rename_i elems
        simp only [FieldType.isValid, Bool.and_eq_true, decide_eq_true_eq] at hvalid
        simp only [FieldType.kind, HasKind] at hv
        have helems : ∀ v ∈ elems, Writes c.types (serialize c depth) depth subType v := by
          intro v hmem
          obtain ⟨q, hq, hp⟩ := mem_elements subType.kind hmem
          have hs := hsizes _ hp
          rw [hq] at hs
          simp only [Reconverts] at hre
          exact ih hvalid.1 hvalid.2 hu (hv.2 v hmem) hs (hre v hmem)
        refine writes_genericArray hvalid.1 hvalid.2 helems ?_ hword fun off data h => ?_
        · have hsize' : headerSize + elementBytes subType.kind elems.length < 2 ^ 32 := hsize
          rwa [elementBytes_of_ne (kind_ne_bool hvalid.1), ← getByteSize_eq] at hsize'
        · rw [serializeType, serializePointer_of_ne (by simp), serializeArray_of_length hv.1]
      | struct name nullable =>
        cases objectOf ho
        have hfields := fields_written hc hfree ih hv hsized hre
        exact writes_groups (hc.struct name) rfl rfl rfl hfields hsize hword fun off data h => rfl
      | map keyType valueType nullable =>
        cases objectOf ho
        rename_i keys values
        obtain ⟨hkey, hvalue⟩ := isValid_of_map hvalid
        simp only [FieldType.kind, Kind.isUnionFree, Bool.and_eq_true] at hu
        have hks := hmembers _ (.head _)
        have hvs := hmembers _ (.tail _ (.head _))
        have hks' := hsizes _ (.head _)
        have hvs' := hsizes _ (.tail _ (.head _))
        simp only at hks hvs hks' hvs'
        rw [← getArrayType_kind] at hks hvs hks' hvs'
        have hwk := ih (getArrayType_ne keyType) (getArrayType_isValid hkey)
          (by rw [getArrayType_kind]; exact hu.1) hks hks' (reconverts_keys hvalid)
        have hwv := ih (getArrayType_ne valueType) (getArrayType_isValid hvalue)
          (by rw [getArrayType_kind]; exact hu.2) hvs hvs' hre.2
        have hkeys := (convert_ok_iff hks).mpr ⟨holdsNative_keys keys hvalid, rfl⟩
        obtain ⟨values', hvalues⟩ := ok_of_whyFailed hre.1
        rw [((convert_ok_iff hvs).mp hvalues).2] at hvalues
        obtain ⟨hsize16, hversion0⟩ := getStruct_mapGroups keyType valueType
        have hfields : List.Forall₂ (WritesField c.types (serialize c depth) depth)
            [.array keys, .array values]
            (descriptors (mapGroups keyType valueType)) :=
          .cons ⟨fun hb => absurd hb (getArrayType_ne _), fun _ => hwk⟩
            (.cons ⟨fun hb => absurd hb (getArrayType_ne _), fun _ => hwv⟩ .nil)
        refine writes_groups (mapGroups_valid hkey hvalue) rfl rfl
          (object_map c.types keyType valueType nullable keys values) hfields ?_ ?_
            fun off data h => ?_
        · rw [hsize16]
          decide
        · rw [hversion0]
          decide
        · rw [serializeType, serializePointer_of_ne (by simp)]
          rw [hkeys, ok_bind, hvalues, ok_bind]

end Types

end Mojo.PythonBindings
