import Mojo.PythonBindings.Formats

/-!
# What serialization writes

`Writes` says that a value is serialized to its bytes: whatever memory has the packed bytes of the
field, and the bytes that were appended at the distance that the pointer names, holds the value
there. Nothing is assumed about the place, so an object can be built in an array of its own and
appended later.
-/

namespace Mojo.PythonBindings

open Mojo.Memory Mojo.Wire Mojo.CppBindings
open List hiding Mem

variable {values : List Value} {ds : List FieldDescriptor} {n offset lo i : ℕ} {nullable : Bool}
    {g : FieldGroup} {groups : List FieldGroup} {m : Mem}

/-- The values that Python allows: valid handles, and the strings that the codec decodes as it
encodes them. -/
def domain (unicode : List UInt8 → Option (List UInt8)) : Domain where
  handle h := h ≠ invalidHandle
  version n := n < 2 ^ 32
  string bytes := unicode bytes = some bytes

/-! ### Writing -/

section Writes

variable (Γ : Types) (serialize : Serializer) (depth : ℕ)

def Writes (t : FieldType) (v : Value) : Prop :=
  ∀ (off : ℕ) (data : List UInt8) (h : ℕ), 0 < off → data.length % 8 = 0 →
    off + outSize Γ depth t.kind v < 2 ^ 63 → h + (handles Γ depth t.kind v).length ≤ 2 ^ 31 →
    ∃ s extra bytes, serialize t v off data h = .ok s ∧ s.data = data ++ extra ∧
      s.handles = handles Γ depth t.kind v ∧ extra.length = outSize Γ depth t.kind v ∧
      pack (t.getTypeCode.map .code) (flatten s.encoded) = .ok bytes ∧
      ∀ m a, Holds m a bytes → Holds m (a + off) extra → (a + off) % 8 = 0 →
        Rep Γ .onWire m depth ⟨t.kind, a, 0⟩ v (a + off) h

def WritesField (v : Value) (d : FieldDescriptor) : Prop :=
  (d.fieldType = .boolean → ∃ b, v = .bool b) ∧
    (d.fieldType ≠ .boolean → Writes Γ serialize depth d.fieldType v)

end Writes

section Scalars

variable {Γ : Types} {serialize : Serializer} {depth : ℕ} {t : FieldType} {v : Value}

theorem writes_of_none (hnone : object Γ t.kind v = none)
    (hrun : ∀ (off : ℕ) data h, h + (handles Γ depth t.kind v).length ≤ 2 ^ 31 →
      ∃ encoded bytes, serialize t v off data h = .ok ⟨encoded, data, handles Γ depth t.kind v⟩ ∧
        pack (t.getTypeCode.map .code) (flatten encoded) = .ok bytes ∧
        ∀ m a lo, Holds m a bytes → Content .onWire m ⟨t.kind, a, 0⟩ v lo h) :
    Writes Γ serialize depth t v := by
  intro off data h hoff hdata hroom hhandles
  obtain ⟨encoded, bytes, hok, hpack, hcontent⟩ := hrun off data h hhandles
  refine ⟨_, [], bytes, hok, (append_nil data).symm, rfl, (outSize_of_none hnone).symm, hpack, ?_⟩
  intro m a hbytes hextra hmod
  exact rep_of_none hnone (hcontent m a _ hbytes)

theorem writes_number {typecode : TypeCode} (hkind : t.kind = .number typecode.size)
    (hcode : t.getTypeCode = [typecode]) (hn : n < 256 ^ typecode.size)
    (hrun : ∀ off data h, serialize t (.number n) off data h =
      .ok ⟨.entry (typecode.entry n), data, []⟩) :
    Writes Γ serialize depth t (.number n) := by
  have hnone : object Γ t.kind (.number n) = none := by rw [hkind]; rfl
  refine writes_of_none hnone fun off data h _ => ?_
  rw [handles_of_none hnone, hcode]
  refine ⟨_, _, hrun off data h, pack_entry typecode hn, fun m a lo hbytes => ?_⟩
  rw [hkind]
  exact hbytes.load_eq hn

theorem writes_handle (hkind : t.kind = .handle nullable) (hcode : t.getTypeCode = [.i])
    (hrun : ∀ off data (h : ℕ), serialize t (.handle n) off data h =
      .ok ⟨.entry (.int h), data, [n]⟩) :
    Writes Γ serialize depth t (.handle n) := by
  have hnone : object Γ t.kind (.handle n) = none := by rw [hkind]; rfl
  refine writes_of_none hnone fun off data h hhandles => ?_
  rw [handles_of_none hnone] at hhandles ⊢
  rw [hcode]
  have hlt : h < 2 ^ 31 := hhandles
  refine ⟨_, _, hrun off data h, pack_handle hlt, fun m a lo hbytes => ?_⟩
  rw [hkind]
  exact hbytes.load_eq (by omega)

theorem writes_nullHandle (hkind : t.kind = .handle nullable) (hcode : t.getTypeCode = [.i])
    (hrun : ∀ off data h, serialize t .null off data h = .ok ⟨.entry (.int (-1)), data, []⟩) :
    Writes Γ serialize depth t .null := by
  have hnone : object Γ t.kind .null = none := by rw [hkind]; rfl
  refine writes_of_none hnone fun off data h _ => ?_
  rw [handles_of_none hnone, hcode]
  refine ⟨_, _, hrun off data h, pack_noHandle, fun m a lo hbytes => ?_⟩
  rw [hkind]
  exact hbytes.load_eq (by simp [encodedInvalidHandle, maxUint32])

theorem flatten_pair (e e' : Entry) : flatten (.tuple [.entry e, .entry e']) = [e] ++ [e'] := by
  simp [flatten, flattenAll]

theorem interface_codes (nullable : Bool) :
    (FieldType.interface nullable).getTypeCode.map FormatItem.code = [.code .i] ++ [.code .I] := rfl

theorem writes_interface {version : ℕ} (hversion : version < 2 ^ 32)
    (hrun : ∀ off data (h : ℕ), serialize (.interface nullable) (.interface n version) off data h =
      .ok ⟨.tuple [.entry (.int h), .entry (.int version)], data, [n]⟩) :
    Writes Γ serialize depth (.interface nullable) (.interface n version) := by
  have hnone : object Γ (FieldType.interface nullable).kind (.interface n version) = none := rfl
  refine writes_of_none hnone fun off data h hhandles => ?_
  rw [handles_of_none hnone] at hhandles ⊢
  have hlt : h < 2 ^ 31 := hhandles
  refine ⟨_, bytesOf 4 h ++ bytesOf 4 version, hrun off data h, ?_, fun m a lo hbytes => ?_⟩
  · rw [interface_codes, flatten_pair]
    exact pack_append (pack_handle hlt) (pack_word hversion)
  · rw [holds_append, length_bytesOf] at hbytes
    exact ⟨hbytes.1.load_eq (by omega), hbytes.2.load_eq hversion⟩

theorem writes_nullInterface (hrun : ∀ off data h, serialize (.interface nullable) .null
    off data h =
      .ok ⟨.tuple [.entry (.int (-1)), .entry (.int (0 : ℕ))], data, []⟩) :
    Writes Γ serialize depth (.interface nullable) .null := by
  have hnone : object Γ (FieldType.interface nullable).kind .null = none := rfl
  refine writes_of_none hnone fun off data h _ => ?_
  rw [handles_of_none hnone]
  refine ⟨_, bytesOf 4 encodedInvalidHandle ++ bytesOf 4 0, hrun off data h, ?_,
    fun m a lo hbytes => ?_⟩
  · rw [interface_codes, flatten_pair]
    exact pack_append pack_noHandle (pack_word (by decide))
  · rw [holds_append, length_bytesOf] at hbytes
    exact ⟨hbytes.1.load_eq (by simp [encodedInvalidHandle, maxUint32]), hbytes.2.load_eq
      (by decide)⟩

theorem writes_nullPointer (hkind : t.kind.isPointer) (hcode : t.getTypeCode = [.Q])
    (hrun : ∀ off data h, serialize t .null off data h = .ok ⟨.entry (.int (0 : ℕ)), data, []⟩) :
    Writes Γ serialize depth t .null := by
  have hnone : object Γ t.kind .null = none := by cases t.kind <;> rfl
  refine writes_of_none hnone fun off data h _ => ?_
  rw [handles_of_none hnone, hcode]
  refine ⟨_, _, hrun off data h, pack_pointer (n := 0) (by decide), fun m a lo hbytes => ?_⟩
  have hload := hbytes.load_eq (by decide)
  cases hk : t.kind <;> rw [hk] at hkind <;> first | cases hkind; done | exact ⟨hkind, hload⟩

theorem writes_object {o : Object} (hkind : t.kind.isPointer) (hcode : t.getTypeCode = [.Q])
    (ho : object Γ t.kind v = some o)
    (hrun : ∀ (off : ℕ) data h, data.length % 8 = 0 → align8 o.size + outSizes Γ depth o.members <
      2 ^ 63 → h + (handlesOf Γ depth o.members).length ≤ 2 ^ 31 →
      ∃ extra, serialize t v off data h =
        .ok ⟨.entry (.int off), data ++ extra, handlesOf Γ depth o.members⟩ ∧
        extra.length = align8 o.size + outSizes Γ depth o.members ∧
        ∀ m lo, Holds m lo extra → lo % 8 = 0 → ObjectAt Γ m (Rep Γ .onWire m depth) depth o lo h) :
    Writes Γ serialize (depth + 1) t v := by
  intro off data h hoff hdata hroom hhandles
  rw [outSize_succ ho, if_pos hkind] at hroom ⊢
  rw [handles_succ ho] at hhandles ⊢
  obtain ⟨extra, hok, hlen, hat⟩ := hrun off data h hdata (by omega) hhandles
  refine ⟨_, extra, bytesOf 8 off, hok, rfl, rfl, hlen, ?_, fun m a hbytes hextra hmod => ?_⟩
  · rw [hcode]
    exact pack_pointer (by omega)
  · have hload := hbytes.load_eq (by omega)
    refine ⟨(content_pointer ho hkind).mpr ⟨by simp only; omega, hmod, ?_⟩, ?_⟩
    · simp only [pointerWord, hload]
      omega
    · simp only [ho, if_pos hkind]
      exact hat m _ hextra hmod

end Scalars

/-! ### Groups -/

def membersFrom (index : ℕ) (groups : List FieldGroup) (values : List Value) :
    List (Slot × Value) :=
  ((layout index groups).map fun f => f.slot 0).zip values

def FieldGroup.members (g : FieldGroup) (offset : ℕ) (values : List Value) : List (Slot × Value) :=
  ((g.fields offset).map fun f => f.slot 0).zip values

theorem members_single (d : FieldDescriptor) (offset : ℕ) (v : Value) :
    (FieldGroup.single d).members offset [v] =
      [(⟨d.fieldType.kind, headerSize + offset, 0⟩, v)] := by
  simp [FieldGroup.members, FieldGroup.fields, Field.slot]

theorem length_fields (g : FieldGroup) (offset : ℕ) :
    (g.fields offset).length = g.getDescriptors.length := by
  cases g with
  | single d => rfl
  | boolean ds => rw [FieldGroup.fields, length_map, length_zipIdx, FieldGroup.getDescriptors]

theorem membersFrom_cons {index : ℕ} (h : g.getDescriptors.length ≤ values.length) :
    membersFrom index (g :: groups) values =
      g.members (alignUp index g.getAlignment) (values.take g.getDescriptors.length) ++
      membersFrom (alignUp index g.getAlignment + g.getByteSize) groups
        (values.drop g.getDescriptors.length) := by
  have hsplit := take_append_drop g.getDescriptors.length values
  rw [membersFrom, layout, map_append, ← hsplit, zip_append, hsplit]
  · rfl
  · rw [length_map, length_fields, length_take, Nat.min_eq_left h]

theorem fields_kinds (hg : g.isValid) (offset : ℕ) :
    (g.fields offset).map Field.kind = g.getDescriptors.map fun d => d.fieldType.kind := by
  cases g with
  | single d => rfl
  | boolean ds =>
    simp only [FieldGroup.isValid, Bool.and_eq_true, all_eq_true, decide_eq_true_eq] at hg
    have hkinds : ∀ d ∈ ds, d.fieldType.kind = .bool := fun d hd => by rw [hg.2 d hd]; rfl
    rw [FieldGroup.fields, FieldGroup.getDescriptors, map_map, map_congr_left hkinds]
    apply ext_getElem
    · simp
    · intro i hi hi'
      simp

theorem layout_kinds (hvalid : ∀ g ∈ groups, g.isValid) (index : ℕ) :
    (layout index groups).map Field.kind =
      (descriptors groups).map fun d => d.fieldType.kind := by
  induction groups generalizing index with
  | nil => rfl
  | cons g groups ih =>
    rw [layout, map_append, ih fun g hg => hvalid g (.tail _ hg), descriptors_cons,
      map_append, fields_kinds (hvalid g (.head _))]

section Groups

variable {Γ : Types} {serialize : Serializer} {depth : ℕ}

theorem length_getDescriptors_le {R : Value → FieldDescriptor → Prop}
    (h : List.Forall₂ R values (descriptors (g :: groups))) :
    g.getDescriptors.length ≤ values.length := by
  rw [h.length_eq, descriptors_cons, length_append]
  exact Nat.le_add_right _ _

theorem repAll_booleans {bs : List Bool} (hlen : bs.length = ds.length) {t : ℕ}
    (h : ∀ k (hk : k < bs.length), (m (t + headerSize + offset)).toNat.testBit k = bs[k]) :
    RepAll Γ (Rep Γ .onWire m depth) depth ((FieldGroup.boolean ds).members offset (bs.map .bool)) t
      lo i := by
  refine repAll_of_inline fun p hp => ?_
  obtain ⟨k, hk, rfl⟩ := getElem_of_mem hp
  have hkb : k < bs.length := by
    simp only [FieldGroup.members, length_zip, length_map] at hk
    omega
  simp only [FieldGroup.members, getElem_zip, getElem_map]
  refine ⟨inline_bool _ _, fun lo i => ?_⟩
  have hbit := h k hkb
  rw [Nat.add_assoc] at hbit
  simpa [FieldGroup.fields, Content, Field.slot, Slot.shift, testBit] using hbit

theorem serializeGroup_written (hg : g.isValid) (offset off h : ℕ) (data : List UInt8)
    (hfields : List.Forall₂ (WritesField Γ serialize depth) values g.getDescriptors)
    (hoff : 0 < off)
    (hdata : data.length % 8 = 0)
    (hroom : off + outSizes Γ depth (g.members offset values) < 2 ^ 63)
    (hhandles : h + (handlesOf Γ depth (g.members offset values)).length ≤ 2 ^ 31) :
    ∃ s extra bytes, serializeGroup serialize g values off data h = .ok s ∧ s.data = data ++ extra ∧
      s.handles = handlesOf Γ depth (g.members offset values) ∧
      extra.length = outSizes Γ depth (g.members offset values) ∧
      pack (g.getTypeCode.map .code) (flatten s.encoded) = .ok bytes ∧
      ∀ m t, Holds m (t + headerSize + offset) bytes →
        Holds m (t + headerSize + offset + off) extra → (t + headerSize + offset + off) % 8 = 0 →
        RepAll Γ (Rep Γ .onWire m depth) depth (g.members offset values) t
        (t + headerSize + offset + off) h := by
  cases g with
  | single d =>
    cases hfields with
    | cons hv hnil =>
      cases hnil
      rw [members_single, outSizes_singleton] at hroom ⊢
      rw [members_single, handlesOf_singleton] at hhandles
      rw [handlesOf_singleton]
      obtain ⟨s, extra, bytes, hrun, hs, hhs, hlen, hpack, hat⟩ :=
        hv.2 (isValid_single hg).1 off data h hoff hdata hroom hhandles
      refine ⟨s, extra, bytes, hrun, hs, hhs, hlen, hpack,
        fun m t hbytes hextra hmod => ⟨?_, trivial⟩⟩
      simp only [Slot.shift, ← Nat.add_assoc]
      exact hat m _ hbytes hextra hmod
  | boolean ds =>
    obtain ⟨hbools, hlen, hle⟩ := boolean_group (fun _ _ h => h.1) hg hfields
    have hinline : ∀ p ∈ (FieldGroup.boolean ds).members offset values, Inline Γ depth p :=
      inline_zip inline_bool hbools _
    rw [flatMap_handles_of_inline hinline, outSizes_of_inline hinline]
    refine ⟨_, [], bytesOf 1 (convertBooleansToByte (values.map Value.toBool)), rfl,
      (append_nil data).symm,
      rfl, rfl, pack_entry .B (convertBooleansToByte_lt _ (by rw [length_map]; omega)),
        fun m t hbytes _ _ => ?_⟩
    rw [hbools]
    refine repAll_booleans (by rw [length_map]; exact hlen) fun k hk => ?_
    rw [testBit_of_holds (by rw [length_map]; omega) hbytes k, getD_eq_getElem _ _ hk]

theorem serializeGroups_written (hvalid : ∀ g ∈ groups, g.isValid) {index base top h : ℕ}
    {data : List UInt8}
    {hs : List ℕ} (hfields : List.Forall₂ (WritesField Γ serialize depth) values
      (descriptors groups))
    (hbase : base % 8 = 0) (hdata : data.length = base + top) (htop : top % 8 = 0)
    (hfits : headerSize + index + (formatFrom index groups).size ≤ top)
    (hroom : top + outSizes Γ depth (membersFrom index groups values) < 2 ^ 63)
    (hhandles : h + hs.length +
      (handlesOf Γ depth (membersFrom index groups values)).length ≤ 2 ^ 31) :
    ∃ toPack extra bytes,
      serializeGroups serialize h groups values (base + headerSize + index) data hs =
        .ok (toPack, data ++ extra, hs ++ handlesOf Γ depth (membersFrom index groups values)) ∧
      extra.length = outSizes Γ depth (membersFrom index groups values) ∧
      pack (formatFrom index groups) toPack = .ok bytes ∧
      ∀ m t, t % 8 = 0 → Holds m (t + headerSize + index) bytes → Holds m (t + top) extra →
        RepAll Γ (Rep Γ .onWire m depth) depth (membersFrom index groups values) t (t + top)
        (h + hs.length) := by
  induction groups generalizing values index top data hs with
  | nil =>
    exact ⟨[], [], [], by simp [serializeGroups, membersFrom, layout], rfl, rfl,
      fun m t _ _ _ => trivial⟩
  | cons g groups ih =>
    have hg := hvalid g (.head _)
    have hhead := forall₂_take_append values _ _ hfields
    have htail := forall₂_drop_append values _ _ hfields
    have hend := add_size_formatFrom hg index groups
    have hpos := getByteSize_pos hg
    have hpad := add_neededPadding hg index
    have hposition : base + headerSize + index + neededPaddingForAlignment (base + headerSize +
        index) g.getAlignment = base + headerSize + alignUp index g.getAlignment := by
      have hmod : neededPaddingForAlignment (base + headerSize + index) g.getAlignment =
          neededPaddingForAlignment index g.getAlignment := by
        have hsame : (base + headerSize + index) % g.getAlignment = index % g.getAlignment := by
          rcases getAlignment_cases hg with ha | ha | ha | ha <;> rw [ha, headerSize] <;> omega
        rw [neededPaddingForAlignment, neededPaddingForAlignment, hsame]
      rw [hmod]
      omega
    rw [membersFrom_cons (length_getDescriptors_le hfields), outSizes_append] at hroom ⊢
    rw [membersFrom_cons (length_getDescriptors_le hfields), handlesOf_append, length_append]
      at hhandles
    rw [handlesOf_append]
    set offset := alignUp index g.getAlignment with hoffset
    obtain ⟨s, extra, bytes, hrun, hsdata, hshandles, hextra, hpack, hat⟩ :=
      serializeGroup_written hg offset (top - headerSize - offset) (h + hs.length) data hhead
        (by omega) (by omega)
        (by omega) (by omega)
    have hdata' : s.data.length = base + (top + extra.length) := by
      rw [hsdata, length_append]
      omega
    have htop' : (top + extra.length) % 8 = 0 := by
      have hmod : outSizes Γ depth (g.members offset (values.take g.getDescriptors.length)) % 8 =
          0 :=
        sum_mod (fun p => outSize_mod) _
      omega
    have hfits' : headerSize + (offset + g.getByteSize) +
        (formatFrom (offset + g.getByteSize) groups).size ≤ top + extra.length := by omega
    obtain ⟨toPack, extra', bytes', hrun', hextra', hpack', hat'⟩ :=
      ih (fun g hg => hvalid g (.tail _ hg)) htail hdata' htop' hfits' (by omega)
        (show h + (hs ++ s.handles).length + _ ≤ 2 ^ 31 by rw [length_append, hshandles]; omega)
    have hoff : (data.length : ℤ) - (base + headerSize + offset : ℕ) =
        (top - headerSize - offset : ℕ) := by omega
    refine ⟨flatten s.encoded ++ toPack, extra ++ extra',
      List.replicate (neededPaddingForAlignment index g.getAlignment) 0 ++ bytes ++ bytes',
        ?_, ?_, ?_,
      fun m t ht hbytes hext => ?_⟩
    · rw [serializeGroups, hposition, hoff, hrun, ok_bind, Nat.add_assoc _ offset, hrun', ok_bind,
        hsdata, hshandles]
      simp only [append_assoc]
    · rw [length_append, hextra, hextra']
    · have := pack_append (pack_append (pack_pads (neededPaddingForAlignment index g.getAlignment))
        hpack) hpack'
      simpa [formatFrom, hoffset] using this
    · rw [holds_append, holds_append, length_append, length_replicate] at hbytes
      rw [holds_append] at hext
      have hlen := length_pack hpack
      rw [size_typeCode] at hlen
      have haddr : t + headerSize + index + neededPaddingForAlignment index g.getAlignment =
          t + headerSize + offset := by omega
      have hlo : t + headerSize + offset + (top - headerSize - offset) = t + top := by omega
      rw [repAll_append]
      constructor
      · have := hat m t (by rw [← haddr]; exact hbytes.1.2) (by rw [hlo]; exact hext.1)
          (by rw [hlo]; omega)
        rwa [hlo] at this
      · have := hat' m t ht (by
          rw [show t + headerSize + (offset + g.getByteSize) = t + headerSize + index +
            (neededPaddingForAlignment index g.getAlignment + bytes.length) by omega]
          exact hbytes.2) (by rw [← Nat.add_assoc]; exact hext.2)
        rwa [length_append, hshandles, ← Nat.add_assoc, ← Nat.add_assoc, hextra] at this

theorem serializeStruct_written (hvalid : ∀ g ∈ groups, g.isValid) {fields : List Value} {h : ℕ}
    (hfields : List.Forall₂ (WritesField Γ serialize depth) fields (descriptors groups))
    (hsize : headerSize + (getStruct groups).size < 2 ^ 32) (hversion : getVersion groups < 2 ^ 32)
    (hroom : headerSize + (getStruct groups).size +
      outSizes Γ depth (membersFrom 0 groups fields) < 2 ^ 63)
    (hhandles : h + (handlesOf Γ depth (membersFrom 0 groups fields)).length ≤ 2 ^ 31) :
    ∃ data, serializeStruct serialize groups fields h =
      .ok (data, handlesOf Γ depth (membersFrom 0 groups fields)) ∧
      data.length = headerSize + (getStruct groups).size +
        outSizes Γ depth (membersFrom 0 groups fields) ∧
      ∀ m t, Holds m t data → t % 8 = 0 →
        load m t 4 = headerSize + (getStruct groups).size ∧ load m (t + 4) 4 = getVersion groups ∧
          RepAll Γ (Rep Γ .onWire m depth) depth (membersFrom 0 groups fields) t
            (t + (headerSize + (getStruct groups).size)) h := by
  set F := getStruct groups with hF
  have hformat : F = formatFrom 0 groups ++
      List.replicate (neededPaddingForAlignment (0 + (formatFrom 0 groups).size) 8) .pad :=
    getStructFrom_eq hvalid 0
  have hmod : F.size % 8 = 0 := by
    have := getStructFrom_mod hvalid 0
    rwa [Nat.zero_add] at this
  have hheader := pack_header hsize hversion
  have hzeros : List.replicate (headerSize + F.size) (0 : UInt8) =
      [] ++ List.replicate headerSize 0 ++ List.replicate F.size 0 := by
    rw [nil_append, replicate_append_replicate]
  have hinto := packInto_eq [] (List.replicate headerSize 0) (List.replicate F.size 0) hheader
    (by rw [length_headerBytes, length_replicate])
  rw [← hzeros, length_nil, nil_append] at hinto
  have hlen : (headerBytes (headerSize + F.size) (getVersion groups) ++
      List.replicate F.size 0).length = 0 + (headerSize + F.size) := by
    rw [length_append, length_headerBytes, length_replicate, Nat.zero_add]
  have hfits : headerSize + 0 + (formatFrom 0 groups).size ≤ headerSize + F.size := by
    rw [hformat, size_append]
    omega
  obtain ⟨toPack, extra, bytes, hrun, hextra, hpack, hat⟩ :=
    serializeGroups_written hvalid hfields (Nat.zero_mod 8) hlen (by simp only [headerSize]; omega)
      hfits hroom
      (show h + ([] : List ℕ).length + _ ≤ 2 ^ 31 by simpa using hhandles)
  rw [Nat.zero_add, Nat.add_zero, nil_append] at hrun
  have hpackF := pack_append hpack
    (pack_pads (neededPaddingForAlignment (0 + (formatFrom 0 groups).size) 8))
  rw [← hformat, append_nil] at hpackF
  have hlenF := length_pack hpackF
  have hinto' := packInto_eq (headerBytes (headerSize + F.size) (getVersion groups))
    (List.replicate F.size 0) extra
    hpackF (by rw [hlenF, length_replicate])
  rw [length_headerBytes] at hinto'
  have hall : serializeStruct serialize groups fields h =
      .ok (headerBytes (headerSize + F.size) (getVersion groups) ++
      (bytes ++ List.replicate (neededPaddingForAlignment (0 + (formatFrom 0 groups).size) 8) 0) ++
        extra,
      handlesOf Γ depth (membersFrom 0 groups fields)) := by
    rw [serializeStruct, ← hF]
    simp only [hinto, hrun, hinto', ok_bind]
  refine ⟨_, hall, ?_, fun m t hdata ht => ?_⟩
  · rw [length_append, length_append, length_headerBytes, hlenF, hextra]
  · rw [holds_append, holds_append, length_append, length_headerBytes, hlenF, holds_append] at hdata
    obtain ⟨⟨hhead, hbody, -⟩, hrest⟩ := hdata
    obtain ⟨hfirst, hsecond⟩ := holds_headerBytes hhead hsize hversion
    exact ⟨hfirst, hsecond, hat m t ht hbody hrest⟩

end Groups

end Mojo.PythonBindings
