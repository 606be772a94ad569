import Mojo.PythonBindings.DeserializeTypes

/-!
# The round trip in the Python bindings

A struct whose objects have sizes and counts of 32 bits is serialized exactly if no map holds an
`array.array`; the bytes then have the fields at their packed offsets and the objects in depth-first
order, and deserialization returns the fields.
-/

namespace Mojo.PythonBindings

open Mojo.Memory Mojo.Wire Mojo.CppBindings Mojo.System List

variable {h position : ℕ} {hs : List ℕ} {r : List Entry × List UInt8 × List ℕ}
  {groups : List FieldGroup}

/-! ### What was serialized has been converted -/

variable {data : List UInt8}

section Inversion

variable {serialize : Serializer}

theorem serializeElements_ok {subType : FieldType} {items : List Value}
        (hok : serializeElements serialize subType h items position data hs = .ok r) :
    ∀ v ∈ items, ∃ off data h s, serialize subType v off data h = .ok s := by
  induction items generalizing position data hs r with
  | nil => intro v hv; cases hv
  | cons item items ih =>
    rw [serializeElements] at hok
    obtain ⟨s, hitem, hrest⟩ := bind_eq_ok.mp hok
    obtain ⟨r', hitems, -⟩ := bind_eq_ok.mp hrest
    intro v hv
    rcases hv with _ | ⟨_, hv⟩
    · exact ⟨_, _, _, s, hitem⟩
    · exact ih hitems v hv

theorem serializeGroups_ok (hvalid : ∀ g ∈ groups, g.isValid) {values : List Value}
    (hlen : values.length = (descriptors groups).length)
    (hok : serializeGroups serialize h groups values position data hs = .ok r) :
    List.Forall₂ (fun v d => d.fieldType ≠ .boolean → ∃ off data h s, serialize d.fieldType v off
      data h = .ok s) values (descriptors groups) := by
  induction groups generalizing values position data hs r with
  | nil =>
    rw [length_eq_zero_iff.mp hlen]
    exact .nil
  | cons g groups ih =>
    rw [serializeGroups] at hok
    obtain ⟨s, hgroup, hrest⟩ := bind_eq_ok.mp hok
    obtain ⟨r', hgroups, -⟩ := bind_eq_ok.mp hrest
    rw [descriptors_cons, length_append] at hlen
    have htail := ih (fun g hg => hvalid g (.tail _ hg)) (by rw [length_drop]; omega) hgroups
    have hg := hvalid g (.head _)
    rw [descriptors_cons, ← take_append_drop g.getDescriptors.length values]
    refine rel_append ?_ htail
    cases g with
    | single d =>
      cases values with
      | nil =>
        simp only [FieldGroup.getDescriptors, length_cons, length_nil] at hlen
        omega
      | cons v values => exact .cons (fun _ => ⟨_, _, _, s, hgroup⟩) .nil
    | boolean ds =>
      simp only [FieldGroup.isValid, Bool.and_eq_true, all_eq_true, decide_eq_true_eq] at hg
      refine forall₂_iff_get.mpr ⟨?_, fun i hi hi' hne => absurd (hg.2 _ (get_mem _ _)) hne⟩
      rw [length_take]
      omega

theorem serializeStruct_ok (hvalid : ∀ g ∈ groups, g.isValid) {fields : List Value}
    {r : List UInt8 × List ℕ} (hlen : fields.length = (descriptors groups).length)
    (hok : serializeStruct serialize groups fields h = .ok r) :
    List.Forall₂ (fun v d => d.fieldType ≠ .boolean → ∃ off data h s, serialize d.fieldType v off
      data h = .ok s) fields (descriptors groups) := by
  obtain ⟨data, -, hrest⟩ := bind_eq_ok.mp hok
  obtain ⟨r', hgroups, -⟩ := bind_eq_ok.mp hrest
  exact serializeGroups_ok hvalid hlen hgroups

end Inversion

theorem reconverts_boolean (c : Classes) (depth : ℕ) (v : Value) :
    Reconverts c depth .boolean v := by
  cases depth <;> simp [Reconverts]

theorem reconverts_of_serialize {c : Classes} {D : Domain} (hc : c.Valid) {depth : ℕ}
    {t : FieldType} {v : Value}
    (hvalid : t.isValid) (hv : HasKind c.types D depth t.kind v) {off : ℤ}
    {s : Serialized} (hok : serialize c depth t v off data h = .ok s) : Reconverts c depth t v := by
  induction depth generalizing t v off data h s with
  | zero => simp [Reconverts]
  | succ depth ih =>
    cases t with
    | genericArray subType nullable length =>
      cases v with
      | array elems =>
        simp only [FieldType.kind, HasKind] at hv
        simp only [FieldType.isValid, Bool.and_eq_true] at hvalid
        rw [serialize, serializeType, serializePointer_of_ne (by simp), serializeArray_of_length
          hv.1] at hok
        obtain ⟨r, helems, -⟩ := bind_eq_ok.mp hok
        intro v hmem
        obtain ⟨_, _, _, _, hitem⟩ := serializeElements_ok helems v hmem
        exact ih hvalid.2 (hv.2 v hmem) hitem
      | _ => simp [Reconverts]
    | struct name nullable =>
      cases v with
      | struct fields =>
        have hmembers := hv.members rfl
        simp only [FieldType.kind, HasKind] at hv
        have hlen : (layout 0 (c.struct name)).length = fields.length := hv.length_eq
        rw [serialize, serializeType, serializePointer_of_ne (by simp)] at hok
        obtain ⟨r, hstruct, -⟩ := bind_eq_ok.mp hok
        have hfields := serializeStruct_ok (hc.struct name)
          (forall₂_of_layout (hc.struct name) hlen).length_eq hstruct
        refine fields_forall₂ (hc.struct name) hlen (P := HasKind c.types D depth) hmembers
          hfields ?_
        intro v d hd hkind hrun
        by_cases hb : d.fieldType = .boolean
        · rw [hb]
          exact reconverts_boolean c depth v
        · obtain ⟨_, _, _, _, hitem⟩ := hrun hb
          exact ih (isValid_of_mem (hc.struct name) hd) hkind hitem
      | _ => simp [Reconverts]
    | map keyType valueType nullable =>
      cases v with
      | map keys values =>
        obtain ⟨hkey, hvalue⟩ := isValid_of_map hvalid
        simp only [FieldType.kind, HasKind] at hv
        obtain ⟨-, -, hks, hvs⟩ := hv
        rw [← getArrayType_kind] at hks hvs
        rw [serialize, serializeType, serializePointer_of_ne (by simp)] at hok
        obtain ⟨keys', hkeys, hrest⟩ := bind_eq_ok.mp hok
        obtain ⟨values', hvalues, hrest⟩ := bind_eq_ok.mp hrest
        obtain ⟨r, hstruct, -⟩ := bind_eq_ok.mp hrest
        rw [((convert_ok_iff hks).mp hkeys).2, ((convert_ok_iff hvs).mp hvalues).2] at hstruct
        have hfields := serializeStruct_ok (mapGroups_valid hkey hvalue) rfl hstruct
        cases hfields with
        | cons _ hfields =>
          cases hfields with
          | cons hrun _ =>
            obtain ⟨_, _, _, _, hitem⟩ := hrun (getArrayType_ne valueType)
            exact ⟨by rw [hvalues]; rfl, ih (getArrayType_isValid hvalue) hvs hitem⟩
      | _ => simp [Reconverts]
    | _ => simp [Reconverts]

/-! ### Structs -/

/-- A value of the struct. The headers have 32 bits for a size or a count, a handle is a signed
integer of 32 bits, and a buffer has an index for each byte. -/
structure Serializable (c : Classes) (unicode : List UInt8 → Option (List UInt8)) (depth name : ℕ)
    (fields : List Value) : Prop where
  typed : HasKind c.types (domain unicode) (depth + 1) (.struct name false) (.struct fields)
  sized : Always c.types (Sized c.types) (depth + 1) (.struct name false) (.struct name false)
    (.struct fields)
  size : outSize c.types (depth + 1) (.struct name false) (.struct fields) < 2 ^ 63
  handles : (handles c.types (depth + 1) (.struct name false) (.struct fields)).length ≤ 2 ^ 31

def structObject (c : Classes) (name : ℕ) (fields : List Value) : Object :=
  ⟨headerSize + (getStruct (c.struct name)).size, getVersion (c.struct name),
    membersFrom 0 (c.struct name) fields⟩

section Structs

variable {c : Classes} {unicode : List UInt8 → Option (List UInt8)} {depth name : ℕ}
  {fields : List Value}

theorem serialize_struct (hc : c.Valid) (hfree : c.types.UnionFree)
    (h : Serializable c unicode depth name fields)
    (hre : Reconverts c (depth + 1) (.struct name false) (.struct fields)) :
    ∃ data, c.serialize depth name fields =
        .ok (data, handles c.types (depth + 1) (.struct name false) (.struct fields)) ∧
      data.length = outSize c.types (depth + 1) (.struct name false) (.struct fields) ∧
      ObjectAt c.types (block 0 data) (Rep c.types .onWire (block 0 data) depth) depth
        (structObject c name fields) 0 0 := by
  have ho : object c.types (.struct name false) (.struct fields) =
      some (structObject c name fields) := rfl
  have hp : (Kind.struct name false).isPointer = true := rfl
  have hround := align8_header_add (hc.struct name)
  have hfields := fields_written hc hfree (serialize_writes hc hfree fun _ h => h) h.typed
    h.sized hre
  obtain ⟨hsize, hversion⟩ := h.sized.1 _ ho
  have hroom := h.size
  have hhandles := h.handles
  rw [outSize_succ ho, if_pos hp, structObject, hround] at hroom ⊢
  rw [handles_succ ho] at hhandles ⊢
  obtain ⟨data, hrun, hlen, hat⟩ := serializeStruct_written (h := 0) (hc.struct name) hfields hsize
    hversion hroom
    (by rw [Nat.zero_add]; exact hhandles)
  obtain ⟨hfirst, hsecond, hrep⟩ := hat (block 0 data) 0 (holds_block data) rfl
  refine ⟨data, hrun, hlen, hfirst, hsecond, ?_⟩
  simp only [hround]
  exact hrep

theorem deserialize_struct (hc : c.Valid) (hfree : c.types.UnionFree)
    (h : Serializable c unicode depth name fields)
    (hlen : data.length = outSize c.types (depth + 1) (.struct name false) (.struct fields))
    (hat : ObjectAt c.types (block 0 data) (Rep c.types .onWire (block 0 data) depth) depth
      (structObject c name fields) 0 0) :
    ∃ s, c.deserialize ⟨data, handles c.types (depth + 1) (.struct name false) (.struct fields),
      unicode⟩ depth name = .ok fields s := by
  set root : RootContext := ⟨data, handles c.types (depth + 1) (.struct name false)
    (.struct fields), unicode⟩
  have ho : object c.types (.struct name false) (.struct fields) =
      some (structObject c name fields) := rfl
  have hp : (Kind.struct name false).isPointer = true := rfl
  have hround := align8_header_add (hc.struct name)
  have hroot : root.Bounded := ⟨by rw [hlen]; exact h.size, h.handles⟩
  have hfields := fields_read hc hfree (deserialize_reads hc hfree hroot (fun _ h => h)
    fun _ h => h) h.typed
  rw [outSize_succ ho, if_pos hp] at hlen
  have hsees : Sees c.types (indexed ((structObject c name fields).members.map Prod.fst))
      depth root.mem
      root.data.length root.handles (.start 0 ((structObject c name fields).size))
      (structObject c name fields).members (0 + align8 (structObject c name fields).size) 0 :=
    sees_members hc.laid rfl ho (flows_indexed _) rfl hat (by rw [Nat.zero_add]; exact hlen.ge)
      ⟨[], by rw [drop_zero, append_nil]; exact handles_succ ho⟩ fun n (hn : none = some n) => by
        cases hn
  simp only [structObject, hround] at hsees hlen
  obtain ⟨s, hrun, -⟩ := deserializeStruct_returns (hc.struct name) hfields true
    (by rw [Nat.zero_add, hlen]; exact Nat.le_add_right _ _) hat.1 hat.2.1 hsees ⟨0, 0, [], []⟩
      ⟨le_rfl, le_rfl⟩
  exact ⟨s, hrun⟩

/-- The value is serialized and comes back exactly if no map holds an `array.array`. -/
theorem deserialize_serialize_iff_reconverts (hc : c.Valid) (hfree : c.types.UnionFree)
    (h : Serializable c unicode depth name fields) :
    (∃ data s, c.serialize depth name fields =
        .ok (data, handles c.types (depth + 1) (.struct name false) (.struct fields)) ∧
      data.length = outSize c.types (depth + 1) (.struct name false) (.struct fields) ∧
      ObjectAt c.types (block 0 data) (Rep c.types .onWire (block 0 data) depth) depth
        (structObject c name fields) 0 0 ∧
      c.deserialize ⟨data, handles c.types (depth + 1) (.struct name false) (.struct fields),
        unicode⟩ depth name = .ok fields s) ↔
    Reconverts c (depth + 1) (.struct name false) (.struct fields) := by
  constructor
  · rintro ⟨data, s, hrun, -⟩
    have hstruct : serialize c (depth + 1) (.struct name false) (.struct fields) 0 [] 0 =
        .ok ⟨.entry (.int 0), [] ++ data, handles c.types (depth + 1) (.struct name false)
          (.struct fields)⟩ := by
      rw [serialize, serializeType, serializePointer_of_ne (by simp)]
      exact bind_eq_ok.mpr ⟨_, hrun, rfl⟩
    exact reconverts_of_serialize (t := .struct name false) hc rfl h.typed hstruct
  · intro hre
    obtain ⟨data, hrun, hlen, hat⟩ := serialize_struct hc hfree h hre
    obtain ⟨s, hback⟩ := deserialize_struct hc hfree h hlen hat
    exact ⟨data, s, hrun, hlen, hat, hback⟩

end Structs

def oneStruct (groups : List FieldGroup) : Classes where
  struct _ := groups
  union _ := []

theorem oneStruct_valid (hvalid : ∀ g ∈ groups, g.isValid)
    (hsize : headerSize + (getStruct groups).size < 2 ^ 32)
    (hversion : getVersion groups < 2 ^ 32) :
    (oneStruct groups).Valid where
  struct _ := hvalid
  union _ _ hd := by cases hd
  size _ := hsize
  version _ := hversion
  tags _ := by simp [oneStruct]

def sampleGroups : List FieldGroup :=
  [.single ⟨.integer .h, 0, .number 0⟩,
    .boolean [⟨.boolean, 0, .bool false⟩, ⟨.boolean, 0, .bool false⟩],
    .single ⟨.handle true, 0, .null⟩, .single ⟨.string false, 0, .null⟩,
      .single ⟨.nativeArray .I false 0, 0, .null⟩,
    .single ⟨.map (.integer .B) (.string true) false, 0, .null⟩]

def sampleFields : List Value :=
  [.number 65535, .bool true, .bool false, .handle 7, .string [104, 105], .array [.number 5],
    .map [.number 1] [.null]]

theorem deserialize_serialize_iff_reconverts_sample :
    ∃ data s, (oneStruct sampleGroups).serialize 2 0 sampleFields = .ok (data, [7]) ∧
      ObjectAt (oneStruct sampleGroups).types (block 0 data)
        (Rep (oneStruct sampleGroups).types .onWire (block 0 data) 2) 2
        (structObject (oneStruct sampleGroups) 0 sampleFields) 0 0 ∧
      (oneStruct sampleGroups).deserialize ⟨data, [7], some⟩ 2 0 = .ok sampleFields s := by
  have hvalid : (oneStruct sampleGroups).Valid :=
    oneStruct_valid (by decide) (by decide) (by decide)
  have hfree : (oneStruct sampleGroups).types.UnionFree :=
    fun _ => show ∀ f ∈ layout 0 sampleGroups, f.kind.isUnionFree = true by decide
  have htyped : HasKind (oneStruct sampleGroups).types (domain some) 3 (.struct 0 false)
      (.struct sampleFields) := by
    simp [HasKind, oneStruct, sampleGroups, Classes.types, layout, sampleFields, domain,
      invalidHandle, Kind.isNullable, FieldGroup.fields, FieldType.kind, TypeCode.size]
  have hre : Reconverts (oneStruct sampleGroups) 3 (.struct 0 false) (.struct sampleFields) := by
    simp [Reconverts, oneStruct, sampleGroups, sampleFields, FieldGroup.getDescriptors,
      getArrayType, convert, whyFailed]
  obtain ⟨data, s, hrun, -, hat, hback⟩ := (deserialize_serialize_iff_reconverts hvalid hfree
    ⟨htyped, by decide, by decide, by decide⟩).mpr hre
  exact ⟨data, s, hrun, hat, hback⟩

def mapOfArrays : List FieldGroup :=
  [.single ⟨.map (.integer .B) (.nativeArray .B false 0) false, 0, .null⟩]

theorem serialize_mapOfArrays_raises :
    Serializable (oneStruct mapOfArrays) some 3 0 [.map [.number 1] [.array [.number 2]]] ∧
      (oneStruct mapOfArrays).Valid ∧ (oneStruct mapOfArrays).types.UnionFree ∧
      (oneStruct mapOfArrays).serialize 3 0 [.map [.number 1] [.array [.number 2]]] =
        .error .attributeError := by
  refine ⟨⟨?_, by decide, by decide, by decide⟩, oneStruct_valid (by decide) (by decide)
    (by decide), fun _ => show ∀ f ∈ layout 0 mapOfArrays, f.kind.isUnionFree = true by decide,
    eq_error_of_whyFailed (by decide +kernel)⟩
  simp [HasKind, oneStruct, mapOfArrays, Classes.types, layout, FieldGroup.fields, FieldType.kind,
    TypeCode.size]

end Mojo.PythonBindings
