import Mojo.PythonBindings.Serialization
import Mojo.Wire.Assembled

/-!
# Formats and packed layouts

What `pack` makes of a format in parts, and the layout that the format of a struct amounts to: the
positions that `Serialize` and `Deserialize` compute for the groups are the offsets of `layout`, and
the fields have their bits for themselves.
-/

namespace Mojo.PythonBindings

open Mojo.Memory Mojo.Wire Mojo.CppBindings TypeCode
open List hiding Mem

variable {n word : ℕ} {t : FieldType} {g : FieldGroup} {f : Field}

section Packing

variable {format format' : Format} {es es' : List Entry} {bytes bytes' : List UInt8}

theorem size_append (format format' : Format) :
    Format.size (format ++ format') = format.size + format'.size := by
  rw [Format.size, map_append, sum_append]
  rfl

theorem size_cons (item : FormatItem) (format : Format) :
    Format.size (item :: format) = item.size + format.size := sum_cons

theorem size_pads (n : ℕ) : Format.size (List.replicate n .pad) = n := by
  simp [Format.size, FormatItem.size]

theorem pack_append (h : pack format es = .ok bytes) (h' : pack format' es' = .ok bytes') :
    pack (format ++ format') (es ++ es') = .ok (bytes ++ bytes') := by
  induction format generalizing es bytes with
  | nil =>
    cases es with
    | nil =>
      cases h
      exact h'
    | cons e es => cases h
  | cons item format ih =>
    cases item with
    | pad =>
      simp only [pack] at h
      obtain ⟨rest, hrest, hok⟩ := bind_eq_ok.mp h
      cases hok
      simp [pack, ih hrest, ok_bind]
    | code typecode =>
      cases es with
      | nil => cases h
      | cons e es =>
        simp only [pack] at h
        split at h
        · rename_i haccepts
          obtain ⟨rest, hrest, hok⟩ := bind_eq_ok.mp h
          cases hok
          simp [pack, if_pos haccepts, ih hrest, ok_bind]
        · cases h

theorem length_pack (h : pack format es = .ok bytes) : bytes.length = format.size := by
  induction format generalizing es bytes with
  | nil =>
    cases es with
    | nil =>
      cases h
      rfl
    | cons e es => cases h
  | cons item format ih =>
    cases item with
    | pad =>
      simp only [pack] at h
      obtain ⟨rest, hrest, hok⟩ := bind_eq_ok.mp h
      cases hok
      rw [length_cons, ih hrest, size_cons, FormatItem.size, Nat.add_comm]
    | code typecode =>
      cases es with
      | nil => cases h
      | cons e es =>
        simp only [pack] at h
        split at h
        · obtain ⟨rest, hrest, hok⟩ := bind_eq_ok.mp h
          cases hok
          rw [length_append, length_bytesOf, ih hrest, size_cons, FormatItem.size]
        · cases h

theorem pack_pads (n : ℕ) : pack (List.replicate n .pad) [] = .ok (List.replicate n 0) := by
  induction n with
  | zero => rfl
  | succ n ih =>
    rw [replicate_succ, pack, ih]
    rfl

theorem accepts_entry {typecode : TypeCode} (h : n < 256 ^ typecode.size) :
    typecode.accepts (typecode.entry n) ∧ typecode.bits (typecode.entry n) = n := by
  have hcast : (256 : ℤ) ^ typecode.size = (256 ^ typecode.size : ℕ) := by push_cast; rfl
  have hmod : ((n : ℤ) % (256 ^ typecode.size : ℕ)).toNat = n := by
    rw [Int.emod_eq_of_lt (by omega) (by omega), Int.toNat_natCast]
  simp only [entry]
  split_ifs with hfloat hsigned
  · exact ⟨hfloat, rfl⟩
  · simp only [Bool.and_eq_true, decide_eq_true_eq] at hsigned
    simp only [accepts, bits, hfloat, hsigned.1, if_true, hcast, Int.sub_emod_right, hmod,
      and_true, Bool.not_false, Bool.true_and, decide_eq_true_eq]
    omega
  · simp only [Bool.and_eq_true, decide_eq_true_eq, not_and, not_le] at hsigned
    simp only [accepts, bits, hfloat, hcast, hmod, and_true, Bool.not_false, Bool.true_and]
    split
    · rename_i hs
      have := hsigned hs
      simp only [decide_eq_true_eq]
      omega
    · simp only [decide_eq_true_eq]
      omega

theorem pack_entry (typecode : TypeCode) (h : n < 256 ^ typecode.size) :
    pack [.code typecode] [typecode.entry n] = .ok (bytesOf typecode.size n) := by
  obtain ⟨haccepts, hbits⟩ := accepts_entry h
  rw [pack, if_pos haccepts, hbits]
  simp [pack]

theorem pack_word (h : n < 2 ^ 32) : pack [.code .I] [.int n] = .ok (bytesOf 4 n) :=
  pack_entry .I h

theorem pack_pointer (h : n < 2 ^ 64) : pack [.code .Q] [.int n] = .ok (bytesOf 8 n) :=
  pack_entry .Q h

theorem pack_handle (h : n < 2 ^ 31) : pack [.code .i] [.int n] = .ok (bytesOf 4 n) := by
  have hentry : i.entry n = .int n := by
    have hsmall : ¬ 256 ^ i.size ≤ 2 * n := by
      simp only [TypeCode.size]
      omega
    simp [entry, isFloat, hsmall]
  have hpack := pack_entry .i (n := n) (by simp only [TypeCode.size]; omega)
  rwa [hentry] at hpack

theorem pack_noHandle : pack [.code .i] [.int (-1)] = .ok (bytesOf 4 encodedInvalidHandle) := by
  have hentry : i.entry encodedInvalidHandle = .int (-1) := by
    simp [entry, isFloat, isSigned, TypeCode.size, encodedInvalidHandle, maxUint32]
  have hpack := pack_entry .i (n := encodedInvalidHandle) (by
    simp [TypeCode.size, encodedInvalidHandle, maxUint32])
  rwa [hentry] at hpack

def headerBytes (size word : ℕ) : List UInt8 := bytesOf 4 size ++ bytesOf 4 word

theorem length_headerBytes (size word : ℕ) : (headerBytes size word).length = headerSize := by
  rw [headerBytes, length_append, length_bytesOf, length_bytesOf]
  rfl

theorem holds_headerBytes {m : Mem} {t size : ℕ} (h : Holds m t (headerBytes size word))
    (hsize : size < 2 ^ 32) (hword : word < 2 ^ 32) :
    load m t 4 = size ∧ load m (t + 4) 4 = word := by
  rw [headerBytes, holds_append, length_bytesOf] at h
  exact ⟨h.1.load_eq hsize, h.2.load_eq hword⟩

theorem pack_header {size : ℕ} (hsize : size < 2 ^ 32) (hword : word < 2 ^ 32) :
    pack headerFormat [.int size, .int word] = .ok (headerBytes size word) := by
  have hformat : headerFormat = [.code .I] ++ [.code .I] := rfl
  have hentries : [Entry.int size, .int word] = [.int size] ++ [.int word] := rfl
  rw [hformat, hentries]
  exact pack_append (pack_word hsize) (pack_word hword)

theorem packInto_eq (before middle after : List UInt8) (h : pack format es = .ok bytes)
    (hlen : middle.length = bytes.length) :
    packInto format (before ++ middle ++ after) before.length es =
      .ok (before ++ bytes ++ after) := by
  have hroom : ¬ (before ++ middle ++ after).length < before.length + bytes.length := by
    simp only [length_append]
    omega
  rw [packInto, h, ok_bind, if_neg hroom, append_assoc before middle after, take_left, ← hlen,
    ← append_assoc, ← length_append, drop_left]

theorem unpack_append (m : Mem) (format format' : Format) (a : ℕ) :
    unpack m (format ++ format') a = unpack m format a ++ unpack m format' (a + format.size) := by
  induction format generalizing a with
  | nil => rfl
  | cons item format ih =>
    cases item with
    | pad =>
      rw [cons_append, unpack, unpack, ih, size_cons, FormatItem.size, Nat.add_assoc]
    | code typecode =>
      rw [cons_append, unpack, unpack, ih, size_cons, FormatItem.size, Nat.add_assoc, cons_append]

theorem unpack_pads (m : Mem) (n a : ℕ) : unpack m (List.replicate n .pad) a = [] := by
  induction n generalizing a with
  | zero => rfl
  | succ n ih => rw [replicate_succ, unpack, ih]

theorem length_unpack_codes (m : Mem) (codes : List TypeCode) (a : ℕ) :
    (unpack m (codes.map .code) a).length = codes.length := by
  induction codes generalizing a with
  | nil => rfl
  | cons typecode codes ih => rw [map_cons, unpack, length_cons, length_cons, ih]

theorem size_codes (codes : List TypeCode) :
    Format.size (codes.map .code) = (codes.map TypeCode.size).sum := by
  rw [Format.size, map_map]
  rfl

end Packing

/-! ### Layout -/

theorem getByteSize_eq (t : FieldType) : t.getByteSize = t.kind.size := by
  cases t <;> rfl

theorem getAlignment_eq (t : FieldType) : t.getAlignment = t.kind.alignment := by
  cases t with
  | integer typecode | float typecode => exact Nat.max_zero _
  | _ => rfl

theorem isMojom_of_isValid (h : t.isValid) : t.kind.isMojom := by
  induction t with
  | integer typecode | float typecode | nativeArray typecode => cases typecode <;> rfl
  | genericArray subType nullable length ih =>
    simp only [FieldType.isValid, Bool.and_eq_true] at h
    exact ih h.2
  | map keyType valueType nullable _ ih =>
    simp only [FieldType.isValid, Bool.and_eq_true] at h
    simp only [FieldType.kind, Kind.isMojom, Bool.and_eq_true]
    refine ⟨?_, ih h.2⟩
    cases keyType with
    | integer typecode | float typecode => cases typecode <;> rfl
    | string nullable => cases nullable <;> simp_all [FieldType.kind]
    | _ => first | rfl | cases h.1
  | _ => rfl

theorem isValid_single {d : FieldDescriptor} (h : (FieldGroup.single d).isValid) :
    d.fieldType ≠ .boolean ∧ d.fieldType.isValid := by
  simpa [FieldGroup.isValid] using h

theorem kind_ne_bool (h : t ≠ .boolean) : t.kind ≠ .bool := by
  cases t <;> simp_all [FieldType.kind]

theorem getAlignment_cases (h : g.isValid) :
    g.getAlignment = 1 ∨ g.getAlignment = 2 ∨ g.getAlignment = 4 ∨ g.getAlignment = 8 := by
  cases g with
  | boolean ds => exact .inl rfl
  | single d =>
    obtain ⟨-, hvalid⟩ := isValid_single h
    have hmojom := isMojom_of_isValid hvalid
    rw [FieldGroup.getAlignment, getAlignment_eq]
    cases hk : d.fieldType.kind with
    | number size => simpa [hk, Kind.isMojom, Kind.alignment] using hmojom
    | _ => simp [Kind.alignment]

theorem typeSize_pos (t : FieldType) : 0 < t.getByteSize := by
  cases t with
  | integer typecode | float typecode => cases typecode <;> decide
  | _ => exact Nat.succ_pos _

theorem getByteSize_pos (h : g.isValid) : 0 < g.getByteSize := by
  cases g with
  | boolean ds => exact Nat.one_pos
  | single d => exact typeSize_pos d.fieldType

theorem add_neededPadding (h : g.isValid) (n : ℕ) :
    n + neededPaddingForAlignment n g.getAlignment = alignUp n g.getAlignment := by
  rcases getAlignment_cases h with ha | ha | ha | ha <;> rw [ha, neededPaddingForAlignment,
      alignUp] <;> split <;> omega

theorem neededPadding_header (h : g.isValid) (n : ℕ) :
    neededPaddingForAlignment (headerSize + n) g.getAlignment =
      neededPaddingForAlignment n g.getAlignment := by
  have hmod : (headerSize + n) % g.getAlignment = n % g.getAlignment := by
    rcases getAlignment_cases h with ha | ha | ha | ha <;> rw [ha, headerSize] <;> omega
  rw [neededPaddingForAlignment, neededPaddingForAlignment, hmod]

theorem add_neededPadding_eight (n : ℕ) : n + neededPaddingForAlignment n 8 = align8 n := by
  rw [neededPaddingForAlignment, align8]
  split <;> omega

theorem size_typeCode (g : FieldGroup) : Format.size (g.getTypeCode.map .code) = g.getByteSize := by
  rw [size_codes]
  cases g <;> rfl

theorem getStructFrom_cons (h : g.isValid) (index : ℕ) (groups : List FieldGroup) :
    getStructFrom index (g :: groups) =
      List.replicate (neededPaddingForAlignment index g.getAlignment) .pad ++
        g.getTypeCode.map .code ++
        getStructFrom (alignUp index g.getAlignment + g.getByteSize) groups := by
  rw [getStructFrom, ← add_neededPadding h]

theorem add_size_getStructFrom (h : g.isValid) (index : ℕ)
    (groups : List FieldGroup) : index + (getStructFrom index (g :: groups)).size =
      alignUp index g.getAlignment + g.getByteSize +
        (getStructFrom (alignUp index g.getAlignment + g.getByteSize) groups).size := by
  have hpad := add_neededPadding h index
  rw [getStructFrom_cons h, size_append, size_append, size_pads, size_typeCode]
  omega

theorem mem_fields (hg : g.isValid) {offset : ℕ} (hf : f ∈ g.fields offset) :
    f.offset = offset ∧ f.kind.size = g.getByteSize ∧ f.kind.isMojom ∧ f.bit < 8 := by
  cases g with
  | single d =>
    obtain rfl := mem_singleton.mp hf
    exact ⟨rfl, (getByteSize_eq _).symm, isMojom_of_isValid (isValid_single hg).2, Nat.succ_pos 7⟩
  | boolean ds =>
    obtain ⟨d, hd, rfl⟩ := mem_map.mp hf
    have hlt := (mem_zipIdx' hd).1
    simp only [FieldGroup.isValid, Bool.and_eq_true, decide_eq_true_eq] at hg
    exact ⟨rfl, rfl, rfl, lt_of_lt_of_le hlt hg.1.2⟩

section Layout

variable {groups : List FieldGroup} (hvalid : ∀ g ∈ groups, g.isValid = true)

include hvalid

theorem getStructFrom_mod (index : ℕ) : (index + (getStructFrom index groups).size) % 8 = 0 := by
  induction groups generalizing index with
  | nil =>
    rw [getStructFrom, size_pads, add_neededPadding_eight]
    exact align8_mod index
  | cons g groups ih =>
    rw [add_size_getStructFrom (hvalid g (.head _))]
    exact ih (fun g hg => hvalid g (.tail _ hg)) _

theorem mem_layout {index : ℕ} (hf : f ∈ layout index groups) :
    index ≤ f.offset ∧ f.offset + f.kind.size ≤ index + (getStructFrom index groups).size ∧
      f.kind.isMojom ∧ f.bit < 8 := by
  induction groups generalizing index with
  | nil => cases hf
  | cons g groups ih =>
    have hg := hvalid g (.head _)
    have hle : index ≤ alignUp index g.getAlignment := by
      rw [← add_neededPadding hg]
      omega
    rw [add_size_getStructFrom hg]
    rcases mem_append.mp hf with hf | hf
    · obtain ⟨hoffset, hsize, hmojom, hbit⟩ := mem_fields hg hf
      exact ⟨by omega, by omega, hmojom, hbit⟩
    · obtain ⟨hle', hend, hmojom, hbit⟩ := ih (fun g hg => hvalid g (.tail _ hg)) hf
      exact ⟨by omega, hend, hmojom, hbit⟩

theorem layout_apart (index : ℕ) : (layout index groups).Pairwise fun f g =>
    f.offset + f.kind.size ≤ g.offset ∨ g.offset + g.kind.size ≤ f.offset ∨
      f.kind = .bool ∧ g.kind = .bool ∧ (f.offset ≠ g.offset ∨ f.bit ≠ g.bit) := by
  induction groups generalizing index with
  | nil => exact .nil
  | cons g groups ih =>
    have hg := hvalid g (.head _)
    have htail : ∀ g ∈ groups, g.isValid = true := fun g hg => hvalid g (.tail _ hg)
    refine pairwise_append.mpr ⟨?_, ih htail _, fun f hf f' hf' => .inl ?_⟩
    · cases g with
      | single d => exact pairwise_singleton _ _
      | boolean ds =>
        rw [FieldGroup.fields, pairwise_iff_getElem]
        intro j k hj hk hlt
        refine .inr (.inr ?_)
        simp only [getElem_map, getElem_zipIdx, true_and]
        omega
    · obtain ⟨hoffset, hsize, -, -⟩ := mem_fields hg hf
      have := (mem_layout htail hf').1
      omega

end Layout

/-- What the generator guarantees, and the limits of a header. -/
structure Classes.Valid (c : Classes) : Prop where
  struct : ∀ name, ∀ g ∈ c.struct name, g.isValid
  union : ∀ name, ∀ d ∈ c.union name, d.fieldType.isValid
  size : ∀ name, headerSize + (getStruct (c.struct name)).size < 2 ^ 32
  version : ∀ name, getVersion (c.struct name) < 2 ^ 32
  tags : ∀ name, (c.union name).length < 2 ^ 32

theorem Classes.Valid.laid {c : Classes} (h : c.Valid) : c.types.Laid where
  struct name := by
    constructor
    · exact fun f hf => (mem_layout (h.struct name) hf).2.2.1
    · intro f hf
      have hend := (mem_layout (h.struct name) hf).2.1
      rw [Nat.zero_add] at hend
      rw [Nat.add_assoc]
      exact Nat.add_le_add_left hend headerSize
    · exact layout_apart (h.struct name) 0
    · exact fun f hf => (mem_layout (h.struct name) hf).2.2.2
    · exact Nat.le_add_right _ _
    · have hmod := getStructFrom_mod (h.struct name) 0
      rw [Nat.zero_add] at hmod
      exact (Nat.add_mod_left 8 _).trans hmod
    · exact h.size name
    · exact h.version name
  union name kind hkind := by
    obtain ⟨d, hd, rfl⟩ := mem_map.mp hkind
    exact isMojom_of_isValid (h.union name d hd)
  tags name := by
    rw [Classes.types, length_map]
    exact h.tags name

end Mojo.PythonBindings
