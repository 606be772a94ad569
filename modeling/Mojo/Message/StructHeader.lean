import Mojo.Memory.ByteList
import Mojo.CBindings.ValidateGraph
import Mojo.CppBindings.ValidateClaims
import Mojo.GoBindings.Decoder
import Mojo.JavaBindings.DecodeValues

/-!
# The headers of structs in four bindings

A struct is generated with a table of its versions. The C, C++, Go and Java bindings look the
version of a header up in it, each in its own way, and compare the size of the header with the one
they find. `Acceptable` is what the table asks for. The C++ bindings test just that. The C bindings
only ask for the least size if a version is missing from the table, the Go bindings do not compare
sizes past the end of the table, and the Java bindings reject versions that are no `int` values.
-/

namespace Mojo.Message

open Mojo.Memory Mojo.CppBindings List

structure VersionTable where
  versions : List VersionInfo
  increasing : versions.Pairwise fun v w => v.version < w.version
  start : ∃ v ∈ versions, v.version = 0
  growing : versions.Pairwise fun v w => v.numBytes ≤ w.numBytes
  rounded : ∀ v ∈ versions, v.numBytes % 8 = 0
  header : ∀ v ∈ versions, headerSize ≤ v.numBytes

def Newest (versions : List VersionInfo) (version : ℕ) (v : VersionInfo) : Prop :=
  v ∈ versions ∧ v.version ≤ version ∧ ∀ w ∈ versions, w.version ≤ version → w.version ≤ v.version

instance (versions : List VersionInfo) (version : ℕ) (v : VersionInfo) :
    Decidable (Newest versions version v) :=
  inferInstanceAs (Decidable (_ ∧ _ ∧ _))

def Newer (versions : List VersionInfo) (version : ℕ) : Prop := ∀ w ∈ versions, w.version < version

instance (versions : List VersionInfo) (version : ℕ) : Decidable (Newer versions version) :=
  inferInstanceAs (Decidable (∀ w ∈ versions, _))

def Acceptable (versions : List VersionInfo) (version numBytes : ℕ) : Prop :=
  ∃ v, Newest versions version v ∧
    (Newer versions version ∧ v.numBytes ≤ numBytes ∨ ¬ Newer versions version ∧
      numBytes = v.numBytes)

/-- A struct in a message, and where the message lies in memory. The size of the struct fits the
message and is a multiple of 8. -/
structure StructAt where
  bytes : List UInt8
  base : ℕ
  offset : ℕ
  short : bytes.length < 2 ^ 31
  high : base + bytes.length < 2 ^ 64
  base_pos : 0 < base
  base_aligned : base % 8 = 0
  offset_aligned : offset % 8 = 0
  room : offset + headerSize ≤ bytes.length
  fits : offset + load (block 0 bytes) offset 4 ≤ bytes.length
  rounded : load (block 0 bytes) offset 4 % 8 = 0

namespace StructAt

def numBytes (s : StructAt) : ℕ := load (block 0 s.bytes) s.offset 4

def version (s : StructAt) : ℕ := load (block 0 s.bytes) (s.offset + 4) 4

end StructAt

def CAccepts (T : VersionTable) (s : StructAt) : Prop :=
  ∃ ctx, (CBindings.structValidate (fun _ _ _ _ _ ctx => pure (.errorNone, ctx))
    (block s.base s.bytes)
    ⟨T.versions.map fun v => ⟨v.version, v.numBytes⟩, []⟩ (s.base + s.offset)
      (s.bytes.length - s.offset)
    ⟨0, s.base + s.offset⟩).value = some (.errorNone, ctx)

def CppAccepts (T : VersionTable) (s : StructAt) : Prop :=
  ∃ bc, validateStruct ⟨fun _ => ⟨T.versions, []⟩, fun _ => ⟨[]⟩⟩ (block s.base s.bytes) 0 0
    (s.base + s.offset)
    { BoundsChecker.new s.base s.bytes.length 0 with dataBegin := s.base + s.offset } = .ok bc

def GoAccepts (T : VersionTable) (s : StructAt) : Prop :=
  System.Succeeds (GoBindings.decodeStructHeader (T.versions.map fun v => ⟨v.numBytes, v.version⟩))
    { GoBindings.newDecoder s.bytes [] with stop := s.offset }

def StructAt.message (s : StructAt) : JavaBindings.Message where
  data := block 0 s.bytes
  limit := s.bytes.length
  handles := []
  limit_lt := s.short
  handles_lt := JavaBindings.noHandles_lt

def JavaAccepts (T : VersionTable) (s : StructAt) : Prop :=
  System.Succeeds (JavaBindings.readAndValidateDataHeader s.message s.offset ⟨T.versions, []⟩)
    ⟨0, s.offset, [], []⟩

section Table

variable {T : VersionTable} {version numBytes : ℕ} {v w : VersionInfo}

theorem Newest.unique (hv : Newest T.versions version v) (hw : Newest T.versions version w) :
    v = w := by
  have heq : v.version = w.version := Nat.le_antisymm (hw.2.2 v hv.1 hv.2.1) (hv.2.2 w hw.1 hw.2.1)
  obtain ⟨i, hi, rfl⟩ := mem_iff_getElem.mp hv.1
  obtain ⟨j, hj, rfl⟩ := mem_iff_getElem.mp hw.1
  have hinc := pairwise_iff_getElem.mp T.increasing
  rcases Nat.lt_trichotomy i j with hlt | rfl | hlt
  · exact absurd heq (hinc i j hi hj hlt).ne
  · rfl
  · exact absurd heq (hinc j i hj hi hlt).ne'

theorem newest_of_find (h : T.versions.reverse.find? (fun v => v.version ≤ version) = some v) :
    Newest T.versions version v := by
  obtain ⟨hv, later, earlier, hsplit, hlater⟩ := find?_eq_some_iff_append.mp h
  have hversions : T.versions = earlier.reverse ++ v :: later.reverse := by
    rw [← reverse_reverse T.versions, hsplit]
    simp
  refine ⟨?_, by simpa using hv, ?_⟩
  · rw [hversions]
    simp
  · intro w hw hle
    have hinc := T.increasing
    rw [hversions] at hw hinc
    rcases mem_append.mp hw with hmem | hmem
    · exact ((pairwise_append.mp hinc).2.2 w hmem v (.head _)).le
    · rcases hmem with _ | ⟨_, hmem⟩
      · exact le_rfl
      · have := hlater w (mem_reverse.mp hmem)
        simp only [Bool.not_eq_eq_eq_not, Bool.not_true, decide_eq_false_iff_not] at this
        omega

theorem exists_find (T : VersionTable) (version : ℕ) :
    ∃ v, T.versions.reverse.find? (fun v => v.version ≤ version) = some v ∧
      Newest T.versions version v := by
  obtain ⟨v, -, hv⟩ := StructType.newest_isSome (d := ⟨T.versions, []⟩) T.start version
  exact ⟨v, hv, newest_of_find hv⟩

theorem newer_iff_last (T : VersionTable) (version : ℕ) :
    Newer T.versions version ↔ (T.versions.getLastD ⟨0, 0⟩).version < version := by
  obtain ⟨u, hu, -⟩ := T.start
  obtain ⟨vs, v, hvs⟩ : ∃ vs v, T.versions = vs ++ [v] :=
    ⟨_, _, (dropLast_append_getLast (ne_nil_of_mem hu)).symm⟩
  have hinc := T.increasing
  rw [Newer, hvs, getLastD_concat]
  rw [hvs] at hinc
  constructor
  · intro h
    exact h v (by simp)
  · intro h w hw
    rcases mem_append.mp hw with hmem | hmem
    · exact ((pairwise_append.mp hinc).2.2 w hmem v (by simp)).trans h
    · rw [mem_singleton.mp hmem]
      exact h

theorem acceptable_iff (hv : Newest T.versions version v) : Acceptable T.versions version numBytes ↔
      Newer T.versions version ∧ v.numBytes ≤ numBytes ∨ ¬ Newer T.versions version ∧
        numBytes = v.numBytes := by
  constructor
  · rintro ⟨w, hw, h⟩
    rwa [hv.unique hw]
  · intro h
    exact ⟨v, hv, h⟩

theorem headerSize_le (h : Acceptable T.versions version numBytes) : headerSize ≤ numBytes := by
  obtain ⟨v, hv, ⟨-, hle⟩ | ⟨-, rfl⟩⟩ := h
  · exact (T.header v hv.1).trans hle
  · exact T.header v hv.1

theorem sizeOk_iff (T : VersionTable) (version numBytes : ℕ) :
    (⟨T.versions, []⟩ : StructType).sizeOk version numBytes ↔
      Acceptable T.versions version numBytes := by
  obtain ⟨v, hfind, hv⟩ := exists_find T version
  rw [acceptable_iff hv, StructType.sizeOk, StructType.last, newer_iff_last]
  by_cases hle : version ≤ (T.versions.getLastD ⟨0, 0⟩).version
  · rw [if_pos hle, StructType.newest, hfind]
    constructor
    · intro h
      exact .inr ⟨not_lt.mpr hle, h⟩
    · rintro (⟨hlt, -⟩ | ⟨-, h⟩)
      · exact absurd hle (not_le.mpr hlt)
      · exact h
  · have hlast := StructType.newest_last (d := ⟨T.versions, []⟩) (ne_nil_of_mem hv.1)
      (not_le.mp hle).le
    rw [StructType.newest, hfind, StructType.last, Option.some_inj] at hlast
    rw [if_neg hle, hlast]
    constructor
    · intro h
      exact .inl ⟨not_le.mp hle, h⟩
    · rintro (⟨-, h⟩ | ⟨hge, -⟩)
      · exact h
      · exact absurd (not_le.mp hle) hge

end Table

section Verdicts

variable {T : VersionTable} {s : StructAt} {v : VersionInfo} {version : ℕ}

theorem cTable_wellFormed (T : VersionTable) :
    CBindings.TypeDescriptorStruct.WellFormed
      ⟨T.versions.map fun v => ⟨v.version, v.numBytes⟩, []⟩ where
  increasing := pairwise_map.mpr T.increasing
  start := by
    obtain ⟨v, hv, h0⟩ := T.start
    exact ⟨_, mem_map_of_mem hv, h0⟩
  header := by
    intro r hr
    obtain ⟨v, hv, rfl⟩ := mem_map.mp hr
    exact T.header v hv
  elem := by simp
  aligned := by simp
  inside := by simp
  apart := List.Pairwise.nil

theorem seekLast_eq (hv : Newest T.versions s.version v) :
    CBindings.seekLast (T.versions.map fun v => ⟨v.version, v.numBytes⟩) s.version =
      ⟨v.version, v.numBytes⟩ := by
  obtain ⟨hmem, hle, hmax⟩ := (cTable_wellFormed T).newest_seekLast s.version
  obtain ⟨w, hw, hr⟩ := mem_map.mp hmem
  rw [← hr] at hle hmax ⊢
  have hnewest : Newest T.versions s.version w :=
    ⟨hw, hle, fun u hu hule => hmax _ (mem_map_of_mem hu) hule⟩
  rw [hv.unique hnewest]

theorem cAccepts_iff (hv : Newest T.versions s.version v) :
    CAccepts T s ↔ if s.version = v.version then s.numBytes = v.numBytes else v.numBytes ≤
      s.numBytes := by
  have hsize : load (block s.base s.bytes) (s.base + s.offset) 4 = s.numBytes :=
    load_block_add _ _ _ _
  have hversion : load (block s.base s.bytes) (s.base + s.offset + 4) 4 = s.version := by
    rw [Nat.add_assoc, load_block_add]
    rfl
  have hok : CBindings.sizeOk (block s.base s.bytes) (s.base + s.offset)
      (T.versions.map fun v => ⟨v.version, v.numBytes⟩) ↔
        if s.version = v.version then s.numBytes = v.numBytes else v.numBytes ≤ s.numBytes := by
    rw [CBindings.sizeOk, hsize, hversion, seekLast_eq hv]
  have hroom := s.room
  have hfits := s.fits
  have hpos := s.base_pos
  rw [← hok]
  constructor
  · rintro ⟨ctx, h⟩
    exact (CBindings.structValidate_none_iff.mp h).2.1.version
  · intro h
    refine ⟨_, CBindings.structValidate_none_iff.mpr ⟨by omega, ⟨?_, ?_, h, ?_⟩, rfl⟩⟩
    · simp only [headerSize] at hroom
      simp only [CBindings.headerSize]
      omega
    · rw [hsize, StructAt.numBytes]
      omega
    · rw [hsize]
      exact s.rounded

theorem claim_ok_iff (s : StructAt) :
    (∃ bc, validateStructHeaderAndClaimMemory (block s.base s.bytes) (s.base + s.offset)
      { BoundsChecker.new s.base s.bytes.length 0 with dataBegin := s.base + s.offset } = .ok bc) ↔
      headerSize ≤ s.numBytes := by
  have hsize : load (block s.base s.bytes) (s.base + s.offset) 4 = s.numBytes :=
    load_block_add _ _ _ _
  have hroom := s.room
  have hfits : s.offset + s.numBytes ≤ s.bytes.length := s.fits
  have hhigh := s.high
  have haligned : (s.base + s.offset) % 8 = 0 := by
    have h₁ := s.base_aligned
    have h₂ := s.offset_aligned
    omega
  have hstop : ¬ wrap64 (s.base + s.bytes.length) < s.base := by
    rw [wrap64_of_lt hhigh]
    omega
  have hrange : ∀ n, 0 < n → s.offset + n ≤ s.bytes.length →
      BoundsChecker.isValidRange
        { BoundsChecker.new s.base s.bytes.length 0 with dataBegin := s.base + s.offset }
        (s.base + s.offset) n := by
    intro n hn hle
    have hwrap : wrap64 (s.base + s.offset + n) = s.base + s.offset + n := wrap64_of_lt (by omega)
    refine ⟨by omega, le_rfl, ?_⟩
    simp only [BoundsChecker.new]
    rw [if_neg hstop, hwrap, wrap64_of_lt hhigh]
    omega
  rw [validateStructHeaderAndClaimMemory, hsize, if_neg (by omega),
    if_neg (not_not.mpr (hrange headerSize (by decide) hroom))]
  by_cases hlt : s.numBytes < headerSize
  · rw [if_pos hlt]
    simp only [reduceCtorEq, exists_false, false_iff]
    omega
  · have hpos : 0 < s.numBytes := (show 0 < headerSize by decide).trans_le (not_lt.mp hlt)
    rw [if_neg hlt, BoundsChecker.claimMemory, if_pos (hrange _ hpos hfits)]
    simp [not_lt.mp hlt]

theorem cppAccepts_iff (T : VersionTable) (s : StructAt) :
    CppAccepts T s ↔ Acceptable T.versions s.version s.numBytes := by
  have hsize : load (block s.base s.bytes) (s.base + s.offset) 4 = s.numBytes :=
    load_block_add _ _ _ _
  have hversion : load (block s.base s.bytes) (s.base + s.offset + 4) 4 = s.version := by
    rw [Nat.add_assoc, load_block_add]
    rfl
  have hpos := s.base_pos
  rw [CppAccepts, validateStruct, validateObject, if_neg (by omega)]
  simp only
  rw [hsize, hversion]
  constructor
  · rintro ⟨bc, h⟩
    obtain ⟨bc', -, h⟩ := bind_eq_ok.mp h
    rw [← sizeOk_iff]
    by_contra hno
    rw [if_pos hno] at h
    cases h
  · intro h
    obtain ⟨bc, hbc⟩ := (claim_ok_iff s).mpr (headerSize_le h)
    refine ⟨bc, bind_eq_ok.mpr ⟨bc, hbc, ?_⟩⟩
    rw [if_neg (not_not.mpr ((sizeOk_iff T _ _).mpr h))]
    rfl

variable {i : ℕ}

theorem getD_mem (h : i < T.versions.length) : T.versions.getD i ⟨0, 0⟩ ∈ T.versions := by
  rw [getD_eq_getElem _ _ h]
  exact getElem_mem h

theorem version_lt {j : ℕ} (hij : i < j) (hj : j < T.versions.length) :
    (T.versions.getD i ⟨0, 0⟩).version < (T.versions.getD j ⟨0, 0⟩).version := by
  rw [getD_eq_getElem _ _ (hij.trans hj), getD_eq_getElem _ _ hj]
  exact pairwise_iff_getElem.mp T.increasing i j _ hj hij

theorem version_le {j : ℕ} (hij : i ≤ j) (hj : j < T.versions.length) :
    (T.versions.getD i ⟨0, 0⟩).version ≤ (T.versions.getD j ⟨0, 0⟩).version := by
  rcases hij.lt_or_eq with hij | rfl
  · exact (version_lt hij hj).le
  · exact le_rfl

variable {k : ℕ}

theorem version_gt (hv : Newest T.versions version (T.versions.getD k ⟨0, 0⟩)) (hki : k < i)
    (hi : i < T.versions.length) : version < (T.versions.getD i ⟨0, 0⟩).version := by
  by_contra hle
  have hmax := hv.2.2 _ (getD_mem hi) (not_lt.mp hle)
  exact absurd (version_lt hki hi) (not_lt.mpr hmax)

theorem goSearch_eq (hk : k < T.versions.length)
    (hv : Newest T.versions version (T.versions.getD k ⟨0, 0⟩)) :
    System.search T.versions.length (fun i => version ≤ (T.versions.getD i ⟨0, 0⟩).version) =
      if version = (T.versions.getD k ⟨0, 0⟩).version then k else k + 1 := by
  have hle := hv.2.1
  refine System.search_eq ?_ ?_
  · intro a b hab hb ha
    rw [decide_eq_true_eq] at ha ⊢
    exact ha.trans (version_le hab hb)
  by_cases heq : version = (T.versions.getD k ⟨0, 0⟩).version
  · rw [if_pos heq]
    refine ⟨le_rfl, hk.le, ?_, ?_⟩
    · intro i hi
      have := version_lt hi hk
      exact decide_eq_false (by omega)
    · intro i hi hin
      have := version_le hi hin
      exact decide_eq_true (by omega)
  · rw [if_neg heq]
    refine ⟨le_rfl, hk, ?_, ?_⟩
    · intro i hi
      have := version_le (Nat.le_of_lt_succ hi) hk
      exact decide_eq_false (by omega)
    · intro i hi hin
      exact decide_eq_true (version_gt hv hi hin).le

theorem newer_iff_end (hk : k < T.versions.length)
    (hv : Newest T.versions version (T.versions.getD k ⟨0, 0⟩)) :
    Newer T.versions version ↔ version ≠ (T.versions.getD k ⟨0, 0⟩).version ∧
      k + 1 = T.versions.length := by
  have hle := hv.2.1
  constructor
  · intro h
    have hlt := h _ (getD_mem hk)
    refine ⟨hlt.ne', ?_⟩
    by_contra hne
    have hnext : k + 1 < T.versions.length := by omega
    exact absurd (version_gt hv (Nat.lt_succ_self k) hnext) (not_lt.mpr (h _ (getD_mem hnext)).le)
  · rintro ⟨hne, hend⟩ w hw
    obtain ⟨i, hi, rfl⟩ := mem_iff_getElem.mp hw
    rw [← getD_eq_getElem _ ⟨0, 0⟩ hi]
    have := version_le (T := T) (show i ≤ k by omega) hk
    omega

theorem getD_goTable (T : VersionTable) (i : ℕ) :
    (T.versions.map fun v => (⟨v.numBytes, v.version⟩ : GoBindings.DataHeader)).getD i ⟨0, 0⟩ =
      ⟨(T.versions.getD i ⟨0, 0⟩).numBytes, (T.versions.getD i ⟨0, 0⟩).version⟩ :=
  getD_map T.versions ⟨0, 0⟩ _

theorem succeeds_checkVersion_iff {n : ℕ} {d : GoBindings.Decoder} (hk : k < T.versions.length)
    (hv : Newest T.versions version (T.versions.getD k ⟨0, 0⟩)) :
    System.Succeeds (GoBindings.checkVersion (T.versions.map fun v => ⟨v.numBytes, v.version⟩)
      ⟨n, version⟩ (if version = (T.versions.getD k ⟨0, 0⟩).version then k else k + 1)) d ↔
      Newer T.versions version ∨ n = (T.versions.getD k ⟨0, 0⟩).numBytes := by
  rw [GoBindings.succeeds_checkVersion, newer_iff_end hk hv, length_map]
  simp only [getD_goTable]
  by_cases heq : version = (T.versions.getD k ⟨0, 0⟩).version
  · rw [if_pos heq, if_neg heq.not_lt]
    simp only [hk, heq, lt_irrefl, ne_eq, not_true, false_and, false_or, not_false_iff, true_and,
      true_imp_iff]
    exact eq_comm
  · rw [if_neg heq]
    by_cases hnext : k + 1 < T.versions.length
    · have hgt := version_gt hv (Nat.lt_succ_self k) hnext
      rw [if_pos hgt, Nat.add_sub_cancel]
      simp only [hnext, hnext.ne, Nat.add_one_ne_zero, and_false, not_false_iff, true_and,
        true_imp_iff, false_or]
      exact eq_comm
    · simp only [hnext, false_imp_iff, true_iff]
      exact .inl ⟨heq, by omega⟩

theorem goAccepts_iff (hv : Newest T.versions s.version v) :
    GoAccepts T s ↔ headerSize ≤ s.numBytes ∧
      (Newer T.versions s.version ∨ s.numBytes = v.numBytes) := by
  have hfits : s.offset + s.numBytes ≤ s.bytes.length := s.fits
  rw [GoAccepts, GoBindings.decodeStructHeader]
  by_cases hheader : headerSize ≤ s.numBytes
  · obtain ⟨k, hk, hvk⟩ := mem_iff_getElem.mp hv.1
    rw [← getD_eq_getElem _ ⟨0, 0⟩ hk] at hvk
    rw [← hvk] at hv ⊢
    have hstart := GoBindings.startStruct_ok
      (d := { GoBindings.newDecoder s.bytes [] with stop := s.offset })
      hheader hfits
    have hcheck := succeeds_checkVersion_iff (n := s.numBytes) (d := GoBindings.Decoder.entered
      { GoBindings.newDecoder s.bytes [] with stop := s.offset }) hk hv
    rw [← goSearch_eq hk hv] at hcheck
    rw [System.succeeds_bind_of_ok hstart, length_map]
    simp only [getD_goTable, hheader, true_and]
    rw [← hcheck]
    exact System.succeeds_bind_pure
  · have hstart := GoBindings.not_succeeds_startStruct
      (d := { GoBindings.newDecoder s.bytes [] with stop := s.offset }) s.room (not_le.mp hheader)
    constructor
    · intro h
      exact absurd h.of_bind hstart
    · rintro ⟨hle, -⟩
      exact absurd hle hheader

section Java

open Mojo.JavaBindings

variable {w : Validator}

theorem succeeds_throwIf {α : Type} {c : Prop} [Decidable c] {text : String}
    {f : Unit → Decoding α} :
    System.Succeeds (throwIf c text >>= f) w ↔ ¬ c ∧ System.Succeeds (f ()) w := by
  by_cases h : c
  · have hthrow : throwIf c text w = .error (.deserialization text) w := by
      rw [throwIf, if_pos h]
      rfl
    constructor
    · intro hf
      exact absurd hf.of_bind (System.not_succeeds_of_error hthrow)
    · rintro ⟨hno, -⟩
      exact absurd h hno
  · have hpass : throwIf c text w = .ok () w := by
      rw [throwIf, if_neg h]
      rfl
    rw [System.succeeds_bind_of_ok hpass]
    simp [h]

theorem not_succeeds_readDataHeaderAtOffset {lo : ℕ} (hw : Ready lo 0 w) (h : 2 ^ 31 ≤ s.version) :
    ¬ System.Succeeds (readDataHeaderAtOffset s.message s.offset 0 false) w := by
  have hroom : s.offset + 8 ≤ s.bytes.length := s.room
  have hfirst : System.Returns (Ready lo 0) (readInt s.message s.offset 0) (int s.numBytes)
      (Ready lo 0) :=
    readInt_returns (t := s.offset) (k := 0) (Nat.le_trans (by omega) hroom) rfl
  have hsecond : System.Returns (Ready lo 0) (readInt s.message s.offset 4) (int s.version)
      (Ready lo 0) :=
    readInt_returns (t := s.offset) (k := 4) hroom rfl
  have hnegative : int s.version < 0 := by
    have hlt : s.version < 2 ^ 32 := load_lt _ _ 4
    rw [int_of_large (by omega) (by omega)]
    omega
  obtain ⟨w₁, hrun, hw₁⟩ := hfirst w hw
  obtain ⟨w₂, hrun', -⟩ := hsecond w₁ hw₁
  rw [readDataHeaderAtOffset, System.succeeds_bind_of_ok hrun, show int (0 + 4) =
    4 from int_eq (by decide) (by decide),
    System.succeeds_bind_of_ok hrun', succeeds_throwIf, succeeds_throwIf]
  rintro ⟨-, hno, -⟩
  exact hno ⟨hnegative, .inl rfl⟩

theorem not_succeeds_claimMemory (h : s.numBytes < headerSize) :
    ¬ System.Succeeds
      (claimMemory s.message (s.offset + 8 : ℕ) (int (s.offset + s.numBytes))) w := by
  have hshort := s.short
  have hfits : s.offset + s.numBytes ≤ s.bytes.length := s.fits
  simp only [headerSize] at h
  rw [int_eq (by omega) (by omega), claimMemory, System.succeeds_bind_of_ok (x := get) rfl,
    succeeds_throwIf, succeeds_throwIf, succeeds_throwIf]
  rintro ⟨-, -, hno, -⟩
  omega

theorem not_succeeds_readDataHeader (h : ¬ (headerSize ≤ s.numBytes ∧ s.version < 2 ^ 31)) :
    ¬ System.Succeeds (readDataHeader s.message s.offset) ⟨0, s.offset, [], []⟩ := by
  intro hsucc
  have hready : Ready s.offset 0 ⟨0, s.offset, [], []⟩ := ⟨le_rfl, le_rfl⟩
  have hshort := s.short
  have hroom : s.offset + 8 ≤ s.bytes.length := s.room
  have hbody : int ((s.offset : ℤ) + 8) = (s.offset + 8 : ℕ) := by
    rw [int_eq (by omega) (by omega), Nat.cast_add]
    rfl
  have hclaim : System.Returns (Ready s.offset 0)
      (claimMemory s.message s.offset (s.offset + 8 : ℕ)) ()
      (Ready (Wire.align8 (s.offset + 8)) 0) :=
    claimMemory_returns s.offset_aligned (Nat.le_add_right _ 8) hroom
  obtain ⟨w, hrun, hw⟩ := hclaim _ hready
  rw [readDataHeader, hbody, System.succeeds_bind_of_ok hrun] at hsucc
  by_cases hversion : s.version < 2 ^ 31
  · have hsmall : s.numBytes < 8 := by
      simp only [headerSize] at h
      omega
    have hsize : load s.message.data (s.offset + 0) 4 = s.numBytes := rfl
    have hword : load s.message.data (s.offset + 0 + 4) 4 = s.version := rfl
    have hwords : System.Returns (Ready (Wire.align8 (s.offset + 8)) 0)
        (readDataHeaderAtOffset s.message s.offset 0 false) ⟨s.numBytes, s.version⟩
        (Ready (Wire.align8 (s.offset + 8)) 0) :=
      readDataHeaderAtOffset_returns (t := s.offset) (k := 0) hroom hsize hword (by omega)
        hversion false
    obtain ⟨w', hrun', -⟩ := hwords w hw
    rw [System.succeeds_bind_of_ok hrun'] at hsucc
    exact not_succeeds_claimMemory hsmall hsucc.of_bind
  · exact not_succeeds_readDataHeaderAtOffset hw (not_lt.mp hversion) hsucc.of_bind

theorem javaAccepts_iff (T : VersionTable) (s : StructAt) :
    JavaAccepts T s ↔ s.version < 2 ^ 31 ∧ Acceptable T.versions s.version s.numBytes := by
  obtain ⟨v, hfind, hv⟩ := exists_find T s.version
  rw [JavaAccepts, readAndValidateDataHeader]
  by_cases h : headerSize ≤ s.numBytes ∧ s.version < 2 ^ 31
  · have hready : Ready s.offset 0 ⟨0, s.offset, [], []⟩ := ⟨le_rfl, le_rfl⟩
    have hheader : System.Returns (Ready s.offset 0) (readDataHeader s.message s.offset)
        ⟨s.numBytes, s.version⟩
        (Ready (s.offset + Wire.align8 s.numBytes) 0) :=
      readDataHeader_returns s.offset_aligned h.1 s.fits rfl rfl h.2
    obtain ⟨w, hrun, -⟩ := hheader _ hready
    have hscan : (fun u : VersionInfo => decide ((s.version : ℤ) ≥ u.version)) = fun u =>
        decide (u.version ≤ s.version) := by
      funext u
      exact decide_eq_decide.mpr Int.ofNat_le
    rw [System.succeeds_bind_of_ok hrun, ← sizeOk_iff, StructType.sizeOk]
    by_cases hle : s.version ≤ (⟨T.versions, []⟩ : StructType).last.version
    · rw [if_pos hle, StructType.newest, hfind]
      simp only [Int.ofNat_le.mpr hle, if_true]
      rw [succeeds_throwIf, hscan, hfind]
      simp only [Option.all_some, decide_eq_true_eq, ne_eq, not_not, System.succeeds_pure, and_true,
        h.2, true_and]
      omega
    · rw [if_neg hle]
      simp only [Int.ofNat_le, hle, if_false]
      rw [succeeds_throwIf]
      simp only [System.succeeds_pure, and_true, h.2, true_and]
      omega
  · constructor
    · intro hsucc
      exact absurd hsucc.of_bind (not_succeeds_readDataHeader h)
    · rintro ⟨hlt, hacc⟩
      exact absurd ⟨headerSize_le hacc, hlt⟩ h

end Java

/-- The version lies between two versions of the table, and the struct is larger than the older one.
-/
def InGap (T : VersionTable) (s : StructAt) : Prop :=
  ¬ Newer T.versions s.version ∧ ∃ v, Newest T.versions s.version v ∧ v.version < s.version ∧
    v.numBytes < s.numBytes

/-- The version is newer than the table, and the struct is smaller than the last version. -/
def TooShort (T : VersionTable) (s : StructAt) : Prop :=
  Newer T.versions s.version ∧ headerSize ≤ s.numBytes ∧ ∃ v, Newest T.versions s.version v ∧
    s.numBytes < v.numBytes

theorem cAgrees_iff (T : VersionTable) (s : StructAt) :
    (CAccepts T s ↔ Acceptable T.versions s.version s.numBytes) ↔ ¬ InGap T s := by
  obtain ⟨v, -, hv⟩ := exists_find T s.version
  have hle := hv.2.1
  have hgap : InGap T s ↔ ¬ Newer T.versions s.version ∧ v.version < s.version ∧
      v.numBytes < s.numBytes := by
    constructor
    · rintro ⟨hnewer, w, hw, hlt⟩
      rw [hv.unique hw]
      exact ⟨hnewer, hlt⟩
    · rintro ⟨hnewer, hlt⟩
      exact ⟨hnewer, v, hv, hlt⟩
  rw [cAccepts_iff hv, acceptable_iff hv, hgap]
  by_cases hnewer : Newer T.versions s.version
  · have := hnewer v hv.1
    rw [if_neg (by omega)]
    simp [hnewer]
  · by_cases heq : s.version = v.version
    · have hlt : ¬ v.version < s.version := by omega
      rw [if_pos heq]
      simp [hnewer, hlt]
    · have hlt : v.version < s.version := by omega
      rw [if_neg heq]
      simp only [hnewer, hlt, false_and, not_false_iff, true_and, false_or]
      omega

theorem goAgrees_iff (T : VersionTable) (s : StructAt) :
    (GoAccepts T s ↔ Acceptable T.versions s.version s.numBytes) ↔ ¬ TooShort T s := by
  obtain ⟨v, -, hv⟩ := exists_find T s.version
  have hheader := T.header v hv.1
  have hshort : TooShort T s ↔ Newer T.versions s.version ∧ headerSize ≤ s.numBytes ∧
      s.numBytes < v.numBytes := by
    constructor
    · rintro ⟨hnewer, hle, w, hw, hlt⟩
      rw [hv.unique hw]
      exact ⟨hnewer, hle, hlt⟩
    · rintro ⟨hnewer, hle, hlt⟩
      exact ⟨hnewer, hle, v, hv, hlt⟩
  rw [goAccepts_iff hv, acceptable_iff hv, hshort]
  by_cases hnewer : Newer T.versions s.version
  · simp only [hnewer, true_and, true_or, and_true, not_true, false_and, or_false]
    omega
  · simp only [hnewer, false_and, false_or, not_false_iff, true_and, iff_true]
    omega

theorem javaAgrees_iff (T : VersionTable) (s : StructAt) :
    (JavaAccepts T s ↔ Acceptable T.versions s.version s.numBytes) ↔
      ¬ (2 ^ 31 ≤ s.version ∧ Acceptable T.versions s.version s.numBytes) := by
  rw [javaAccepts_iff, ← not_lt]
  tauto

theorem struct_headers_agree_iff (T : VersionTable) (s : StructAt) :
    ((CAccepts T s ↔ Acceptable T.versions s.version s.numBytes) ∧
      (CppAccepts T s ↔ Acceptable T.versions s.version s.numBytes) ∧
      (GoAccepts T s ↔ Acceptable T.versions s.version s.numBytes) ∧
      (JavaAccepts T s ↔ Acceptable T.versions s.version s.numBytes)) ↔
      ¬ InGap T s ∧ ¬ TooShort T s ∧
        ¬ (2 ^ 31 ≤ s.version ∧ Acceptable T.versions s.version s.numBytes) := by
  rw [cAgrees_iff, goAgrees_iff, javaAgrees_iff]
  simp [cppAccepts_iff]

end Verdicts

def gappedTable : VersionTable where
  versions := [⟨0, 16⟩, ⟨2, 24⟩]
  increasing := by decide
  start := by decide
  growing := by decide
  rounded := by decide
  header := by decide

def structBytes (numBytes version : ℕ) : List UInt8 :=
  bytesOf 4 numBytes ++ (bytesOf 4 version ++ List.replicate (numBytes - headerSize) 0)

section StructBytes

variable {numBytes version : ℕ}

theorem length_structBytes (h : headerSize ≤ numBytes) :
    (structBytes numBytes version).length = numBytes := by
  simp only [headerSize] at h
  simp only [structBytes, length_append, length_bytesOf, length_replicate, headerSize]
  omega

theorem load_structBytes (h : numBytes < 2 ^ 32) :
    load (block 0 (structBytes numBytes version)) 0 4 = numBytes :=
  (holds_append.mp (holds_block _)).1.load_eq h

theorem load_structBytes_version (h : version < 2 ^ 32) :
    load (block 0 (structBytes numBytes version)) 4 4 = version := by
  have hrest := (holds_append.mp (holds_block (structBytes numBytes version))).2
  rw [length_bytesOf] at hrest
  exact (holds_append.mp hrest).1.load_eq h

def structAt (numBytes version : ℕ) (hsize : headerSize ≤ numBytes ∧ numBytes < 2 ^ 31)
    (hrounded : numBytes % 8 = 0) :
    StructAt where
  bytes := structBytes numBytes version
  base := 4096
  offset := 0
  short := by
    rw [length_structBytes hsize.1]
    exact hsize.2
  high := by
    rw [length_structBytes hsize.1]
    omega
  base_pos := by decide
  base_aligned := by decide
  offset_aligned := by decide
  room := by
    rw [length_structBytes hsize.1]
    omega
  fits := by
    rw [length_structBytes hsize.1, load_structBytes (by omega)]
    omega
  rounded := by
    rw [load_structBytes (by omega)]
    exact hrounded

end StructBytes

/-- 24 bytes of version 1, 16 bytes of version 3, and 24 bytes of version `2 ^ 31`. -/
theorem struct_headers_disagree : (CAccepts gappedTable (structAt 24 1 (by decide) (by decide)) ∧
      ¬ CppAccepts gappedTable (structAt 24 1 (by decide) (by decide))) ∧
    (GoAccepts gappedTable (structAt 16 3 (by decide) (by decide)) ∧
      ¬ CppAccepts gappedTable (structAt 16 3 (by decide) (by decide))) ∧
    (¬ JavaAccepts gappedTable (structAt 24 (2 ^ 31) (by decide) (by decide)) ∧
      CppAccepts gappedTable (structAt 24 (2 ^ 31) (by decide) (by decide))) := by
  have hgap : (structAt 24 1 (by decide) (by decide)).version = 1 :=
    load_structBytes_version (by decide)
  have hgap' : (structAt 24 1 (by decide) (by decide)).numBytes = 24 := load_structBytes (by decide)
  have hnew : (structAt 16 3 (by decide) (by decide)).version = 3 :=
    load_structBytes_version (by decide)
  have hnew' : (structAt 16 3 (by decide) (by decide)).numBytes = 16 := load_structBytes (by decide)
  have hlarge : (structAt 24 (2 ^ 31) (by decide) (by decide)).version = 2 ^ 31 :=
    load_structBytes_version (by decide)
  have hlarge' : (structAt 24 (2 ^ 31) (by decide) (by decide)).numBytes = 24 :=
    load_structBytes (by decide)
  have hone : Newest gappedTable.versions 1 ⟨0, 16⟩ := by decide
  have hthree : Newest gappedTable.versions 3 ⟨2, 24⟩ := by decide
  have hlast : Newest gappedTable.versions (2 ^ 31) ⟨2, 24⟩ := by decide
  refine ⟨⟨?_, ?_⟩, ⟨?_, ?_⟩, ?_, ?_⟩
  · rw [cAccepts_iff (hgap ▸ hone), hgap, hgap']
    decide
  · rw [cppAccepts_iff, hgap, hgap', acceptable_iff hone]
    decide
  · rw [goAccepts_iff (hnew ▸ hthree), hnew, hnew']
    decide
  · rw [cppAccepts_iff, hnew, hnew', acceptable_iff hthree]
    decide
  · rw [javaAccepts_iff, hlarge]
    rintro ⟨hlt, -⟩
    exact absurd hlt (by decide)
  · rw [cppAccepts_iff, hlarge, hlarge', acceptable_iff hlast]
    decide

end Mojo.Message
