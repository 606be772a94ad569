import Mojo.CppBindings.Validate

/-!
# What validation claims

A successful validation is read here as what it has established: an object that was
validated has been claimed, its members lie in it and apart, and they were validated
in order. The claims that are made along the way lie one after another.
-/

namespace Mojo.CppBindings

open Mojo.Memory
open List hiding Disjoint Mem

variable {bc bc' : BoundsChecker} {position fuel t n len : ℕ} {Γ : Types} {m : Mem}
  {nullUnion : ValidationError}
  {s : Slot} {ss : List Slot} {d : StructType} {rec : ValidateSlot} {numBytes : ℕ}

namespace BoundsChecker

theorem isValidRange.stop (h : bc.isValidRange position numBytes) (hn : numBytes < 2 ^ 64) :
    wrap64 (position + numBytes) = position + numBytes := by
  have h₁ := h.1
  have h₂ := wrap64_lt (position + numBytes)
  rw [wrap64] at *
  omega

structure Claims (bc bc' : BoundsChecker) : Prop where
  dataEnd : bc'.dataEnd = bc.dataEnd
  handleEnd : bc'.handleEnd = bc.handleEnd
  inside : bc.dataBegin ≤ bc.dataEnd → bc'.dataBegin ≤ bc.dataEnd
  below : bc.handleBegin ≤ bc.handleEnd → bc'.handleBegin ≤ bc.handleEnd
  memory : ∃ es, bc'.memory = bc.memory ++ es ∧ Packed bc.dataBegin es bc'.dataBegin
  handles : ∃ is : List ℕ, bc'.handles = bc.handles ++ is ∧
    Packed bc.handleBegin (is.map fun i => ⟨i, 1⟩) bc'.handleBegin

theorem Claims.refl (bc : BoundsChecker) : Claims bc bc where
  dataEnd := rfl
  handleEnd := rfl
  inside h := h
  below h := h
  memory := ⟨[], (append_nil _).symm, le_rfl⟩
  handles := ⟨[], (append_nil _).symm, le_rfl⟩

theorem Claims.trans {bc₁ bc₂ bc₃ : BoundsChecker} (h : Claims bc₁ bc₂) (h' : Claims bc₂ bc₃) :
    Claims bc₁ bc₃ := by
  obtain ⟨es, hes, hp⟩ := h.memory
  obtain ⟨es', hes', hp'⟩ := h'.memory
  obtain ⟨is, his, hq⟩ := h.handles
  obtain ⟨is', his', hq'⟩ := h'.handles
  constructor
  · rw [h'.dataEnd, h.dataEnd]
  · rw [h'.handleEnd, h.handleEnd]
  · intro hle
    rw [← h.dataEnd]
    exact h'.inside (h.dataEnd ▸ h.inside hle)
  · intro hle
    rw [← h.handleEnd]
    exact h'.below (h.handleEnd ▸ h.below hle)
  · exact ⟨es ++ es', by rw [hes', hes, append_assoc], hp.append hp'⟩
  · exact ⟨is ++ is', by rw [his', his, append_assoc], by rw [map_append]; exact hq.append hq'⟩

theorem Claims.dataBegin_le (h : Claims bc bc') : bc.dataBegin ≤ bc'.dataBegin := by
  obtain ⟨es, -, hp⟩ := h.memory
  exact hp.le

def claimed (bc : BoundsChecker) (position numBytes : ℕ) : BoundsChecker :=
  { bc with dataBegin := position + numBytes, memory := bc.memory ++ [⟨position, numBytes⟩] }

theorem claimMemory_eq_ok (hn : numBytes < 2 ^ 64)
    (h : bc.claimMemory position numBytes = .ok bc') :
    bc.dataBegin ≤ position ∧ position + numBytes ≤ bc.dataEnd ∧
      bc' = bc.claimed position numBytes := by
  rw [claimMemory] at h
  split_ifs at h with hv
  have hs := hv.stop hn
  obtain ⟨-, h₂, h₃⟩ := hv
  rw [hs] at h h₃
  exact ⟨h₂, h₃, (Except.ok.inj h).symm⟩

theorem claims_claimed (h₁ : bc.dataBegin ≤ position) (h₂ : position + numBytes ≤ bc.dataEnd) :
    Claims bc (bc.claimed position numBytes) where
  dataEnd := rfl
  handleEnd := rfl
  inside _ := h₂
  below h := h
  memory := ⟨[⟨position, numBytes⟩], rfl, h₁, le_rfl⟩
  handles := ⟨[], (append_nil _).symm, le_rfl⟩

def took (bc : BoundsChecker) (index : ℕ) : BoundsChecker :=
  { bc with handleBegin := index + 1, handles := bc.handles ++ [index] }

theorem claimHandle_eq_ok {index : ℕ} (h : bc.claimHandle index = .ok bc') :
    index = encodedInvalidHandle ∧ bc' = bc ∨
      index ≠ encodedInvalidHandle ∧ bc.handleBegin ≤ index ∧ index < bc.handleEnd ∧
        bc' = bc.took index := by
  rw [claimHandle] at h
  split_ifs at h with h₁ h₂
  · exact .inl ⟨h₁, (Except.ok.inj h).symm⟩
  · push Not at h₂
    exact .inr ⟨h₁, h₂.1, h₂.2, (Except.ok.inj h).symm⟩

theorem claims_took {index : ℕ} (h₁ : bc.handleBegin ≤ index)
    (h₂ : index < bc.handleEnd) : Claims bc (bc.took index) where
  dataEnd := rfl
  handleEnd := rfl
  inside h := h
  below _ := h₂
  memory := ⟨[], (append_nil _).symm, le_rfl⟩
  handles := ⟨[index], rfl, h₁, le_rfl⟩

theorem new_dataEnd_le (data numBytes numHandles : ℕ) :
    (new data numBytes numHandles).dataEnd ≤ data + numBytes := by
  simp only [new]
  split_ifs
  · omega
  · exact Nat.mod_le _ _

theorem new_handleEnd_le (data numBytes numHandles : ℕ) :
    (new data numBytes numHandles).handleEnd ≤ numHandles := by
  simp only [new]
  split_ifs
  · omega
  · exact Nat.mod_le _ _

theorem new_dataBegin_le (data numBytes numHandles : ℕ) :
    (new data numBytes numHandles).dataBegin ≤ (new data numBytes numHandles).dataEnd := by
  simp only [new]
  split_ifs <;> omega

end BoundsChecker

open BoundsChecker

/-! ### Members that are pointers or handles -/

variable {kind : Kind}

theorem Kind.size_of_isPointer (h : kind.isPointer) : kind.size = 8 := by
  cases kind <;> first | rfl | cases h

theorem Kind.size_of_isHandle (h : kind.isHandle) : 4 ≤ kind.size := by
  cases kind <;> first | (simp [Kind.size]; done) | cases h

theorem validateSlot_pointer (hp : s.kind.isPointer) (hm : s.kind.isMember) :
    validateSlot Γ m (fuel + 1) nullUnion s bc = if s.kind.isNullable = false ∧
        load m s.addr 8 = 0 then .error (.invalid .unexpectedNullPointer)
      else if ¬ validateEncodedPointer m s.addr then .error (.invalid .illegalPointer)
      else validateObject Γ (validateSlot Γ m fuel) m s.kind (target .onWire m s.addr) bc := by
  obtain ⟨kind, addr, bit⟩ := s
  cases kind <;>
    first | rfl | exact absurd hp Bool.false_ne_true | exact absurd hm Bool.false_ne_true

theorem validateSlot_handle (hh : s.kind.isHandle) :
    validateSlot Γ m (fuel + 1) nullUnion s bc = validateHandle m s.kind.isNullable s.addr bc := by
  obtain ⟨kind, addr, bit⟩ := s
  cases kind <;> first | rfl | cases hh

/-! ### The members of an object lie in it and apart -/

def Slot.Before (s : Slot) (a : ℕ) : Prop := 0 < s.addr ∧ s.addr + s.kind.size ≤ a

theorem Slot.Before.mono {a a' : ℕ} (h : s.Before a) (hle : a ≤ a') : s.Before a' :=
  ⟨h.1, h.2.trans hle⟩

structure SlotsIn (ss : List Slot) (e : Extent) : Prop where
  apart : ss.Pairwise fun s s' => Disjoint s.bytes s'.bytes
  inside : ∀ s ∈ ss, e.addr + headerSize ≤ s.addr ∧ s.addr + s.kind.size ≤ e.stop

theorem SlotsIn.before {e : Extent} (h : SlotsIn ss e) (hs : s ∈ ss) : s.Before e.stop := by
  have := h.inside s hs
  exact ⟨by simp only [headerSize] at this; omega, this.2⟩

theorem slotsIn_nil (e : Extent) : SlotsIn [] e :=
  ⟨List.Pairwise.nil, fun _ hs => absurd hs not_mem_nil⟩

theorem visibleFields_sublist (skip : Kind → Bool) (version lastChecked : ℕ) (fs : List Field) :
    (visibleFields skip version lastChecked fs).Sublist fs := by
  induction fs generalizing lastChecked with
  | nil => exact List.Sublist.slnil
  | cons f fs ih =>
    rw [visibleFields]
    split_ifs
    · exact (ih _).cons f
    · exact nil_sublist _
    · exact (ih _).cons_cons f

theorem mem_visibleFields {skip : Kind → Bool} {version lastChecked : ℕ} {fs : List Field}
    (hle : lastChecked ≤ version) {f : Field} (hf : f ∈ visibleFields skip version lastChecked fs) :
    skip f.kind = false ∧ f.minVersion ≤ version := by
  induction fs generalizing lastChecked with
  | nil => cases hf
  | cons g gs ih =>
    rw [visibleFields] at hf
    split_ifs at hf with h₁ h₂
    · exact ih hle hf
    · cases hf
    · rcases hf with _ | ⟨_, hf⟩
      · exact ⟨by simpa using h₁, by omega⟩
      · exact ih (by omega) hf

theorem StructType.le_of_sizeOk (hd : d.WellFormed) {version : ℕ} (h : d.sizeOk version numBytes) :
    ∃ v, d.newest version = some v ∧ v.numBytes ≤ numBytes := by
  obtain ⟨v, hmem, hv⟩ := StructType.newest_isSome hd.start version
  rw [StructType.sizeOk] at h
  split_ifs at h with hle
  · rw [hv] at h
    exact ⟨v, hv, h.ge⟩
  · exact ⟨d.last, StructType.newest_last (ne_nil_of_mem hmem) (not_le.mp hle).le, h⟩

theorem slotsIn_struct (hd : d.WellFormed) {version : ℕ} (hok : d.sizeOk version n) :
    SlotsIn ((visibleFields Kind.isPlain version 0 d.fields).map fun f => f.slot t) ⟨t, n⟩ := by
  have hsub := visibleFields_sublist Kind.isPlain version 0 d.fields
  obtain ⟨v, hv, hn⟩ := StructType.le_of_sizeOk hd hok
  constructor
  · rw [pairwise_map]
    have hapart := hd.apart.sublist hsub
    refine hapart.imp_of_mem ?_
    intro f g hf _ hfg
    obtain ⟨hplain, -⟩ := mem_visibleFields (Nat.zero_le _) hf
    rcases hfg with h | h | ⟨h, -⟩
    · exact span_disjoint_of_le (by simp only [Field.slot]; omega)
    · exact (span_disjoint_of_le (by simp only [Field.slot]; omega)).symm
    · rw [h] at hplain
      cases hplain
  · intro s hs
    obtain ⟨f, hf, rfl⟩ := mem_map.mp hs
    obtain ⟨-, hmin⟩ := mem_visibleFields (Nat.zero_le _) hf
    have := hd.inside f (hsub.subset hf) version v hmin hv
    simp only [Field.slot, Extent.stop]
    omega

variable {elem : Kind}

theorem slotsIn_array (hb : elem ≠ .bool)
    (h : headerSize + elem.size * n ≤ len) : SlotsIn (elementSlots elem t n) ⟨t, len⟩ := by
  have hslot : ∀ i, elementSlot elem t i = ⟨elem, t + headerSize + elem.size * i, 0⟩ := by
    intro i
    cases elem <;> first | rfl | exact absurd rfl hb
  have hmul : ∀ i j, i < j → elem.size * i + elem.size ≤ elem.size * j := by
    intro i j hij
    rw [← Nat.mul_succ]
    exact Nat.mul_le_mul_left _ hij
  constructor
  · rw [elementSlots, pairwise_map]
    refine pairwise_lt_range.imp ?_
    intro i j hij
    have := hmul i j hij
    rw [hslot, hslot]
    exact span_disjoint_of_le (by simp only []; omega)
  · intro s hs
    obtain ⟨i, hi, rfl⟩ := mem_map.mp hs
    have := hmul i n (mem_range.mp hi)
    rw [hslot]
    simp only [Extent.stop]
    omega

theorem slotsIn_map (key value : Kind) (h : 24 ≤ len) :
    SlotsIn [⟨.array key 0 false, t + 8, 0⟩, ⟨.array value 0 false, t + 16, 0⟩] ⟨t, len⟩ := by
  constructor
  · simp only [pairwise_cons, mem_singleton, forall_eq, not_mem_nil,
      IsEmpty.forall_iff, implies_true, List.Pairwise.nil, and_true]
    exact span_disjoint_of_le (by simp only [Kind.size]; omega)
  · intro s hs
    simp only [mem_cons, not_mem_nil, or_false] at hs
    rcases hs with rfl | rfl <;> simp only [Kind.size, Extent.stop, headerSize] <;> omega

theorem getStorageSize_eq (hb : elem ≠ .bool) (hp : 0 < elem.size)
    (h : n ≤ maxNumElements elem) : getStorageSize elem n = headerSize + elem.size * n := by
  have hmax : maxNumElements elem = (maxUint32 - headerSize) / elem.size := by
    cases elem <;> first | rfl | exact absurd rfl hb
  have hsize : getStorageSize elem n = (headerSize + elem.size * n) % 2 ^ 32 := by
    cases elem <;> first | rfl | exact absurd rfl hb
  rw [hmax, Nat.le_div_iff_mul_le hp] at h
  rw [hsize, Nat.mod_eq_of_lt]
  rw [Nat.mul_comm]
  simp only [maxUint32, headerSize] at h ⊢
  omega

/-! ### What a validated object looks like -/

theorem validateStructHeader_eq_ok (h : validateStructHeaderAndClaimMemory m t bc = .ok bc') :
    headerSize ≤ load m t 4 ∧ bc.dataBegin ≤ t ∧ t + load m t 4 ≤ bc.dataEnd ∧
      bc' = bc.claimed t (load m t 4) := by
  rw [validateStructHeaderAndClaimMemory] at h
  split_ifs at h with h₁ h₂ h₃
  have hlt : load m t 4 < 2 ^ 64 := (load_lt m t 4).trans (by decide)
  exact ⟨not_lt.mp h₃, claimMemory_eq_ok hlt h⟩

theorem validateArrayHeader_eq_ok {count : ℕ}
    (h : validateArrayHeader m elem count t bc = .ok bc') :
    load m (t + 4) 4 ≤ maxNumElements elem ∧ getStorageSize elem (load m (t + 4) 4) ≤ load m t 4 ∧
      bc.dataBegin ≤ t ∧ t + load m t 4 ≤ bc.dataEnd ∧ bc' = bc.claimed t (load m t 4) := by
  rw [validateArrayHeader] at h
  split_ifs at h with h₁ h₂ h₃ h₄
  push Not at h₃
  have hlt : load m t 4 < 2 ^ 64 := (load_lt m t 4).trans (by decide)
  exact ⟨h₃.1, h₃.2, claimMemory_eq_ok hlt h⟩

/-- What is known of an object once it has been validated: it was claimed, its members
lie in it, and then they were validated in order. -/
structure Entered (Γ : Types) (rec : ValidateSlot) (m : Mem) (kind : Kind) (t : ℕ)
    (bc bc' : BoundsChecker) : Prop where
  header : headerSize ≤ load m t 4
  begin : bc.dataBegin ≤ t
  stop : t + load m t 4 ≤ bc.dataEnd
  slots : SlotsIn (objectSlots Γ m kind t) ⟨t, load m t 4⟩
  members : ∃ error, forEach (rec error) (objectSlots Γ m kind t) (bc.claimed t (load m t 4)) =
    .ok bc'

theorem validateMapArray_eq_ok {slot : ℕ} (h : validateMapArray rec m elem slot bc = .ok bc') :
    rec .unexpectedNullPointer ⟨.array elem 0 false, slot, 0⟩ bc = .ok bc' := by
  rw [validateMapArray] at h
  split_ifs at h
  exact h

theorem Kind.size_pos (h : kind.isMember) : 0 < kind.size := by
  cases kind with
  | number size =>
    simp only [isMember, mem_cons, not_mem_nil, or_false, decide_eq_true_eq] at h
    simp only [Kind.size]
    omega
  | _ => simp [Kind.size]

theorem Kind.not_hasPlainHelper (h : kind.hasPlainHelper = false) : kind ≠ .bool := by
  rintro rfl
  cases h

theorem entered_of_validateObject (hΓ : Γ.WellFormed) (hk : kind.isMember)
    (hp : kind.isPointer) (ht : t ≠ 0)
    (h : validateObject Γ rec m kind t bc = .ok bc') : Entered Γ rec m kind t bc bc' := by
  simp only [validateObject, ht, ↓reduceIte] at h
  cases kind with
  | string nullable =>
    obtain ⟨h₁, h₂, h₃, h₄, rfl⟩ := validateArrayHeader_eq_ok h
    rw [getStorageSize_eq (by simp) (by simp [Kind.size]) h₁] at h₂
    exact ⟨by omega, h₃, h₄, slotsIn_nil _, .unexpectedNullPointer, rfl⟩
  | array elem count nullable =>
    obtain ⟨bc₁, h₀, h⟩ := bind_eq_ok.mp h
    obtain ⟨h₁, h₂, h₃, h₄, rfl⟩ := validateArrayHeader_eq_ok h₀
    have hheader : headerSize ≤ load m t 4 := by
      by_cases hb : elem = .bool
      · subst hb
        simp only [getStorageSize] at h₂
        omega
      · rw [getStorageSize_eq hb (Kind.size_pos hk) h₁] at h₂
        omega
    refine ⟨hheader, h₃, h₄, ?_, _, h⟩
    by_cases hh : elem.hasPlainHelper = true
    · simp only [objectSlots, hh, ↓reduceIte]
      exact slotsIn_nil _
    · have hb := Kind.not_hasPlainHelper (Bool.eq_false_iff.mpr hh)
      rw [getStorageSize_eq hb (Kind.size_pos hk) h₁] at h₂
      simp only [objectSlots, hh, Bool.false_eq_true, ↓reduceIte]
      exact slotsIn_array hb h₂
  | map key value nullable =>
    obtain ⟨bc₁, h₀, h⟩ := bind_eq_ok.mp h
    obtain ⟨h₁, h₃, h₄, rfl⟩ := validateStructHeader_eq_ok h₀
    by_cases hhead : load m t 4 ≠ 24 ∨ load m (t + 4) 4 ≠ 0
    · rw [if_pos hhead] at h
      cases h
    rw [if_neg hhead] at h
    push Not at hhead
    obtain ⟨bc₂, hkeys, h⟩ := bind_eq_ok.mp h
    obtain ⟨bc₃, hvalues, h⟩ := bind_eq_ok.mp h
    split_ifs at h
    cases h
    refine ⟨h₁, h₃, h₄, slotsIn_map key value (by omega), .unexpectedNullPointer, ?_⟩
    simp [objectSlots, forEach, validateMapArray_eq_ok hkeys, validateMapArray_eq_ok hvalues,
      ok_bind]
  | struct name nullable =>
    obtain ⟨bc₁, h₀, h⟩ := bind_eq_ok.mp h
    obtain ⟨h₁, h₃, h₄, rfl⟩ := validateStructHeader_eq_ok h₀
    split_ifs at h with hok
    exact ⟨h₁, h₃, h₄, slotsIn_struct (hΓ.struct name) hok, _, h⟩
  | number _ | bool | handle _ | interface _ | union _ _ => cases hp
  | unionPointer _ _ => cases hk

/-! ### Unions -/

def Kind.isValidatedInUnion : Kind → Bool
  | .string _ | .array _ _ _ | .handle _ => true
  | .number _ | .bool | .interface _ | .map _ _ _ | .struct _ _ | .union _ _
  | .unionPointer _ _ => false

theorem validateUnion_eq_ok {name u : ℕ} (hu : u ≠ 0)
    (h : validateUnion Γ rec m name u true bc = .ok bc') :
    bc' = bc ∧ (load m u 4 = 0 ∨ ∀ kind, (Γ.union name).active (load m (u + 4) 4) = some kind →
        kind.isValidatedInUnion = false) ∨
      ∃ kind, (Γ.union name).active (load m (u + 4) 4) = some kind ∧ load m u 4 ≠ 0 ∧
        kind.isValidatedInUnion ∧ rec .unexpectedNullPointer ⟨kind, u + 8, 0⟩ bc = .ok bc' := by
  simp only [validateUnion, hu, ↓reduceIte, ok_bind] at h
  by_cases halign : u % 8 = 0
  swap
  · rw [if_pos halign] at h
    cases h
  rw [if_neg (not_not.mpr halign)] at h
  by_cases hnull : load m u 4 = 0
  · rw [if_pos hnull] at h
    exact .inl ⟨(Except.ok.inj h).symm, .inl hnull⟩
  rw [if_neg hnull] at h
  cases ha : (Γ.union name).active (load m (u + 4) 4) with
  | none =>
    rw [ha] at h
    exact .inl ⟨(Except.ok.inj h).symm, .inr fun kind hkind => by cases hkind⟩
  | some kind =>
    rw [ha] at h
    cases hv : kind.isValidatedInUnion with
    | true =>
      refine .inr ⟨kind, rfl, hnull, hv, ?_⟩
      cases kind <;> first | exact h | exact absurd hv Bool.false_ne_true
    | false =>
      refine .inl ⟨?_, .inr fun kind' hkind => Option.some.inj hkind ▸ hv⟩
      cases kind <;> first
        | exact absurd hv.symm Bool.false_ne_true
        | exact (Except.ok.inj h).symm
        | (simp only at h; split_ifs at h; exact (Except.ok.inj h).symm)

theorem Kind.size_of_isUnionMember (h : kind.isUnionMember) : kind.size ≤ 8 := by
  cases kind with
  | number size =>
    simp only [isUnionMember, isMember, mem_cons, not_mem_nil, or_false, decide_eq_true_eq] at h
    simp only [Kind.size]
    omega
  | union _ _ => cases h
  | _ => simp [Kind.size]

theorem isMember_of_active (hΓ : Γ.WellFormed) {name tag : ℕ}
    (ha : (Γ.union name).active tag = some kind)
    (hv : kind.isValidatedInUnion) : kind.isMember := by
  have hmember : kind.isUnionMember = true := hΓ.union name kind (mem_of_getElem? ha)
  cases kind <;> first | exact hmember | exact absurd hv Bool.false_ne_true

/-! ### Claims over a whole run -/

theorem objectSlots_isMember (hΓ : Γ.WellFormed) (hm : kind.isMember) (hp : kind.isPointer)
    : ∀ s ∈ objectSlots Γ m kind t, s.kind.isMember := by
  intro s hs
  cases kind with
  | struct name nullable =>
    obtain ⟨f, hf, rfl⟩ := mem_map.mp hs
    exact (hΓ.struct name).kinds f ((visibleFields_sublist _ _ _ _).subset hf)
  | array elem count nullable =>
    simp only [objectSlots] at hs
    split_ifs at hs with hh
    · cases hs
    · obtain ⟨i, -, rfl⟩ := mem_map.mp hs
      cases elem <;> exact hm
  | map key value nullable =>
    simp only [Kind.isMember, Bool.and_eq_true] at hm
    simp only [objectSlots, mem_cons, not_mem_nil, or_false] at hs
    rcases hs with rfl | rfl
    · obtain ⟨⟨hkey, -⟩, -⟩ := hm
      cases key <;> first | exact hkey | rfl | cases hkey
    · exact hm.1.2
  | string _ => cases hs
  | number _ | bool | handle _ | interface _ | union _ _ => cases hp
  | unionPointer _ _ => cases hm

theorem claims_forEach {validate : Slot → BoundsChecker → Except Failure BoundsChecker}
        (hstep : ∀ s ∈ ss, ∀ bc bc', validate s bc = .ok bc' → Claims bc bc')
    (h : forEach validate ss bc = .ok bc') : Claims bc bc' := by
  induction ss generalizing bc with
  | nil =>
    obtain rfl := Except.ok.inj h
    exact .refl bc
  | cons s ss ih =>
    obtain ⟨bc₁, h₁, h₂⟩ := bind_eq_ok.mp h
    exact (hstep s (.head _) bc bc₁ h₁).trans (ih (fun s' hs' => hstep s' (.tail _ hs')) h₂)

theorem validateHandle_eq_ok {nullable : Bool} {slot : ℕ}
    (h : validateHandle m nullable slot bc = .ok bc') :
    bc.claimHandle (load m slot 4) = .ok bc' := by
  rw [validateHandle] at h
  split_ifs at h
  exact h

theorem Entered.claims (he : Entered Γ rec m kind t bc bc')
    (hrec : ∀ s ∈ objectSlots Γ m kind t, ∀ error bc bc', rec error s bc = .ok bc' →
      Claims bc bc') : Claims (bc.claimed t (load m t 4)) bc' := by
  obtain ⟨error, hmembers⟩ := he.members
  exact claims_forEach (fun s hs => hrec s hs error) hmembers

theorem validateSlot_claims (hΓ : Γ.WellFormed) :
    ∀ {nullUnion : ValidationError} {s : Slot} {bc bc' : BoundsChecker},
      s.kind.isMember → validateSlot Γ m fuel nullUnion s bc = .ok bc' →
      Claims bc bc' := by
  induction fuel with
  | zero =>
    intro nullUnion s bc bc' hm h
    cases h
  | succ fuel ih =>
    intro nullUnion s bc bc' hm h
    by_cases hp : s.kind.isPointer = true
    · rw [validateSlot_pointer hp hm] at h
      split_ifs at h
      by_cases ht : target .onWire m s.addr = 0
      · simp only [validateObject, ht, ↓reduceIte] at h
        cases h
        exact .refl bc
      · have he := entered_of_validateObject hΓ hm hp ht h
        exact (claims_claimed he.begin he.stop).trans (he.claims fun s' hs' error bc bc' h' =>
          ih (objectSlots_isMember hΓ hm hp s' hs') h')
    by_cases hh : s.kind.isHandle = true
    · rw [validateSlot_handle hh] at h
      rcases claimHandle_eq_ok (validateHandle_eq_ok h) with ⟨-, rfl⟩ | ⟨-, h₁, h₂, rfl⟩
      · exact .refl bc'
      · exact claims_took h₁ h₂
    cases hk : s.kind with
    | union name nullable =>
      simp only [validateSlot, hk] at h
      split_ifs at h
      by_cases hu : s.addr = 0
      · simp only [validateUnion, hu, ↓reduceIte] at h
        cases h
        exact .refl bc
      rcases validateUnion_eq_ok hu h with ⟨rfl, -⟩ | ⟨kind, ha, -, hv, h'⟩
      · exact .refl bc'
      · exact ih (isMember_of_active hΓ ha hv) h'
    | number _ | bool =>
      simp only [validateSlot, hk] at h
      cases h
      exact .refl bc
    | unionPointer _ _ =>
      rw [hk] at hm
      cases hm
    | handle _ | interface _ =>
      rw [hk] at hh
      exact absurd rfl hh
    | string _ | array _ _ _ | map _ _ _ | struct _ _ =>
      rw [hk] at hp
      exact absurd rfl hp

end Mojo.CppBindings
