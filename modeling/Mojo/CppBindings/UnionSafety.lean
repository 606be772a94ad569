import Mojo.CppBindings.DecodeSafe

/-!
# Decoding a validated union

`Validate` of a union stops at a null union and looks only into arrays, strings and
handles. `DecodePointersAndHandles` switches on the tag alone and follows every member
that is an object, a handle or an interface. So a validated union is safe to decode
exactly when its member is among those that were looked into, or leads nowhere.
-/

namespace Mojo.CppBindings

open Mojo.Memory BoundsChecker

def ClaimedHere (Γ : Types) (m : Mem) (name u : ℕ) (bc bc' : BoundsChecker) : Prop :=
  ∀ kind, (Γ.union name).active (load m (u + 4) 4) = some kind →
    (kind.isPointer = true → target .onWire m (u + 8) ≠ 0 →
      ∃ e ∈ bc'.memory.drop bc.memory.length, e.addr = target .onWire m (u + 8)) ∧
    (kind.isHandle = true → load m (u + 8) 4 ≠ encodedInvalidHandle →
      load m (u + 8) 4 ∈ bc'.handles.drop bc.handles.length)

variable {m : Mem}

theorem leadsNowhere_iff {s : Slot} (h : s.kind.isUnionMember) :
    LeadsNowhere m s ↔ (s.kind.isPointer → target .onWire m s.addr = 0) ∧
      (s.kind.isHandle → load m s.addr 4 = encodedInvalidHandle) := by
  obtain ⟨kind, addr, bit⟩ := s
  cases kind <;> first
    | simp [LeadsNowhere, Kind.isPlain, Kind.isPointer, Kind.isHandle]; done
    | cases h

variable {bc bc' : BoundsChecker}

theorem claimedHere_of_validateSlot {Γ : Types} (hΓ : Γ.WellFormed) {fuel : ℕ}
    {error : ValidationError}
    {s : Slot} (hm : s.kind.isMember) (h : validateSlot Γ m fuel error s bc = .ok bc') :
    (s.kind.isPointer → target .onWire m s.addr ≠ 0 →
      ∃ e ∈ bc'.memory.drop bc.memory.length, e.addr = target .onWire m s.addr) ∧
    (s.kind.isHandle → load m s.addr 4 ≠ encodedInvalidHandle →
      load m s.addr 4 ∈ bc'.handles.drop bc.handles.length) := by
  cases fuel with
  | zero => cases h
  | succ fuel =>
    constructor
    · intro hp ht
      rw [validateSlot_pointer hp hm] at h
      split_ifs at h
      have he := entered_of_validateObject hΓ hm hp ht h
      obtain ⟨es, hes, -⟩ := (he.claims fun s hs error bc bc' h' =>
        validateSlot_claims hΓ (objectSlots_isMember hΓ hm hp s hs) h').memory
      refine ⟨⟨target .onWire m s.addr, load m (target .onWire m s.addr) 4⟩, ?_, rfl⟩
      rw [hes]
      simp [claimed]
    · intro hh hne
      rw [validateSlot_handle hh] at h
      rcases claimHandle_eq_ok (validateHandle_eq_ok h) with ⟨hinv, -⟩ | ⟨-, -, -, rfl⟩
      · exact absurd hinv hne
      · simp [took]

theorem claimedHere_iff {Γ : Types} (hΓ : Γ.WellFormed) {fuel name u : ℕ}
    (hu : u ≠ 0) (h : validateUnion Γ (validateSlot Γ m fuel) m name u true bc = .ok bc') :
    ClaimedHere Γ m name u bc bc' ↔ SoundUnion Γ m name u := by
  cases ha : (Γ.union name).active (load m (u + 4) 4) with
  | none => simp [ClaimedHere, SoundUnion, ha]
  | some kind =>
    have hmember : kind.isUnionMember = true := hΓ.union name kind (List.mem_of_getElem? ha)
    simp only [ClaimedHere, SoundUnion, ha, Option.some.injEq, forall_eq']
    rcases validateUnion_eq_ok hu h with ⟨rfl, hno⟩ | ⟨kind', ha', hne, hv, hok⟩
    · -- Nothing was claimed, so nothing may be followed.
      have hnv : ¬ (load m u 4 ≠ 0 ∧ kind.isValidatedInUnion = true) := by
        rintro ⟨hne, hv⟩
        rcases hno with h0 | hno
        · exact hne h0
        · rw [hno kind ha] at hv
          cases hv
      simp only [hnv, false_or, List.drop_length, List.not_mem_nil, false_and, exists_false,
        imp_false, not_not]
      exact (leadsNowhere_iff (s := ⟨kind, u + 8, 0⟩) hmember).symm
    · obtain rfl := Option.some.inj (ha.symm.trans ha')
      refine iff_of_true ?_ (.inl ⟨hne, hv⟩)
      exact claimedHere_of_validateSlot (s := ⟨kind, u + 8, 0⟩) hΓ (isMember_of_active hΓ ha hv) hok

/-- After a successful `Validate` of a union, the member that decoding follows was claimed
exactly if the union is sound; and if the unions further down are sound too, decoding
enters and takes just what was claimed. -/
theorem validateUnion_safe_iff {Γ : Types} (hΓ : Γ.WellFormed) {m : Mem} {fuel name u : ℕ}
    {nullable : Bool} {bc bc' : BoundsChecker} (hu : u ≠ 0) (hin : u + unionSize ≤ bc.dataBegin)
    (h : validateUnion Γ (validateSlot Γ m fuel) m name u true bc = .ok bc') :
    (ClaimedHere Γ m name u bc bc' ↔ SoundUnion Γ m name u) ∧
      (SoundBelow Γ m (fuel + 1) ⟨.union name nullable, u, 0⟩ →
        Follows m (span u unionSize) (decodeSlot Γ (fuel + 2) ⟨.union name nullable, u, 0⟩) bc
        bc') := by
  refine ⟨claimedHere_iff hΓ hu h, fun hsound => ?_⟩
  refine follows_union (s := ⟨.union name nullable, u, 0⟩) hΓ rfl ⟨Nat.pos_of_ne_zero hu, hin⟩
    hsound.1 ?_ h
  intro s' hs' error hb hm h'
  exact follows_slot hΓ hm hb (hsound.2 s' hs') h'

def holderTypes : Types where
  struct i := if i = 0 then ⟨[⟨0, 24⟩], [⟨.union 0 true, 0, 0, 0⟩]⟩ else ⟨[⟨0, 8⟩], []⟩
  union _ := ⟨[.struct 1 true, .string false]⟩

def strayMessage : Mem := block 4096 (words [24, 0, 16, 0, 4096, 0])

def strayNullMessage : Mem := block 4096 (words [24, 0, 0, 0, 4096, 0])

theorem validateStruct_accepts_stray_pointer :
    (validateStruct holderTypes strayMessage 3 0 4096 (.new 4096 24 0) =
      .ok ⟨4120, 4120, 0, 0, [⟨4096, 24⟩], []⟩ ∧
      (decodeStruct holderTypes 4 0 4096 ⟨strayMessage, [], []⟩).map DecodeState.entered =
        .ok [⟨4096, 24⟩, ⟨8208, 0⟩]) ∧
    validateStruct holderTypes strayNullMessage 3 0 4096 (.new 4096 24 0) =
      .ok ⟨4120, 4120, 0, 0, [⟨4096, 24⟩], []⟩ ∧
      (decodeStruct holderTypes 4 0 4096 ⟨strayNullMessage, [], []⟩).map DecodeState.entered =
        .ok [⟨4096, 24⟩, ⟨8208, 0⟩] := by
  decide +kernel

theorem holderTypes_wellFormed : holderTypes.WellFormed where
  struct i := by
    by_cases hi : i = 0
    · simp only [holderTypes, hi, ↓reduceIte]
      exact .of_single (by decide) (by simp [Kind.isMember, Kind.size, headerSize]) (by simp)
    · simp only [holderTypes, hi, ↓reduceIte]
      exact .of_single le_rfl (by simp) .nil
  union _ := by simp [holderTypes, Kind.isUnionMember, Kind.isMember]

def stringMessage : Mem := block 4096 (words [24, 0, 16, 1, 8, 0, 9, 1] ++ [97])

def beforeString : BoundsChecker := ⟨4120, 4129, 0, 0, [⟨4096, 24⟩], []⟩

def afterString : BoundsChecker := ⟨4129, 4129, 0, 0, [⟨4096, 24⟩, ⟨4120, 9⟩], []⟩

theorem validateUnion_safe_string :
    ClaimedHere holderTypes stringMessage 0 4104 beforeString afterString ∧
      Follows stringMessage (span 4104 unionSize)
        (decodeSlot holderTypes 4 ⟨.union 0 true, 4104, 0⟩) beforeString afterString := by
  have hvalid : validateUnion holderTypes (validateSlot holderTypes stringMessage 2) stringMessage
      0 4104 true beforeString = .ok afterString := by decide +kernel
  have hsound : SoundUnion holderTypes stringMessage 0 4104 := by decide +kernel
  have hslots : objectSlots holderTypes stringMessage (.union 0 true) 4104 =
      [⟨.string false, 4112, 0⟩] := by decide +kernel
  obtain ⟨hclaimed, hfollows⟩ :=
    validateUnion_safe_iff holderTypes_wellFormed (by decide) (by decide) hvalid
  refine ⟨hclaimed.mpr hsound, hfollows ⟨hsound, fun s hs => ?_⟩⟩
  rw [hslots, List.mem_singleton] at hs
  subst hs
  exact fun _ s' hs' => by cases hs'

end Mojo.CppBindings
