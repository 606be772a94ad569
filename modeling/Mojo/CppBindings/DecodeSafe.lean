import Mojo.CppBindings.Codec
import Mojo.CppBindings.ValidateClaims

/-!
# Decoding follows validation

Validation and decoding go through the same members in the same order. While
validation moves its cursor forward, decoding writes into members that lie before
the cursor, so what validation is still going to read is what decoding will find.
Hence decoding enters exactly the objects that validation claimed and takes exactly
the handles that it claimed, as long as every union on the way is one whose member
validation has looked at.
-/

namespace Mojo.CppBindings

open Mojo.Memory BoundsChecker Set

variable {Γ : Types} {fuel t : ℕ} {s : Slot} {st : DecodeState} {nullable : Bool}

theorem decodeSlot_pointer (hp : s.kind.isPointer) : decodeSlot Γ (fuel + 1) s st =
      if load (decodePointer s.addr st).mem s.addr 8 = 0 then .ok (decodePointer s.addr st)
      else decodeObject Γ (decodeSlot Γ fuel) s.kind (load (decodePointer s.addr st).mem s.addr 8)
        (decodePointer s.addr st) := by
  obtain ⟨kind, addr, bit⟩ := s
  cases kind <;> first | rfl | cases hp

theorem decodeSlot_handle (hh : s.kind.isHandle) :
    decodeSlot Γ (fuel + 1) s st = decodeHandle s.addr st := by
  obtain ⟨kind, addr, bit⟩ := s
  cases kind <;> first | rfl | cases hh

theorem target_lt (f : Form) (m : Mem) (slot : ℕ) : target f m slot < 256 ^ 8 := by
  cases f with
  | inMemory => exact load_lt m slot 8
  | onWire =>
    rw [target]
    split_ifs
    · decide
    · exact wrap64_lt _

theorem load_decodePointer (slot : ℕ) (st : DecodeState) :
    load (decodePointer slot st).mem slot 8 = target .onWire st.mem slot :=
  load_store_of_lt (target_lt _ _ _)

/-! ### Validation and decoding side by side -/

structure InStep (bc : BoundsChecker) (st : DecodeState) : Prop where
  entered : st.entered = bc.memory
  taken : st.taken = bc.handles
  handles : bc.handleEnd ≤ st.handles.length

/-- From a state in which the bytes `A` and those past the cursor of `bc` are still
those of the message `m`, the run does what is claimed from `bc` to `bc'`. It writes
only to `A` and to what is claimed. -/
def Follows (m : Mem) (A : Set ℕ) (run : DecodeState → Except Failure DecodeState)
    (bc bc' : BoundsChecker) : Prop :=
  ∀ st, Set.EqOn st.mem m (A ∪ Set.Ici bc.dataBegin) → InStep bc st →
    ∃ st', run st = .ok st' ∧ InStep bc' st' ∧
      Set.EqOn st'.mem st.mem (A ∪ Set.Ico bc.dataBegin bc'.dataBegin)ᶜ

section Follows

variable {m : Mem} {A B : Set ℕ} {run run' : DecodeState → Except Failure DecodeState}
  {bc bc₁ bc' : BoundsChecker}

theorem follows_ok (bc : BoundsChecker) : Follows m A .ok bc bc :=
  fun st _ hs => ⟨st, rfl, hs, fun _ _ => rfl⟩

theorem Follows.mono (h : Follows m A run bc bc') (hsub : A ⊆ B) : Follows m B run bc bc' := by
  intro st hm hs
  obtain ⟨st', hrun, hs', hframe⟩ := h st (hm.mono (union_subset_union_left _ hsub)) hs
  exact ⟨st', hrun, hs', hframe.mono (compl_subset_compl.mpr (union_subset_union_left _ hsub))⟩

/-- Two runs one after the other: the second finds what it needs because the first has
kept to its own bytes and to what was claimed meanwhile. -/
theorem Follows.bind (h : Follows m A run bc bc₁) (h' : Follows m B run' bc₁ bc')
    (hc : Claims bc bc₁)
    (hc' : Claims bc₁ bc') (hd : Disjoint A B) (hA : A ⊆ Set.Iio bc.dataBegin)
    (hB : B ⊆ Set.Iio bc.dataBegin) :
    Follows m (A ∪ B) (fun st => run st >>= run') bc bc' := by
  have hle := hc.dataBegin_le
  have hle' := hc'.dataBegin_le
  intro st hm hs
  obtain ⟨st₁, hrun, hs₁, hframe⟩ := h st (hm.mono (union_subset_union_left _ subset_union_left)) hs
  have hm₁ : Set.EqOn st₁.mem m (B ∪ Set.Ici bc₁.dataBegin) := by
    intro b hb
    have hout : b ∉ A ∪ Set.Ico bc.dataBegin bc₁.dataBegin := by
      rcases hb with hb | hb
      · have := hB hb
        simp only [mem_Iio] at this
        simp only [mem_union, mem_Ico, not_or]
        exact ⟨disjoint_right.mp hd hb, by omega⟩
      · simp only [mem_Ici] at hb
        simp only [mem_union, mem_Ico, not_or]
        refine ⟨fun hba => ?_, by omega⟩
        have := hA hba
        simp only [mem_Iio] at this
        omega
    rw [hframe hout]
    apply hm
    rcases hb with hb | hb
    · exact .inl (.inr hb)
    · exact .inr (hle.trans hb)
  obtain ⟨st', hrun', hs', hframe'⟩ := h' st₁ hm₁ hs₁
  refine ⟨st', by simp only [hrun, ok_bind, hrun'], hs', fun b hb => ?_⟩
  simp only [mem_compl_iff, mem_union, mem_Ico, not_or] at hb
  have hout' : b ∉ B ∪ Set.Ico bc₁.dataBegin bc'.dataBegin := by
    simp only [mem_union, mem_Ico, not_or]
    exact ⟨hb.1.2, by omega⟩
  have hout : b ∉ A ∪ Set.Ico bc.dataBegin bc₁.dataBegin := by
    simp only [mem_union, mem_Ico, not_or]
    exact ⟨hb.1.1, by omega⟩
  rw [hframe' hout', hframe hout]

theorem follows_forEach {validate : Slot → BoundsChecker → Except Failure BoundsChecker}
    {decode : DecodeSlot} {ss : List Slot}
    (hapart : ss.Pairwise fun s s' => Disjoint s.bytes s'.bytes)
    (hbefore : ∀ s ∈ ss, s.Before bc.dataBegin)
    (hclaims : ∀ s ∈ ss, ∀ bc bc', validate s bc = .ok bc' → Claims bc bc')
    (hstep : ∀ s ∈ ss, ∀ bc bc', s.Before bc.dataBegin → validate s bc = .ok bc' →
      Follows m s.bytes (decode s) bc bc')
    (h : forEach validate ss bc = .ok bc') :
    Follows m {b | ∃ s ∈ ss, b ∈ s.bytes} (forEach decode ss) bc bc' := by
  induction ss generalizing bc with
  | nil =>
    obtain rfl := Except.ok.inj h
    exact follows_ok bc
  | cons s ss ih =>
    obtain ⟨bc₁, h₁, h₂⟩ := bind_eq_ok.mp h
    obtain ⟨hhead, htail⟩ := List.pairwise_cons.mp hapart
    have hs := hbefore s (.head _)
    have hfirst := hstep s (.head _) bc bc₁ hs h₁
    have hclaim := hclaims s (.head _) bc bc₁ h₁
    have hclaims' := fun s' hs' => hclaims s' (.tail _ hs')
    have hrest := ih htail (fun s' hs' => (hbefore s' (.tail _ hs')).mono hclaim.dataBegin_le)
      hclaims' (fun s' hs' => hstep s' (.tail _ hs')) h₂
    have hbelow : ∀ s' ∈ s :: ss, s'.bytes ⊆ Set.Iio bc.dataBegin := by
      intro s' hs' b hb
      exact hb.2.trans_le (hbefore s' hs').2
    have hboth := hfirst.bind hrest hclaim (claims_forEach hclaims' h₂)
      (disjoint_right.mpr fun b ⟨s', hs', hb⟩ => disjoint_right.mp (hhead s' hs') hb)
      (hbelow s (.head _))
      (fun b ⟨s', hs', hb⟩ => hbelow s' (.tail _ hs') hb)
    refine hboth.mono ?_
    rintro b (hb | ⟨s', hs', hb⟩)
    · exact ⟨s, .head _, hb⟩
    · exact ⟨s', .tail _ hs', hb⟩

end Follows

variable {bc : BoundsChecker}

theorem InStep.of_mem (h : InStep bc st) (m : Mem) :
    InStep bc { st with mem := m } := ⟨h.entered, h.taken, h.handles⟩

theorem InStep.enter (h : InStep bc st) (t n : ℕ) :
    InStep (bc.claimed t n) { st with trace := st.trace ++ [.entered ⟨t, n⟩] } := by
  constructor
  · have := h.entered
    simp only [DecodeState.entered] at this ⊢
    simp only [List.filterMap_append, this, claimed]
    rfl
  · have := h.taken
    simp only [DecodeState.taken] at this ⊢
    simp only [List.filterMap_append, this, claimed]
    exact List.append_nil _
  · exact h.handles

variable {m : Mem} {bc' : BoundsChecker}

theorem follows_handle (hsize : 4 ≤ s.kind.size) (hbefore : s.Before bc.dataBegin)
    (h : validateHandle m nullable s.addr bc = .ok bc') :
    Follows m s.bytes (decodeHandle s.addr) bc bc' := by
  have hsub : span s.addr 4 ⊆ s.bytes := span_subset le_rfl (by omega)
  have hload : ∀ st : DecodeState, Set.EqOn st.mem m (s.bytes ∪ Set.Ici bc.dataBegin) →
      load st.mem s.addr 4 = load m s.addr 4 := fun st hm =>
    load_congr (hm.mono (hsub.trans subset_union_left))
  have hframe : ∀ (st : DecodeState) v bc', Set.EqOn (store st.mem s.addr 4 v) st.mem
      (s.bytes ∪ Set.Ico bc.dataBegin bc')ᶜ := fun st v bc' => store_eqOn
    (disjoint_left.mpr fun b hb hb' => hb (.inl (hsub hb')))
  intro st hm hs
  rcases claimHandle_eq_ok (validateHandle_eq_ok h) with ⟨hinv, rfl⟩ | ⟨hne, h₁, h₂, rfl⟩
  · refine ⟨{ st with mem := store st.mem s.addr 4 invalidHandle }, ?_, hs.of_mem _, hframe _ _ _⟩
    simp [decodeHandle, hload st hm, hinv]
  · have hlt : load m s.addr 4 < st.handles.length := h₂.trans_le hs.handles
    refine ⟨⟨store st.mem s.addr 4 (st.handles.getD (load m s.addr 4) invalidHandle),
      st.handles.set (load m s.addr 4) invalidHandle, st.trace ++ [.taken (load m s.addr 4)]⟩,
      ?_, ⟨?_, ?_, ?_⟩, hframe _ _ _⟩
    · simp [decodeHandle, hload st hm, hne, hlt]
    · have := hs.entered
      simp only [DecodeState.entered] at this ⊢
      simp only [List.filterMap_append, this, took]
      exact List.append_nil _
    · have := hs.taken
      simp only [DecodeState.taken] at this ⊢
      simp only [List.filterMap_append, this, took]
      rfl
    · simp only [List.length_set]
      exact hs.handles

variable {kind : Kind}

theorem objectSlots_congr {m' : Mem} (h : load m' (t + 4) 4 = load m (t + 4) 4) :
    objectSlots Γ m' kind t = objectSlots Γ m kind t := by
  cases kind <;> simp [objectSlots, unionSlots, h]

theorem objectExtent_of_isMember (h : kind.isMember) : objectExtent m kind t = ⟨t, load m t 4⟩ := by
  cases kind <;> first | rfl | cases h

theorem follows_object {rec : ValidateSlot} {decode : DecodeSlot}
    (hm : kind.isMember) (he : Entered Γ rec m kind t bc bc')
    (hclaims : ∀ s ∈ objectSlots Γ m kind t, ∀ error bc bc', rec error s bc = .ok bc' →
      Claims bc bc')
    (hstep : ∀ s ∈ objectSlots Γ m kind t, ∀ error bc bc', s.Before bc.dataBegin →
      rec error s bc = .ok bc' → Follows m s.bytes (decode s) bc bc') :
    Follows m ∅ (decodeObject Γ decode kind t) bc bc' := by
  obtain ⟨error, hmembers⟩ := he.members
  have hin : Follows m {b | ∃ s ∈ objectSlots Γ m kind t, b ∈ s.bytes}
      (forEach decode (objectSlots Γ m kind t)) (bc.claimed t (load m t 4)) bc' :=
    follows_forEach he.slots.apart (fun s hs => he.slots.before hs)
      (fun s hs => hclaims s hs error) (fun s hs bc bc' hb h => hstep s hs error bc bc' hb h)
        hmembers
  have hle : t + load m t 4 ≤ bc'.dataBegin := (he.claims hclaims).dataBegin_le
  have hbegin := he.begin
  intro st hst hs
  rw [empty_union] at hst
  have hw := loads_congr (hst.symm.mono fun b (hb : b ∈ span t 8) => hbegin.trans hb.1)
  have hs₁ : InStep (bc.claimed t (load m t 4))
      { st with trace := st.trace ++ [.entered ⟨t, load m t 4⟩] } := hs.enter t (load m t 4)
  have hst₁ : Set.EqOn st.mem m ({b | ∃ s ∈ objectSlots Γ m kind t, b ∈ s.bytes} ∪
      Set.Ici (bc.claimed t (load m t 4)).dataBegin) := by
    refine hst.mono ?_
    rintro b (⟨s, hs, hb⟩ | hb)
    · have h₁ : t + headerSize ≤ s.addr := (he.slots.inside s hs).1
      have h₂ := hb.1
      simp only [mem_Ici]
      omega
    · simp only [claimed, mem_Ici] at hb ⊢
      omega
  obtain ⟨st', hrun, hs', hkeep⟩ :=
    hin { st with trace := st.trace ++ [.entered ⟨t, load m t 4⟩] } hst₁ hs₁
  refine ⟨st', ?_, hs', hkeep.mono (compl_subset_compl.mpr ?_)⟩
  · rw [decodeObject, objectSlots_congr hw.2, objectExtent_of_isMember hm, hw.1]
    exact hrun
  · rintro b (⟨s, hs, hb⟩ | hb)
    · have h₁ : t + headerSize ≤ s.addr ∧ s.addr + s.kind.size ≤ t + load m t 4 :=
        he.slots.inside s hs
      have h₂ : s.addr ≤ b ∧ b < s.addr + s.kind.size := hb
      simp only [empty_union, mem_Ico]
      omega
    · simp only [claimed, mem_Ico] at hb
      simp only [empty_union, mem_Ico]
      omega

theorem follows_decodePointer {slot : ℕ} (bc : BoundsChecker) :
    Follows m (span slot 8) (fun st => .ok (decodePointer slot st)) bc bc :=
  fun _ _ hs => ⟨_, rfl, hs.of_mem _, store_eqOn (disjoint_left.mpr fun _ hb hb' => hb (.inl hb'))⟩

/-! ### Unions -/

/-- Decoding does not follow the member: it is plain, a null pointer or an invalid handle. -/
def LeadsNowhere (m : Mem) (s : Slot) : Prop :=
  s.kind.isPlain = true ∨ s.kind.isPointer = true ∧ target .onWire m s.addr = 0 ∨
    s.kind.isHandle = true ∧ load m s.addr 4 = encodedInvalidHandle

instance (m : Mem) (s : Slot) : Decidable (LeadsNowhere m s) :=
  inferInstanceAs (Decidable (_ ∨ _ ∨ _))

/-- Either validation has looked at what decoding will follow in the union at `u`, or
there is nothing to follow. -/
def SoundUnion (Γ : Types) (m : Mem) (name u : ℕ) : Prop :=
  match (Γ.union name).active (load m (u + 4) 4) with
  | none => True
  | some kind =>
    load m u 4 ≠ 0 ∧ kind.isValidatedInUnion = true ∨ LeadsNowhere m ⟨kind, u + 8, 0⟩

instance (Γ : Types) (m : Mem) (name u : ℕ) : Decidable (SoundUnion Γ m name u) := by
  unfold SoundUnion
  split <;> infer_instance

def SoundBelow (Γ : Types) (m : Mem) : ℕ → Slot → Prop
  | 0, _ => True
  | fuel + 1, s =>
    match s.kind with
    | .number _ | .bool | .handle _ | .interface _ => True
    | .union name _ =>
      SoundUnion Γ m name s.addr ∧ ∀ s' ∈ objectSlots Γ m s.kind s.addr, SoundBelow Γ m fuel s'
    | .string _ | .array _ _ _ | .map _ _ _ | .struct _ _ | .unionPointer _ _ =>
      target .onWire m s.addr ≠ 0 → ∀ s' ∈ objectSlots Γ m s.kind (target .onWire m s.addr),
        SoundBelow Γ m fuel s'

theorem follows_nothing (h : LeadsNowhere m s) (hbefore : s.Before bc.dataBegin) :
    Follows m s.bytes (decodeSlot Γ (fuel + 1) s) bc bc := by
  intro st hm hs
  rcases h with hplain | ⟨hp, ht⟩ | ⟨hh, hinv⟩
  · refine ⟨st, ?_, hs, fun _ _ => rfl⟩
    obtain ⟨kind, addr, bit⟩ := s
    cases kind <;> first | rfl | exact absurd hplain Bool.false_ne_true
  · have hbytes : s.bytes = span s.addr 8 := by rw [Slot.bytes, Kind.size_of_isPointer hp]
    rw [hbytes] at hm ⊢
    have htarget : target .onWire st.mem s.addr = 0 :=
      (target_congr (hm.symm.mono subset_union_left)).trans ht
    refine ⟨decodePointer s.addr st, ?_, hs.of_mem _, ?_⟩
    · rw [decodeSlot_pointer hp, load_decodePointer, htarget, if_pos rfl]
    · exact store_eqOn (disjoint_left.mpr fun b hb hb' => hb (.inl hb'))
  · have hv : validateHandle m true s.addr bc = .ok bc := by
      simp [validateHandle, claimHandle, hinv]
    rw [decodeSlot_handle hh]
    exact follows_handle (Kind.size_of_isHandle hh) hbefore hv st hm hs

theorem follows_pointer (hΓ : Γ.WellFormed) {nullUnion : ValidationError}
    (hp : s.kind.isPointer) (hm : s.kind.isMember)
    (hbefore : s.Before bc.dataBegin)
    (hrec : target .onWire m s.addr ≠ 0 → ∀ s' ∈ objectSlots Γ m s.kind (target .onWire m s.addr),
      ∀ error bc bc',
        s'.Before bc.dataBegin → validateSlot Γ m fuel error s' bc = .ok bc' →
        Follows m s'.bytes (decodeSlot Γ (fuel + 1) s') bc bc')
    (h : validateSlot Γ m (fuel + 1) nullUnion s bc = .ok bc') :
    Follows m s.bytes (decodeSlot Γ (fuel + 2) s) bc bc' := by
  rw [validateSlot_pointer hp hm] at h
  split_ifs at h
  by_cases ht : target .onWire m s.addr = 0
  · simp only [validateObject, ht, ↓reduceIte] at h
    cases h
    exact follows_nothing (.inr (.inl ⟨hp, ht⟩)) hbefore
  · have hentered := entered_of_validateObject hΓ hm hp ht h
    have hbytes : s.bytes = span s.addr 8 := by rw [Slot.bytes, Kind.size_of_isPointer hp]
    have hbelow : span s.addr 8 ⊆ Set.Iio bc.dataBegin := by
      rw [← hbytes]
      exact fun b hb => hb.2.trans_le hbefore.2
    have hclaims : ∀ s' ∈ objectSlots Γ m s.kind (target .onWire m s.addr), ∀ error bc bc',
        validateSlot Γ m fuel error s' bc = .ok bc' → Claims bc bc' := fun s' hs' error bc bc' h' =>
      validateSlot_claims hΓ (objectSlots_isMember hΓ hm hp s' hs') h'
    have hf := (follows_decodePointer bc).bind (follows_object hm hentered hclaims (hrec ht))
      (.refl bc) ((claims_claimed hentered.begin hentered.stop).trans (hentered.claims hclaims))
      (disjoint_empty _) hbelow (empty_subset _)
    rw [union_empty, ← hbytes] at hf
    intro st hst hs
    have htarget : target .onWire st.mem s.addr = target .onWire m s.addr :=
      target_congr (hst.symm.mono (hbytes ▸ subset_union_left))
    rw [decodeSlot_pointer hp, load_decodePointer, htarget, if_neg ht]
    exact hf st hst hs

theorem forEach_singleton {ε α σ : Type} (f : α → σ → Except ε σ) (a : α) (s : σ) :
    forEach f [a] s = f a s := by
  simp only [forEach]
  cases f a s <;> rfl

variable {name : ℕ}

theorem follows_unionSlots (hk : s.kind = .union name nullable)
    (h : Follows m s.bytes (forEach (decodeSlot Γ (fuel + 1)) (objectSlots Γ m s.kind s.addr))
      bc bc') : Follows m s.bytes (decodeSlot Γ (fuel + 2) s) bc bc' := by
  intro st hst hs
  have hw : load st.mem (s.addr + 4) 4 = load m (s.addr + 4) 4 := by
    refine load_congr (hst.mono fun b hb => .inl ?_)
    simp only [mem_span] at hb
    simp only [Slot.bytes, hk, Kind.size, mem_span]
    omega
  have hrun : decodeSlot Γ (fuel + 2) s st =
      forEach (decodeSlot Γ (fuel + 1)) (objectSlots Γ st.mem s.kind s.addr) st := by
    simp [decodeSlot, hk]
  rw [hrun, objectSlots_congr hw]
  exact h st hst hs

theorem follows_union (hΓ : Γ.WellFormed) (hk : s.kind = .union name nullable)
    (hbefore : s.Before bc.dataBegin) (hsound : SoundUnion Γ m name s.addr)
    (hrec : ∀ s' ∈ objectSlots Γ m s.kind s.addr, ∀ error, s'.Before bc.dataBegin →
      s'.kind.isMember → validateSlot Γ m fuel error s' bc = .ok bc' →
      Follows m s'.bytes (decodeSlot Γ (fuel + 1) s') bc bc')
    (h : validateUnion Γ (validateSlot Γ m fuel) m name s.addr true bc = .ok bc') :
    Follows m s.bytes (decodeSlot Γ (fuel + 2) s) bc bc' := by
  apply follows_unionSlots hk
  have hu : s.addr ≠ 0 := hbefore.1.ne'
  have hok := validateUnion_eq_ok hu h
  rw [SoundUnion] at hsound
  cases ha : (Γ.union name).active (load m (s.addr + 4) 4) with
  | none =>
    have hnil : objectSlots Γ m s.kind s.addr = [] := by
      simp [hk, objectSlots, unionSlots, ha]
    rcases hok with ⟨rfl, -⟩ | ⟨kind, hkind, -⟩
    · rw [hnil]
      exact follows_ok bc'
    · rw [ha] at hkind
      cases hkind
  | some kind =>
    simp only [ha] at hsound hok
    have hmember : kind.isUnionMember = true := hΓ.union name kind (List.mem_of_getElem? ha)
    have h8 := Kind.size_of_isUnionMember hmember
    have hbefore' : Slot.Before ⟨kind, s.addr + 8, 0⟩ bc.dataBegin := by
      have h₁ := hbefore.2
      rw [hk] at h₁
      simp only [Kind.size] at h₁
      exact ⟨Nat.succ_pos _, by change s.addr + 8 + kind.size ≤ _; omega⟩
    have hsub : Slot.bytes ⟨kind, s.addr + 8, 0⟩ ⊆ s.bytes := by
      simp only [Slot.bytes, hk]
      exact span_subset (by omega) (by change s.addr + 8 + kind.size ≤ s.addr + 16; omega)
    by_cases hplain : kind.isPlain = true
    · have hnil : objectSlots Γ m s.kind s.addr = [] := by
        simp [hk, objectSlots, unionSlots, ha, hplain]
      rcases hok with ⟨rfl, -⟩ | ⟨kind', hkind, -, hv, -⟩
      · rw [hnil]
        exact follows_ok bc'
      · cases hkind
        cases kind <;> simp_all [Kind.isPlain, Kind.isValidatedInUnion]
    · have hslots : objectSlots Γ m s.kind s.addr = [⟨kind, s.addr + 8, 0⟩] := by
        simp [hk, objectSlots, unionSlots, ha, hplain]
      rw [hslots] at hrec ⊢
      refine Follows.mono ?_ hsub
      simp only [funext (forEach_singleton _ _)]
      rcases hok with ⟨rfl, hno⟩ | ⟨kind', hkind, -, hv, hok⟩
      · rcases hsound with ⟨hne, hv⟩ | hnowhere
        · rcases hno with h0 | hno
          · exact absurd h0 hne
          · rw [hno kind rfl] at hv
            cases hv
        · exact follows_nothing hnowhere hbefore'
      · cases hkind
        exact hrec _ (.head _) _ hbefore' (isMember_of_active hΓ ha hv) hok

theorem follows_slot (hΓ : Γ.WellFormed) :
    ∀ {nullUnion : ValidationError} {s : Slot} {bc bc' : BoundsChecker},
      s.kind.isMember → s.Before bc.dataBegin → SoundBelow Γ m fuel s →
      validateSlot Γ m fuel nullUnion s bc = .ok bc' →
      Follows m s.bytes (decodeSlot Γ (fuel + 1) s) bc bc' := by
  induction fuel with
  | zero =>
    intro nullUnion s bc bc' hm hbefore hsound h
    cases h
  | succ fuel ih =>
    intro nullUnion s bc bc' hm hbefore hsound h
    by_cases hp : s.kind.isPointer = true
    · refine follows_pointer hΓ hp hm hbefore ?_ h
      intro ht s' hs' error bc bc' hb' h'
      refine ih (objectSlots_isMember hΓ hm hp s' hs') hb' ?_ h'
      obtain ⟨kind, addr, bit⟩ := s
      cases kind <;> first | exact hsound ht s' hs' | exact absurd hp Bool.false_ne_true
    by_cases hh : s.kind.isHandle = true
    · rw [validateSlot_handle hh] at h
      have hf := follows_handle (Kind.size_of_isHandle hh) hbefore h
      simpa [Follows, decodeSlot_handle hh] using hf
    cases hk : s.kind with
    | union name nullable =>
      rw [SoundBelow, hk] at hsound
      simp only [validateSlot, hk] at h
      split_ifs at h
      refine follows_union hΓ hk hbefore hsound.1 ?_ h
      intro s' hs' error hb' hm' h'
      exact ih hm' hb' (hsound.2 s' (hk ▸ hs')) h'
    | number _ | bool =>
      simp only [validateSlot, hk] at h
      cases h
      exact follows_nothing (.inl (by rw [hk]; rfl)) hbefore
    | unionPointer _ _ =>
      rw [hk] at hm
      cases hm
    | handle _ | interface _ =>
      rw [hk] at hh
      exact absurd rfl hh
    | string _ | array _ _ _ | map _ _ _ | struct _ _ =>
      rw [hk] at hp
      exact absurd rfl hp

/-! ### Whole messages -/

theorem soundBelow_of_unionFree (hfree : Γ.UnionFree) :
    ∀ {s : Slot}, s.kind.isUnionFree → SoundBelow Γ m fuel s := by
  induction fuel with
  | zero =>
    intro s hs
    trivial
  | succ fuel ih =>
    intro s hs
    obtain ⟨kind, addr, bit⟩ := s
    cases kind with
    | number _ | bool | handle _ | interface _ => trivial
    | string _ =>
      intro _ s' hs'
      cases hs'
    | array elem count nullable =>
      intro _ s' hs'
      simp only [objectSlots] at hs'
      split_ifs at hs' with hh
      · cases hs'
      · obtain ⟨i, -, rfl⟩ := List.mem_map.mp hs'
        exact ih (by cases elem <;> exact hs)
    | map key value nullable =>
      intro _ s' hs'
      simp only [Kind.isUnionFree, Bool.and_eq_true] at hs
      simp only [objectSlots, List.mem_cons, List.not_mem_nil, or_false] at hs'
      rcases hs' with rfl | rfl
      · exact ih hs.1
      · exact ih hs.2
    | struct name nullable =>
      intro _ s' hs'
      obtain ⟨f, hf, rfl⟩ := List.mem_map.mp hs'
      exact ih (hfree name f ((visibleFields_sublist _ _ _ _).subset hf))
    | union _ _ | unionPointer _ _ => cases hs

variable {data : ℕ}

theorem follows_struct (hΓ : Γ.WellFormed) (hdata : data ≠ 0)
    (hsound : ∀ s ∈ objectSlots Γ m (.struct name false) data, SoundBelow Γ m fuel s)
    (h : validateStruct Γ m fuel name data bc = .ok bc') :
    Follows m ∅ (decodeStruct Γ (fuel + 1) name data) bc bc' := by
  apply follows_object rfl (entered_of_validateObject hΓ rfl rfl hdata h)
    fun s' hs' error bc bc' h' => validateSlot_claims hΓ (objectSlots_isMember hΓ rfl rfl s' hs') h'
  intro s hs error bc bc' hb h
  exact follows_slot hΓ (objectSlots_isMember hΓ rfl rfl s hs) hb (hsound s hs) h

theorem validateStruct_claims (hΓ : Γ.WellFormed) (hdata : data ≠ 0)
    (h : validateStruct Γ m fuel name data bc = .ok bc') : Claims bc bc' := by
  have he := entered_of_validateObject hΓ rfl rfl hdata h
  exact (claims_claimed he.begin he.stop).trans (he.claims fun s hs error bc bc' h' =>
    validateSlot_claims hΓ (objectSlots_isMember hΓ rfl rfl s hs) h')

structure DecodedSafely (m : Mem) (data numBytes : ℕ) (handles : List ℕ) (bc : BoundsChecker)
    (st : DecodeState) : Prop where
  entered : st.entered = bc.memory
  apart : bc.memory.Pairwise fun e f => Disjoint e.bytes f.bytes
  inside : ∀ e ∈ bc.memory, data ≤ e.addr ∧ e.stop ≤ data + numBytes
  taken : st.taken = bc.handles
  inRange : ∀ index ∈ st.taken, index < handles.length
  once : st.taken.Nodup
  unchanged : Set.EqOn st.mem m (Set.Ico data (data + numBytes))ᶜ

theorem Follows.decodedSafely {run : DecodeState → Except Failure DecodeState} {numBytes : ℕ}
    {handles : List ℕ} (hc : Claims (.new data numBytes handles.length) bc)
    (h : Follows m ∅ run (.new data numBytes handles.length) bc) :
    ∃ st, run ⟨m, handles, []⟩ = .ok st ∧ DecodedSafely m data numBytes handles bc st := by
  have hstart : InStep (.new data numBytes handles.length) ⟨m, handles, []⟩ :=
    ⟨rfl, rfl, new_handleEnd_le _ _ _⟩
  obtain ⟨st, hrun, hs, hframe⟩ := h ⟨m, handles, []⟩ (fun _ _ => rfl) hstart
  have hend := new_dataEnd_le data numBytes handles.length
  have hstop := hc.inside (new_dataBegin_le _ _ _)
  have hhandles := hc.below (Nat.zero_le _)
  have hcount := new_handleEnd_le data numBytes handles.length
  obtain ⟨es, hes, hp⟩ := hc.memory
  obtain ⟨is, his, hq⟩ := hc.handles
  have hes' : bc.memory = es := hes
  have his' : bc.handles = is := his
  have hmem : ∀ i ∈ is, i + 1 ≤ bc.handleBegin := fun i hi =>
    (hq.mem (List.mem_map_of_mem hi)).2
  refine ⟨st, hrun, hs.entered, ?_, ?_, hs.taken, ?_, ?_, ?_⟩
  · rw [hes']
    exact hp.pairwise
  · rw [hes']
    intro e he
    have := hp.mem he
    exact ⟨this.1, by omega⟩
  · rw [hs.taken, his']
    intro i hi
    have := hmem i hi
    omega
  · rw [hs.taken, his']
    have hlt := hq.addr_lt (by simp)
    rw [List.map_map] at hlt
    have hid : List.map (Extent.addr ∘ fun i => ⟨i, 1⟩) is = is := List.map_id is
    rw [hid] at hlt
    exact hlt.imp fun hab => hab.ne
  · refine hframe.mono (compl_subset_compl.mpr ?_)
    rw [empty_union]
    exact Set.Ico_subset_Ico_right (hstop.trans hend)

/-- On types without unions, decoding a validated message enters only objects whose
memory was claimed and takes every handle at most once. -/
theorem decodeStruct_safe_of_validateStruct {Γ : Types} (hΓ : Γ.WellFormed) (hfree : Γ.UnionFree)
    {m : Mem} {fuel name data numBytes : ℕ} {handles : List ℕ} {bc : BoundsChecker}
    (hdata : data ≠ 0)
    (h : validateStruct Γ m fuel name data (.new data numBytes handles.length) = .ok bc) :
    ∃ st, decodeStruct Γ (fuel + 1) name data ⟨m, handles, []⟩ = .ok st ∧
      DecodedSafely m data numBytes handles bc st := by
  refine (follows_struct hΓ hdata ?_ h).decodedSafely (validateStruct_claims hΓ hdata h)
  intro s hs
  obtain ⟨f, hf, rfl⟩ := List.mem_map.mp hs
  exact soundBelow_of_unionFree hfree (hfree name f ((visibleFields_sublist _ _ _ _).subset hf))

def nodeTypes : Types where
  struct _ := ⟨[⟨0, 24⟩], [⟨.array (.handle false) 0 false, 0, 0, 0⟩, ⟨.struct 0 true, 8, 0, 0⟩]⟩
  union _ := ⟨[]⟩

def nodeMessage : Mem :=
  block 4096 (words [24, 0, 16, 0, 24, 0, 16, 2, 0, 1, 24, 0, 16, 0, 0, 0, 12, 1, 2])

theorem nodeTypes_wellFormed : nodeTypes.WellFormed where
  struct _ := .of_single (by decide) (by simp [Kind.isMember, Kind.size, headerSize])
    (by simp [Kind.size])
  union _ := by simp [nodeTypes]

theorem decodeStruct_safe_two_nodes :
    ∃ st, decodeStruct nodeTypes 5 0 4096 ⟨nodeMessage, [7, 8, 9], []⟩ = .ok st ∧
      DecodedSafely nodeMessage 4096 76 [7, 8, 9]
        ⟨4172, 4172, 3, 3, [⟨4096, 24⟩, ⟨4120, 16⟩, ⟨4136, 24⟩, ⟨4160, 12⟩], [0, 1, 2]⟩ st :=
  decodeStruct_safe_of_validateStruct nodeTypes_wellFormed
    (by intro i f hf; revert f; simp [nodeTypes, Kind.isUnionFree]) (by decide)
    (by decide +kernel)

end Mojo.CppBindings
