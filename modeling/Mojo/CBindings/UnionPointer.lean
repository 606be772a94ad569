import Mojo.CBindings.EncodeFold
import Mojo.CBindings.DecodeFold
import Mojo.CBindings.SerializedSize
import Mojo.CBindings.ValidateReads

/-!
# Unions out of line

A union inside a union is kept behind a pointer. Three dispatchers look through
the pointer to see whether there is a union, but then hand on the slot of the
pointer as if the union were there. What is taken for its tag is the upper half
of the slot, and what is taken for its field are the bytes behind the slot.
-/

namespace Mojo.CBindings

open Mojo.Memory
open List hiding Mem

variable {Γ : Descriptors} {m : Mem} {fuel i slot size : ℕ} {nullable : Bool}

/-- The size of a union out of line, if it were measured as the union it leads to. -/
def outOfLineSize (Γ : Descriptors) (m : Mem) (fuel i : ℕ) (nullable : Bool) (slot : ℕ) :
    Except Fault ℕ :=
  if load m slot 8 = 0 then .ok 0
  else do
    let s ← dispatchComputeSerializedSize Γ m fuel .union i nullable (load m slot 8)
    .ok (wrap64 (unionLayoutSize + s))

def outOfLineEncode (Γ : Descriptors) (fuel i : ℕ) (nullable : Bool) (slot size : ℕ)
    (st : EncodeState) : Except Fault EncodeState := do
  let u := load st.mem slot 8
  let st ← encodePointer slot size st
  if u = 0 then .ok st
  else dispatchEncode Γ fuel .union i nullable u (sub32 size (u - slot)) st

def outOfLineDecode (Γ : Descriptors) (numHandles fuel i : ℕ) (nullable : Bool) (slot size : ℕ)
    (st : DecodeState) : Except Fault DecodeState :=
  let st := decodePointer slot st
  let u := load st.mem slot 8
  if u = 0 then .ok st
  else dispatchDecode Γ numHandles fuel .union i nullable u (sub32 size (u - slot)) st

/-- A union out of line is processed like the same union inline: it adds to the
size what it should, the slots of the union it leads to are the ones encoded and
decoded, and decoding gives back the bytes that were encoded. -/
structure LikeInline (Γ : Descriptors) (m : Mem) (fuel i : ℕ) (nullable : Bool) (slot size : ℕ)
    (buffer : HandleBuffer) : Prop where
  measured : dispatchComputeSerializedSize Γ m fuel .unionPtr i nullable slot =
    outOfLineSize Γ m fuel i nullable slot
  coded : ∃ enc dec, dispatchEncode Γ fuel .unionPtr i nullable slot size ⟨m, buffer, []⟩ =
    .ok enc ∧ outOfLineEncode Γ fuel i nullable slot size ⟨m, buffer, []⟩ = .ok enc ∧
    dispatchDecode Γ enc.buffer.numHandlesUsed fuel .unionPtr i nullable slot size
      ⟨enc.mem, enc.buffer.handles, []⟩ = .ok dec ∧
    outOfLineDecode Γ enc.buffer.numHandlesUsed fuel i nullable slot size
      ⟨enc.mem, enc.buffer.handles, []⟩ = .ok dec ∧
    dec.mem = m

/-- A union out of line with its union behind the slot and inside the buffer. -/
structure OutOfLine (m : Mem) (nullable : Bool) (slot size : ℕ) : Prop where
  pos : slot ≠ 0
  short : size < 2 ^ 32
  stop : slot + size ≤ 2 ^ 64
  nonnull : nullable ∨ load m slot 8 ≠ 0
  behind : load m slot 8 ≠ 0 → slot + 8 ≤ load m slot 8
  inside : load m slot 8 ≠ 0 → load m slot 8 + unionLayoutSize ≤ slot + size

def Absent (m : Mem) (nullable : Bool) (slot : ℕ) : Prop :=
  nullable = true ∧ (load m slot 8 = 0 ∨ load m (load m slot 8) 4 = 0)

def Plain (d : TypeDescriptorUnion) (tag : ℕ) : Prop :=
  (d.entries.find? fun e => e.tag = tag).all fun e => e.elemType = .pod

instance (m : Mem) (nullable : Bool) (slot : ℕ) : Decidable (Absent m nullable slot) :=
  inferInstanceAs (Decidable (_ ∧ _))

instance (d : TypeDescriptorUnion) (tag : ℕ) : Decidable (Plain d tag) :=
  inferInstanceAs (Decidable (_ = true))

variable {t : ℕ}

def Grows {σ τ : Type} (trace : σ → List τ) (dispatch : Dispatch σ) : Prop :=
  ∀ type i nullable slot size st st',
    dispatch type i nullable slot size st = .ok st' → trace st <+: trace st'

namespace Grows

variable {σ τ : Type} {mem : σ → Mem} {trace : σ → List τ} {dispatch : Dispatch σ} {st st' : σ}

theorem entries (hd : Grows trace dispatch) (entries : List TypeDescriptorStructEntry)
    (h : forEntries mem dispatch t size entries st = .ok st') : trace st <+: trace st' := by
  induction entries generalizing st with
  | nil =>
    cases h
    exact prefix_rfl
  | cons e es ih =>
    rw [forEntries] at h
    split_ifs at h
    · exact ih h
    · obtain ⟨st₁, h₁, h₂⟩ := bind_eq_ok.mp h
      exact (hd _ _ _ _ _ _ _ h₁).trans (ih h₂)

theorem elements (hd : Grows trace dispatch) {d : TypeDescriptorArray} (is : List ℕ)
    (h : forElements dispatch d t size is st = .ok st') : trace st <+: trace st' := by
  induction is generalizing st with
  | nil =>
    cases h
    exact prefix_rfl
  | cons j js ih =>
    rw [forElements] at h
    split at h
    · cases h
    · split_ifs at h
      obtain ⟨st₁, h₁, h₂⟩ := bind_eq_ok.mp h
      exact (hd _ _ _ _ _ _ _ h₁).trans (ih h₂)

theorem active (hd : Grows trace dispatch) {u : ℕ} {entries : List TypeDescriptorUnionEntry}
    (h : visitActive mem dispatch u size entries st = .ok st') : trace st <+: trace st' := by
  simp only [visitActive] at h
  split at h
  · cases h
    exact prefix_rfl
  · split_ifs at h
    · cases h
      exact prefix_rfl
    · exact hd _ _ _ _ _ _ _ h

end Grows

section

variable {dispatch : Dispatch EncodeState} {st st' : EncodeState}

theorem structEncode_grows (hd : Grows EncodeState.trace dispatch) {d : TypeDescriptorStruct}
    (h : structEncode dispatch d t size st = .ok st') : st.trace <+: st'.trace := by
  simp only [structEncode] at h
  split_ifs at h
  exact hd.entries _ h

theorem arrayEncode_grows (hd : Grows EncodeState.trace dispatch) {d : TypeDescriptorArray}
    (h : arrayEncode dispatch d t size st = .ok st') : st.trace <+: st'.trace := by
  simp only [arrayEncode] at h
  split_ifs at h
  · cases h
    exact prefix_rfl
  · exact hd.elements _ h

theorem unionEncode_grows (hd : Grows EncodeState.trace dispatch) {d : TypeDescriptorUnion} {u : ℕ}
    (h : unionEncode dispatch d u size st = .ok st') : st.trace <+: st'.trace := by
  simp only [unionEncode, forActiveEntry_eq] at h
  split_ifs at h
  exact hd.active h

theorem encodePointer_trace (h : encodePointer slot size st = .ok st') :
    st'.trace = st.trace ++ [slot] := by
  simp only [encodePointer] at h
  split_ifs at h <;> cases h <;> rfl

theorem encodeHandle_trace (h : encodeHandle nullable slot st = .ok st') :
    st'.trace = st.trace ++ [slot] := by
  simp only [encodeHandle] at h
  split at h
  · cases h
  · split_ifs at h <;> cases h <;> rfl

end

theorem dispatchEncode_trace (Γ : Descriptors) (fuel : ℕ) (type : TypeDescriptorType) (i : ℕ)
    (nullable : Bool)
    (slot size : ℕ) (st st' : EncodeState)
    (h : dispatchEncode Γ fuel type i nullable slot size st = .ok st') :
    st.trace <+: st'.trace ∧ (type ≠ .union → st.trace ++ [slot] <+: st'.trace) := by
  induction fuel generalizing type i nullable slot size st st' with
  | zero => cases h
  | succ fuel ih =>
    have hgrows : Grows EncodeState.trace (dispatchEncode Γ fuel) :=
      fun _ _ _ _ _ _ _ h => (ih _ _ _ _ _ _ _ h).1
    have hfirst : ∀ st₁ : EncodeState, st₁.trace = st.trace ++ [slot] → st₁.trace <+: st'.trace →
        st.trace <+: st'.trace ∧ (type ≠ .union → st.trace ++ [slot] <+: st'.trace) := by
      intro st₁ h₁ h₂
      rw [h₁] at h₂
      exact ⟨(prefix_append _ _).trans h₂, fun _ => h₂⟩
    have hslot : slot ≠ 0 := by
      intro h0
      simp [dispatchEncode, h0] at h
    cases type with
    | structPtr | mapPtr | arrayPtr | unionPtr =>
      simp only [dispatchEncode, hslot, ↓reduceIte] at h
      obtain ⟨st₁, h₁, h₂⟩ := bind_eq_ok.mp h
      apply hfirst st₁ (encodePointer_trace h₁)
      split_ifs at h₂
      · first
        | exact structEncode_grows hgrows h₂
        | exact arrayEncode_grows hgrows h₂
        | exact unionEncode_grows hgrows h₂
      · cases h₂
        exact prefix_rfl
    | union =>
      refine ⟨?_, fun hne => absurd rfl hne⟩
      simp only [dispatchEncode, hslot, ↓reduceIte] at h
      split_ifs at h
      · exact unionEncode_grows hgrows h
      · cases h
        exact prefix_rfl
    | handle | interface =>
      simp only [dispatchEncode, hslot, ↓reduceIte] at h
      exact hfirst st' (encodeHandle_trace h) prefix_rfl
    | pod => simp [dispatchEncode, hslot] at h

section

variable {dispatch : Dispatch DecodeState} {st st' : DecodeState} {numHandles : ℕ}

theorem structDecode_grows (hd : Grows DecodeState.trace dispatch) {d : TypeDescriptorStruct}
    (h : structDecode dispatch d t size numHandles st = .ok st') : st.trace <+: st'.trace := by
  simp only [structDecode] at h
  split_ifs at h
  exact (prefix_append _ _).trans (hd.entries _ h)

theorem arrayDecode_grows (hd : Grows DecodeState.trace dispatch) {d : TypeDescriptorArray}
    (h : arrayDecode dispatch d t size numHandles st = .ok st') : st.trace <+: st'.trace := by
  simp only [arrayDecode] at h
  split_ifs at h
  · cases h
    exact prefix_append _ _
  · exact (prefix_append _ _).trans (hd.elements _ h)

theorem unionDecode_grows (hd : Grows DecodeState.trace dispatch) {d : TypeDescriptorUnion} {u : ℕ}
    (h : unionDecode dispatch d u size numHandles st = .ok st') : st.trace <+: st'.trace := by
  simp only [unionDecode, forActiveEntry_eq] at h
  split_ifs at h
  exact hd.active h

theorem ne_of_trace {e : DecodeEvent} (h : st.trace ++ [e] <+: st'.trace) : st' ≠ st := by
  intro heq
  have hlen := h.length_le
  rw [heq, length_append, length_singleton] at hlen
  omega

theorem decodeHandle_ne (h : decodeHandle slot numHandles st = .ok st') :
    st.trace <+: st'.trace ∧ st' ≠ st := by
  simp only [decodeHandle] at h
  split at h
  · cases h
  · split_ifs at h with hinv hidx
    · cases h
      refine ⟨prefix_rfl, fun heq => ?_⟩
      have hmem : store st.mem slot 4 handleInvalid = st.mem := congrArg DecodeState.mem heq
      have hload := load_store st.mem slot 4 handleInvalid
      rw [hmem, hinv] at hload
      exact absurd hload (by decide)
    · cases h
      exact ⟨prefix_append _ _, ne_of_trace prefix_rfl⟩

end

theorem dispatchDecode_ne (Γ : Descriptors) (numHandles fuel : ℕ) (type : TypeDescriptorType)
    (i : ℕ) (nullable : Bool)
    (slot size : ℕ) (st st' : DecodeState)
    (h : dispatchDecode Γ numHandles fuel type i nullable slot size st = .ok st')
    : st.trace <+: st'.trace ∧ (type ≠ .union → st' ≠ st) := by
  induction fuel generalizing type i nullable slot size st st' with
  | zero => cases h
  | succ fuel ih =>
    have hgrows : Grows DecodeState.trace (dispatchDecode Γ numHandles fuel) :=
      fun _ _ _ _ _ _ _ h => (ih _ _ _ _ _ _ _ h).1
    have hfirst : (decodePointer slot st).trace <+: st'.trace → st.trace <+: st'.trace ∧
        (type ≠ .union → st' ≠ st) :=
      fun h => ⟨(prefix_append _ _).trans h, fun _ => ne_of_trace h⟩
    have hslot : slot ≠ 0 := by
      intro h0
      simp [dispatchDecode, h0] at h
    cases type with
    | structPtr | mapPtr | arrayPtr | unionPtr =>
      simp only [dispatchDecode, hslot, ↓reduceIte] at h
      apply hfirst
      split_ifs at h
      · first
        | exact structDecode_grows hgrows h
        | exact arrayDecode_grows hgrows h
        | exact unionDecode_grows hgrows h
      · cases h
        exact prefix_rfl
    | union =>
      refine ⟨?_, fun hne => absurd rfl hne⟩
      simp only [dispatchDecode, hslot, ↓reduceIte] at h
      split_ifs at h
      · exact unionDecode_grows hgrows h
      · cases h
        exact prefix_rfl
    | handle | interface =>
      simp only [dispatchDecode, hslot, ↓reduceIte] at h
      exact ⟨(decodeHandle_ne h).1, fun _ => (decodeHandle_ne h).2⟩
    | pod => simp [dispatchDecode, hslot] at h

section

variable {d : TypeDescriptorUnion} {u numHandles : ℕ}

theorem not_plain {tag : ℕ} (h : ¬ Plain d tag) :
    ∃ e ∈ d.entries, (d.entries.find? fun e => e.tag = tag) = some e ∧ e.elemType ≠ .pod := by
  unfold Plain at h
  cases hfind : d.entries.find? fun e => e.tag = tag with
  | none => simp [hfind] at h
  | some e =>
    refine ⟨e, mem_of_find?_eq_some hfind, rfl, ?_⟩
    simpa [hfind] using h

theorem Plain.unionSize {dispatch : DispatchSize} (h : Plain d (load m (u + 4) 4)) :
    unionComputeSerializedSize dispatch m u d.entries = .ok 0 := by
  unfold Plain at h
  rw [unionComputeSerializedSize_eq]
  cases hfind : d.entries.find? fun e => e.tag = load m (u + 4) 4 with
  | none => rfl
  | some e =>
    have hpod : e.elemType = .pod := by simpa [hfind] using h
    simp [hpod, isPointer]

theorem Plain.visitActive {σ : Type} {mem : σ → Mem} {dispatch : Dispatch σ} {st : σ}
    (h : Plain d (load (mem st) (u + 4) 4)) :
    visitActive mem dispatch u size d.entries st = .ok st := by
  unfold Plain at h
  unfold CBindings.visitActive
  cases hfind : d.entries.find? fun e => e.tag = load (mem st) (u + 4) 4 with
  | none => rfl
  | some e =>
    have hpod : e.elemType = .pod := by simpa [hfind] using h
    simp [hpod]

variable {st : EncodeState}

theorem Plain.unionEncode {dispatch : Dispatch EncodeState} (h : Plain d (load st.mem (u + 4) 4))
    (hsize : unionLayoutSize ≤ size) : unionEncode dispatch d u size st = .ok st := by
  rw [CBindings.unionEncode, if_neg (Nat.not_lt.mpr hsize), forActiveEntry_eq, h.visitActive]

theorem Plain.unionDecode {dispatch : Dispatch DecodeState} {st : DecodeState}
    (h : Plain d (load st.mem (u + 4) 4)) (hsize : unionLayoutSize ≤ size)
    (hh : st.handles ≠ none) : unionDecode dispatch d u size numHandles st = .ok st := by
  rw [CBindings.unionDecode, if_neg (Nat.not_lt.mpr hsize), if_neg fun h => hh h.1,
    forActiveEntry_eq, h.visitActive]

theorem unionEncode_visits (hd : d.WellFormed) {st' : EncodeState}
    (h : ¬ Plain d (load st.mem (u + 4) 4))
    (hrun : unionEncode (dispatchEncode Γ fuel) d u size st = .ok st') :
    st.trace ++ [u + 8] <+: st'.trace := by
  obtain ⟨e, he, hfind, hpod⟩ := not_plain h
  simp only [unionEncode, forActiveEntry_eq, visitActive, hfind, hpod, ↓reduceIte] at hrun
  split_ifs at hrun
  exact (dispatchEncode_trace _ _ _ _ _ _ _ _ _ hrun).2 (hd.elem e he)

theorem unionDecode_visits (hd : d.WellFormed) {st st' : DecodeState}
    (h : ¬ Plain d (load st.mem (u + 4) 4))
    (hrun : unionDecode (dispatchDecode Γ numHandles fuel) d u size numHandles st = .ok st') :
    st' ≠ st := by
  obtain ⟨e, he, hfind, hpod⟩ := not_plain h
  simp only [unionDecode, forActiveEntry_eq, visitActive, hfind, hpod, ↓reduceIte] at hrun
  split_ifs at hrun
  exact (dispatchDecode_ne _ _ _ _ _ _ _ _ _ _ hrun).2 (hd.elem e he)

end

def encodedSlot (m : Mem) (slot : ℕ) : Mem := store m slot 8 (load m slot 8 - slot)

namespace OutOfLine

variable {buffer : HandleBuffer} {table : Option (List ℕ)} {numHandles : ℕ}

theorem encodePointer_eq (h : OutOfLine m nullable slot size) :
    encodePointer slot size ⟨m, buffer, []⟩ = .ok ⟨encodedSlot m slot, buffer, [slot]⟩ := by
  have hbehind := h.behind
  have hinside := h.inside
  simp only [unionLayoutSize] at hinside
  simp only [encodePointer, encodedSlot]
  by_cases hu : load m slot 8 = 0
  · simp only [hu, ↓reduceIte, Nat.zero_sub]
    rfl
  · rw [if_neg hu, if_neg (by have := hbehind hu; omega),
      if_neg (by have := hbehind hu; have := hinside hu; omega)]
    rfl

theorem decodePointer_eq (h : OutOfLine m nullable slot size) :
    decodePointer slot ⟨encodedSlot m slot, table, []⟩ =
      ⟨m, table, [.pointer slot (load m slot 8)]⟩ := by
  have hlt : load m slot 8 < 256 ^ 8 := load_lt m slot 8
  have hload : load (encodedSlot m slot) slot 8 = load m slot 8 - slot :=
    load_store_of_lt (by omega)
  have hptr : (if load m slot 8 - slot = 0 then 0 else wrap64 (slot + (load m slot 8 - slot))) =
      load m slot 8 := by
    by_cases hu : load m slot 8 = 0
    · simp [hu]
    · have := h.behind hu
      rw [if_neg (by omega), Nat.add_sub_cancel' (by omega), wrap64_of_lt hlt]
  simp only [decodePointer, hload, hptr, nil_append]
  rw [encodedSlot, store_store, store_load]

theorem encodedSlot_tag (h : OutOfLine m nullable slot size) :
    load (encodedSlot m slot) (slot + 4) 4 = 0 := by
  have hshort := h.short
  have hinside := h.inside
  simp only [unionLayoutSize] at hinside
  have hlt : load m slot 8 - slot < 2 ^ 32 := by
    by_cases hu : load m slot 8 = 0
    · omega
    · have := hinside hu
      omega
  have hload : load (encodedSlot m slot) slot 8 = load m slot 8 - slot :=
    load_store_of_lt (by omega)
  have hsplit := load_add (encodedSlot m slot) slot 4 4
  rw [hload] at hsplit
  omega

theorem load_encodedSlot (h : OutOfLine m nullable slot size) (hu : load m slot 8 ≠ 0) {k n : ℕ} :
    load (encodedSlot m slot) (load m slot 8 + k) n = load m (load m slot 8 + k) n := by
  have := h.behind hu
  exact load_store_of_disjoint (span_disjoint_of_le (by omega)).symm

section

variable (h : OutOfLine m nullable slot size) (hp : ¬ Absent m nullable slot)

include h hp

theorem present : load m slot 8 ≠ 0 ∧
    (nullable = false ∨ (load m slot 8 ≠ 0 ∧ load m (load m slot 8) 4 ≠ 0)) := by
  have hn := h.nonnull
  unfold Absent at hp
  cases nullable with
  | false => exact ⟨hn.resolve_left Bool.false_ne_true, Or.inl rfl⟩
  | true =>
    have hor := not_or.mp fun hor => hp ⟨rfl, hor⟩
    exact ⟨hor.1, Or.inr hor⟩

theorem dispatchEncode_eq : dispatchEncode Γ (fuel + 1) .unionPtr i nullable slot size
    ⟨m, buffer, []⟩ = unionEncode (dispatchEncode Γ fuel) (Γ.union i) slot size
      ⟨encodedSlot m slot, buffer, [slot]⟩ := by
  obtain ⟨hu, hcond⟩ := h.present hp
  have hload := h.load_encodedSlot hu (k := 0) (n := 4)
  simp only [Nat.add_zero] at hload
  simp [dispatchEncode, h.pos, h.encodePointer_eq, ok_bind, hload, hcond]

theorem outOfLineEncode_eq : outOfLineEncode Γ (fuel + 1) i nullable slot size ⟨m, buffer, []⟩ =
    unionEncode (dispatchEncode Γ fuel) (Γ.union i) (load m slot 8)
      (sub32 size (load m slot 8 - slot)) ⟨encodedSlot m slot, buffer, [slot]⟩ := by
  obtain ⟨hu, hcond⟩ := h.present hp
  have hload := h.load_encodedSlot hu (k := 0) (n := 4)
  simp only [Nat.add_zero] at hload
  have hcond' : nullable = false ∨ load m (load m slot 8) 4 ≠ 0 := hcond.imp id And.right
  simp [outOfLineEncode, h.encodePointer_eq, ok_bind, hu, dispatchEncode, hload, hcond']

theorem inside_lt : ¬ slot + size ≤ load m slot 8 := by
  have hin := h.inside (h.present hp).1
  simp only [unionLayoutSize] at hin
  omega

theorem dispatchDecode_eq : dispatchDecode Γ numHandles (fuel + 1) .unionPtr i nullable slot size
    ⟨encodedSlot m slot, table, []⟩ = unionDecode (dispatchDecode Γ numHandles fuel) (Γ.union i)
        slot size numHandles ⟨m, table, [.pointer slot (load m slot 8)]⟩ := by
  obtain ⟨hu, hcond⟩ := h.present hp
  simp [dispatchDecode, h.pos, h.decodePointer_eq, h.inside_lt hp, hcond]

theorem outOfLineDecode_eq :
    outOfLineDecode Γ numHandles (fuel + 1) i nullable slot size ⟨encodedSlot m slot, table, []⟩ =
      unionDecode (dispatchDecode Γ numHandles fuel) (Γ.union i) (load m slot 8)
        (sub32 size (load m slot 8 - slot)) numHandles
        ⟨m, table, [.pointer slot (load m slot 8)]⟩ := by
  obtain ⟨hu, hcond⟩ := h.present hp
  have hcond' : nullable = false ∨ load m (load m slot 8) 4 ≠ 0 := hcond.imp id And.right
  simp [outOfLineDecode, h.decodePointer_eq, hu, dispatchDecode, hcond']

theorem rooms : unionLayoutSize ≤ size ∧ unionLayoutSize ≤ sub32 size (load m slot 8 - slot) := by
  obtain ⟨hu, -⟩ := h.present hp
  have hb := h.behind hu
  have hin := h.inside hu
  have hs := h.short
  rw [sub32_of_le (by omega) hs]
  omega

theorem likeInline_of_plain (hh : buffer.handles ≠ none)
    (hu : Plain (Γ.union i) (load m (load m slot 8 + 4) 4))
    (h0 : Plain (Γ.union i) 0) (hs : Plain (Γ.union i) (load m (slot + 4) 4)) :
    LikeInline Γ m (fuel + 1) i nullable slot size buffer := by
  obtain ⟨hne, hcond⟩ := h.present hp
  obtain ⟨hroom, hroom'⟩ := h.rooms hp
  have hcond' : nullable = false ∨ load m (load m slot 8) 4 ≠ 0 := hcond.imp id And.right
  refine ⟨?_, ⟨encodedSlot m slot, buffer, [slot]⟩,
    ⟨m, buffer.handles, [.pointer slot (load m slot 8)]⟩, ?_, ?_, ?_, ?_, rfl⟩
  · simp [dispatchComputeSerializedSize, outOfLineSize, hne, hcond', hs.unionSize, hu.unionSize]
  · rw [h.dispatchEncode_eq hp]
    exact Plain.unionEncode (h.encodedSlot_tag ▸ h0) hroom
  · rw [h.outOfLineEncode_eq hp]
    exact Plain.unionEncode (h.load_encodedSlot hne ▸ hu) hroom'
  · rw [h.dispatchDecode_eq hp]
    exact Plain.unionDecode hs hroom hh
  · rw [h.outOfLineDecode_eq hp]
    exact Plain.unionDecode hu hroom' hh

theorem plain_of_likeInline (hΓ : Γ.WellFormed) (hh : buffer.handles ≠ none)
    (hlike : LikeInline Γ m (fuel + 1) i nullable slot size buffer) :
    Plain (Γ.union i) (load m (load m slot 8 + 4) 4) ∧ Plain (Γ.union i) 0 ∧
      Plain (Γ.union i) (load m (slot + 4) 4) := by
  obtain ⟨hne, -⟩ := h.present hp
  obtain ⟨hroom, hroom'⟩ := h.rooms hp
  have hbehind := h.behind hne
  obtain ⟨-, enc, dec, henc, henc', hdec, hdec', -⟩ := hlike
  rw [h.dispatchEncode_eq hp] at henc
  rw [h.outOfLineEncode_eq hp] at henc'
  have hd := hΓ.union i
  -- The trace shows at which place encoding went on.
  have hslot : ¬ Plain (Γ.union i) 0 → [slot] ++ [slot + 8] <+: enc.trace := fun h0 =>
    unionEncode_visits hd (h.encodedSlot_tag.symm ▸ h0) henc
  have hunion : ¬ Plain (Γ.union i) (load m (load m slot 8 + 4) 4) →
      [slot] ++ [load m slot 8 + 8] <+: enc.trace := fun hu =>
    unionEncode_visits hd ((h.load_encodedSlot hne).symm ▸ hu) henc'
  have hstay : Plain (Γ.union i) 0 → enc = ⟨encodedSlot m slot, buffer, [slot]⟩ := by
    intro h0
    rw [Plain.unionEncode (h.encodedSlot_tag.symm ▸ h0) hroom] at henc
    exact (Except.ok.inj henc).symm
  have hstay' : Plain (Γ.union i) (load m (load m slot 8 + 4) 4) →
      enc = ⟨encodedSlot m slot, buffer, [slot]⟩ := by
    intro hu
    rw [Plain.unionEncode ((h.load_encodedSlot hne).symm ▸ hu) hroom'] at henc'
    exact (Except.ok.inj henc').symm
  have hshort : ∀ a, enc = ⟨encodedSlot m slot, buffer, [slot]⟩ →
      ¬ [slot] ++ [a] <+: enc.trace := by
    intro a heq hpre
    have hlen := hpre.length_le
    simp [heq] at hlen
  have hu : Plain (Γ.union i) (load m (load m slot 8 + 4) 4) := by
    by_contra hu
    by_cases h0 : Plain (Γ.union i) 0
    · exact hshort _ (hstay h0) (hunion hu)
    · have hsame := prefix_of_prefix_length_le (hslot h0) (hunion hu) (by simp)
      have := hsame.eq_of_length (by simp)
      simp at this
      omega
  have h0 : Plain (Γ.union i) 0 := by
    by_contra h0
    exact hshort _ (hstay' hu) (hslot h0)
  refine ⟨hu, h0, ?_⟩
  obtain rfl := hstay h0
  rw [h.dispatchDecode_eq hp] at hdec
  rw [h.outOfLineDecode_eq hp, Plain.unionDecode hu hroom' hh] at hdec'
  by_contra hs
  exact unionDecode_visits hd hs hdec (Except.ok.inj hdec').symm

end

theorem likeInline_of_absent (h : OutOfLine m nullable slot size) (hp : Absent m nullable slot) :
    LikeInline Γ m (fuel + 1) i nullable slot size buffer := by
  obtain ⟨rfl, hor⟩ := hp
  have hcond : ¬ (load m slot 8 ≠ 0 ∧ load m (load m slot 8) 4 ≠ 0) := by tauto
  have hpos := h.pos
  by_cases hu : load m slot 8 = 0
  · refine ⟨?_, ⟨encodedSlot m slot, buffer, [slot]⟩,
    ⟨m, buffer.handles, [.pointer slot (load m slot 8)]⟩, ?_, ?_, ?_, ?_, rfl⟩
    · simp [dispatchComputeSerializedSize, outOfLineSize, hu]
    · simp [dispatchEncode, hpos, h.encodePointer_eq, hu]
    · simp [outOfLineEncode, h.encodePointer_eq, hu]
    · simp [dispatchDecode, hpos, h.decodePointer_eq, hu]
    · simp [outOfLineDecode, h.decodePointer_eq, hu]
  · have hz : load m (load m slot 8) 4 = 0 := hor.resolve_left hu
    have hload := h.load_encodedSlot hu (k := 0) (n := 4)
    simp only [Nat.add_zero, hz] at hload
    have hin := h.inside hu
    simp only [unionLayoutSize] at hin
    have hlt : ¬ slot + size ≤ load m slot 8 := by omega
    refine ⟨?_, ⟨encodedSlot m slot, buffer, [slot]⟩,
    ⟨m, buffer.handles, [.pointer slot (load m slot 8)]⟩, ?_, ?_, ?_, ?_, rfl⟩
    · simp [dispatchComputeSerializedSize, outOfLineSize, hu, hz, wrap64, unionLayoutSize]
    · simp [dispatchEncode, hpos, h.encodePointer_eq, hload]
    · simp [outOfLineEncode, h.encodePointer_eq, hu, dispatchEncode, hload]
    · simp [dispatchDecode, hpos, h.decodePointer_eq, hz, hlt]
    · simp [outOfLineDecode, h.decodePointer_eq, hu, dispatchDecode, hz]

end OutOfLine

/-- A union out of line is processed like the same union inline just when there
is nothing to process: no union, or one whose field is plain data and whose
type has plain data under both tags that the slot is misread as, zero in its
encoded and the upper half of the pointer in its decoded form. -/
theorem likeInline_iff {Γ : Descriptors} (hΓ : Γ.WellFormed) (m : Mem) (fuel i slot size : ℕ)
    (nullable : Bool)
    (buffer : HandleBuffer) (hh : buffer.handles ≠ none) (h : OutOfLine m nullable slot size) :
    LikeInline Γ m (fuel + 1) i nullable slot size buffer ↔ Absent m nullable slot ∨
      Plain (Γ.union i) (load m (load m slot 8 + 4) 4) ∧ Plain (Γ.union i) 0 ∧
        Plain (Γ.union i) (load m (slot + 4) 4) := by
  by_cases hp : Absent m nullable slot
  · exact iff_of_true (h.likeInline_of_absent hp) (Or.inl hp)
  · rw [or_iff_right hp]
    exact ⟨h.plain_of_likeInline hp hΓ hh, fun hplain =>
      h.likeInline_of_plain hp hh hplain.1 hplain.2.1 hplain.2.2⟩

theorem likeInline_unknown_tag : LikeInline nodeDescriptors (block 8 (words [16, 0, 16, 5, 9, 0]))
      1 0 false 8 24 ⟨some [], 0, 0⟩ :=
  (likeInline_iff nodeDescriptors_wellFormed _ 0 0 8 24 false ⟨some [], 0, 0⟩
    (Option.some_ne_none []) ⟨by decide, by decide, by decide, by decide +kernel,
      by decide +kernel, by decide +kernel⟩).mpr (Or.inr (by decide +kernel))

/-- A struct with a union whose field is a union out of line, which holds the handle 7. -/
def holderInMemory : Mem := block 8 (words [24, 0, 16, 0, 32, 0, 16, 0, 7, 0])

theorem holderInMemory_outOfLine : OutOfLine holderInMemory true 24 24 where
  pos := by decide
  short := by decide
  stop := by decide
  nonnull := by decide
  behind := by decide +kernel
  inside := by decide +kernel

/-- Encoding the struct moves the size of the inner union, 16, as if it were a
handle, overwrites it, and leaves the handle 7 in the bytes. -/
theorem encode_moves_size_for_handle :
    (structEncode (dispatchEncode holderDescriptors 3) (holderDescriptors.struct 0) 8 40
      ⟨holderInMemory, ⟨some [0], 1, 0⟩, []⟩).toOption.map
        (fun st => (st.buffer.handles, load st.mem 32 4, load st.mem 40 4)) =
      some (some [16], 0, 7) ∧
    ¬ LikeInline holderDescriptors holderInMemory 2 1 true 24 24 ⟨some [0], 1, 0⟩ := by
  refine ⟨by decide +kernel, fun hlike => ?_⟩
  have hplain := holderInMemory_outOfLine.plain_of_likeInline (by decide +kernel)
    holderDescriptors_wellFormed (Option.some_ne_none [0]) hlike
  exact absurd hplain.2.1 (by decide)

end Mojo.CBindings
