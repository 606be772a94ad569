import Mojo.CBindings.Validate
import Mojo.CBindings.ObjectGraph

/-!
# Validation over the places of a value

A run of `MojomType_DispatchValidate` that ends without an error is a check of
the place it is called at (`Admits`) followed by the runs at the places this
one leads to (`Passes`). One lemma for each function reads its success this
way; what validation means is then stated over places alone.
-/

namespace Mojo.CBindings

open Mojo.Memory Traced

variable {s t : ℕ} {nullable : Bool} {dispatch : DispatchValidate} {d : TypeDescriptorArray}
  {p : Place}

/-- The runs of `dispatch` at the places, one after another, all end without an error. -/
def Passes (dispatch : DispatchValidate) (lim : ℕ) :
    List Place → ValidationContext → ValidationContext → Prop
  | [], ctx, ctx' => ctx = ctx'
  | q :: qs, ctx, ctx' => ∃ c,
      (dispatch q.1.type q.1.desc q.1.nullable q.2 (lim - q.2) ctx).value = some (.errorNone, c) ∧
      Passes dispatch lim qs c ctx'

abbrev PassesAt (dispatch : DispatchValidate) (lim : ℕ) (p : Place) (ctx ctx' : ValidationContext) :
    Prop :=
  (dispatch p.1.type p.1.desc p.1.nullable p.2 (lim - p.2) ctx).value = some (.errorNone, ctx')

def sizeOk (m : Mem) (t : ℕ) (versions : List TypeDescriptorStructVersion) : Prop :=
  if load m (t + 4) 4 = (seekLast versions (load m (t + 4) 4)).version then
    load m t 4 = (seekLast versions (load m (t + 4) 4)).numBytes
  else (seekLast versions (load m (t + 4) 4)).numBytes ≤ load m t 4

instance (m : Mem) (t : ℕ) (versions : List TypeDescriptorStructVersion) :
    Decidable (sizeOk m t versions) := by
  unfold sizeOk
  infer_instance

structure StructHeaderOk (d : TypeDescriptorStruct) (m : Mem) (t size : ℕ) : Prop where
  room : headerSize ≤ size
  inside : load m t 4 ≤ size
  version : sizeOk m t d.versions
  rounded : load m t 4 % 8 = 0

structure ArrayHeaderOk (d : TypeDescriptorArray) (m : Mem) (t size : ℕ) : Prop where
  room : headerSize ≤ size
  header : headerSize ≤ load m t 4
  inside : load m t 4 ≤ size
  count : d.numElements = 0 ∨ load m (t + 4) 4 = d.numElements
  elements : headerSize + bitsToBytes (d.elemNumBits * load m (t + 4) 4) ≤ load m t 4

/-- The two arrays of a map, found through their offsets, have as many elements. -/
def sameLength (m : Mem) (t : ℕ) : Prop :=
  load m (wrap64 (t + 8 + load m (t + 8) 8) + 4) 4 =
    load m (wrap64 (t + 16 + load m (t + 16) 8) + 4) 4

def HeaderOk (Γ : Descriptors) (k : Elem) (m : Mem) (t size : ℕ) : Prop :=
  match k.type with
  | .structPtr => StructHeaderOk (Γ.struct k.desc) m t size
  | .mapPtr => StructHeaderOk (Γ.struct k.desc) m t size ∧ sameLength m t
  | .arrayPtr => ArrayHeaderOk (Γ.array k.desc) m t size
  | _ => False

structure AdmitsObject (Γ : Descriptors) (m : Mem) (lim : ℕ) (p : Place)
    (ctx : ValidationContext) : Prop where
  near : load m p.2 8 ≤ lim - p.2
  small : load m p.2 8 ≤ uint32Max
  aligned : load m p.2 8 % 8 = 0
  ne_zero : target .onWire m p.2 ≠ 0
  behind : ctx.nextPointer ≤ target .onWire m p.2
  header : HeaderOk Γ p.1 m (target .onWire m p.2) (lim - target .onWire m p.2)

abbrev PassesObject (Γ : Descriptors) (m : Mem) (lim numHandles n : ℕ) (p : Place)
    (ctx ctx' : ValidationContext) : Prop :=
  if load m p.2 8 = 0 then p.1.nullable = true ∧ ctx = ctx'
  else AdmitsObject Γ m lim p ctx ∧
    Passes (dispatchValidate Γ m numHandles n) lim ((scheme Γ .onWire).kids m p)
    { ctx with nextPointer := target .onWire m p.2 + load m (target .onWire m p.2) 4 } ctx'

variable {Γ : Descriptors} {m : Mem} {lim numHandles n : ℕ} {ctx ctx' : ValidationContext}

theorem validatePointer_none_iff {max : ℕ} :
    (validatePointer m s max nullable ctx).value = some (.errorNone, ctx') ↔
      load m s 8 ≤ max ∧ load m s 8 ≤ uint32Max ∧ load m s 8 % 8 = 0 ∧
      if load m s 8 = 0 then nullable ∧ ctx = ctx'
      else ctx.nextPointer ≤ wrap64 (s + load m s 8) ∧
        { ctx with nextPointer := wrap64 (s + load m s 8) } = ctx' := by
  simp only [validatePointer, value_bind, value_fetch, Option.bind_some]
  by_cases h₁ : max < load m s 8 ∨ uint32Max < load m s 8
  · have h₁' : ¬ (load m s 8 ≤ max ∧ load m s 8 ≤ uint32Max) := by omega
    simp only [h₁, ↓reduceIte, value_pure, ← and_assoc, h₁', false_and]
    simp
  · obtain ⟨h₂, h₃⟩ : load m s 8 ≤ max ∧ load m s 8 ≤ uint32Max := by omega
    by_cases h0 : load m s 8 = 0
    · cases nullable <;> simp [h0]
    · by_cases hb : ctx.nextPointer ≤ wrap64 (s + load m s 8)
      · by_cases ha : load m s 8 % 8 = 0 <;> simp [h₁, h₂, h₃, h0, hb, ha, Nat.not_lt.mpr hb]
      · simp [h₁, h0, hb, Nat.lt_of_not_ge hb]

theorem validateHandle_none_iff {index : ℕ} :
    validateHandle index numHandles nullable ctx = (.errorNone, ctx') ↔
      if index = encodedHandleInvalid then nullable ∧ ctx = ctx'
      else index < numHandles ∧ ctx.nextHandleIndex ≤ index ∧
        { ctx with nextHandleIndex := index + 1 } = ctx' := by
  simp only [validateHandle]
  by_cases hi : index = encodedHandleInvalid
  · cases nullable <;> simp [hi]
  · by_cases hb : numHandles ≤ index ∨ index < ctx.nextHandleIndex
    · have hb' : ¬ (index < numHandles ∧ ctx.nextHandleIndex ≤ index) := by omega
      simp only [hi, and_false, ↓reduceIte, hb, ← and_assoc, hb', false_and]
      simp
    · have hb' : index < numHandles ∧ ctx.nextHandleIndex ≤ index := by omega
      simp [hi, hb, hb']

theorem bind_none_iff {f : Verdict → Traced Event Verdict} (x : Traced Event Verdict)
    (hf : ∀ result c, result ≠ .errorNone → (f (result, c)).value = some (.errorNone, ctx') →
      False) :
    (x >>= f).value = some (.errorNone, ctx') ↔
      ∃ c, x.value = some (.errorNone, c) ∧ (f (.errorNone, c)).value =
        some (.errorNone, ctx') := by
  simp only [value_bind, Option.bind_eq_some_iff]
  constructor
  · intro h
    obtain ⟨⟨result, c⟩, hx, h⟩ := h
    by_cases hr : result = .errorNone
    · exact ⟨c, hr ▸ hx, hr ▸ h⟩
    · exact (hf result c hr h).elim
  · intro h
    obtain ⟨c, hx, h⟩ := h
    exact ⟨(.errorNone, c), hx, h⟩

theorem next_none_iff (x : Traced Event Verdict)
    (k : ValidationResult → ValidationContext → Traced Event Verdict) :
    (x >>= fun v => if v.1 ≠ .errorNone then pure (v.1, v.2) else k v.1 v.2).value =
      some (.errorNone, ctx') ↔
      ∃ c, x.value = some (.errorNone, c) ∧ (k .errorNone c).value = some (.errorNone, ctx') :=
  bind_none_iff x fun result c hr h => by simp [hr] at h

theorem structValidateEntries_none_iff (hlim : lim - t < 2 ^ 32)
    (entries : List TypeDescriptorStructEntry) (hroom : ∀ q ∈ entryKids m t entries, q.2 ≤ lim) :
    (structValidateEntries dispatch m t (lim - t) entries ctx).value = some (.errorNone, ctx') ↔
      Passes dispatch lim (entryKids m t entries) ctx ctx' := by
  induction entries generalizing ctx with
  | nil => simp [structValidateEntries, entryKids, Passes]
  | cons e es ih =>
    simp only [structValidateEntries, value_bind, value_fetch, Option.bind_some]
    by_cases hact : e.minVersion ≤ load m (t + 4) 4
    · rw [entryKids_of_le hact] at hroom ⊢
      have hr : t + headerSize + e.offset ≤ lim := hroom _ (.head _)
      rw [if_neg (Nat.not_lt.mpr hact), sub32_sub hlim (by omega) hr]
      refine (next_none_iff _ fun _ c => structValidateEntries dispatch m t (lim - t) es c).trans ?_
      simp [ih fun q hq => hroom q (.tail _ hq), Passes, TypeDescriptorStructEntry.elem]
    · rw [entryKids_of_not_le hact] at hroom ⊢
      simp only [Nat.lt_of_not_ge hact, ↓reduceIte]
      exact ih hroom

theorem arrayValidateElements_none_iff (hlim : lim - t < 2 ^ 32)
    (helem : d.elemType ≠ .unionPtr ∧ d.elemType ≠ .pod)
    (is : List ℕ) (hroom : ∀ q ∈ elementKids d t is, q.2 ≤ lim) :
    (arrayValidateElements dispatch d t (lim - t) is ctx).value = some (.errorNone, ctx') ↔
      Passes dispatch lim (elementKids d t is) ctx ctx' := by
  induction is generalizing ctx with
  | nil => simp [arrayValidateElements, elementKids, Passes]
  | cons i is ih =>
    rw [elementKids_cons] at hroom ⊢
    have hr : t + headerSize + slotSize d.elemType * i ≤ lim := hroom _ (.head _)
    simp only [arrayValidateElements, arrayIndexByType_eq helem]
    rw [sub32_sub hlim (by omega) hr]
    refine (next_none_iff _ fun _ c => arrayValidateElements dispatch d t (lim - t) is c).trans ?_
    simp [ih fun q hq => hroom q (.tail _ hq), Passes, TypeDescriptorArray.elem]

theorem value_isValidSizeForVersion (t : ℕ) (versions : List TypeDescriptorStructVersion) :
    (isValidSizeForVersion m t versions).value = some (decide (sizeOk m t versions)) := by
  simp only [isValidSizeForVersion, value_bind, value_fetch, Option.bind_some, value_pure, sizeOk]
  split_ifs <;> rfl

variable {size : ℕ}

theorem structValidate_none_iff {d : TypeDescriptorStruct} :
    (structValidate dispatch m d t size ctx).value = some (.errorNone, ctx') ↔
      t ≠ 0 ∧ StructHeaderOk d m t size ∧ (structValidateEntries dispatch m t size d.entries
        { ctx with nextPointer := t + load m t 4 }).value = some (.errorNone, ctx') := by
  simp only [structValidate, value_bind, value_note, Option.bind_some]
  by_cases ht : t = 0
  · simp [ht]
  by_cases hroom : size < headerSize
  · have hno : ¬ StructHeaderOk d m t size := fun h => absurd h.room (by omega)
    simp [ht, hroom, hno]
  by_cases hin : size < load m t 4
  · have hno : ¬ StructHeaderOk d m t size := fun h => absurd h.inside (by omega)
    simp [ht, hroom, hin, hno]
  by_cases hver : sizeOk m t d.versions
  · by_cases hr : load m t 4 % 8 = 0
    · have hok : StructHeaderOk d m t size := ⟨by omega, by omega, hver, hr⟩
      simp [ht, hroom, hin, hver, hr, hok, value_isValidSizeForVersion]
    · have hno : ¬ StructHeaderOk d m t size := fun h => hr h.rounded
      simp [ht, hroom, hin, hver, hr, hno, value_isValidSizeForVersion]
  · have hno : ¬ StructHeaderOk d m t size := fun h => hver h.version
    simp [ht, hroom, hin, hver, hno, value_isValidSizeForVersion]

theorem validateArrayHeader_none_iff :
    (validateArrayHeader m d t size).value = some .errorNone ↔ ArrayHeaderOk d m t size := by
  simp only [validateArrayHeader]
  constructor
  · intro h
    by_cases h₁ : size < headerSize
    · simp [h₁] at h
    by_cases h₂ : load m t 4 < headerSize
    · simp [h₁, h₂] at h
    by_cases h₃ : size < load m t 4
    · simp [h₁, h₂, h₃] at h
    by_cases h₄ : d.numElements ≠ 0 ∧ load m (t + 4) 4 ≠ d.numElements
    · simp [h₁, h₂, h₃, h₄] at h
    by_cases h₅ : load m t 4 < headerSize + bitsToBytes (d.elemNumBits * load m (t + 4) 4)
    · simp [h₁, h₂, h₃, h₄, h₅] at h
    exact ⟨by omega, by omega, by omega, by omega, by omega⟩
  · intro h
    have h₁ := Nat.not_lt.mpr h.room
    have h₂ := Nat.not_lt.mpr h.header
    have h₃ := Nat.not_lt.mpr h.inside
    have h₄ : ¬ (d.numElements ≠ 0 ∧ load m (t + 4) 4 ≠ d.numElements) := by
      have := h.count
      omega
    have h₅ := Nat.not_lt.mpr h.elements
    simp [h₁, h₂, h₃, h₄, h₅]

theorem arrayValidate_none_iff :
    (arrayValidate dispatch m d t size ctx).value = some (.errorNone, ctx') ↔
      t ≠ 0 ∧ ArrayHeaderOk d m t size ∧
      if d.elemType = .pod then { ctx with nextPointer := t + load m t 4 } = ctx'
      else (arrayValidateElements dispatch d t size (List.range (load m (t + 4) 4))
        { ctx with nextPointer := t + load m t 4 }).value = some (.errorNone, ctx') := by
  rw [← validateArrayHeader_none_iff]
  simp only [arrayValidate, value_bind, value_note, Option.bind_some]
  by_cases ht : t = 0
  · simp [ht]
  cases hh : (validateArrayHeader m d t size).value with
  | none => simp [ht, hh]
  | some result =>
    by_cases hr : result = .errorNone
    · subst hr
      by_cases hp : d.elemType = .pod <;> simp [ht, hh, hp]
    · simp [ht, hh, hr]

theorem unionValidateEntries_value (dispatch : DispatchValidate) (nullable : Bool) (u size : ℕ)
    (entries : List TypeDescriptorUnionEntry) :
    (unionValidateEntries dispatch m nullable u size entries ctx).value =
      match entries.find? fun e => e.tag = load m (u + 4) 4 with
      | none => some (.errorNone, ctx)
      | some e =>
        if e.elemType = .pod then some (.errorNone, ctx)
        else if nullable = false ∧ load m u 4 ≠ unionLayoutSize then
          some (.unexpectedNullUnion, ctx)
        else (dispatch e.elemType e.elemDescriptor e.nullable (u + 8) (sub32 size 8)
          ctx).value := by
  refine scan_eq_find? (fun es => (unionValidateEntries dispatch m nullable u size es ctx).value)
    entries rfl
    fun e es => ?_
  simp only [unionValidateEntries, value_bind, value_fetch, Option.bind_some]
  split_ifs <;> simp_all

theorem mapValidate_none_iff :
    (mapValidate m t size ctx).value = some (.errorNone, ctx') ↔ sameLength m t ∧ ctx = ctx' := by
  simp only [mapValidate, sameLength, value_bind, value_note, value_fetch, Option.bind_some]
  split_ifs with h <;> simp_all

theorem sub32_target (hs : s ≤ lim) (hshort : lim - s < 2 ^ 32) (hlim : lim ≤ 2 ^ 64)
    (hoff : load m s 8 ≤ lim - s) (ht : target .onWire m s ≠ 0) :
    target .onWire m s = s + load m s 8 ∧ sub32 (lim - s) (load m s 8) =
      lim - target .onWire m s := by
  have htgt : target .onWire m s = s + load m s 8 := by
    simp only [target] at ht ⊢
    split_ifs at ht ⊢ with h0
    · exact absurd rfl ht
    · unfold wrap64 at ht ⊢
      omega
  refine ⟨htgt, ?_⟩
  rw [sub32_of_le hoff hshort, htgt]
  omega

theorem sizeOk.newest_le {d : TypeDescriptorStruct} (h : sizeOk m t d.versions) :
    (seekLast d.versions (load m (t + 4) 4)).numBytes ≤ load m t 4 := by
  unfold sizeOk at h
  split_ifs at h <;> omega

theorem StructHeaderOk.slots_inside {d : TypeDescriptorStruct} (hd : d.WellFormed)
    (h : StructHeaderOk d m t size) :
    headerSize ≤ load m t 4 ∧ ∀ e ∈ d.entries, e.minVersion ≤ load m (t + 4) 4 →
        headerSize + e.offset + slotSize e.elemType ≤ load m t 4 := by
  have hnew := hd.newest_seekLast (load m (t + 4) 4)
  have hle := h.version.newest_le
  refine ⟨(hd.header _ hnew.1).trans hle, ?_⟩
  intro e he hv
  exact (hd.inside e he _ _ hv hnew).trans hle

theorem ArrayHeaderOk.slots_inside (hd : d.WellFormed) (h : ArrayHeaderOk d m t size)
    (hp : d.elemType ≠ .pod) :
    headerSize + slotSize d.elemType * load m (t + 4) 4 ≤ load m t 4 := by
  have hle := h.elements
  rw [hd.bits hp, bitsToBytes, Nat.mul_assoc] at hle
  omega

theorem followPointer_none_iff {max : ℕ} (k : ℕ → ValidationContext → Traced Event Verdict) :
    (followPointer m s max nullable ctx k).value = some (.errorNone, ctx') ↔
      if load m s 8 = 0 then nullable ∧ ctx = ctx'
      else load m s 8 ≤ max ∧ load m s 8 ≤ uint32Max ∧ load m s 8 % 8 = 0 ∧ ctx.nextPointer ≤
        wrap64 (s + load m s 8) ∧
        (k (load m s 8) { ctx with nextPointer := wrap64 (s + load m s 8) }).value =
        some (.errorNone, ctx') := by
  unfold followPointer
  refine (next_none_iff _ fun result c => fetch m s 8 >>= fun offset =>
    if offset = 0 then pure (result, c) else k offset c).trans ?_
  simp only [validatePointer_none_iff, value_bind, value_fetch, Option.bind_some]
  by_cases h0 : load m s 8 = 0
  · simp only [h0, ↓reduceIte, value_pure, Option.some.injEq, Prod.mk.injEq, true_and]
    simp
  · simp only [h0, ↓reduceIte]
    constructor
    · intro h
      obtain ⟨c, ⟨h₁, h₂, h₃, h₄, rfl⟩, hk⟩ := h
      exact ⟨h₁, h₂, h₃, h₄, hk⟩
    · intro h
      obtain ⟨h₁, h₂, h₃, h₄, hk⟩ := h
      exact ⟨_, ⟨h₁, h₂, h₃, h₄, rfl⟩, hk⟩

theorem followObject_none_iff {k : ℕ → ValidationContext → Traced Event Verdict}
    {R : ValidationContext → Prop} (hle : p.2 ≤ lim) (hshort : lim - p.2 < 2 ^ 32)
    (hlim : lim ≤ 2 ^ 64)
    (hk : ∀ c, wrap64 (p.2 + load m p.2 8) = target .onWire m p.2 →
      (target .onWire m p.2 ≠ 0 → p.2 < target .onWire m p.2 ∧ target .onWire m p.2 ≤ lim ∧
        sub32 (lim - p.2) (load m p.2 8) = lim - target .onWire m p.2) →
      ((k (load m p.2 8) c).value = some (.errorNone, ctx') ↔ target .onWire m p.2 ≠ 0 ∧
        HeaderOk Γ p.1 m (target .onWire m p.2) (lim - target .onWire m p.2) ∧
        R { c with nextPointer := target .onWire m p.2 + load m (target .onWire m p.2) 4 })) :
    (followPointer m p.2 (lim - p.2) p.1.nullable ctx k).value = some (.errorNone, ctx') ↔
      if load m p.2 8 = 0 then p.1.nullable ∧ ctx = ctx'
      else AdmitsObject Γ m lim p ctx ∧
        R { ctx with nextPointer := target .onWire m p.2 + load m (target .onWire m p.2) 4 } := by
  rw [followPointer_none_iff]
  by_cases h0 : load m p.2 8 = 0
  · simp [h0]
  · have htgt : target .onWire m p.2 = wrap64 (p.2 + load m p.2 8) := by
      simp [target, h0]
    have hreach : load m p.2 8 ≤ lim - p.2 → target .onWire m p.2 ≠ 0 →
        p.2 < target .onWire m p.2 ∧ target .onWire m p.2 ≤ lim ∧
        sub32 (lim - p.2) (load m p.2 8) = lim - target .onWire m p.2 := by
      intro hoff ht
      obtain ⟨e₁, e₂⟩ := sub32_target hle hshort hlim hoff ht
      exact ⟨by omega, by omega, e₂⟩
    simp only [h0, ↓reduceIte]
    constructor
    · intro h
      obtain ⟨h₁, h₂, h₃, h₄, hkv⟩ := h
      obtain ⟨ht, hh, hR⟩ := (hk _ htgt.symm (hreach h₁)).mp hkv
      exact ⟨⟨h₁, h₂, h₃, ht, htgt ▸ h₄, hh⟩, hR⟩
    · intro h
      obtain ⟨ha, hR⟩ := h
      refine ⟨ha.near, ha.small, ha.aligned, htgt ▸ ha.behind, ?_⟩
      exact (hk _ htgt.symm (hreach ha.near)).mpr ⟨ha.ne_zero, ha.header, hR⟩

theorem structValidateEntries_of_header {d : TypeDescriptorStruct} (hd : d.WellFormed)
    (hshort : lim - t < 2 ^ 32) (hle : t ≤ lim) (h : StructHeaderOk d m t (lim - t)) :
    (structValidateEntries (dispatchValidate Γ m numHandles n) m t (lim - t) d.entries ctx).value =
        some (.errorNone, ctx') ↔
      Passes (dispatchValidate Γ m numHandles n) lim (structKids d m t) ctx ctx' := by
  apply structValidateEntries_none_iff hshort
  intro q hq
  have hin := structKids_inside hq (h.slots_inside hd).2
  have := h.inside
  omega

theorem arrayValidateElements_of_header (hd : d.WellFormed)
    (hshort : lim - t < 2 ^ 32) (hle : t ≤ lim) (h : ArrayHeaderOk d m t (lim - t)) :
    (if d.elemType = .pod then
      ctx = ctx' else (arrayValidateElements (dispatchValidate Γ m numHandles n) d t (lim - t)
        (List.range (load m (t + 4) 4)) ctx).value = some (.errorNone, ctx')) ↔
      Passes (dispatchValidate Γ m numHandles n) lim (arrayKids d m t) ctx ctx' := by
  have hroom : ∀ q ∈ arrayKids d m t, q.2 ≤ lim := by
    intro q hq
    have hin := arrayKids_inside hq (h.slots_inside hd)
    have := h.inside
    omega
  by_cases hp : d.elemType = .pod
  · simp [hp, arrayKids, Passes]
  · simp only [arrayKids, hp, ↓reduceIte] at hroom ⊢
    exact arrayValidateElements_none_iff hshort ⟨hd.elem, hp⟩ _ hroom

section Objects

variable (hΓ : Γ.WellFormed) (hpos : p.2 ≠ 0) (hle : p.2 ≤ lim) (hshort : lim - p.2 < 2 ^ 32)
  (hlim : lim ≤ 2 ^ 64)
include hΓ hpos hle hshort hlim

theorem dispatchValidate_struct_iff (hty : p.1.IsStruct) :
    PassesAt (dispatchValidate Γ m numHandles (n + 1)) lim p ctx ctx' ↔
      PassesObject Γ m lim numHandles n p ctx ctx' := by
  have hdisp : (dispatchValidate Γ m numHandles (n + 1) p.1.type p.1.desc p.1.nullable p.2
      (lim - p.2) ctx).value = (followPointer m p.2 (lim - p.2) p.1.nullable ctx fun offset c =>
        structValidate (dispatchValidate Γ m numHandles n) m (Γ.struct p.1.desc)
            (wrap64 (p.2 + offset)) (sub32 (lim - p.2) offset) c >>= fun v =>
          if v.1 = .errorNone ∧ p.1.type = .mapPtr then
            mapValidate m (wrap64 (p.2 + offset)) (sub32 (lim - p.2) offset) v.2
          else pure (v.1, v.2)).value := by
    rcases hty with hty | hty <;>
      simp [dispatchValidate, hty, hpos, value_bind, value_note]
  rw [PassesAt, hdisp]
  apply followObject_none_iff (R := fun c => Passes (dispatchValidate Γ m numHandles n) lim
    ((scheme Γ .onWire).kids m p) c ctx') hle hshort hlim
  intro c hwrap hreach
  refine (bind_none_iff _ fun result c' hr h => by simp [hr] at h).trans ?_
  simp only [hwrap, structValidate_none_iff]
  by_cases ht : target .onWire m p.2 = 0
  · simp [ht]
  · obtain ⟨hlt, hin, hsub⟩ := hreach ht
    have hshort' : lim - target .onWire m p.2 < 2 ^ 32 := by omega
    simp only [hsub, hty.kids_eq ht]
    rcases hty with hty | hty
    · simp only [HeaderOk, hty, reduceCtorEq, and_false, ↓reduceIte, value_pure]
      constructor
      · intro h
        obtain ⟨c', ⟨-, hh, hv⟩, hc⟩ := h
        cases hc
        exact ⟨ht, hh, (structValidateEntries_of_header (hΓ.struct _) hshort' hin hh).mp hv⟩
      · intro h
        exact ⟨ctx', ⟨ht, h.2.1,
          (structValidateEntries_of_header (hΓ.struct _) hshort' hin h.2.1).mpr h.2.2⟩, rfl⟩
    · simp only [HeaderOk, hty, and_self, ↓reduceIte, mapValidate_none_iff]
      constructor
      · intro h
        obtain ⟨c', ⟨-, hh, hv⟩, hlen, rfl⟩ := h
        exact ⟨ht, ⟨hh, hlen⟩, (structValidateEntries_of_header (hΓ.struct _) hshort' hin hh).mp hv⟩
      · intro h
        obtain ⟨-, ⟨hh, hlen⟩, hpass⟩ := h
        exact ⟨ctx', ⟨ht, hh, (structValidateEntries_of_header (hΓ.struct _) hshort' hin hh).mpr
          hpass⟩, hlen, rfl⟩

theorem dispatchValidate_array_iff (hty : p.1.type = .arrayPtr) :
    PassesAt (dispatchValidate Γ m numHandles (n + 1)) lim p ctx ctx' ↔
      PassesObject Γ m lim numHandles n p ctx ctx' := by
  unfold PassesAt
  simp only [dispatchValidate, hty, hpos, ↓reduceIte, value_bind, value_note, Option.bind_some]
  apply followObject_none_iff (R := fun c => Passes (dispatchValidate Γ m numHandles n) lim
    ((scheme Γ .onWire).kids m p) c ctx') hle hshort hlim
  intro c hwrap hreach
  simp only [hwrap, arrayValidate_none_iff]
  by_cases ht : target .onWire m p.2 = 0
  · simp [ht]
  · obtain ⟨hlt, hin, hsub⟩ := hreach ht
    simp only [hsub, arrayPtr_kids_eq hty ht, HeaderOk, hty]
    refine and_congr_right fun _ => and_congr_right fun hh => ?_
    exact arrayValidateElements_of_header (hΓ.array _) (by omega) hin hh

theorem dispatchValidate_object_iff (hty : p.1.IsObject) :
    PassesAt (dispatchValidate Γ m numHandles (n + 1)) lim p ctx ctx' ↔
      PassesObject Γ m lim numHandles n p ctx ctx' := by
  rcases hty with hty | hty | hty
  · exact dispatchValidate_struct_iff hΓ hpos hle hshort hlim (.inl hty)
  · exact dispatchValidate_struct_iff hΓ hpos hle hshort hlim (.inr hty)
  · exact dispatchValidate_array_iff hΓ hpos hle hshort hlim hty

end Objects

theorem dispatchValidate_union_iff (hty : p.1.type = .union) (hpos : p.2 ≠ 0)
    (hroom : p.2 + 16 ≤ lim) (hshort : lim - p.2 < 2 ^ 32) :
    PassesAt (dispatchValidate Γ m numHandles (n + 1)) lim p ctx ctx' ↔
      (load m p.2 4 = 0 → p.1.nullable) ∧
      ((scheme Γ .onWire).kids m p ≠ [] → p.1.nullable ∨ load m p.2 4 = unionLayoutSize) ∧
      Passes (dispatchValidate Γ m numHandles n) lim ((scheme Γ .onWire).kids m p) ctx ctx' := by
  have hsub : sub32 (lim - p.2) 8 = lim - (p.2 + 8) := sub32_eight hshort (by omega)
  unfold PassesAt
  simp only [dispatchValidate, hty, hpos, ↓reduceIte, value_bind, value_note,
    Option.bind_some, unionDataValidate, value_fetch]
  by_cases h0 : load m p.2 4 = 0
  · cases hn : p.1.nullable with
    | true => simp [h0, scheme, placeKids, hty, hn, Passes]
    | false => simp [h0]
  · have hkids : (scheme Γ .onWire).kids m p = unionKids (Γ.union p.1.desc) m p.2 := by
      simp [scheme, placeKids, hty, h0]
    simp only [h0, ↓reduceIte, unionValidate, value_bind, value_note,
      Option.bind_some, unionValidateEntries_value, hsub, hkids, unionKids, activeEntry]
    cases (Γ.union p.1.desc).entries.find? fun e => e.tag = load m (p.2 + 4) 4 with
    | none => simp [Passes]
    | some e =>
      by_cases hp : e.elemType = .pod
      · simp [hp, Passes]
      · by_cases hs : p.1.nullable = false ∧ load m p.2 4 ≠ unionLayoutSize
        · simp [hp, hs]
        · have hs' : p.1.nullable = true ∨ load m p.2 4 = unionLayoutSize := by
            rw [not_and_or, Bool.not_eq_false, not_not] at hs
            exact hs
          simp [hp, hs, hs', Passes, TypeDescriptorUnionEntry.elem]

theorem dispatchValidate_handle_iff (hty : p.1.IsHandle) (hpos : p.2 ≠ 0) :
    PassesAt (dispatchValidate Γ m numHandles (n + 1)) lim p ctx ctx' ↔
      if load m p.2 4 = encodedHandleInvalid then p.1.nullable ∧ ctx = ctx'
      else load m p.2 4 < numHandles ∧ ctx.nextHandleIndex ≤ load m p.2 4 ∧
        { ctx with nextHandleIndex := load m p.2 4 + 1 } = ctx' := by
  rw [PassesAt, ← validateHandle_none_iff]
  rcases hty with hty | hty <;>
    simp [dispatchValidate, hty, hpos, value_bind, value_note, value_fetch, value_pure]

end Mojo.CBindings
