import Mojo.Wire.Archive

/-!
# The members of objects and their places

Under what a generator guarantees about the layout of structs, the members of every object
lie inside it and have no bit in common. So a value in memory depends on nothing but its
own bytes.
-/

namespace Mojo.CppBindings

def Kind.isMojom : Kind → Bool
  | .number size => size ∈ [1, 2, 4, 8]
  | .bool | .handle _ | .interface _ | .string _ | .struct _ _ | .union _ _ => true
  | .array elem _ _ => elem.isMojom
  | .map key value _ =>
    (match key with
      | .number size => size ∈ [1, 2, 4, 8]
      | .bool | .string false => true
      | _ => false) && value.isMojom
  | .unionPointer _ _ => false

def Kind.isSlot : Kind → Bool
  | .unionPointer _ _ => true
  | kind => kind.isMojom

structure StructType.Laid (d : StructType) : Prop where
  kinds : ∀ f ∈ d.fields, f.kind.isMojom
  inside : ∀ f ∈ d.fields, headerSize + f.offset + f.kind.size ≤ d.last.numBytes
  apart : d.fields.Pairwise fun f g =>
    f.offset + f.kind.size ≤ g.offset ∨ g.offset + g.kind.size ≤ f.offset ∨
      f.kind = .bool ∧ g.kind = .bool ∧ (f.offset ≠ g.offset ∨ f.bit ≠ g.bit)
  bits : ∀ f ∈ d.fields, f.bit < 8
  header : headerSize ≤ d.last.numBytes
  aligned : d.last.numBytes % 8 = 0
  size : d.last.numBytes < 2 ^ 32
  version : d.last.version < 2 ^ 32

structure Types.Laid (Γ : Types) : Prop where
  struct : ∀ i, (Γ.struct i).Laid
  union : ∀ i, ∀ kind ∈ (Γ.union i).fields, kind.isMojom
  tags : ∀ i, (Γ.union i).fields.length < 2 ^ 32

/-- What holds for all versions of a struct: one that is not older than a field has the field
inside. -/
structure StructType.Versioned (d : StructType) : Prop where
  kinds : ∀ f ∈ d.fields, f.kind.isMojom
  start : ∃ v ∈ d.versions, v.version = 0
  inside : ∀ f ∈ d.fields, ∀ version v, f.minVersion ≤ version → d.newest version = some v →
    headerSize + f.offset + f.kind.size ≤ v.numBytes

structure Types.Versioned (Γ : Types) : Prop where
  struct : ∀ i, (Γ.struct i).Versioned
  union : ∀ i, ∀ kind ∈ (Γ.union i).fields, kind.isMojom

end Mojo.CppBindings

namespace Mojo.Wire

open Mojo.Memory Mojo.CppBindings
open List hiding Mem span

variable {k : Kind}

theorem Kind.isSlot_of_isMojom (h : k.isMojom) : k.isSlot := by
  cases k <;> first | rfl | exact h

theorem isSlot_inUnion (h : k.isMojom) : k.inUnion.isSlot := by
  cases k <;> first | rfl | exact h

theorem size_inUnion (h : k.isMojom) : k.inUnion.size ≤ 8 := by
  cases k with
  | number size =>
    simp only [Kind.isMojom, mem_cons, not_mem_nil, or_false, decide_eq_true_eq] at h
    simp only [Kind.inUnion, Kind.size]
    omega
  | _ => simp [Kind.inUnion, Kind.size]

theorem bytes_shift (s : Slot) (t : ℕ) : (Slot.shift s t).bytes = span (t + s.addr) s.kind.size :=
  rfl

variable {s : Slot}

theorem apart_of_le {s' : Slot} (h : s.addr + s.kind.size ≤ s'.addr) : Slot.Apart s s' :=
  .inl (span_disjoint_of_le h)

theorem Slot.Apart.shift {s' : Slot} (h : Slot.Apart s s') (t : ℕ) :
    Slot.Apart (Slot.shift s t) (Slot.shift s' t) := by
  rcases h with h | ⟨hs, hs', h⟩
  · refine .inl (Set.disjoint_left.mpr fun a ha ha' => ?_)
    rw [bytes_shift, mem_span] at ha ha'
    have hmem : a - t ∈ s.bytes := mem_span.mpr (by omega)
    have hmem' : a - t ∈ s'.bytes := mem_span.mpr (by omega)
    exact Set.disjoint_left.mp h hmem hmem'
  · refine .inr ⟨hs, hs', ?_⟩
    simp only [Slot.shift]
    omega

variable {i : ℕ}

section Elements

variable {elem : Kind}

theorem elementSlot_kind (elem : Kind) (t i : ℕ) : (elementSlot elem t i).kind = elem := by
  cases elem <;> rfl

theorem elementSlot_of_ne (h : elem ≠ .bool) (t i : ℕ) :
    elementSlot elem t i = ⟨elem, t + headerSize + elem.size * i, 0⟩ := by
  cases elem <;> first | rfl | exact absurd rfl h

theorem elementBytes_of_ne (h : elem ≠ .bool) (n : ℕ) : elementBytes elem n = elem.size * n := by
  cases elem <;> first | rfl | exact absurd rfl h

theorem elementSlot_inside {n : ℕ} (h : i < n) : headerSize ≤ (elementSlot elem 0 i).addr ∧
      (elementSlot elem 0 i).addr + elem.size ≤ headerSize + elementBytes elem n := by
  by_cases hb : elem = .bool
  · simp only [hb, elementSlot, elementBytes, Kind.size]
    omega
  · have hle := Nat.mul_le_mul_left elem.size (Nat.succ_le_of_lt h)
    rw [Nat.mul_succ] at hle
    rw [elementSlot_of_ne hb, elementBytes_of_ne hb]
    simp only
    omega

theorem elementSlot_apart {j : ℕ} (h : i < j) :
    Slot.Apart (elementSlot elem 0 i) (elementSlot elem 0 j) := by
  by_cases hb : elem = .bool
  · refine .inr ⟨by simp [hb, elementSlot], by simp [hb, elementSlot], ?_⟩
    simp only [hb, elementSlot]
    omega
  · have hle := Nat.mul_le_mul_left elem.size (Nat.succ_le_of_lt h)
    rw [Nat.mul_succ] at hle
    rw [elementSlot_of_ne hb, elementSlot_of_ne hb]
    apply apart_of_le
    simp only
    omega

theorem mem_elementSlots {t n : ℕ} (h : s ∈ elementSlots elem t n) :
    ∃ i < n, s = elementSlot elem t i := by
  obtain ⟨i, hi, rfl⟩ := mem_map.mp h
  exact ⟨i, mem_range.mp hi, rfl⟩

theorem elementSlots_apart (elem : Kind) (n : ℕ) : (elementSlots elem 0 n).Pairwise Slot.Apart := by
  rw [elementSlots, pairwise_map]
  exact pairwise_lt_range.imp fun h => elementSlot_apart h

end Elements

theorem pairwise_zip {α β : Type} {R : α → α → Prop} {l : List α} {l' : List β}
    (h : l.Pairwise R) : (l.zip l').Pairwise fun p q => R p.1 q.1 := by
  induction l generalizing l' with
  | nil => simp
  | cons a l ih =>
    cases l' with
    | nil => simp
    | cons b l' =>
      rw [pairwise_cons] at h
      rw [zip_cons_cons, pairwise_cons]
      exact ⟨fun p hp => h.1 p.1 (of_mem_zip hp).1, ih h.2⟩

structure Object.Laid (o : Object) : Prop where
  header : headerSize ≤ o.size
  kinds : ∀ p ∈ o.members, p.1.kind.isSlot
  inside : ∀ p ∈ o.members, headerSize ≤ p.1.addr ∧ p.1.addr + p.1.kind.size ≤ o.size
  apart : o.members.Pairwise fun p q => Slot.Apart p.1 q.1
  bits : ∀ p ∈ o.members, p.1.bit < 8

theorem laid_elements (elem : Kind) (h : elem.isMojom) (values : List Value) (word : ℕ) :
    Object.Laid ⟨headerSize + elementBytes elem values.length, word,
      (elementSlots elem 0 values.length).zip values⟩ where
  header := Nat.le_add_right _ _
  kinds p hp := by
    obtain ⟨i, -, hi⟩ := mem_elementSlots (of_mem_zip hp).1
    rw [hi, elementSlot_kind]
    exact Kind.isSlot_of_isMojom h
  inside p hp := by
    obtain ⟨i, hlt, hi⟩ := mem_elementSlots (of_mem_zip hp).1
    rw [hi, elementSlot_kind]
    exact elementSlot_inside hlt
  apart := pairwise_zip (elementSlots_apart elem _)
  bits p hp := by
    obtain ⟨i, -, hi⟩ := mem_elementSlots (of_mem_zip hp).1
    rw [hi]
    cases elem with
    | bool => exact Nat.mod_lt i (by decide)
    | _ => exact Nat.succ_pos 7

theorem laid_struct {d : StructType} (h : d.Laid) (values : List Value) (word : ℕ) :
    Object.Laid ⟨d.last.numBytes, word, (d.fields.map fun f => f.slot 0).zip values⟩ where
  header := h.header
  kinds p hp := by
    obtain ⟨f, hf, hs⟩ := mem_map.mp (of_mem_zip hp).1
    rw [← hs]
    exact Kind.isSlot_of_isMojom (h.kinds f hf)
  inside p hp := by
    obtain ⟨f, hf, hs⟩ := mem_map.mp (of_mem_zip hp).1
    have := h.inside f hf
    rw [← hs]
    simp only [Field.slot]
    omega
  apart := by
    apply pairwise_zip
    rw [pairwise_map]
    refine h.apart.imp fun {f g} hfg => ?_
    rcases hfg with hfg | hfg | ⟨hf, hg, hfg⟩
    · exact apart_of_le (by simp only [Field.slot]; omega)
    · exact (apart_of_le (by simp only [Field.slot]; omega)).symm
    · refine .inr ⟨hf, hg, ?_⟩
      simp only [Field.slot]
      omega
  bits p hp := by
    obtain ⟨f, hf, hs⟩ := mem_map.mp (of_mem_zip hp).1
    rw [← hs]
    exact h.bits f hf

variable {kind : Kind}

theorem laid_union (h : kind.isMojom) (tag : ℕ) (v : Value) :
    Object.Laid ⟨unionSize, tag, [(⟨kind.inUnion, 8, 0⟩, v)]⟩ where
  header := by simp [headerSize, unionSize]
  kinds p hp := by
    obtain rfl := mem_singleton.mp hp
    exact isSlot_inUnion h
  inside p hp := by
    obtain rfl := mem_singleton.mp hp
    have := size_inUnion h
    simp only [unionSize, headerSize]
    omega
  apart := pairwise_singleton _ _
  bits p hp := by
    obtain rfl := mem_singleton.mp hp
    exact Nat.succ_pos 7

theorem laid_map (key value : Kind) (keys values : List Value) (hk : key.isMojom)
    (hv : value.isMojom) :
    Object.Laid ⟨24, 0, [(⟨.array key 0 false, 8, 0⟩, .array keys),
      (⟨.array value 0 false, 16, 0⟩, .array values)]⟩ where
  header := by simp [headerSize]
  kinds p hp := by
    rcases mem_pair.mp hp with rfl | rfl
    · exact hk
    · exact hv
  inside p hp := by
    rcases mem_pair.mp hp with rfl | rfl <;> simp [headerSize, Kind.size]
  apart := by
    rw [pairwise_pair]
    exact apart_of_le (by simp [Kind.size])
  bits p hp := by
    rcases mem_pair.mp hp with rfl | rfl <;> exact Nat.succ_pos 7

theorem isMojom_of_active {Γ : Types} (hΓ : Γ.Laid) {name tag : ℕ}
    (h : (Γ.union name).active tag = some kind) : kind.isMojom :=
  hΓ.union name kind (mem_of_getElem? h)

theorem isMojom_key {key value : Kind} {nullable : Bool}
    (h : (Kind.map key value nullable).isSlot) :
    key.isMojom ∧ value.isMojom := by
  simp only [Kind.isSlot, Kind.isMojom, Bool.and_eq_true] at h
  refine ⟨?_, h.2⟩
  cases key <;> first | rfl | exact h.1 | cases h.1

variable {v : Value} {o : Object}

theorem object_laid {Γ : Types} (hΓ : Γ.Laid) (hk : kind.isSlot) (ho : object Γ kind v = some o) :
    o.Laid := by
  cases objectOf ho with
  | string nullable bytes =>
    have := laid_elements (.number 1) rfl (bytes.map fun b => .number b.toNat) bytes.length
    simpa [elementBytes, Kind.size] using this
  | array elem count nullable elems => exact laid_elements elem hk elems _
  | map key value nullable keys values =>
    obtain ⟨hkey, hvalue⟩ := isMojom_key hk
    exact laid_map key value keys values hkey hvalue
  | struct name nullable fields => exact laid_struct (hΓ.struct name) fields _
  | union name nullable tag field kind hactive
  | unionPointer name nullable tag field kind hactive =>
    exact laid_union (isMojom_of_active hΓ hactive) tag field

section Congruence

variable {Γ : Types} {form : Form} {m m' : Mem}

theorem load_sameAt {a n : ℕ} (h : SameAt m m' s) (hs : s.kind ≠ .bool)
    (h₁ : s.addr ≤ a) (h₂ : a + n ≤ s.addr + s.kind.size) : load m' a n = load m a n :=
  (load_congr ((h.eqOn hs).mono (span_subset h₁ h₂))).symm

theorem size_of_isPointer (h : kind.isPointer) : kind ≠ .bool ∧ kind.size = 8 := by
  cases kind with
  | number | bool | handle | interface | union => cases h
  | _ => exact ⟨by simp, rfl⟩

variable {lo : ℕ}

theorem Content.congr (h : Content form m s v lo i) (hs : SameAt m m' s) :
    Content form m' s v lo i := by
  have hword : s.kind ≠ .bool → ∀ n ≤ s.kind.size, load m' s.addr n = load m s.addr n :=
    fun hb n hn => load_sameAt hs hb le_rfl (by omega)
  have hsecond : s.kind ≠ .bool → ∀ k n, k + n ≤ s.kind.size →
      load m' (s.addr + k) n = load m (s.addr + k) n :=
    fun hb k n hn => load_sameAt hs hb (by omega) (by omega)
  unfold Content at h ⊢
  split at h <;> rename_i hkind
  case h_2 =>
    simp only [SameAt, hkind, ↓reduceIte] at hs
    exact hs.trans h
  case h_9 | h_10 =>
    obtain ⟨hb, h8⟩ := size_of_isPointer h.1
    rwa [hword hb 8 h8.ge]
  all_goals
    have hb : s.kind ≠ .bool := by simp [hkind]
    first
    | rwa [hword hb _ (by simp [hkind, Kind.size]), hsecond hb _ _ (by simp [hkind, Kind.size])]
    | rwa [hword hb _ (by simp [hkind, Kind.size])]

def outSizes (Γ : Types) (depth : ℕ) (ps : List (Slot × Value)) : ℕ :=
  (ps.map fun p => outSize Γ depth p.1.kind p.2).sum

theorem outSizes_cons (depth : ℕ) (p : Slot × Value) (ps : List (Slot × Value)) :
    outSizes Γ depth (p :: ps) = outSize Γ depth p.1.kind p.2 + outSizes Γ depth ps :=
  sum_cons

theorem outSizes_singleton (depth : ℕ) (p : Slot × Value) :
    outSizes Γ depth [p] = outSize Γ depth p.1.kind p.2 := Nat.add_zero _

variable {depth : ℕ}

theorem outSize_succ (ho : object Γ kind v = some o) :
    outSize Γ (depth + 1) kind v = (if kind.isPointer then align8 o.size else 0) +
      outSizes Γ depth o.members := by
  simp [outSize, ho, outSizes]

theorem sum_mod {α : Type} {f : α → ℕ} (h : ∀ x, f x % 8 = 0) (l : List α) :
    (l.map f).sum % 8 = 0 := by
  induction l with
  | nil => rfl
  | cons x l ih =>
    have := h x
    simp only [map_cons, sum_cons]
    omega

theorem outSize_mod {n : ℕ} {k : Kind} : outSize Γ n k v % 8 = 0 := by
  induction n generalizing k v with
  | zero => rfl
  | succ n ih =>
    cases ho : object Γ k v with
    | none => simp only [outSize, ho, Nat.zero_mod]
    | some o =>
      have hsum : outSizes Γ n o.members % 8 = 0 := sum_mod (fun p => ih) o.members
      have := align8_mod o.size
      rw [outSize_succ ho]
      split <;> omega

theorem union_of_inline (ho : object Γ kind v = some o)
    (hp : ¬ kind.isPointer) : ∃ name nullable tag field, kind = .union name nullable ∧
      v = .union tag field := by
  cases objectOf ho with
  | union name nullable tag field active hactive => exact ⟨name, nullable, tag, field, rfl, rfl⟩
  | _ => exact absurd rfl hp

theorem size_of_inline (ho : object Γ kind v = some o)
    (hp : ¬ kind.isPointer) : kind ≠ .bool ∧ kind.size = o.size := by
  obtain ⟨name, nullable, tag, field, rfl, rfl⟩ := union_of_inline ho hp
  obtain ⟨kind, -, rfl⟩ := Option.map_eq_some_iff.mp ho
  exact ⟨by simp, rfl⟩

theorem RepAll.congr {R R' : Slot → Value → ℕ → ℕ → Prop} {ps : List (Slot × Value)}
    {t : ℕ} (h : RepAll Γ R depth ps t lo i) (hR : ∀ p ∈ ps, ∀ lo' i', lo ≤ lo' →
      lo' + outSize Γ depth p.1.kind p.2 ≤ lo + outSizes Γ depth ps →
      R (Slot.shift p.1 t) p.2 lo' i' → R' (Slot.shift p.1 t) p.2 lo' i') : RepAll Γ R' depth ps t
        lo i := by
  induction ps generalizing lo i with
  | nil => trivial
  | cons p ps ih =>
    rw [outSizes_cons] at hR
    refine ⟨hR p (.head _) lo i le_rfl (by omega) h.1, ih h.2 ?_⟩
    intro q hq lo' i' h₁ h₂ hr
    exact hR q (.tail p hq) lo' i' (by omega) (by omega) hr

theorem Rep.congr (hΓ : Γ.Laid) (hk : s.kind.isSlot)
    (h : Rep Γ form m depth s v lo i) (hs : SameAt m m' s)
    (hout : Set.EqOn m m' (Set.Ico lo (lo + outSize Γ depth s.kind v))) :
    Rep Γ form m' depth s v lo i := by
  induction depth generalizing s v lo i with
  | zero => exact ⟨h.1.congr hs, h.2⟩
  | succ depth ih =>
    refine ⟨h.1.congr hs, ?_⟩
    have hmembers := h.2
    cases ho : object Γ s.kind v with
    | none => trivial
    | some o =>
      have hlaid := object_laid hΓ hk ho
      rw [outSize_succ ho] at hout
      simp only [ho] at hmembers ⊢
      split at hmembers
      · rename_i hp
        rw [if_pos hp] at hout ⊢
        have hle := le_align8 o.size
        have hheader := hlaid.header
        simp only [headerSize] at hheader
        have hwords := loads_congr (a := lo) (hout.mono fun b hb => by
          simp only [mem_span] at hb
          simp only [Set.mem_Ico]
          omega)
        refine ⟨hwords.1.trans hmembers.1, hwords.2.trans hmembers.2.1, hmembers.2.2.congr ?_⟩
        intro p hpm lo' i' h₁ h₂ hr
        have hin := hlaid.inside p hpm
        refine ih (hlaid.kinds p hpm) hr (sameAt_of_eqOn (hout.mono fun b hb => ?_))
          (hout.mono (Set.Ico_subset_Ico (by omega) ?_))
        · rw [bytes_shift, mem_span] at hb
          simp only [Set.mem_Ico]
          omega
        · simp only [Slot.shift]
          omega
      · rename_i hp
        rw [if_neg hp] at hout ⊢
        refine hmembers.congr ?_
        intro p hpm lo' i' h₁ h₂ hr
        have hin := hlaid.inside p hpm
        obtain ⟨hb, hsize⟩ := size_of_inline ho hp
        refine ih (hlaid.kinds p hpm) hr (sameAt_of_eqOn ((hs.eqOn hb).mono ?_))
          (hout.mono (Set.Ico_subset_Ico h₁ ?_))
        · exact span_subset (by simp only [Slot.shift]; omega) (by simp only [Slot.shift]; omega)
        · simp only [Slot.shift]
          omega

end Congruence
end Mojo.Wire
