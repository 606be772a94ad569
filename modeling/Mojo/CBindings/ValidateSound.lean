import Mojo.CBindings.ValidateGraph
import Mojo.CBindings.DecodeFold

/-!
# A validated buffer is safe to decode

The cursor of the validation context only moves forward, so the objects of a
validated buffer follow one another, and so do the handle indices. Each place
keeps its slot before the cursor; this is the invariant that is carried through
the five validators, and it makes every pointer lead forward.
-/

namespace Mojo.CBindings

open Mojo.Memory
open List hiding Disjoint Mem

variable {q p : Place} {qs : List Place} {t i base : ℕ} {k : Elem} {e : Extent}

/-- The handle indices found in the slots of a walk, each as an extent of length one. -/
def indices (m : Mem) (items : List Item) : List Extent :=
  items.filterMap fun i => match i with
    | .handle s => if load m s 4 = encodedHandleInvalid then none else some ⟨load m s 4, 1⟩
    | .pointer _ _ => none

@[simp] theorem indices_cons_pointer (m : Mem) (slot : ℕ) (t : Option Extent) (l : List Item) :
    indices m (.pointer slot t :: l) = indices m l := rfl

@[simp] theorem indices_append (m : Mem) (l r : List Item) :
    indices m (l ++ r) = indices m l ++ indices m r := filterMap_append

/-- A slot that validation may be called at while the cursor is at `cursor`. -/
structure SlotOk (lim cursor : ℕ) (p : Place) : Prop where
  pos : p.2 ≠ 0
  before : p.2 + p.1.size ≤ cursor
  short : lim - p.2 < 2 ^ 32
  aligned : isPointer p.1.type ∨ p.1.type = .union → p.2 % 8 = 0
  kind : p.1.type ≠ .unionPtr ∧ p.1.type ≠ .pod

structure Accepted (Γ : Descriptors) (m : Mem) (lim numHandles n : ℕ) (qs : List Place)
    (ctx ctx' : ValidationContext) : Prop where
  legal : ∀ q ∈ qs, (scheme Γ .onWire).Legal m (Decodable Γ m lim numHandles) n q
  packed : Packed ctx.nextPointer (extents (qs.flatMap ((scheme Γ .onWire).walk m n)))
    ctx'.nextPointer
  indexed : Packed ctx.nextHandleIndex (indices m (qs.flatMap ((scheme Γ .onWire).walk m n)))
    ctx'.nextHandleIndex
  shaped : ∀ e ∈ extents (qs.flatMap ((scheme Γ .onWire).walk m n)), e.addr % 8 = 0 ∧
    headerSize ≤ e.len
  stop : ctx'.nextPointer ≤ lim

variable {Γ : Descriptors} {m : Mem} {lim numHandles n : ℕ} {ctx ctx' : ValidationContext}

theorem Accepted.nil (h : ctx.nextPointer ≤ lim) : Accepted Γ m lim numHandles n [] ctx ctx where
  legal _ hq := by cases hq
  packed := le_refl ctx.nextPointer
  indexed := le_refl ctx.nextHandleIndex
  shaped _ he := by cases he
  stop := h

theorem Accepted.cons {c : ValidationContext} (hq : Accepted Γ m lim numHandles n [q] ctx c)
    (hqs : Accepted Γ m lim numHandles n qs c ctx') :
    Accepted Γ m lim numHandles n (q :: qs) ctx ctx' := by
  have hw : (q :: qs).flatMap ((scheme Γ .onWire).walk m n) =
      [q].flatMap ((scheme Γ .onWire).walk m n) ++ qs.flatMap ((scheme Γ .onWire).walk m n) := by
    simp
  refine ⟨?_, ?_, ?_, ?_, hqs.stop⟩
  · intro r hr
    rcases mem_cons.mp hr with rfl | hr
    · exact hq.legal r (mem_singleton_self r)
    · exact hqs.legal r hr
  · rw [hw, extents_append]
    exact hq.packed.append hqs.packed
  · rw [hw, indices_append]
    exact hq.indexed.append hqs.indexed
  · rw [hw, extents_append]
    intro e he
    exact (mem_append.mp he).elim (hq.shaped e) (hqs.shaped e)

theorem accepted_of_passes (qs : List Place) (ctx ctx' : ValidationContext)
    (hstep : ∀ q ∈ qs, ∀ c c', SlotOk lim c.nextPointer q → c.nextPointer ≤ lim →
      PassesAt (dispatchValidate Γ m numHandles n) lim q c c' →
        Accepted Γ m lim numHandles n [q] c c')
    (hok : ∀ q ∈ qs, SlotOk lim ctx.nextPointer q) (hlim : ctx.nextPointer ≤ lim)
    (h : Passes (dispatchValidate Γ m numHandles n) lim qs ctx ctx') :
    Accepted Γ m lim numHandles n qs ctx ctx' := by
  induction qs generalizing ctx with
  | nil =>
    obtain rfl : ctx = ctx' := h
    exact Accepted.nil hlim
  | cons q qs ih =>
    obtain ⟨c, hq, hqs⟩ := h
    have hacc := hstep q (.head _) ctx c (hok q (.head _)) hlim hq
    refine hacc.cons (ih c (fun r hr => hstep r (.tail _ hr)) ?_ hacc.stop hqs)
    -- The cursor has moved forward, so the slots that are left are still before it.
    intro r hr
    have hr' := hok r (.tail _ hr)
    exact ⟨hr'.pos, hr'.before.trans hacc.packed.le, hr'.short, hr'.aligned, hr'.kind⟩

theorem structKids_slotOk {d : TypeDescriptorStruct} (hd : d.WellFormed) (hshort : lim - t < 2 ^ 32)
    (ht : t % 8 = 0)
    (h : StructHeaderOk d m t (lim - t)) (hq : q ∈ structKids d m t) :
    SlotOk lim (t + load m t 4) q := by
  have hin := structKids_inside hq (h.slots_inside hd).2
  obtain ⟨e, he, hv, rfl⟩ := mem_structKids.mp hq
  simp only [headerSize] at hin ⊢
  refine ⟨by simp, hin.2, by dsimp only; omega, ?_, ?_⟩
  · intro ha
    have := hd.aligned e he ha
    dsimp only
    omega
  · exact (hd.elem e he).symm

theorem arrayKids_slotOk {d : TypeDescriptorArray} (hd : d.WellFormed) (hshort : lim - t < 2 ^ 32)
    (ht : t % 8 = 0)
    (h : ArrayHeaderOk d m t (lim - t)) (hq : q ∈ arrayKids d m t) :
    SlotOk lim (t + load m t 4) q := by
  have hin := arrayKids_inside hq (h.slots_inside hd)
  obtain ⟨hp, i, hi, rfl⟩ := mem_arrayKids.mp hq
  simp only [headerSize] at hin ⊢
  refine ⟨by simp, hin.2, by dsimp only; omega, ?_, hd.elem, hp⟩
  intro ha
  -- The slots of pointers and unions take a multiple of eight bytes.
  have hslot : slotSize d.elemType % 8 = 0 := by
    simp only [TypeDescriptorArray.elem] at ha
    cases htype : d.elemType <;> simp [htype, isPointer, slotSize] at ha ⊢
  have hmul : slotSize d.elemType * i % 8 = 0 := by
    rw [Nat.mul_mod, hslot, Nat.zero_mul, Nat.zero_mod]
  dsimp only
  omega

theorem unionKids_slotOk (hΓ : Γ.WellFormed) (hu : Γ.NoUnionPtr) (hp : SlotOk lim ctx.nextPointer p)
    (hty : p.1.type = .union) (hq : q ∈ unionKids (Γ.union p.1.desc) m p.2) :
    SlotOk lim ctx.nextPointer q := by
  have hin := unionKids_inside (hΓ.union p.1.desc) hq
  obtain ⟨e, he, hpod, rfl⟩ := mem_unionKids.mp hq
  have hbefore := hp.before
  have haligned := hp.aligned (Or.inr hty)
  have hshort := hp.short
  simp only [Elem.size, hty, slotSize] at hbefore
  refine ⟨by simp, hin.2.trans hbefore, by dsimp only; omega, fun _ => by dsimp only; omega,
    ?_, hpod⟩
  intro hup
  apply hu e.elemDescriptor
  rw [← show e.elemType = .unionPtr from hup]
  exact Descriptors.Uses.union _ e (activeEntry_mem he)

variable {size : ℕ}

theorem HeaderOk.inside (h : HeaderOk Γ k m t size) : load m t 4 ≤ size := by
  unfold HeaderOk at h
  split at h
  · exact h.inside
  · exact h.1.inside
  · exact h.inside
  · cases h

theorem HeaderOk.struct (h : HeaderOk Γ k m t size) (hty : k.IsStruct) :
    StructHeaderOk (Γ.struct k.desc) m t size := by
  rcases hty with hty | hty
  · simpa [HeaderOk, hty] using h
  · simp only [HeaderOk, hty] at h
    exact h.1

theorem HeaderOk.fits (hΓ : Γ.WellFormed) (h : HeaderOk Γ p.1 m (target .onWire m p.2) size) :
    Fits Γ .onWire m p := by
  unfold HeaderOk at h
  cases hty : p.1.type with
  | structPtr =>
    simp only [hty] at h
    simp only [Fits, hty]
    exact fun _ => h.slots_inside (hΓ.struct _)
  | mapPtr =>
    simp only [hty] at h
    simp only [Fits, hty]
    exact fun _ => h.1.slots_inside (hΓ.struct _)
  | arrayPtr =>
    simp only [hty] at h
    simp only [Fits, hty]
    exact fun _ => ⟨h.header, h.slots_inside (hΓ.array _)⟩
  | unionPtr | union | handle | interface | pod => simp [hty] at h

theorem HeaderOk.kids_slotOk (hΓ : Γ.WellFormed) (hty : p.1.IsObject)
    (ht : target .onWire m p.2 ≠ 0)
    (h8 : target .onWire m p.2 % 8 = 0) (hshort : lim - target .onWire m p.2 < 2 ^ 32)
    (h : HeaderOk Γ p.1 m (target .onWire m p.2) (lim - target .onWire m p.2)) :
    ∀ q ∈ (scheme Γ .onWire).kids m p,
      SlotOk lim (target .onWire m p.2 + load m (target .onWire m p.2) 4) q := by
  have hstruct : p.1.IsStruct → ∀ q ∈ (scheme Γ .onWire).kids m p,
      SlotOk lim (target .onWire m p.2 + load m (target .onWire m p.2) 4) q := fun hs q hq =>
    structKids_slotOk (hΓ.struct _) hshort h8 (h.struct hs) (hs.kids_eq ht ▸ hq)
  rcases hty with hty | hty | hty
  · exact hstruct (Or.inl hty)
  · exact hstruct (Or.inr hty)
  · simp only [HeaderOk, hty] at h
    exact fun q hq => arrayKids_slotOk (hΓ.array _) hshort h8 h (arrayPtr_kids_eq hty ht ▸ hq)

theorem AdmitsObject.target_eq (ha : AdmitsObject Γ m lim p ctx)
    (hok : SlotOk lim ctx.nextPointer p)
    (hle : ctx.nextPointer ≤ lim) (hlim : lim ≤ 2 ^ 64) :
    target .onWire m p.2 = p.2 + load m p.2 8 :=
  (sub32_target (by have := hok.before; omega) hok.short hlim ha.near ha.ne_zero).1

theorem AdmitsObject.decodable (hΓ : Γ.WellFormed) (hty : p.1.IsObject)
    (ha : AdmitsObject Γ m lim p ctx) (hok : SlotOk lim ctx.nextPointer p)
    (hle : ctx.nextPointer ≤ lim) (hlim : lim ≤ 2 ^ 64) : Decodable Γ m lim numHandles p where
  fits := ha.header.fits hΓ
  pos := hok.pos
  room := hok.before.trans hle
  short := hok.short
  nonnull _ := Or.inr ha.ne_zero
  forward _ _ := by
    have hb := hok.before
    rw [hty.size_eq] at hb
    exact hb.trans ha.behind
  inside _ _ := by
    have htgt := ha.target_eq hok hle hlim
    have hnear := ha.near
    have hin := ha.header.inside
    have hb := hok.before
    omega
  index hh := by
    rcases hty with hty | hty | hty <;> simp [Elem.IsHandle, hty] at hh

theorem accepted_object (hΓ : Γ.WellFormed) (hty : p.1.IsObject)
    (hok : SlotOk lim ctx.nextPointer p) (hle : ctx.nextPointer ≤ lim) (hlim : lim ≤ 2 ^ 64)
    (ha : AdmitsObject Γ m lim p ctx)
    (hk : Accepted Γ m lim numHandles n ((scheme Γ .onWire).kids m p)
      { ctx with nextPointer := target .onWire m p.2 + load m (target .onWire m p.2) 4 } ctx') :
    Accepted Γ m lim numHandles (n + 1) [p] ctx ctx' := by
  have hw := (flatMap_singleton ((scheme Γ .onWire).walk m (n + 1)) p).trans
    (hty.walk_eq ha.ne_zero n)
  refine ⟨?_, ?_, ?_, ?_, hk.stop⟩
  · intro q hq
    obtain rfl := mem_singleton.mp hq
    exact ⟨ha.decodable hΓ hty hok hle hlim, hk.legal⟩
  · rw [hw, extents_cons_some, packed_cons, Extent.stop]
    exact ⟨ha.behind, hk.packed⟩
  · rw [hw, indices_cons_pointer]
    exact hk.indexed
  · rw [hw, extents_cons_some]
    intro e he
    rcases he with _ | ⟨_, he⟩
    · have htgt := ha.target_eq hok hle hlim
      have hoff := ha.aligned
      have hslot := hok.aligned (Or.inl hty.isPointer)
      exact ⟨by dsimp only; omega, (ha.header.fits hΓ).header hty ha.ne_zero⟩
    · exact hk.shaped e he

theorem accepted_leaf (hp : Decodable Γ m lim numHandles p)
    (hkids : (scheme Γ .onWire).kids m p = []) (hext : extents ((scheme Γ .onWire).items m p) = [])
    (hidx : Packed ctx.nextHandleIndex (indices m ((scheme Γ .onWire).items m p))
      ctx'.nextHandleIndex)
    (hle : ctx.nextPointer ≤ lim) (hsame : ctx'.nextPointer = ctx.nextPointer) :
    Accepted Γ m lim numHandles (n + 1) [p] ctx ctx' := by
  have hw : [p].flatMap ((scheme Γ .onWire).walk m (n + 1)) = (scheme Γ .onWire).items m p := by
    rw [flatMap_singleton, Scheme.walk, hkids, flatMap_nil, append_nil]
  refine ⟨?_, ?_, ?_, ?_, hsame.trans_le hle⟩
  · intro q hq
    obtain rfl := mem_singleton.mp hq
    exact ⟨hp, by simp [hkids]⟩
  · rw [hw, hext]
    exact hsame.ge
  · rw [hw]
    exact hidx
  · rw [hw, hext]
    exact fun e he => absurd he not_mem_nil

theorem accepted_union (hp : Decodable Γ m lim numHandles p) (hty : p.1.type = .union)
    (hk : Accepted Γ m lim numHandles n ((scheme Γ .onWire).kids m p) ctx ctx') :
    Accepted Γ m lim numHandles (n + 1) [p] ctx ctx' := by
  have hw := (flatMap_singleton ((scheme Γ .onWire).walk m (n + 1)) p).trans (union_walk hty n)
  refine ⟨?_, by rw [hw]; exact hk.packed, by rw [hw]; exact hk.indexed, by
    rw [hw]; exact hk.shaped, hk.stop⟩
  intro q hq
  obtain rfl := mem_singleton.mp hq
  exact ⟨hp, hk.legal⟩

theorem SlotOk.decodable (hok : SlotOk lim ctx.nextPointer p) (hle : ctx.nextPointer ≤ lim)
    (hnull : p.1.IsObject → p.1.nullable ∧ target .onWire m p.2 = 0)
    (hidx : p.1.IsHandle → load m p.2 4 = encodedHandleInvalid ∨ load m p.2 4 < numHandles) :
    Decodable Γ m lim numHandles p where
  fits := by
    cases hty : p.1.type with
    | structPtr | mapPtr | arrayPtr =>
      simp only [Fits, hty]
      exact fun ht => absurd (hnull (by simp [Elem.IsObject, hty])).2 ht
    | union | handle | interface => simp only [Fits, hty]
    | unionPtr => exact absurd hty hok.kind.1
    | pod => exact absurd hty hok.kind.2
  pos := hok.pos
  room := hok.before.trans hle
  short := hok.short
  nonnull hty := Or.inl (hnull hty).1
  forward hty ht := absurd (hnull hty).2 ht
  inside hty ht := absurd (hnull hty).2 ht
  index := hidx

theorem accepted_null (hty : p.1.IsObject) (hok : SlotOk lim ctx.nextPointer p)
    (hle : ctx.nextPointer ≤ lim)
    (hn : p.1.nullable) (h0 : load m p.2 8 = 0) :
    Accepted Γ m lim numHandles (n + 1) [p] ctx ctx := by
  have ht : target .onWire m p.2 = 0 := by simp [target, h0]
  have hh : ¬ p.1.IsHandle := by
    rcases hty with hty | hty | hty <;> simp [Elem.IsHandle, hty]
  obtain ⟨hitems, hkids⟩ := hty.null_eq (Γ := Γ) ht
  refine accepted_leaf (hok.decodable hle (fun _ => ⟨hn, ht⟩) fun h => absurd h hh) hkids
    (by rw [hitems]; rfl) ?_ hle rfl
  rw [hitems]
  exact le_refl ctx.nextHandleIndex

theorem AdmitsObject.place (ha : AdmitsObject Γ m lim p ctx) (hty : p.1.IsObject)
    (hok : SlotOk lim ctx.nextPointer p) (hle : ctx.nextPointer ≤ lim) (hlim : lim ≤ 2 ^ 64) :
    target .onWire m p.2 % 8 = 0 ∧ lim - target .onWire m p.2 < 2 ^ 32 ∧
      target .onWire m p.2 + load m (target .onWire m p.2) 4 ≤ lim := by
  have htgt := ha.target_eq hok hle hlim
  have hoff := ha.aligned
  have hslot := hok.aligned (Or.inl hty.isPointer)
  have hnear := ha.near
  have hin := ha.header.inside
  have hb := hok.before
  have hs := hok.short
  omega

theorem accepted_step (hΓ : Γ.WellFormed) (hu : Γ.NoUnionPtr) (hlim : lim ≤ 2 ^ 64) (n : ℕ)
    (p : Place) (ctx ctx' : ValidationContext) (hok : SlotOk lim ctx.nextPointer p)
    (hle : ctx.nextPointer ≤ lim)
    (h : PassesAt (dispatchValidate Γ m numHandles n) lim p ctx ctx') :
    Accepted Γ m lim numHandles n [p] ctx ctx' := by
  induction n generalizing p ctx ctx' with
  | zero => simp [PassesAt, dispatchValidate] at h
  | succ n ih =>
    have hrun := fun (qs : List Place) (c c' : ValidationContext) =>
      accepted_of_passes qs c c' fun q _ c c' => ih q c c'
    have hin : p.2 ≤ lim := by
      have := hok.before
      omega
    cases hty : p.1.type with
    | unionPtr => exact absurd hty hok.kind.1
    | pod => exact absurd hty hok.kind.2
    | structPtr | mapPtr | arrayPtr =>
      have hobj : p.1.IsObject := by simp [Elem.IsObject, hty]
      rw [dispatchValidate_object_iff hΓ hok.pos hin hok.short hlim hobj, PassesObject] at h
      split_ifs at h with h0
      · obtain ⟨hn, rfl⟩ := h
        exact accepted_null hobj hok hle hn h0
      · obtain ⟨ha, hpass⟩ := h
        obtain ⟨h8, hshort, hfit⟩ := ha.place hobj hok hle hlim
        apply accepted_object hΓ hobj hok hle hlim ha
        exact hrun _ _ _ (ha.header.kids_slotOk hΓ hobj ha.ne_zero h8 hshort) hfit hpass
    | union =>
      have hroom := hok.before
      simp only [Elem.size, hty, slotSize] at hroom
      rw [dispatchValidate_union_iff hty hok.pos (hroom.trans hle) hok.short] at h
      apply accepted_union (hok.decodable hle (by simp [Elem.IsObject, hty])
        (by simp [Elem.IsHandle, hty])) hty
      exact hrun _ _ _ (fun q hq => unionKids_slotOk hΓ hu hok hty (mem_union_kids hty hq))
        hle h.2.2
    | handle | interface =>
      have hh : p.1.IsHandle := by simp [Elem.IsHandle, hty]
      rw [dispatchValidate_handle_iff hh hok.pos] at h
      have hitems : (scheme Γ .onWire).items m p = [.handle p.2] := by
        simp [scheme, placeItems, hty]
      have hkids : (scheme Γ .onWire).kids m p = [] := by simp [scheme, placeKids, hty]
      have hobj : ¬ p.1.IsObject := by simp [Elem.IsObject, hty]
      split_ifs at h with hinv
      · obtain ⟨-, rfl⟩ := h
        refine accepted_leaf (hok.decodable hle (fun h => absurd h hobj) fun _ => Or.inl hinv) hkids
          (by rw [hitems]; rfl) ?_ hle rfl
        simp [hitems, indices, hinv, Packed]
      · obtain ⟨hlt, hge, rfl⟩ := h
        refine accepted_leaf (hok.decodable hle (fun h => absurd h hobj) fun _ => Or.inr hlt) hkids
          (by rw [hitems]; rfl) ?_ hle rfl
        simp [hitems, indices, hinv, Packed, hge, Extent.stop]

theorem Accepted.mono {n' : ℕ} (h : Accepted Γ m lim numHandles n qs ctx ctx')
    (hn : n ≤ n') : Accepted Γ m lim numHandles n' qs ctx ctx' := by
  have hw : qs.flatMap ((scheme Γ .onWire).walk m n') =
      qs.flatMap ((scheme Γ .onWire).walk m n) := by
    apply flatMap_congr
    intro q hq
    exact ((h.legal q hq).mono hn).2
  refine ⟨fun q hq => ((h.legal q hq).mono hn).1, ?_, ?_, ?_, h.stop⟩
  · rw [hw]
    exact h.packed
  · rw [hw]
    exact h.indexed
  · rw [hw]
    exact h.shaped

theorem accepted_struct (hΓ : Γ.WellFormed) (hu : Γ.NoUnionPtr)
    (hbase : base % 8 = 0) (hsize : size < 2 ^ 32) (hend : base + size ≤ 2 ^ 64)
    (h : (structValidate (dispatchValidate Γ m numHandles n) m (Γ.struct i) base size ctx).value =
      some (.errorNone, ctx')) :
    base ≠ 0 ∧ StructHeaderOk (Γ.struct i) m base size ∧
      Accepted Γ m (base + size) numHandles n (structKids (Γ.struct i) m base)
        { ctx with nextPointer := base + load m base 4 } ctx' := by
  obtain ⟨hpos, hhdr, hentries⟩ := structValidate_none_iff.mp h
  have hshort : base + size - base < 2 ^ 32 := by omega
  have hrest : size = base + size - base := by omega
  have hin := hhdr.inside
  rw [hrest] at hhdr hentries
  rw [structValidateEntries_of_header (hΓ.struct i) hshort (by omega) hhdr] at hentries
  refine ⟨hpos, hrest ▸ hhdr, ?_⟩
  apply accepted_of_passes _ _ _ _ _ _ hentries
  · intro q _ c c' hok hle hq
    exact accepted_step hΓ hu hend n q c c' hok hle hq
  · intro q hq
    exact structKids_slotOk (hΓ.struct i) hshort hbase hhdr hq
  · dsimp only
    omega

theorem index_events (m : Mem) (items : List Item) :
    (items.flatMap (itemEvents m)).filterMap DecodeEvent.index =
      (indices m items).map Extent.addr := by
  induction items with
  | nil => rfl
  | cons i items ih =>
    rw [flatMap_cons, filterMap_append, ih]
    cases i with
    | pointer slot t => cases t <;> rfl
    | handle slot =>
      simp only [itemEvents, indices, filterMap_cons]
      split_ifs <;> rfl

theorem Decodable.index_of_mem (h : Decodable Γ m lim numHandles p) {slot : ℕ}
    (hi : .handle slot ∈ (scheme Γ .onWire).items m p) :
    load m slot 4 = encodedHandleInvalid ∨ load m slot 4 < numHandles := by
  cases hty : p.1.type with
  | structPtr | mapPtr | arrayPtr =>
    simp only [scheme, placeItems, hty] at hi
    split_ifs at hi <;> simp at hi
  | union | unionPtr | pod => simp [scheme, placeItems, hty] at hi
  | handle | interface =>
    simp only [scheme, placeItems, hty, mem_singleton, Item.handle.injEq] at hi
    rw [hi]
    exact h.index (by simp [Elem.IsHandle, hty])

theorem mem_indices {items : List Item} (he : e ∈ indices m items) :
    ∃ slot, .handle slot ∈ items ∧ load m slot 4 ≠ encodedHandleInvalid ∧
      e = ⟨load m slot 4, 1⟩ := by
  obtain ⟨i, hi, he⟩ := mem_filterMap.mp he
  cases i with
  | pointer slot t => simp at he
  | handle slot =>
    by_cases hinv : load m slot 4 = encodedHandleInvalid
    · simp [hinv] at he
    · simp only [hinv, ↓reduceIte, Option.some.injEq] at he
      exact ⟨slot, hi, hinv, he.symm⟩

theorem Accepted.index_lt (h : Accepted Γ m lim numHandles n qs ctx ctx')
    (he : e ∈ indices m (qs.flatMap ((scheme Γ .onWire).walk m n))) : e.addr < numHandles := by
  obtain ⟨slot, hi, hinv, rfl⟩ := mem_indices he
  obtain ⟨q, hq, hi⟩ := mem_flatMap.mp hi
  have hidx := (h.legal q hq).forall_walk (Q := fun i => ∀ slot, i = .handle slot →
    load m slot 4 = encodedHandleInvalid ∨ load m slot 4 < numHandles) ?_ _ hi slot rfl
  · exact hidx.resolve_left hinv
  · intro p hp i hi slot hs
    subst hs
    exact hp.index_of_mem hi

theorem Accepted.structDecode_eq (hΓ : Γ.WellFormed) (handles : Option (List ℕ))
    (hnull : handles = none → numHandles = 0) (hpos : base ≠ 0) (hshort : lim - base < 2 ^ 32)
    (hhdr : StructHeaderOk (Γ.struct i) m base (lim - base))
    (hacc : Accepted Γ m lim numHandles n (structKids (Γ.struct i) m base)
      { ctx with nextPointer := base + load m base 4 } ctx') :
    structDecode (dispatchDecode Γ numHandles n) (Γ.struct i) base (lim - base) numHandles
      ⟨m, handles, []⟩ = decodeItems ⟨m, handles, [.object ⟨base, load m base 4⟩]⟩
        ((structKids (Γ.struct i) m base).flatMap ((scheme Γ .onWire).walk m n)) ∧
      ((structKids (Γ.struct i) m base).flatMap ((scheme Γ .onWire).walk m n)).Pairwise
        fun i j => Disjoint i.bytes j.bytes := by
  obtain ⟨h8, hin⟩ := hhdr.slots_inside (hΓ.struct i)
  have hpacked : Packed base (⟨base, load m base 4⟩ :: extents ((structKids (Γ.struct i) m
      base).flatMap ((scheme Γ .onWire).walk m n))) ctx'.nextPointer :=
    packed_cons.mpr ⟨le_rfl, hacc.packed⟩
  obtain ⟨hready, hapart⟩ := ready_root hΓ (hΓ.struct i) h8 hin
    (fun q hq => (hacc.legal q hq).imp fun p hp => hp.fits) hpacked.pairwise
  refine ⟨?_, Scheme.flatMap_walk_pairwise (fun q hq => Scheme.walk_pairwise n q (hapart q hq))
    hready.feet_apart⟩
  exact CBindings.structDecode_eq hpos hshort _ ⟨fun q hq =>
    ⟨(hacc.legal q hq).here.lt_lim, hapart q hq, decodesAt hΓ n q (hacc.legal q hq) (hapart q hq)⟩,
      hnull, hready⟩

structure DecodedSafely (base size numHandles : ℕ) (st : DecodeState) : Prop where
  pointers : ∀ slot v, .pointer slot v ∈ st.trace → v = 0 ∨ (v % 8 = 0 ∧ base ≤ v ∧ v < base + size)
  disjoint : st.objects.Pairwise fun e f => Disjoint e.bytes f.bytes
  inside : ∀ e ∈ st.objects, base ≤ e.addr ∧ e.stop ≤ base + size
  taken_once : st.taken.Nodup
  taken_inside : ∀ index ∈ st.taken, index < numHandles

/-- A buffer that validation accepts is decoded without a failed assertion: all
pointers stay inside, no two objects overlap, and no handle is taken twice. -/
theorem decode_safe_of_validate {Γ : Descriptors} (hΓ : Γ.WellFormed) (hu : Γ.NoUnionPtr)
    (m : Mem) (i base size cursor fuel fuel' : ℕ) (handles : List ℕ) (ctx' : ValidationContext)
    (hbase : base % 8 = 0) (hsize : size < 2 ^ 32) (hend : base + size ≤ 2 ^ 64)
    (hfuel : fuel ≤ fuel')
    (hv : (structValidate (dispatchValidate Γ m handles.length fuel) m (Γ.struct i) base size
      ⟨0, cursor⟩).value = some (.errorNone, ctx')) :
    ∃ st, structDecode (dispatchDecode Γ handles.length fuel') (Γ.struct i) base size
        handles.length ⟨m, some handles, []⟩ = .ok st ∧
      DecodedSafely base size handles.length st := by
  obtain ⟨hpos, hhdr, hacc⟩ := accepted_struct hΓ hu hbase hsize hend hv
  replace hacc := hacc.mono hfuel
  have hrest : base + size - base = size := by omega
  rw [← hrest] at hhdr
  have hsome := Option.some_ne_none handles
  obtain ⟨hdec, hslots⟩ := hacc.structDecode_eq hΓ _ (fun h => absurd h hsome) hpos (by omega) hhdr
  rw [hrest, decodeItems_of_handles _ hsome] at hdec
  refine ⟨_, hdec, ?_⟩
  have hpacked : Packed base (⟨base, load m base 4⟩ :: extents ((structKids (Γ.struct i) m
      base).flatMap ((scheme Γ .onWire).walk m fuel'))) ctx'.nextPointer :=
    packed_cons.mpr ⟨le_rfl, hacc.packed⟩
  have htrace := foldl_decodeItem_trace (m := m) _
    ⟨m, some handles, [.object ⟨base, load m base 4⟩]⟩ hsome hslots
    fun _ _ _ _ => rfl
  have hobjects := entered_events m
    ((structKids (Γ.struct i) m base).flatMap ((scheme Γ .onWire).walk m fuel'))
  have htaken := index_events m
    ((structKids (Γ.struct i) m base).flatMap ((scheme Γ .onWire).walk m fuel'))
  refine ⟨?_, ?_, ?_, ?_, ?_⟩
  · intro slot v h
    rw [htrace] at h
    rcases mem_append.mp h with h | h
    · simp at h
    · rcases pointer_mem_events h with h | h
      · exact Or.inl h
      · obtain ⟨e, he, rfl⟩ := h
        have hs := hacc.shaped e he
        have hm := hpacked.mem (.tail _ he)
        have hstop := hacc.stop
        simp only [Extent.stop, headerSize] at hm hs
        exact Or.inr ⟨hs.1, hm.1, by omega⟩
  · simp only [DecodeState.objects, htrace, filterMap_append, hobjects]
    exact hpacked.pairwise
  · simp only [DecodeState.objects, htrace, filterMap_append, hobjects]
    intro e he
    have hm := hpacked.mem he
    exact ⟨hm.1, hm.2.trans hacc.stop⟩
  · simp only [DecodeState.taken, htrace, filterMap_append, htaken]
    refine (hacc.indexed.addr_lt ?_).imp fun h => h.ne
    intro e he
    obtain ⟨slot, -, -, rfl⟩ := mem_indices he
    exact Nat.one_pos
  · simp only [DecodeState.taken, htrace, filterMap_append, htaken]
    intro index hi
    obtain ⟨e, he, rfl⟩ := mem_map.mp hi
    exact hacc.index_lt he

def twoNodes : Mem := block 8 (words [24, 0, 16, 0, 1, 0, 24, 0, 0, 0, 0, 0])

theorem decode_safe_two_nodes :
    ∃ st, structDecode (dispatchDecode nodeDescriptors 2 3) (nodeDescriptors.struct 0) 8 48 2
        ⟨twoNodes, some [5, 6], []⟩ = .ok st ∧ DecodedSafely 8 48 2 st :=
  decode_safe_of_validate nodeDescriptors_wellFormed nodeDescriptors_noUnionPtr twoNodes 0
    8 48 0 3 3
    [5, 6] ⟨2, 56⟩ (by decide) (by decide) (by decide) le_rfl (by decide +kernel)

end Mojo.CBindings
