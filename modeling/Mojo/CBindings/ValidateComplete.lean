import Mojo.CBindings.ValidateSound

/-!
# What validation accepts

The converse of the soundness of validation: a buffer whose places all pass
their own checks, whose objects follow one another in the order of the walk
and whose handle indices do the same, is accepted.
-/

namespace Mojo.CBindings

open Mojo.Memory

def wireLength (m : Mem) (s : ℕ) : ℕ := load m (wrap64 (s + load m s 8) + 4) 4

/-- What validation checks at a place, apart from the order of objects and
handles; `len` gives the number of elements of the array that a slot leads to. -/
structure Checked (Γ : Descriptors) (m : Mem) (lim numHandles : ℕ) (len : ℕ → ℕ) (p : Place) :
    Prop where
  null : p.1.IsObject → load m p.2 8 = 0 → p.1.nullable
  reach : p.1.IsObject → load m p.2 8 ≠ 0 → target .onWire m p.2 = p.2 + load m p.2 8
  struct : p.1.IsStruct → load m p.2 8 ≠ 0 →
    StructHeaderOk (Γ.struct p.1.desc) m (target .onWire m p.2) (lim - target .onWire m p.2)
  array : p.1.type = .arrayPtr → load m p.2 8 ≠ 0 →
    ArrayHeaderOk (Γ.array p.1.desc) m (target .onWire m p.2) (lim - target .onWire m p.2)
  length : p.1.type = .arrayPtr → wireLength m p.2 = len p.2
  paired : p.1.type = .mapPtr → ∀ q ∈ (scheme Γ .onWire).kids m p,
    ∀ r ∈ (scheme Γ .onWire).kids m p, q.1.type = .arrayPtr → r.1.type = .arrayPtr →
      len q.2 = len r.2
  union : p.1.type = .union → load m p.2 4 = 0 ∧ p.1.nullable ∨ load m p.2 4 = unionLayoutSize
  invalid : p.1.IsHandle → load m p.2 4 = encodedHandleInvalid → p.1.nullable
  index : p.1.IsHandle → load m p.2 4 ≠ encodedHandleInvalid → load m p.2 4 < numHandles

variable {Γ : Descriptors} {m : Mem} {lim numHandles n : ℕ} {len : ℕ → ℕ}
  {ctx ctx' : ValidationContext}

structure InOrder (Γ : Descriptors) (m : Mem) (n : ℕ) (qs : List Place)
    (ctx ctx' : ValidationContext) : Prop where
  packed : Packed ctx.nextPointer (extents (qs.flatMap ((scheme Γ .onWire).walk m n)))
    ctx'.nextPointer
  indexed : Packed ctx.nextHandleIndex (indices m (qs.flatMap ((scheme Γ .onWire).walk m n)))
    ctx'.nextHandleIndex
  aligned : ∀ e ∈ extents (qs.flatMap ((scheme Γ .onWire).walk m n)), e.addr % 8 = 0

def ValidationContext.le (c stop : ValidationContext) : Prop :=
  c.nextPointer ≤ stop.nextPointer ∧ c.nextHandleIndex ≤ stop.nextHandleIndex

def Validates (Γ : Descriptors) (m : Mem) (lim numHandles n : ℕ) (qs : List Place)
    (ctx stop : ValidationContext) : Prop :=
  ∃ c, Passes (dispatchValidate Γ m numHandles n) lim qs ctx c ∧ ctx.nextPointer ≤ c.nextPointer ∧
    c.le stop

variable {stop : ValidationContext}

variable {qs : List Place} {c : ValidationContext}

theorem InOrder.mono
    (h : InOrder Γ m n qs ctx stop) (hc : c.le ctx) : InOrder Γ m n qs c stop :=
  ⟨h.packed.mono_left hc.1, h.indexed.mono_left hc.2, h.aligned⟩

theorem InOrder.split {q : Place} (h : InOrder Γ m n (q :: qs) ctx stop) :
    ∃ mid, InOrder Γ m n [q] ctx mid ∧ InOrder Γ m n qs mid stop := by
  obtain ⟨hpacked, hindexed, haligned⟩ := h
  rw [List.flatMap_cons, extents_append] at hpacked haligned
  rw [List.flatMap_cons, indices_append] at hindexed
  obtain ⟨next, h₁, h₂⟩ := hpacked.split
  obtain ⟨index, h₃, h₄⟩ := hindexed.split
  refine ⟨⟨index, next⟩, ⟨?_, ?_, ?_⟩,
    ⟨h₂, h₄, fun e he => haligned e (List.mem_append_right _ he)⟩⟩
  · rw [List.flatMap_singleton]
    exact h₁
  · rw [List.flatMap_singleton]
    exact h₃
  · rw [List.flatMap_singleton]
    exact fun e he => haligned e (List.mem_append_left _ he)

theorem validates_all (qs : List Place)
    (hstep : ∀ q ∈ qs, ∀ c stop, SlotOk lim c.nextPointer q → stop.nextPointer ≤ lim →
      InOrder Γ m n [q] c stop → Validates Γ m lim numHandles n [q] c stop)
    (ctx stop : ValidationContext) (hok : ∀ q ∈ qs, SlotOk lim ctx.nextPointer q)
    (hlim : stop.nextPointer ≤ lim) (h : InOrder Γ m n qs ctx stop) :
    Validates Γ m lim numHandles n qs ctx stop := by
  induction qs generalizing ctx with
  | nil => exact ⟨ctx, rfl, le_rfl, h.packed, h.indexed⟩
  | cons q qs ih =>
    obtain ⟨mid, hq, hqs⟩ := h.split
    have hmid : mid.nextPointer ≤ lim := hqs.packed.le.trans hlim
    obtain ⟨c, ⟨c', hpass, hc'⟩, hle, hstop⟩ := hstep q (.head _) ctx mid (hok q (.head _)) hmid hq
    obtain rfl : c' = c := hc'
    have hrest : ∀ r ∈ qs, SlotOk lim c'.nextPointer r := by
      intro r hr
      have hr' := hok r (.tail _ hr)
      exact ⟨hr'.pos, hr'.before.trans hle, hr'.short, hr'.aligned, hr'.kind⟩
    obtain ⟨last, hpasses, hle', hstop'⟩ := ih (fun r hr => hstep r (.tail _ hr)) c' hrest
      (hqs.mono hstop)
    exact ⟨last, ⟨c', hpass, hpasses⟩, hle.trans hle', hstop'⟩

variable {p : Place}

theorem validates_singleton
    (h : PassesAt (dispatchValidate Γ m numHandles n) lim p ctx c)
    (hle : ctx.nextPointer ≤ c.nextPointer)
    (hstop : c.le stop) : Validates Γ m lim numHandles n [p] ctx stop :=
  ⟨c, ⟨c, h, rfl⟩, hle, hstop⟩

theorem InOrder.object (hty : p.1.IsObject) (ht : target .onWire m p.2 ≠ 0)
    (h : InOrder Γ m (n + 1) [p] ctx stop) :
    ctx.nextPointer ≤ target .onWire m p.2 ∧ target .onWire m p.2 % 8 = 0 ∧
      InOrder Γ m n ((scheme Γ .onWire).kids m p)
        { ctx with nextPointer := target .onWire m p.2 + load m (target .onWire m p.2) 4 }
        stop := by
  obtain ⟨hpacked, hindexed, haligned⟩ := h
  rw [List.flatMap_singleton, hty.walk_eq ht, extents_cons_some] at hpacked haligned
  rw [List.flatMap_singleton, hty.walk_eq ht, indices_cons_pointer] at hindexed
  exact ⟨hpacked.1, haligned _ (.head _), hpacked.2, hindexed, fun e he => haligned e (.tail _ he)⟩

theorem map_sameLength (hΓ : Γ.WellFormed) (huse : Γ.Uses p.1.type p.1.desc)
    (hty : p.1.type = .mapPtr)
    (hp : Checked Γ m lim numHandles len p) (ht : target .onWire m p.2 ≠ 0)
    (hkids : ∀ q ∈ (scheme Γ .onWire).kids m p, Checked Γ m lim numHandles len q) :
    sameLength m (target .onWire m p.2) := by
  have hs : p.1.IsStruct := Or.inr hty
  obtain ⟨keys, values, kn, vn, hentries⟩ := hΓ.map p.1.desc (hty ▸ huse)
  have hmem : ∀ e ∈ (Γ.struct p.1.desc).entries, e.minVersion = 0 := by simp [hentries]
  have hkid : ∀ e ∈ (Γ.struct p.1.desc).entries,
      (e.elem, target .onWire m p.2 + headerSize + e.offset) ∈ (scheme Γ .onWire).kids m p := by
    intro e he
    rw [hs.kids_eq ht]
    exact mem_structKids.mpr ⟨e, he, (hmem e he).trans_le (Nat.zero_le _), rfl⟩
  have hkmem := hkid ⟨.arrayPtr, keys, 0, 0, kn⟩ (by simp [hentries])
  have hvmem := hkid ⟨.arrayPtr, values, 8, 0, vn⟩ (by simp [hentries])
  have hk := (hkids _ hkmem).length rfl
  have hv := (hkids _ hvmem).length rfl
  have hpaired := hp.paired hty _ hkmem _ hvmem rfl rfl
  simp only [headerSize, Nat.add_zero] at hk hv hpaired
  exact hk.trans (hpaired.trans hv.symm)

theorem Checked.admits (hΓ : Γ.WellFormed) (huse : Γ.Uses p.1.type p.1.desc)
    (hp : Checked Γ m lim numHandles len p) (hobj : p.1.IsObject) (h0 : load m p.2 8 ≠ 0)
    (hok : SlotOk lim ctx.nextPointer p)
    (hkids : ∀ q ∈ (scheme Γ .onWire).kids m p, Checked Γ m lim numHandles len q)
    (hbehind : ctx.nextPointer ≤ target .onWire m p.2) (haligned : target .onWire m p.2 % 8 = 0) :
    AdmitsObject Γ m lim p ctx := by
  have htgt := hp.reach hobj h0
  have ht : target .onWire m p.2 ≠ 0 := by omega
  have hslot := hok.aligned (Or.inl hobj.isPointer)
  have hshort := hok.short
  have hheader : HeaderOk Γ p.1 m (target .onWire m p.2) (lim - target .onWire m p.2) := by
    rcases hobj with hty | hty | hty
    · simpa [HeaderOk, hty] using hp.struct (Or.inl hty) h0
    · simp only [HeaderOk, hty]
      exact ⟨hp.struct (Or.inr hty) h0, map_sameLength hΓ huse hty hp ht hkids⟩
    · simpa [HeaderOk, hty] using hp.array hty h0
  have hroom : headerSize ≤ lim - target .onWire m p.2 := by
    rcases hobj with hty | hty | hty
    · exact (hp.struct (Or.inl hty) h0).room
    · exact (hp.struct (Or.inr hty) h0).room
    · exact (hp.array hty h0).room
  simp only [headerSize] at hroom
  refine ⟨by omega, ?_, by omega, ht, hbehind, hheader⟩
  simp only [uint32Max]
  omega

theorem validates_step (hΓ : Γ.WellFormed) (hu : Γ.NoUnionPtr) (hlim : lim ≤ 2 ^ 64) (n : ℕ)
    (p : Place) (ctx stop : ValidationContext) (huse : Γ.Uses p.1.type p.1.desc)
    (hl : (scheme Γ .onWire).Legal m (Checked Γ m lim numHandles len) n p)
    (hok : SlotOk lim ctx.nextPointer p) (hstop : stop.nextPointer ≤ lim)
    (h : InOrder Γ m n [p] ctx stop) : Validates Γ m lim numHandles n [p] ctx stop := by
  induction n generalizing p ctx stop with
  | zero => cases hl
  | succ n ih =>
    obtain ⟨hp, hkids⟩ := hl
    have hhere := fun q hq => (hkids q hq).here
    have hle : p.2 ≤ lim := by
      have := hok.before
      have := h.packed.le
      omega
    have hsame : ctx.le stop := ⟨h.packed.le, h.indexed.le⟩
    have hkid := fun q hq c s hq' hs hin => ih q c s (uses_kids hq) (hkids q hq) hq' hs hin
    cases hty : p.1.type with
    | unionPtr => exact absurd hty hok.kind.1
    | pod => exact absurd hty hok.kind.2
    | structPtr | mapPtr | arrayPtr =>
      have hobj : p.1.IsObject := by simp [Elem.IsObject, hty]
      have hpasses : ∀ c, PassesObject Γ m lim numHandles n p ctx c →
          PassesAt (dispatchValidate Γ m numHandles (n + 1)) lim p ctx c := fun c =>
        (dispatchValidate_object_iff hΓ hok.pos hle hok.short hlim hobj).mpr
      by_cases h0 : load m p.2 8 = 0
      · refine validates_singleton (hpasses ctx ?_) le_rfl hsame
        rw [PassesObject, if_pos h0]
        exact ⟨hp.null hobj h0, rfl⟩
      · have htgt := hp.reach hobj h0
        have hshort := hok.short
        obtain ⟨hbehind, haligned, horder⟩ := h.object hobj (by omega)
        have hadmits := hp.admits hΓ huse hobj h0 hok hhere hbehind haligned
        have hslots := hadmits.header.kids_slotOk hΓ hobj hadmits.ne_zero haligned (by omega)
        obtain ⟨c, hpass, hc, hcs⟩ := validates_all _ hkid _ stop hslots hstop horder
        refine validates_singleton (hpasses c ?_) ?_ hcs
        · rw [PassesObject, if_neg h0]
          exact ⟨hadmits, hpass⟩
        · dsimp only at hc
          omega
    | union =>
      have hroom : p.2 + 16 ≤ lim := by
        have hbefore := hok.before
        have hpacked := h.packed.le
        simp only [Elem.size, hty, slotSize] at hbefore
        omega
      have hwalk := (List.flatMap_singleton ((scheme Γ .onWire).walk m (n + 1)) p).trans
        (union_walk hty n)
      have horder : InOrder Γ m n ((scheme Γ .onWire).kids m p) ctx stop :=
        ⟨hwalk ▸ h.packed, hwalk ▸ h.indexed, hwalk ▸ h.aligned⟩
      obtain ⟨c, hpass, hc, hcs⟩ := validates_all _ hkid _ stop
        (fun q hq => unionKids_slotOk hΓ hu hok hty (mem_union_kids hty hq)) hstop horder
      refine validates_singleton ((dispatchValidate_union_iff hty hok.pos hroom hok.short).mpr
        ⟨?_, ?_, hpass⟩) hc hcs
      · intro h0
        rcases hp.union hty with h₁ | h₁
        · exact h₁.2
        · simp [h0, unionLayoutSize] at h₁
      · intro _
        exact (hp.union hty).imp And.right id
    | handle | interface =>
      have hh : p.1.IsHandle := by simp [Elem.IsHandle, hty]
      have hindexed := h.indexed
      rw [List.flatMap_singleton, hh.walk_eq] at hindexed
      by_cases hinv : load m p.2 4 = encodedHandleInvalid
      · refine validates_singleton ((dispatchValidate_handle_iff hh hok.pos).mpr ?_) le_rfl hsame
        rw [if_pos hinv]
        exact ⟨hp.invalid hh hinv, rfl⟩
      · have hidx : indices m [.handle p.2] = [⟨load m p.2 4, 1⟩] := by
          simp [indices, hinv]
        rw [hidx, packed_cons] at hindexed
        refine validates_singleton (c := { ctx with nextHandleIndex := load m p.2 4 + 1 })
          ((dispatchValidate_handle_iff hh hok.pos).mpr ?_) le_rfl ⟨hsame.1, hindexed.2⟩
        rw [if_neg hinv]
        exact ⟨hp.index hh hinv, hindexed.1, rfl⟩

end Mojo.CBindings
