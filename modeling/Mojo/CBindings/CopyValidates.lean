import Mojo.CBindings.CopySize
import Mojo.CBindings.RoundTrip
import Mojo.CBindings.ValidateComplete

/-!
# What the library encodes, it accepts

Copying allocates objects, encoding numbers handles and validation expects both
in the order of one and the same walk. So an encoded copy of a value passes
validation, if the value itself has what validation asks of each place.
-/

namespace Mojo.CBindings

open Mojo.Memory

variable {Γ : Descriptors} {m : Mem} {ptrs : Set ℕ} {lim n : ℕ}

def arrayLength (m : Mem) (s : ℕ) : ℕ :=
  if load m s 8 = 0 then 0 else load m (load m s 8 + 4) 4

/-- What validation asks of a place, as far as the value itself goes: a listed
version with its size, arrays of the required length, a map with as many values
as keys, unions of the size of a union, and NULL or invalid handles only where
the type allows them. -/
@[mk_iff]
structure Exact (Γ : Descriptors) (m : Mem) (p : Place) : Prop where
  fits : Fits Γ .inMemory m p
  nonnull : p.1.IsObject → p.1.nullable ∨ target .inMemory m p.2 ≠ 0
  listed : p.1.IsStruct → target .inMemory m p.2 ≠ 0 →
    ⟨load m (target .inMemory m p.2 + 4) 4, load m (target .inMemory m p.2) 4⟩ ∈
      (Γ.struct p.1.desc).versions
  whole : p.1.IsStruct → target .inMemory m p.2 ≠ 0 → load m (target .inMemory m p.2) 4 % 8 = 0
  count : p.1.type = .arrayPtr → target .inMemory m p.2 ≠ 0 →
    (Γ.array p.1.desc).numElements = 0 ∨ load m (target .inMemory m p.2 + 4) 4 =
      (Γ.array p.1.desc).numElements
  elements : p.1.type = .arrayPtr → target .inMemory m p.2 ≠ 0 →
    headerSize + bitsToBytes ((Γ.array p.1.desc).elemNumBits *
      load m (target .inMemory m p.2 + 4) 4) ≤ load m (target .inMemory m p.2) 4
  paired : p.1.type = .mapPtr → ∀ q ∈ (scheme Γ .inMemory).kids m p,
    ∀ r ∈ (scheme Γ .inMemory).kids m p, q.1.type = .arrayPtr → r.1.type = .arrayPtr →
      arrayLength m q.2 = arrayLength m r.2
  layout : p.1.type = .union → load m p.2 4 = 0 ∧ p.1.nullable ∨ load m p.2 4 = unionLayoutSize
  valid : p.1.IsHandle → p.1.nullable ∨ load m p.2 4 ≠ handleInvalid

instance (k : Elem) : Decidable k.IsStruct := inferInstanceAs (Decidable (_ ∨ _))

instance (Γ : Descriptors) (m : Mem) : DecidablePred (Exact Γ m) := fun p =>
  decidable_of_iff _ (exact_iff Γ m p).symm

variable {m' : Mem} {p : Place}

variable {p' : Place}

theorem Alike.arrayLength_eq (h : Alike m m' ptrs p p')
    (hty : p.1.type = .arrayPtr) : arrayLength m' p'.2 = arrayLength m p.2 := by
  have hobj : p.1.IsObject := Or.inr (Or.inr hty)
  have hnull : load m' p'.2 8 = 0 ↔ load m p.2 8 = 0 := h.null hobj
  unfold arrayLength
  by_cases h0 : load m p.2 8 = 0
  · rw [if_pos h0, if_pos (hnull.mpr h0)]
  · rw [if_neg h0, if_neg (hnull.not.mpr h0)]
    exact (h.header hobj h0).2

theorem Exact.copied (hp : Exact Γ m p) (h : Copied Γ m m' ptrs (n + 1) p p') : Exact Γ m' p' := by
  obtain ⟨hl, hkids⟩ := h
  have he := hl.elem
  -- A part that speaks of the header of an object.
  have hpart : p'.1.IsObject → target .inMemory m' p'.2 ≠ 0 → p.1.IsObject ∧
      target .inMemory m p.2 ≠ 0 ∧
      load m' (target .inMemory m' p'.2) 4 = load m (target .inMemory m p.2) 4 ∧
      load m' (target .inMemory m' p'.2 + 4) 4 = load m (target .inMemory m p.2 + 4) 4 := by
    intro hobj ht
    rw [he] at hobj
    have ht₀ := (hl.null hobj).not.mp ht
    exact ⟨hobj, ht₀, hl.header hobj ht₀⟩
  refine ⟨hl.fits hp.fits, ?_, ?_, ?_, ?_, ?_, ?_, ?_, ?_⟩
  · intro hobj
    rw [he] at hobj ⊢
    exact (hp.nonnull hobj).imp id (hl.null hobj).not.mpr
  · intro hs ht
    obtain ⟨-, ht₀, h₁, h₂⟩ := hpart hs.isObject ht
    rw [he] at hs ⊢
    rw [h₁, h₂]
    exact hp.listed hs ht₀
  · intro hs ht
    obtain ⟨-, ht₀, h₁, -⟩ := hpart hs.isObject ht
    rw [he] at hs
    rw [h₁]
    exact hp.whole hs ht₀
  · intro hty ht
    obtain ⟨-, ht₀, -, h₂⟩ := hpart (Or.inr (Or.inr hty)) ht
    rw [he] at hty ⊢
    rw [h₂]
    exact hp.count hty ht₀
  · intro hty ht
    obtain ⟨-, ht₀, h₁, h₂⟩ := hpart (Or.inr (Or.inr hty)) ht
    rw [he] at hty ⊢
    rw [h₁, h₂]
    exact hp.elements hty ht₀
  · intro hty q' hq' r' hr' hqty hrty
    rw [he] at hty
    rw [hl.kids] at hq' hr'
    obtain ⟨q, hq, rfl⟩ := List.mem_map.mp hq'
    obtain ⟨r, hr, rfl⟩ := List.mem_map.mp hr'
    rw [(hkids q hq).here.arrayLength_eq hqty, (hkids r hr).here.arrayLength_eq hrty]
    exact hp.paired hty q hq r hr hqty hrty
  · intro hty
    rw [he] at hty ⊢
    rw [(hl.union hty).1]
    exact hp.layout hty
  · intro hh
    rw [he] at hh ⊢
    rw [hl.handle hh]
    exact hp.valid hh

theorem Alike.validHandles_items (h : Alike m m' ptrs p p') :
    validHandles m' ((scheme Γ .inMemory).items m' p') =
      validHandles m ((scheme Γ .inMemory).items m p) := by
  have he := h.elem
  by_cases hobj : p.1.IsObject
  · have hnone : ∀ mem (p : Place), p.1.IsObject →
        validHandles mem ((scheme Γ .inMemory).items mem p) = [] := by
      intro mem p hobj
      by_cases ht : target .inMemory mem p.2 = 0
      · rw [(hobj.null_eq ht).1]
        rfl
      · rw [hobj.items_eq ht]
        rfl
    rw [hnone m p hobj, hnone m' p' (h.isObject hobj)]
  · cases hty : p.1.type with
    | structPtr | mapPtr | arrayPtr => simp [Elem.IsObject, hty] at hobj
    | union | unionPtr | pod =>
      simp only [scheme, placeItems, he, hty]
      rfl
    | handle | interface =>
      have hload := h.handle (by simp [Elem.IsHandle, hty])
      simp only [scheme, placeItems, he, hty, validHandles, List.filterMap_cons, hload,
        List.filterMap_nil]

variable {d : TypeDescriptorStruct}

theorem StructCopied.validHandles {t t' : ℕ}
    (h : StructCopied Γ d m m' n t t') : validHandles m' (structWalk Γ .inMemory d m' t' n) =
      validHandles m (structWalk Γ .inMemory d m t n) := by
  rw [structWalk, structWalk, structKids_moved h.version]
  have hkids := h.copied
  generalize structKids d m t = qs at hkids
  induction qs with
  | nil => rfl
  | cons q qs ih =>
    rw [List.map_cons, List.flatMap_cons, List.flatMap_cons, validHandles_append,
      validHandles_append, ih fun r hr => hkids r (.tail _ hr)]
    congr 1
    exact (hkids q (.head _)).flatMap_walk (validHandles_append m) (validHandles_append m')
      rfl rfl fun _ _ hp => hp.validHandles_items

theorem foldl_encodeItem_indices (items : List Item) (st : EncodeState) (h : Pending m items st)
    (hused : st.buffer.numHandlesUsed + (validHandles m items).length ≤ uint32Max) :
    Packed st.buffer.numHandlesUsed (indices (items.foldl encodeItem st).mem items)
      (st.buffer.numHandlesUsed + (validHandles m items).length) := by
  induction items generalizing st with
  | nil => exact le_rfl
  | cons i items ih =>
    obtain ⟨hrest, hcount⟩ := h.step
    rw [validHandles_cons m i items, List.length_append, ← Nat.add_assoc, ← hcount] at hused ⊢
    rw [List.foldl_cons, ← List.singleton_append (l := items), indices_append]
    refine Packed.append ?_ (ih (encodeItem st i) hrest hused)
    have hkeep : Set.EqOn (items.foldl encodeItem (encodeItem st i)).mem (encodeItem st i).mem
        i.bytes :=
      eqOn_foldl_encodeItem fun _ => List.rel_of_pairwise_cons h.apart
    cases i with
    | pointer slot t =>
      rw [hcount]
      exact Nat.le_add_right _ _
    | handle slot =>
      have hwire := (load_congr hkeep).trans (load_encodeItem_handle h.handles (h.same _ (.head _))
        (by omega))
      by_cases h0 : load m slot 4 = handleInvalid
      · rw [if_pos h0] at hwire
        simp only [indices, List.filterMap_cons, hwire, ↓reduceIte, List.filterMap_nil, Packed]
        omega
      · rw [validHandles_cons_valid h0] at hcount
        simp only [List.length_cons] at hcount
        have hne : st.buffer.numHandlesUsed ≠ encodedHandleInvalid := by
          simp only [encodedHandleInvalid]
          omega
        rw [if_neg h0] at hwire
        simp only [indices, List.filterMap_cons, hwire, hne, ↓reduceIte, List.filterMap_nil, Packed,
          Extent.stop]
        omega

theorem Exact.encodable {base size stop : ℕ} (hp : Exact Γ m p)
    (hf : (scheme Γ .inMemory).Forward m Elem.size base stop p) (hbase : base ≠ 0)
    (hsize : size < 2 ^ 32) (hstop : stop ≤ base + size) : Encodable Γ m (base + size) p := by
  have hb := hf.base_le
  have hs := hf.le_stop
  have hobject : p.1.IsObject → target .inMemory m p.2 ≠ 0 →
      p.2 + 8 ≤ target .inMemory m p.2 ∧ target .inMemory m p.2 +
        load m (target .inMemory m p.2) 4 ≤ stop := by
    intro hobj ht
    have he := hf.object ⟨target .inMemory m p.2, load m (target .inMemory m p.2) 4⟩ (by
      rw [hobj.items_eq ht, extents_cons_some]
      exact .head _)
    rw [hobj.size_eq] at he
    exact he
  exact ⟨⟨hp.fits, by omega, by omega, by omega, hp.nonnull, fun hobj ht => (hobject hobj ht).1,
    fun hobj ht => (hobject hobj ht).2.trans hstop⟩, hp.valid⟩

theorem sizeOk_of_listed (hd : d.WellFormed) {t : ℕ}
    (h : ⟨load m (t + 4) 4, load m t 4⟩ ∈ d.versions) : sizeOk m t d.versions := by
  obtain ⟨hmem, hle, hnew⟩ := hd.newest_seekLast (load m (t + 4) 4)
  have hver : (seekLast d.versions (load m (t + 4) 4)).version = load m (t + 4) 4 :=
    Nat.le_antisymm hle (hnew _ h le_rfl)
  have hsame : seekLast d.versions (load m (t + 4) 4) = ⟨load m (t + 4) 4, load m t 4⟩ := by
    by_contra hne
    have hlt : (seekLast d.versions (load m (t + 4) 4)).version ≠ load m (t + 4) 4 := by
      have hirr : d.versions.Pairwise fun r r' => r.version ≠ r'.version :=
        hd.increasing.imp fun h => h.ne
      have : Std.Symm fun r r' : TypeDescriptorStructVersion => r.version ≠ r'.version :=
        ⟨fun _ _ h => h.symm⟩
      exact hirr.forall hmem h hne
    exact hlt hver
  simp [sizeOk, hsame]

theorem Encodable.checked (hΓ : Γ.WellFormed) {used : ℕ} (hp : Encodable Γ m lim p)
    (hx : Exact Γ m p) (hlim : lim ≤ 2 ^ 64) (hused : used ≤ uint32Max)
    (heq : Set.EqOn m m' ((scheme Γ .inMemory).touch m p \ slots ((scheme Γ .inMemory).items m p)))
    (hw : ∀ i ∈ (scheme Γ .inMemory).items m p, Wire m used m' i) :
    Checked Γ m' lim used (arrayLength m) p := by
  obtain ⟨-, hkids, hdec⟩ := hp.wire hlim heq hw
  -- A pointer that is not NULL on the wire was not NULL in memory.
  have hne : p.1.IsObject → load m' p.2 8 ≠ 0 → target .inMemory m p.2 ≠ 0 :=
    fun hobj h0 ht => h0 (Encodable.wire_null hobj ht hw)
  have hslot : p.1.IsObject → p.2 + 8 ≤ lim := fun hobj => hobj.size_eq ▸ hp.room
  refine ⟨?_, ?_, ?_, ?_, ?_, ?_, ?_, ?_, ?_⟩
  · intro hobj h0
    by_contra hn
    have ht := (hp.nonnull hobj).resolve_left hn
    have hfw := hp.forward hobj ht
    have hoff := (hp.wire_target hlim hobj ht heq hw).1
    omega
  · intro hobj h0
    have ht := hne hobj h0
    have hfw := hp.forward hobj ht
    obtain ⟨hoff, htgt, -⟩ := hp.wire_target hlim hobj ht heq hw
    omega
  · intro hs h0
    have hobj := hs.isObject
    have ht := hne hobj h0
    obtain ⟨-, htgt, hhdr⟩ := hp.wire_target hlim hobj ht heq hw
    obtain ⟨h₁, h₂⟩ := loads_congr hhdr
    have hin := hp.inside hobj ht
    have hroom := (hp.reach hobj ht).1
    rw [htgt]
    refine ⟨by omega, by rw [h₁]; omega, ?_, by rw [h₁]; exact hx.whole hs ht⟩
    exact sizeOk_of_listed (hΓ.struct _) (by rw [h₁, h₂]; exact hx.listed hs ht)
  · intro hty h0
    have hobj : p.1.IsObject := Or.inr (Or.inr hty)
    have ht := hne hobj h0
    obtain ⟨-, htgt, hhdr⟩ := hp.wire_target hlim hobj ht heq hw
    obtain ⟨h₁, h₂⟩ := loads_congr hhdr
    have hin := hp.inside hobj ht
    have hroom := (hp.reach hobj ht).1
    rw [htgt]
    exact ⟨by omega, by rw [h₁]; exact hp.fits.header hobj ht, by rw [h₁]; omega,
      by rw [h₂]; exact hx.count hty ht, by rw [h₁, h₂]; exact hx.elements hty ht⟩
  · intro hty
    have hobj : p.1.IsObject := Or.inr (Or.inr hty)
    have hroom := hslot hobj
    unfold wireLength arrayLength
    by_cases ht : target .inMemory m p.2 = 0
    · -- The upper half of the NULL offset is read as the number of elements.
      have h0 := Encodable.wire_null hobj ht hw
      rw [if_pos (show load m p.2 8 = 0 from ht), h0, Nat.add_zero, wrap64_of_lt (by omega)]
      exact load_eq_zero_of_subset h0 (span_subset (by omega) (by omega))
    · have hfw := hp.forward hobj ht
      have hin := hp.inside hobj ht
      obtain ⟨h8, -, -⟩ := hp.reach hobj ht
      simp only [headerSize] at h8
      obtain ⟨hoff, -, hhdr⟩ := hp.wire_target hlim hobj ht heq hw
      rw [if_neg (show ¬ load m p.2 8 = 0 from ht), hoff, Nat.add_sub_cancel' (by omega),
        wrap64_of_lt (by omega)]
      exact (loads_congr hhdr).2
  · intro hty
    rw [hkids]
    exact hx.paired hty
  · intro hty
    have hs : Set.EqOn m m' (span p.2 8) := by
      refine heq.mono ?_
      intro b hb
      refine ⟨?_, ?_⟩
      · simpa [scheme, placeTouch, hty] using hb
      · simp [scheme, placeItems, hty, slots]
    rw [(loads_congr hs).1]
    exact hx.layout hty
  · intro hh hinv
    have hwire : Wire m used m' (.handle p.2) := by
      rcases hh with hty | hty <;> exact hw _ (by simp [scheme, placeItems, hty])
    rcases hx.valid hh with hn | hv
    · exact hn
    · simp only [Wire, hv, ↓reduceIte] at hwire
      simp only [encodedHandleInvalid] at hinv
      omega
  · intro hh hinv
    exact (hdec.index hh).resolve_left hinv

section

variable {d : TypeDescriptorStruct} {t out base size : ℕ}

theorem StructCopied.exact (h : StructCopied Γ d m m' n t base)
    (hx : ∀ q ∈ structKids d m t, (scheme Γ .inMemory).Legal m (Exact Γ m) n q) :
    ∀ q ∈ structKids d m' base, (scheme Γ .inMemory).Legal m' (Exact Γ m') n q := by
  intro q' hq'
  rw [structKids_moved h.version] at hq'
  obtain ⟨q, hq, rfl⟩ := List.mem_map.mp hq'
  exact (h.copied q hq).legal (fun _ _ _ hc hp => hp.copied hc) (hx q hq)

theorem laidOut_of_packed (hΓ : Γ.WellFormed) {stop : ℕ} (hpos : base ≠ 0) (hsize : size < 2 ^ 32)
    (hlim : base + size ≤ 2 ^ 64) (hstop : stop ≤ base + size)
    (hheader : headerSize ≤ load m base 4)
    (hslots : ∀ e ∈ d.entries, e.minVersion ≤ load m (base + 4) 4 →
      headerSize + e.offset + slotSize e.elemType ≤ load m base 4)
    (hx : ∀ q ∈ structKids d m base, (scheme Γ .inMemory).Legal m (Exact Γ m) n q)
    (hp : Packed base (⟨base, load m base 4⟩ :: extents (structWalk Γ .inMemory d m base n)) stop) :
    LaidOut Γ d m base size n := by
  have hroot := hp.mem (.head _)
  simp only [Extent.stop] at hroot
  refine ⟨hpos, hsize, hlim, hheader, by omega, hslots, ?_, hp.pairwise⟩
  intro q hq
  obtain ⟨h₁, h₂⟩ := structKids_inside hq hslots
  have hnested : (scheme Γ .inMemory).Legal m
      (fun q => (scheme Γ .inMemory).Nested m Elem.size q ∧ 0 < Elem.size q.1) n q :=
    (hx q hq).imp fun _ hp => ⟨nested_of_fits hΓ hp.fits, hp.fits.size_pos⟩
  have hpq := (packed_cons.mp hp).2
  rw [structWalk, extents_flatMap] at hpq
  have hforward := hnested.forward (by omega : base ≤ q.2) h₂ (hpq.of_flatMap hq)
  exact ((hx q hq).and hforward).imp fun _ hp => hp.1.encodable hp.2 hpos hsize hstop

theorem ObjectCopied.laidOut (hΓ : Γ.WellFormed) (h : Value Γ d m t n)
    (hx : ∀ q ∈ structKids d m t, (scheme Γ .inMemory).Legal m (Exact Γ m) n q)
    {st st' : CopyState} (hcopy : ObjectCopied Γ m (pointerBytes (structWalk Γ .inMemory d m t n)) n
      t (structKids d m t) out st st')
    (hpos : st.buffer.cursor ≠ 0) (hsize : size < 2 ^ 32) (hlim : st.buffer.cursor + size ≤ 2 ^ 64)
    (hroom : copyRoom Γ d m t n ≤ size) : LaidOut Γ d st'.mem st.buffer.cursor size n := by
  have hs := hcopy.struct
  have hpacked := packed_stack le_roundTo8 st.buffer.cursor
    (load m t 4 :: lens (structWalk Γ .inMemory d m t n))
  rw [← hcopy.structWalk_extents] at hpacked
  apply laidOut_of_packed hΓ hpos hsize hlim (Nat.add_le_add_left hroom _) (hs.size ▸ h.header)
    _ (hs.exact hx) hpacked
  rw [hs.size, hs.version]
  exact h.slots

theorem LaidOut.structValidate_encode {i : ℕ} (hΓ : Γ.WellFormed) (hu : Γ.NoUnionPtr)
    (h : LaidOut Γ (Γ.struct i) m base size n)
    (hlisted : ⟨load m (base + 4) 4, load m base 4⟩ ∈ (Γ.struct i).versions)
    (hwhole : load m base 4 % 8 = 0)
    (hx : ∀ q ∈ structKids (Γ.struct i) m base, (scheme Γ .inMemory).Legal m (Exact Γ m) n q)
    (hp : Packed base (⟨base, load m base 4⟩ :: extents
      (structWalk Γ .inMemory (Γ.struct i) m base n)) (base + size))
    (haligned : ∀ e ∈ ⟨base, load m base 4⟩ :: extents (structWalk Γ .inMemory (Γ.struct i) m base
      n), 8 ∣ e.addr)
    {enc : EncodeState} {table : List ℕ}
    (henc : Encoded m (structWalk Γ .inMemory (Γ.struct i) m base n) enc table)
    (hused : enc.buffer.numHandlesUsed ≤ uint32Max)
    (hidx : Packed 0 (indices enc.mem (structWalk Γ .inMemory (Γ.struct i) m base n))
      enc.buffer.numHandlesUsed) (next : ℕ) :
    ∃ ctx, (structValidate (dispatchValidate Γ enc.mem enc.buffer.numHandlesUsed n) enc.mem
      (Γ.struct i) base size ⟨0, next⟩).value = some (.errorNone, ctx) := by
  have hd := hΓ.struct i
  have hsame := h.structWalk_wire hΓ hd henc.frame henc.wire
  obtain ⟨hhdr, hwalk⟩ := h.transfer hΓ hd henc.frame henc.wire
    (Q := Checked Γ enc.mem (base + size) enc.buffer.numHandlesUsed (arrayLength m))
    (fun q hq => (h.legal q hq).and (hx q hq))
    (fun p hp he hw => by
      obtain ⟨hitems, hkids, -⟩ := hp.1.wire h.stop he hw
      exact ⟨hitems, hkids, hp.1.checked hΓ hp.2 h.stop hused he hw⟩)
  have hkids : structKids (Γ.struct i) enc.mem base = structKids (Γ.struct i) m base :=
    structKids_congr hhdr
  obtain ⟨hnum, hver⟩ := loads_congr hhdr
  have hheader := h.header
  have hinside := h.inside
  have hshort : base + size - base < 2 ^ 32 := (Nat.add_sub_cancel_left ..).trans_lt h.size_lt
  have hok : StructHeaderOk (Γ.struct i) enc.mem base (base + size - base) := by
    rw [Nat.add_sub_cancel_left]
    refine ⟨by omega, by omega, sizeOk_of_listed hd ?_, by omega⟩
    rw [hnum, hver]
    exact hlisted
  have horder : InOrder Γ enc.mem n (structKids (Γ.struct i) enc.mem base)
      ⟨0, base + load enc.mem base 4⟩ ⟨enc.buffer.numHandlesUsed, base + size⟩ := by
    change structWalk Γ .onWire _ _ _ _ = _ at hsame
    unfold structWalk at hsame
    refine ⟨?_, ?_, ?_⟩ <;> rw [hsame]
    · rw [hnum]
      exact (packed_cons.mp hp).2
    · exact hidx
    · exact fun e he => Nat.mod_eq_zero_of_dvd (haligned e (.tail _ he))
  have hbase : base % 8 = 0 := Nat.mod_eq_zero_of_dvd (haligned _ (.head _))
  obtain ⟨ctx, hpass, -, -⟩ := validates_all _
    (fun q hq c s (hq' : SlotOk (base + size) c.nextPointer q) hs hin => validates_step hΓ hu h.stop
      n q c s (uses_structKids hq) (hwalk q (hkids ▸ hq)).2 hq' hs hin) _ _
    (fun q hq => structKids_slotOk hd hshort hbase hok hq) le_rfl horder
  refine ⟨ctx, structValidate_none_iff.mpr ⟨h.pos, ?_, ?_⟩⟩
  · rwa [Nat.add_sub_cancel_left] at hok
  · have hiff := (structValidateEntries_of_header hd hshort (Nat.le_add_right base size) hok).mpr
      hpass
    rwa [Nat.add_sub_cancel_left] at hiff

end

/-- Encoding a copy of a value gives bytes that validation accepts, with as many
handles as encoding used. -/
theorem validate_encode_deepCopy {Γ : Descriptors} (hΓ : Γ.WellFormed) (hu : Γ.NoUnionPtr) (m : Mem)
    (i t out fuel size next : ℕ) (b : Buffer) (handles : List ℕ) (numHandles : ℕ)
    (h : Value Γ (Γ.struct i) m t fuel)
    (hlisted : ⟨load m (t + 4) 4, load m t 4⟩ ∈ (Γ.struct i).versions) (hwhole : load m t 4 % 8 = 0)
    (hx : ∀ q ∈ structKids (Γ.struct i) m t, (scheme Γ .inMemory).Legal m (Exact Γ m) fuel q)
    (hout : out ≠ 0)
    (hbuf : b.buf ≠ 0) (haligned : b.buf % 8 = 0) (hempty : b.numBytesUsed = 0)
    (hsize : b.bufSize < 2 ^ 32)
    (hstop : b.buf + b.bufSize ≤ 2 ^ 64) (hroom : copyRoom Γ (Γ.struct i) m t fuel ≤ size)
    (hfits : size ≤ b.bufSize) (hdest : Disjoint (treeBytes Γ (Γ.struct i) m t fuel) b.free)
    (hslot : Disjoint (span out 8) (treeBytes Γ (Γ.struct i) m t fuel))
    (hslot' : Disjoint (span out 8) b.free)
    (hnum : numHandles ≤ uint32Max) (hlen : numHandles ≤ handles.length)
    (hcap : (validHandles m (structWalk Γ .inMemory (Γ.struct i) m t fuel)).length ≤ numHandles) :
    ∃ st enc ctx, structDeepCopy (dispatchDeepCopy Γ fuel) (Γ.struct i) t out ⟨m, b⟩ =
      .ok (true, st) ∧ structEncode (dispatchEncode Γ fuel) (Γ.struct i) (load st.mem out 8) size
        ⟨st.mem, ⟨some handles, numHandles, 0⟩, []⟩ = .ok enc ∧
      (structValidate (dispatchValidate Γ enc.mem enc.buffer.numHandlesUsed fuel) enc.mem
        (Γ.struct i) (load st.mem out 8) size ⟨0, next⟩).value = some (.errorNone, ctx) := by
  have hd := hΓ.struct i
  have hcursor : b.cursor = b.buf := by rw [Buffer.cursor, hempty, Nat.add_zero]
  have hc : Copying m (treeBytes Γ (Γ.struct i) m t fuel) ⟨m, b⟩ :=
    ⟨fun _ _ => rfl, hdest, hcursor.trans_ne hbuf, by dsimp only; omega, hstop⟩
  obtain ⟨st, hx', -, hdone⟩ := h.copies hΓ hd hout hc hslot hslot'
  have hholds : b.Holds (copyRoom Γ (Γ.struct i) m t fuel) := by
    unfold Buffer.Holds
    omega
  have hcopy := hdone hholds
  have hs := hcopy.struct
  have hptr : load st.mem out 8 = b.cursor := hcopy.pointer
  have hl := hcopy.laidOut hΓ h hx (hcursor.trans_ne hbuf) (by omega) (by dsimp only; omega) hroom
  have hstack := hcopy.structWalk_extents
  have hpacked := packed_stack le_roundTo8 b.cursor
    (load m t 4 :: lens (structWalk Γ .inMemory (Γ.struct i) m t fuel))
  have hdvd := stack_aligned (hcursor ▸ Nat.dvd_of_mod_eq_zero haligned) dvd_roundTo8
    (load m t 4 :: lens (structWalk Γ .inMemory (Γ.struct i) m t fuel))
  rw [← hstack] at hpacked hdvd
  rw [← hs.validHandles] at hcap
  have hh : (⟨some handles, numHandles, 0⟩ : HandleBuffer).handles ≠ none :=
    Option.some_ne_none handles
  obtain ⟨table, henc⟩ := encoded_foldl (hl.pairwise hΓ hd) hl.holds hcap hlen hnum
  have hidx := foldl_encodeItem_indices (m := st.mem) _ ⟨st.mem, ⟨some handles, numHandles, 0⟩, []⟩
    ⟨hh, hl.pairwise hΓ hd, fun _ _ _ _ => rfl⟩
    (by simpa using hcap.trans hnum)
  simp only [Nat.zero_add] at hidx
  rw [← henc.used] at hidx
  obtain ⟨ctx, hval⟩ := hl.structValidate_encode hΓ hu (hs.version ▸ hs.size ▸ hlisted)
    (hs.size ▸ hwhole) (hs.exact hx) (hpacked.mono_right (Nat.add_le_add_left hroom _)) hdvd henc
    (henc.used ▸ hcap.trans hnum) hidx next
  rw [decide_eq_true hholds] at hx'
  have hencode := hl.structEncode_eq hΓ hd hh (by simpa using hcap)
  rw [← show load st.mem out 8 = _ from hptr] at hencode hval
  exact ⟨st, _, ctx, hx', hencode, hval⟩

theorem validate_encode_deepCopy_two_nodes : ∃ st enc ctx,
      structDeepCopy (dispatchDeepCopy nodeDescriptors 3) (nodeDescriptors.struct 0) 8 200
        ⟨twoNodesInMemory, ⟨64, 48, 0⟩⟩ = .ok (true, st) ∧
      structEncode (dispatchEncode nodeDescriptors 3) (nodeDescriptors.struct 0)
        (load st.mem 200 8) 48 ⟨st.mem, ⟨some [0, 0], 2, 0⟩, []⟩ = .ok enc ∧
      (structValidate (dispatchValidate nodeDescriptors enc.mem enc.buffer.numHandlesUsed 3) enc.mem
        (nodeDescriptors.struct 0) (load st.mem 200 8) 48 ⟨0, 0⟩).value = some (.errorNone, ctx) :=
  validate_encode_deepCopy nodeDescriptors_wellFormed nodeDescriptors_noUnionPtr twoNodesInMemory
    0 8 200 3 48 0 ⟨64, 48, 0⟩ [0, 0] 2 twoNodesInMemory_tree.toValue (by decide +kernel)
    (by decide +kernel) (by decide +kernel) (by decide) (by decide) (by decide) (by decide)
    (by decide) (by decide) (by decide +kernel) (by decide)
    ((span_disjoint_of_le (by decide)).mono_left twoNodesInMemory_treeBytes)
    ((span_disjoint_of_le (by decide)).symm.mono_right twoNodesInMemory_treeBytes)
    (span_disjoint_of_le (by decide)).symm (by decide) (by decide) (by decide +kernel)

end Mojo.CBindings
