import Mojo.CBindings.EncodeFold
import Mojo.CBindings.DecodeFold

/-!
# Decoding undoes encoding

Encoding leaves in every slot of the walk the relative form of what was there,
and decoding, walking the same slots in the same order, puts the absolute form
back. The handle that was moved to the first free entry of the handle buffer is
the one that the index in its slot leads back to.
-/

namespace Mojo.CBindings

open Mojo.Memory
open List hiding Disjoint Mem span

variable {used : ℕ} {i : Item} {items : List Item} {st : EncodeState} {m' : Mem} {table : List ℕ}
  {p : Place} {Γ : Descriptors} {m : Mem} {lim n : ℕ}

def Holds (m : Mem) : Item → Prop
  | .pointer slot none => load m slot 8 = 0
  | .pointer slot (some e) => load m slot 8 = e.addr ∧ slot < e.addr
  | .handle _ => True

/-- What encoding leaves in the slot of an item, when `used` handles end up in use. -/
def Wire (m : Mem) (used : ℕ) (m' : Mem) : Item → Prop
  | .pointer slot none => load m' slot 8 = 0
  | .pointer slot (some e) => load m' slot 8 = e.addr - slot
  | .handle slot =>
    if load m slot 4 = handleInvalid then load m' slot 4 = encodedHandleInvalid
    else load m' slot 4 < used

theorem Wire.congr {m₁ m₂ : Mem} (h : Set.EqOn m₁ m₂ i.bytes) (hw : Wire m used m₁ i) :
    Wire m used m₂ i := by
  cases i with
  | pointer slot t => cases t <;> simpa [Wire, load_congr h] using hw
  | handle slot => simpa [Wire, load_congr h] using hw

theorem eqOn_foldl_encodeItem (hi : ∀ j ∈ items, Disjoint i.bytes j.bytes) :
    Set.EqOn (items.foldl encodeItem st).mem st.mem i.bytes := by
  refine (foldl_eqOn EncodeState.mem encodeItem encodeItem_eqOn items st).mono ?_
  intro b hb hs
  obtain ⟨j, hj, hs⟩ := hs
  exact Set.disjoint_left.mp (hi j hj) hb hs

theorem eqOn_foldl_decodeItem {st : DecodeState} (hi : ∀ j ∈ items, Disjoint i.bytes j.bytes) :
    Set.EqOn (items.foldl decodeItem st).mem st.mem i.bytes := by
  refine (foldl_eqOn DecodeState.mem decodeItem decodeItem_eqOn items st).mono ?_
  intro b hb hs
  obtain ⟨j, hj, hs⟩ := hs
  exact Set.disjoint_left.mp (hi j hj) hb hs

theorem Wire.mono {used' : ℕ} (h : used ≤ used') (hw : Wire m used m' i) : Wire m used' m' i := by
  cases i with
  | pointer slot t => cases t <;> exact hw
  | handle slot =>
    simp only [Wire] at hw ⊢
    split_ifs at hw ⊢
    · exact hw
    · exact hw.trans_le h

theorem load_encodeItem_handle {slot : ℕ} (hh : st.buffer.handles ≠ none)
    (hm : Set.EqOn m st.mem (span slot 4))
    (h : st.buffer.numHandlesUsed ≤ uint32Max) : load (encodeItem st (.handle slot)).mem slot 4 =
      if load m slot 4 = handleInvalid then encodedHandleInvalid else st.buffer.numHandlesUsed := by
  obtain ⟨handles, hs⟩ := Option.ne_none_iff_exists'.mp hh
  simp only [uint32Max] at h
  simp only [encodeItem, hs, ← load_congr hm]
  split_ifs
  · exact load_store_of_lt (by decide)
  · exact load_store_of_lt (by omega)

theorem encodeItem_wire (hh : st.buffer.handles ≠ none) (hm : Set.EqOn m st.mem i.bytes)
    (hok : Holds m i) (hused : st.buffer.numHandlesUsed ≤ uint32Max) :
    Wire m (encodeItem st i).buffer.numHandlesUsed (encodeItem st i).mem i := by
  cases i with
  | pointer slot t =>
    cases t with
    | none => exact load_store_of_lt (by omega)
    | some e =>
      have hlt := load_lt m slot 8
      rw [hok.1] at hlt
      exact load_store_of_lt (by omega)
  | handle slot =>
    have hload := load_encodeItem_handle hh hm hused
    have hcount := encodeItem_used hh hm
    simp only [Wire, hload]
    split_ifs with h0
    · rfl
    · rw [hcount, validHandles_cons_valid h0]
      exact Nat.lt_succ_self _

theorem foldl_encodeItem_wire (items : List Item) (st : EncodeState) (h : Pending m items st)
    (hok : ∀ i ∈ items, Holds m i)
    (hused : st.buffer.numHandlesUsed + (validHandles m items).length ≤ uint32Max) :
    ∀ i ∈ items, Wire m (st.buffer.numHandlesUsed + (validHandles m items).length)
      (items.foldl encodeItem st).mem i := by
  induction items generalizing st with
  | nil => exact fun i hi => absurd hi not_mem_nil
  | cons i items ih =>
    obtain ⟨hrest, hcount⟩ := h.step
    rw [validHandles_cons m i items, length_append, ← Nat.add_assoc, ← hcount] at hused ⊢
    intro j hj
    rw [foldl_cons]
    rcases mem_cons.mp hj with rfl | hj
    · have hw := encodeItem_wire h.handles (h.same j (.head _)) (hok j (.head _)) (by omega)
      exact (hw.congr (eqOn_foldl_encodeItem fun _ => rel_of_pairwise_cons h.apart).symm).mono
        (Nat.le_add_right _ _)
    · exact ih _ hrest (fun k hk => hok k (.tail _ hk)) hused j hj

theorem foldl_encodeItem_table (items : List Item) (st : EncodeState) (handles : List ℕ)
    (hh : st.buffer.handles = some handles) (h : Pending m items st)
    (hlen : st.buffer.numHandlesUsed + (validHandles m items).length ≤ handles.length) :
    ∃ table, (items.foldl encodeItem st).buffer.handles = some table ∧
      (∀ k < st.buffer.numHandlesUsed, table[k]? = handles[k]?) ∧
      ∀ j < (validHandles m items).length, table[st.buffer.numHandlesUsed + j]? =
        (validHandles m items)[j]? := by
  induction items generalizing st handles with
  | nil => exact ⟨handles, hh, fun k _ => rfl, fun j hj => absurd hj (by simp [validHandles])⟩
  | cons i items ih =>
    have hrest := h.step.1
    have hskip : validHandles m [i] = [] → (encodeItem st i).buffer = st.buffer →
        ∃ table, ((i :: items).foldl encodeItem st).buffer.handles = some table ∧
          (∀ k < st.buffer.numHandlesUsed, table[k]? = handles[k]?) ∧
          ∀ j < (validHandles m (i :: items)).length,
            table[st.buffer.numHandlesUsed + j]? = (validHandles m (i :: items))[j]? := by
      intro hnone hbuf
      rw [validHandles_cons m i items, hnone, nil_append] at hlen ⊢
      have := ih (encodeItem st i) handles (hbuf ▸ hh) hrest (hbuf ▸ hlen)
      rwa [hbuf] at this
    cases i with
    | pointer slot t => exact hskip rfl (by cases t <;> rfl)
    | handle slot =>
      have hload : load st.mem slot 4 = load m slot 4 := (load_congr (h.same _ (.head _))).symm
      by_cases h0 : load m slot 4 = handleInvalid
      · apply hskip (validHandles_cons_invalid h0 [])
        simp [encodeItem, hh, hload, h0, EncodeState.write]
      · rw [validHandles_cons_valid h0] at hlen ⊢
        simp only [length_cons] at hlen ⊢
        have hstep : encodeItem st (.handle slot) = st.push handles slot := by
          simp [encodeItem, hh, hload, h0]
        rw [hstep] at hrest
        obtain ⟨table, ht, hlow, hhigh⟩ := ih (st.push handles slot)
          (handles.set st.buffer.numHandlesUsed (load st.mem slot 4)) rfl hrest (by
            simp only [EncodeState.push, length_set]
            omega)
        simp only [EncodeState.push] at hlow hhigh
        refine ⟨table, by rw [foldl_cons, hstep]; exact ht, ?_, ?_⟩
        · intro k hk
          rw [hlow k (by omega), getElem?_set_ne (by omega)]
        · intro j hj
          cases j with
          | zero =>
            rw [Nat.add_zero, hlow _ (by omega), getElem?_set_self (by omega), hload]
            rfl
          | succ j =>
            have := hhigh j (by omega)
            rw [getElem?_cons_succ, ← this]
            congr 1
            omega

theorem decodeItem_restores {dec : DecodeState}
    (hh : st.buffer.handles ≠ none) (hm : Set.EqOn m st.mem i.bytes) (hok : Holds m i)
    (hused : st.buffer.numHandlesUsed + (validHandles m [i]).length ≤ uint32Max)
    (hdec : Set.EqOn (encodeItem st i).mem dec.mem i.bytes) (htable : dec.handles = some table)
    (hentries : ∀ j < (validHandles m [i]).length, table[st.buffer.numHandlesUsed + j]? =
      (validHandles m [i])[j]?) :
    Set.EqOn (decodeItem dec i).mem m i.bytes ∧
    ∃ table', (decodeItem dec i).handles = some table' ∧ (∀ k, k < st.buffer.numHandlesUsed ∨
        st.buffer.numHandlesUsed + (validHandles m [i]).length ≤ k → table'[k]? = table[k]?) ∧
      ∀ j < (validHandles m [i]).length, table'[st.buffer.numHandlesUsed + j]? =
        some handleInvalid := by
  cases i with
  | pointer slot t =>
    refine ⟨?_, table, by cases t <;> exact htable, fun k _ => rfl, fun j hj =>
      absurd hj (by simp [validHandles])⟩
    cases t with
    | none =>
      apply eqOn_of_load_eq
      rw [show load m slot 8 = 0 from hok]
      exact load_store_of_lt (by omega)
    | some e =>
      apply eqOn_of_load_eq
      have hlt := load_lt m slot 8
      rw [hok.1] at hlt ⊢
      exact load_store_of_lt hlt
  | handle slot =>
    have henc := (load_congr hdec).symm.trans (load_encodeItem_handle hh hm (by omega))
    by_cases h0 : load m slot 4 = handleInvalid
    · rw [if_pos h0] at henc
      have hstep : decodeItem dec (.handle slot) =
          { dec with mem := store dec.mem slot 4 handleInvalid } := by
        simp [decodeItem, htable, henc]
      rw [validHandles_cons_invalid h0] at hentries ⊢
      rw [hstep]
      refine ⟨eqOn_of_load_eq ?_, table, htable, fun k _ => rfl, fun j hj =>
        absurd hj (by simp [validHandles])⟩
      rw [h0]
      exact load_store_of_lt (by decide)
    · rw [validHandles_cons_valid h0] at hentries hused ⊢
      simp only [length_cons] at hentries hused ⊢
      have hentry : table[st.buffer.numHandlesUsed]? = some (load m slot 4) := hentries 0 (by omega)
      rw [if_neg h0] at henc
      have hne : st.buffer.numHandlesUsed ≠ encodedHandleInvalid := by
        simp only [encodedHandleInvalid]
        omega
      have hstep : decodeItem dec (.handle slot) =
          { mem := store dec.mem slot 4 (load m slot 4)
            handles := some (table.set st.buffer.numHandlesUsed handleInvalid)
            trace := dec.trace ++ [.taken st.buffer.numHandlesUsed] } := by
        simp [decodeItem, htable, henc, hne, hentry]
      rw [hstep]
      refine ⟨eqOn_of_load_eq (load_store_of_lt (load_lt m slot 4)), _, rfl, ?_, ?_⟩
      · intro k hk
        exact getElem?_set_ne (by simp [validHandles] at hk; omega)
      · intro j hj
        obtain rfl : j = 0 := by simp [validHandles] at hj; omega
        obtain ⟨hlt, -⟩ := List.getElem?_eq_some_iff.mp hentry
        rw [Nat.add_zero, getElem?_set_self hlt]

theorem foldl_decodeItem_restores (items : List Item) (st : EncodeState) (dec : DecodeState)
    (table : List ℕ) (h : Pending m items st) (hok : ∀ i ∈ items, Holds m i)
    (hused : st.buffer.numHandlesUsed + (validHandles m items).length ≤ uint32Max)
    (hdec : ∀ i ∈ items, Set.EqOn (items.foldl encodeItem st).mem dec.mem i.bytes)
    (htable : dec.handles = some table)
    (hentries : ∀ j < (validHandles m items).length,
      table[st.buffer.numHandlesUsed + j]? = (validHandles m items)[j]?) :
    (∀ i ∈ items, Set.EqOn (items.foldl decodeItem dec).mem m i.bytes) ∧
    ∃ table', (items.foldl decodeItem dec).handles = some table' ∧
      (∀ k < st.buffer.numHandlesUsed, table'[k]? = table[k]?) ∧
      ∀ j < (validHandles m items).length, table'[st.buffer.numHandlesUsed + j]? =
        some handleInvalid := by
  induction items generalizing st dec table with
  | nil =>
    exact ⟨fun i hi => absurd hi not_mem_nil, table, htable, fun k _ => rfl,
      fun j hj => absurd hj (by simp [validHandles])⟩
  | cons i items ih =>
    obtain ⟨hrest, hcount⟩ := h.step
    have hi := (pairwise_cons.mp h.apart).1
    rw [validHandles_cons m i items, length_append] at hused hentries ⊢
    rw [foldl_cons] at hdec ⊢
    obtain ⟨hmem, table₁, ht₁, hkeep₁, hzero₁⟩ := decodeItem_restores h.handles
      (h.same i (.head _)) (hok i (.head _)) (by omega)
      ((eqOn_foldl_encodeItem hi).symm.trans (hdec i (.head _))) htable
      fun j hj => by rw [hentries j (by omega), getElem?_append_left hj]
    obtain ⟨hmem', table₂, ht₂, hkeep₂, hzero₂⟩ := ih (encodeItem st i) (decodeItem dec i) table₁
      hrest (fun k hk => hok k (.tail _ hk)) (by omega)
      (by
        intro k hk b hb
        rw [hdec k (.tail _ hk) hb]
        exact (decodeItem_eqOn dec i (Set.disjoint_right.mp (hi k hk) hb)).symm)
      ht₁
      (by
        intro j hj
        rw [hcount, hkeep₁ _ (Or.inr (by omega)), Nat.add_assoc, hentries _ (by omega),
          getElem?_append_right (by omega)]
        congr 1
        omega)
    rw [hcount] at hkeep₂ hzero₂
    refine ⟨?_, table₂, ht₂, ?_, ?_⟩
    · intro k hk
      rcases hk with _ | ⟨_, hk⟩
      · exact (eqOn_foldl_decodeItem hi).trans hmem
      · exact hmem' k hk
    · intro k hk
      rw [hkeep₂ k (by omega), hkeep₁ k (Or.inl hk)]
    · intro j hj
      rcases Nat.lt_or_ge j (validHandles m [i]).length with hlt | hge
      · rw [hkeep₂ _ (by omega), hzero₁ j hlt]
      · have := hzero₂ (j - (validHandles m [i]).length) (by omega)
        rwa [show st.buffer.numHandlesUsed + (validHandles m [i]).length +
          (j - (validHandles m [i]).length) = st.buffer.numHandlesUsed + j by omega] at this

theorem Encodable.wire_target (hp : Encodable Γ m lim p)
    (hlim : lim ≤ 2 ^ 64) (hobj : p.1.IsObject) (ht : target .inMemory m p.2 ≠ 0)
    (heq : Set.EqOn m m' ((scheme Γ .inMemory).touch m p \ slots ((scheme Γ .inMemory).items m p)))
    (hw : ∀ i ∈ (scheme Γ .inMemory).items m p, Wire m used m' i) :
    load m' p.2 8 = target .inMemory m p.2 - p.2 ∧ target .onWire m' p.2 = target .inMemory m p.2 ∧
      Set.EqOn m m' (span (target .inMemory m p.2) 8) := by
  have hfw := hp.forward hobj ht
  have hin := hp.inside hobj ht
  obtain ⟨h8, -, -⟩ := hp.reach hobj ht
  simp only [headerSize] at h8
  have hwire : load m' p.2 8 = target .inMemory m p.2 - p.2 :=
    hw (.pointer p.2 (some ⟨_, _⟩)) (hobj.items_eq ht ▸ mem_singleton_self _)
  refine ⟨hwire, target_of_wire (by omega) (by omega) hwire, heq.mono ?_⟩
  intro b hb
  refine ⟨?_, ?_⟩
  · rw [hobj.touch_eq ht]
    exact Or.inr hb
  · rw [hobj.items_eq ht, slots_singleton]
    exact Set.disjoint_right.mp (span_disjoint_of_le hfw) hb

theorem Encodable.wire_null (hobj : p.1.IsObject) (ht : target .inMemory m p.2 = 0)
    (hw : ∀ i ∈ (scheme Γ .inMemory).items m p, Wire m used m' i) : load m' p.2 8 = 0 :=
  hw (.pointer p.2 none) ((hobj.null_eq (Γ := Γ) ht).1 ▸ mem_singleton_self _)

theorem Encodable.wire (hp : Encodable Γ m lim p) (hlim : lim ≤ 2 ^ 64)
    (heq : Set.EqOn m m' ((scheme Γ .inMemory).touch m p \ slots ((scheme Γ .inMemory).items m p)))
    (hw : ∀ i ∈ (scheme Γ .inMemory).items m p, Wire m used m' i) :
    (scheme Γ .onWire).items m' p = (scheme Γ .inMemory).items m p ∧
      (scheme Γ .onWire).kids m' p = (scheme Γ .inMemory).kids m p ∧
      Decodable Γ m' lim used p := by
  have hleaf : ¬ p.1.IsObject → Fits Γ .onWire m' p →
      (p.1.IsHandle → load m' p.2 4 = encodedHandleInvalid ∨ load m' p.2 4 < used) →
      Decodable Γ m' lim used p := fun hno hfits hidx =>
    ⟨⟨hfits, hp.pos, hp.room, hp.short, fun h => absurd h hno, fun h => absurd h hno,
      fun h => absurd h hno⟩, hidx⟩
  by_cases hobj : p.1.IsObject
  · have hnoh : ¬ p.1.IsHandle := by
      rcases hobj with h | h | h <;> simp [Elem.IsHandle, h]
    by_cases ht : target .inMemory m p.2 = 0
    · obtain ⟨hitems, hkids⟩ := hobj.null_eq (Γ := Γ) ht
      have h0 := Encodable.wire_null hobj ht hw
      have ht' : target .onWire m' p.2 = 0 := by simp [target, h0]
      obtain ⟨hitems', hkids'⟩ := hobj.null_eq (Γ := Γ) ht'
      have hfits : Fits Γ .onWire m' p := by
        simp only [Fits]
        rcases hobj with h | h | h <;> simp only [h] <;> exact fun hne => absurd ht' hne
      exact ⟨hitems'.trans hitems.symm, hkids'.trans hkids.symm, ⟨hfits, hp.pos, hp.room, hp.short,
        fun h => Or.inl ((hp.nonnull h).resolve_right (not_not.mpr ht)),
        fun _ hne => absurd ht' hne, fun _ hne => absurd ht' hne⟩, fun h => absurd h hnoh⟩
    · have hfw := hp.forward hobj ht
      have hin := hp.inside hobj ht
      obtain ⟨-, htgt, hhdr⟩ := hp.wire_target hlim hobj ht heq hw
      obtain ⟨hitems, hkids, hfits⟩ := hobj.transfer (Γ := Γ) ht htgt hhdr
      refine ⟨hitems, hkids, ⟨hfits hp.fits, hp.pos, hp.room, hp.short,
        fun _ => Or.inr (htgt ▸ ht), fun _ _ => htgt ▸ hfw, fun _ _ => ?_⟩, fun h => absurd h hnoh⟩
      rw [htgt, (loads_congr hhdr).1]
      exact hin
  · cases hty : p.1.type with
    | structPtr | mapPtr | arrayPtr => simp [Elem.IsObject, hty] at hobj
    | unionPtr | pod => simpa [Fits, hty] using hp.fits
    | union =>
      have hs : Set.EqOn m m' (span p.2 8) := by
        refine heq.mono ?_
        intro b hb
        refine ⟨?_, ?_⟩
        · simpa [scheme, placeTouch, hty] using hb
        · simp [scheme, placeItems, hty, slots]
      refine ⟨by simp only [scheme, placeItems, hty], ?_, hleaf hobj (by simp only [Fits, hty])
        (by simp [Elem.IsHandle, hty])⟩
      simp [scheme, placeKids, hty, (loads_congr hs).1, unionKids_congr hs]
    | handle | interface =>
      have hwire : Wire m used m' (.handle p.2) := hw _ (by simp [scheme, placeItems, hty])
      refine ⟨by simp only [scheme, placeItems, hty], by simp only [scheme, placeKids, hty],
        hleaf hobj (by simp only [Fits, hty]) fun _ => ?_⟩
      simp only [Wire] at hwire
      split_ifs at hwire
      · exact Or.inl hwire
      · exact Or.inr hwire

theorem Encodable.holds (hp : Encodable Γ m lim p) (hi : i ∈ (scheme Γ .inMemory).items m p) :
    Holds m i := by
  by_cases hobj : p.1.IsObject
  · by_cases ht : target .inMemory m p.2 = 0
    · rw [(hobj.null_eq (Γ := Γ) ht).1, mem_singleton] at hi
      rw [hi]
      exact ht
    · rw [hobj.items_eq ht, mem_singleton] at hi
      rw [hi]
      have hfw := hp.forward hobj ht
      exact ⟨rfl, by dsimp only; omega⟩
  · cases hty : p.1.type with
    | structPtr | mapPtr | arrayPtr => simp [Elem.IsObject, hty] at hobj
    | unionPtr | pod => simpa [Fits, hty] using hp.fits
    | union => simp [scheme, placeItems, hty] at hi
    | handle | interface =>
      simp only [scheme, placeItems, hty, mem_singleton] at hi
      rw [hi]
      trivial

/-- A value in memory, laid out in the `size` bytes from `base` on so that every
object lies behind the slot that leads to it and none overlap. -/
structure LaidOut (Γ : Descriptors) (d : TypeDescriptorStruct) (m : Mem) (base size depth : ℕ) :
    Prop where
  pos : base ≠ 0
  size_lt : size < 2 ^ 32
  stop : base + size ≤ 2 ^ 64
  header : headerSize ≤ load m base 4
  inside : load m base 4 ≤ size
  slots : ∀ e ∈ d.entries, e.minVersion ≤ load m (base + 4) 4 →
    headerSize + e.offset + slotSize e.elemType ≤ load m base 4
  legal : ∀ q ∈ structKids d m base, (scheme Γ .inMemory).Legal m (Encodable Γ m (base + size))
    depth q
  disjoint : (⟨base, load m base 4⟩ :: extents (structWalk Γ .inMemory d m base depth)).Pairwise
    fun e f => Disjoint e.bytes f.bytes

section

variable {d : TypeDescriptorStruct} {base size : ℕ}

theorem LaidOut.holds (h : LaidOut Γ d m base size n) :
    ∀ i ∈ structWalk Γ .inMemory d m base n, Holds m i := by
  intro i hi
  obtain ⟨q, hq, hi⟩ := mem_flatMap.mp hi
  exact (h.legal q hq).forall_walk (fun p hp i hi => hp.holds hi) i hi

variable (hΓ : Γ.WellFormed) (hd : d.WellFormed) (h : LaidOut Γ d m base size n)
include hΓ hd h

theorem LaidOut.ready :
    (scheme Γ .inMemory).Ready m n (span base 8) (structKids d m base) m ∧
      ∀ q ∈ structKids d m base, (scheme Γ .inMemory).Apart m n q :=
  ready_root hΓ hd h.header h.slots (fun q hq => (h.legal q hq).imp fun _ hp => hp.fits) h.disjoint

theorem LaidOut.pairwise :
    (structWalk Γ .inMemory d m base n).Pairwise fun i j => Disjoint i.bytes j.bytes := by
  obtain ⟨hready, hapart⟩ := h.ready hΓ hd
  exact Scheme.flatMap_walk_pairwise (fun q hq => Scheme.walk_pairwise n q (hapart q hq))
    hready.feet_apart

theorem LaidOut.structEncode_eq {buffer : HandleBuffer} (hh : buffer.handles ≠ none)
    (hcap : buffer.numHandlesUsed + (validHandles m (structWalk Γ .inMemory d m base n)).length ≤
      buffer.numHandles) :
    structEncode (dispatchEncode Γ n) d base size ⟨m, buffer, []⟩ =
      .ok ((structWalk Γ .inMemory d m base n).foldl encodeItem ⟨m, buffer, []⟩) := by
  obtain ⟨hready, hapart⟩ := h.ready hΓ hd
  have hshort : base + size - base < 2 ^ 32 := (Nat.add_sub_cancel_left ..).trans_lt h.size_lt
  have hheader := h.header
  have hinside := h.inside
  have henc := CBindings.structEncode_eq h.pos (by omega) hshort ⟨m, buffer, []⟩
    ⟨fun q hq => ⟨(h.legal q hq).here.lt_lim, hapart q hq, encodesAt hΓ n q (h.legal q hq)
      (hapart q hq)⟩, ⟨hh, hcap⟩, hready⟩
  rwa [Nat.add_sub_cancel_left] at henc

variable (heq : Set.EqOn m' m (Memory.slots (structWalk Γ .inMemory d m base n))ᶜ)
  (hw : ∀ i ∈ structWalk Γ .inMemory d m base n, Wire m used m' i)
include heq hw

theorem LaidOut.transfer {P Q : Place → Prop}
    (hP : ∀ q ∈ structKids d m base, (scheme Γ .inMemory).Legal m P n q)
    (hstep : ∀ p, P p → Set.EqOn m m' ((scheme Γ .inMemory).touch m p \ Memory.slots
      ((scheme Γ .inMemory).items m p)) → (∀ i ∈ (scheme Γ .inMemory).items m p, Wire m used m' i) →
      (scheme Γ .onWire).items m' p = (scheme Γ .inMemory).items m p ∧
        (scheme Γ .onWire).kids m' p = (scheme Γ .inMemory).kids m p ∧ Q p) :
    Set.EqOn m m' (span base 8) ∧ ∀ q ∈ structKids d m base,
      (scheme Γ .onWire).walk m' n q = (scheme Γ .inMemory).walk m n q ∧
      (scheme Γ .onWire).Legal m' Q n q := by
  obtain ⟨hready, hapart⟩ := h.ready hΓ hd
  refine ⟨?_, ?_⟩
  · intro b hb
    refine (heq ?_).symm
    intro hs
    obtain ⟨q, hq, hs⟩ := mem_slots_flatMap.mp hs
    exact Set.disjoint_left.mp (hready.header_apart q hq) hb (Scheme.slots_walk_subset_foot n q hs)
  · intro q hq
    apply (hP q hq).transfer hstep (hapart q hq)
    · intro b hb
      refine (heq fun hs => hb.2 ?_).symm
      exact Scheme.mem_slots_of_foot hready.feet_apart hq hb.1 hs
    · intro i hi
      exact hw i (mem_flatMap.mpr ⟨q, hq, hi⟩)

theorem LaidOut.wire :
    Set.EqOn m m' (span base 8) ∧ ∀ q ∈ structKids d m base,
      (scheme Γ .onWire).walk m' n q = (scheme Γ .inMemory).walk m n q ∧
      (scheme Γ .onWire).Legal m' (Decodable Γ m' (base + size) used) n q :=
  h.transfer hΓ hd heq hw h.legal fun _ hp he hR => hp.wire h.stop he hR

theorem LaidOut.structWalk_wire :
    structWalk Γ .onWire d m' base n = structWalk Γ .inMemory d m base n := by
  obtain ⟨hhdr, hwalk⟩ := h.wire hΓ hd heq hw
  simp only [structWalk, structKids_congr hhdr]
  exact flatMap_congr fun q hq => (hwalk q hq).1

theorem LaidOut.structDecode_eq :
    structDecode (dispatchDecode Γ used n) d base size used ⟨m', some table, []⟩ =
      .ok ((structWalk Γ .inMemory d m base n).foldl decodeItem
        ⟨m', some table, [.object ⟨base, load m base 4⟩]⟩) := by
  obtain ⟨hhdr, hwalk⟩ := h.wire hΓ hd heq hw
  obtain ⟨hnum, hver⟩ := loads_congr hhdr
  have hkids : structKids d m' base = structKids d m base := structKids_congr hhdr
  have hsame := h.structWalk_wire hΓ hd heq hw
  have hshort : base + size - base < 2 ^ 32 := (Nat.add_sub_cancel_left ..).trans_lt h.size_lt
  obtain ⟨hready, hapart⟩ := ready_root (f := .onWire) (m := m') (n := n) hΓ hd
    (hnum ▸ h.header) (by rw [hnum, hver]; exact h.slots)
    (by rw [hkids]; exact fun q hq => (hwalk q hq).2.imp fun _ hp => hp.fits)
    (by rw [hsame, hnum]; exact h.disjoint)
  rw [hkids] at hready hapart
  have hk : DecodesKids Γ m' (base + size) used n base (structKids d m' base)
      (.log ⟨m', some table, []⟩ (.object ⟨base, load m' base 4⟩)) := by
    rw [hkids]
    exact ⟨fun q hq => ⟨(hwalk q hq).2.here.lt_lim, hapart q hq, decodesAt hΓ n q (hwalk q hq).2
      (hapart q hq)⟩, fun h => absurd h (Option.some_ne_none table), hready⟩
  have hdec := CBindings.structDecode_eq h.pos hshort _ hk
  rw [Nat.add_sub_cancel_left, hnum, decodeItems_of_handles _ (Option.some_ne_none table)] at hdec
  rw [hdec, ← hsame]
  rfl

end

/-- What encoding makes of the slots `items` of a memory `m` with an empty handle buffer. -/
structure Encoded (m : Mem) (items : List Item) (enc : EncodeState) (table : List ℕ) : Prop where
  used : enc.buffer.numHandlesUsed = (validHandles m items).length
  handles : enc.buffer.handles = some table
  frame : Set.EqOn enc.mem m (slots items)ᶜ
  wire : ∀ i ∈ items, Wire m enc.buffer.numHandlesUsed enc.mem i
  restores : ∀ dec : DecodeState, dec.mem = enc.mem → dec.handles = some table →
    (items.foldl decodeItem dec).mem = m ∧
    ∃ table', (items.foldl decodeItem dec).handles = some table' ∧
      ∀ k < enc.buffer.numHandlesUsed, table'[k]? = some handleInvalid

theorem encoded_foldl {handles : List ℕ} {numHandles : ℕ}
    (hpw : items.Pairwise fun i j => Disjoint i.bytes j.bytes)
    (hok : ∀ i ∈ items, Holds m i) (hcap : (validHandles m items).length ≤ numHandles)
    (hlen : numHandles ≤ handles.length) (hnum : numHandles ≤ uint32Max) :
    ∃ table, Encoded m items (items.foldl encodeItem ⟨m, ⟨some handles, numHandles, 0⟩, []⟩)
      table := by
  have hpend : Pending m items ⟨m, ⟨some handles, numHandles, 0⟩, []⟩ :=
    ⟨Option.some_ne_none handles, hpw, fun _ _ _ _ => rfl⟩
  have hused := foldl_encodeItem_used items _ hpend
  have hwire := foldl_encodeItem_wire items _ hpend hok
  have hframe := foldl_eqOn EncodeState.mem encodeItem encodeItem_eqOn items
    ⟨m, ⟨some handles, numHandles, 0⟩, []⟩
  obtain ⟨table, htable, -, hentries⟩ := foldl_encodeItem_table items _ handles rfl hpend
    (by simpa using hcap.trans hlen)
  have hrestores := fun dec => foldl_decodeItem_restores items _ dec table hpend hok
  simp only [Nat.zero_add] at hused hwire hentries hrestores
  rw [← hused] at hwire
  refine ⟨table, hused, htable, hframe, hwire (by omega), ?_⟩
  intro dec hmem hdec
  obtain ⟨hslots, table', ht', -, hzero⟩ := hrestores dec (by omega) (fun _ _ _ _ => by rw [hmem])
    hdec hentries
  refine ⟨?_, table', ht', hused ▸ hzero⟩
  funext b
  by_cases hb : b ∈ slots items
  · obtain ⟨i, hi, hb⟩ := hb
    exact hslots i hi hb
  · rw [foldl_eqOn DecodeState.mem decodeItem decodeItem_eqOn items dec hb, hmem]
    exact hframe hb

/-- Decoding what encoding produced gives back every byte, and the handle
buffer, which held every valid handle of the value, is empty again. -/
theorem decode_encode {Γ : Descriptors} (hΓ : Γ.WellFormed) (m : Mem) (i base size fuel : ℕ)
    (handles : List ℕ) (numHandles : ℕ) (h : LaidOut Γ (Γ.struct i) m base size fuel)
    (hnum : numHandles ≤ uint32Max) (hlen : numHandles ≤ handles.length)
    (hcap : (validHandles m (structWalk Γ .inMemory (Γ.struct i) m base fuel)).length ≤
      numHandles) :
    ∃ enc table dec, structEncode (dispatchEncode Γ fuel) (Γ.struct i) base size
        ⟨m, ⟨some handles, numHandles, 0⟩, []⟩ = .ok enc ∧
      enc.buffer.handles = some table ∧
      structDecode (dispatchDecode Γ enc.buffer.numHandlesUsed fuel) (Γ.struct i) base size
        enc.buffer.numHandlesUsed ⟨enc.mem, some table, []⟩ = .ok dec ∧
      dec.mem = m ∧
      enc.buffer.numHandlesUsed =
        (validHandles m (structWalk Γ .inMemory (Γ.struct i) m base fuel)).length ∧
      ∃ table', dec.handles = some table' ∧ ∀ k < enc.buffer.numHandlesUsed, table'[k]? =
        some handleInvalid := by
  have hd := hΓ.struct i
  obtain ⟨table, henc⟩ := encoded_foldl (h.pairwise hΓ hd) h.holds hcap hlen hnum
  obtain ⟨hmem, hemptied⟩ := henc.restores ⟨_, some table, [.object ⟨base, load m base 4⟩]⟩ rfl rfl
  exact ⟨_, table, _, h.structEncode_eq hΓ hd (Option.some_ne_none handles) (by simpa using hcap),
    henc.handles, h.structDecode_eq hΓ hd henc.frame henc.wire, hmem, henc.used, hemptied⟩

theorem twoNodesInMemory_laidOut : LaidOut nodeDescriptors nodeStruct twoNodesInMemory 8 48 3 where
  pos := by decide
  size_lt := by decide
  stop := by decide
  header := by decide +kernel
  inside := by decide +kernel
  slots := by decide +kernel
  legal := by decide +kernel
  disjoint := twoNodesInMemory_packed.pairwise

theorem decode_encode_two_nodes : ∃ enc table dec,
      structEncode (dispatchEncode nodeDescriptors 3) (nodeDescriptors.struct 0) 8 48
        ⟨twoNodesInMemory, ⟨some [0, 0], 2, 0⟩, []⟩ = .ok enc ∧
      enc.buffer.handles = some table ∧
      structDecode (dispatchDecode nodeDescriptors enc.buffer.numHandlesUsed 3)
        (nodeDescriptors.struct 0) 8 48 enc.buffer.numHandlesUsed ⟨enc.mem, some table, []⟩ =
      .ok dec ∧ dec.mem = twoNodesInMemory ∧
      enc.buffer.numHandlesUsed = (validHandles twoNodesInMemory (structWalk nodeDescriptors
        .inMemory (nodeDescriptors.struct 0) twoNodesInMemory 8 3)).length ∧
      ∃ table', dec.handles = some table' ∧ ∀ k < enc.buffer.numHandlesUsed, table'[k]? =
        some handleInvalid :=
  decode_encode nodeDescriptors_wellFormed twoNodesInMemory 0 8 48 3 [0, 0] 2
    twoNodesInMemory_laidOut (by decide) (by decide) (by decide +kernel)

end Mojo.CBindings
