import Mojo.CBindings.InPlace

/-!
# Encoding as a fold over the walk

On a value in memory whose objects do not overlap and lie behind the slots that
lead to them, the recursion of `MojomStruct_EncodePointersAndHandles` processes
the slots of the walk one after another, as long as the handle buffer has room
for the valid handles of the value.
-/

namespace Mojo.CBindings

open Mojo.Memory

variable {st : EncodeState} {i : Item} {t : ℕ} {d : TypeDescriptorArray} {p : Place}

def EncodeState.push (st : EncodeState) (handles : List ℕ) (slot : ℕ) : EncodeState :=
  { st.write slot 4 st.buffer.numHandlesUsed with
    buffer := { st.buffer with
      handles := some (handles.set st.buffer.numHandlesUsed (load st.mem slot 4))
      numHandlesUsed := st.buffer.numHandlesUsed + 1 } }

def encodeItem (st : EncodeState) : Item → EncodeState
  | .pointer slot none => st.write slot 8 0
  | .pointer slot (some e) => st.write slot 8 (e.addr - slot)
  | .handle slot =>
    match st.buffer.handles with
    | none => st
    | some handles =>
      if load st.mem slot 4 = handleInvalid then st.write slot 4 encodedHandleInvalid
      else st.push handles slot

def validHandles (m : Mem) (items : List Item) : List ℕ :=
  items.filterMap fun i => match i with
    | .handle s => if load m s 4 = handleInvalid then none else some (load m s 4)
    | .pointer _ _ => none

@[simp] theorem validHandles_append (m : Mem) (l r : List Item) :
    validHandles m (l ++ r) = validHandles m l ++ validHandles m r := List.filterMap_append

theorem validHandles_cons (m : Mem) (i : Item) (l : List Item) :
    validHandles m (i :: l) = validHandles m [i] ++ validHandles m l := validHandles_append m [i] l

theorem validHandles_cons_invalid {m : Mem} {slot : ℕ} (h : load m slot 4 = handleInvalid)
    (l : List Item) : validHandles m (.handle slot :: l) = validHandles m l := by
  simp [validHandles, h]

theorem validHandles_cons_valid {m : Mem} {slot : ℕ} (h : load m slot 4 ≠ handleInvalid)
    (l : List Item) :
    validHandles m (.handle slot :: l) = load m slot 4 :: validHandles m l := by
  simp [validHandles, h]

theorem encodeItem_eqOn (st : EncodeState) (i : Item) :
    Set.EqOn (encodeItem st i).mem st.mem i.bytesᶜ := by
  cases i with
  | pointer slot t => cases t <;> exact store_eqOn disjoint_compl_left
  | handle slot =>
    simp only [encodeItem]
    cases st.buffer.handles with
    | none => exact fun _ _ => rfl
    | some handles =>
      dsimp only
      split_ifs <;> exact store_eqOn disjoint_compl_left

theorem encodeItem_handles (h : st.buffer.handles ≠ none) :
    (encodeItem st i).buffer.handles ≠ none := by
  cases i with
  | pointer slot t => cases t <;> exact h
  | handle slot =>
    simp only [encodeItem]
    cases hs : st.buffer.handles with
    | none => exact absurd hs h
    | some handles =>
      dsimp only
      split_ifs
      · exact h
      · exact Option.some_ne_none _

theorem encodeItem_numHandles (st : EncodeState) (i : Item) :
    (encodeItem st i).buffer.numHandles = st.buffer.numHandles := by
  cases i with
  | pointer slot t => cases t <;> rfl
  | handle slot =>
    simp only [encodeItem]
    cases st.buffer.handles with
    | none => rfl
    | some handles =>
      dsimp only
      split_ifs <;> rfl

theorem encodeItem_used {m : Mem} (h : st.buffer.handles ≠ none) (hm : Set.EqOn m st.mem i.bytes) :
    (encodeItem st i).buffer.numHandlesUsed = st.buffer.numHandlesUsed +
      (validHandles m [i]).length := by
  cases i with
  | pointer slot t => cases t <;> rfl
  | handle slot =>
    have hload : load st.mem slot 4 = load m slot 4 := (load_congr hm).symm
    simp only [encodeItem, hload]
    cases hs : st.buffer.handles with
    | none => exact absurd hs h
    | some handles =>
      dsimp only
      split_ifs with h0
      · rw [validHandles_cons_invalid h0]
        rfl
      · rw [validHandles_cons_valid h0]
        rfl

theorem foldl_encodeItem_handles (items : List Item) (st : EncodeState)
    (h : st.buffer.handles ≠ none) : (items.foldl encodeItem st).buffer.handles ≠ none := by
  induction items generalizing st with
  | nil => exact h
  | cons i items ih => exact ih _ (encodeItem_handles h)

theorem foldl_encodeItem_numHandles (items : List Item) (st : EncodeState) :
    (items.foldl encodeItem st).buffer.numHandles = st.buffer.numHandles := by
  induction items generalizing st with
  | nil => rfl
  | cons i items ih => rw [List.foldl_cons, ih, encodeItem_numHandles]

theorem eqOn_encodeItem {m : Mem} {j : Item} (hd : Disjoint i.bytes j.bytes)
    (hm : Set.EqOn m st.mem j.bytes) :
    Set.EqOn m (encodeItem st i).mem j.bytes := by
  intro b hb
  rw [hm hb]
  exact (encodeItem_eqOn st i (Set.disjoint_right.mp hd hb)).symm

structure Pending (m : Mem) (items : List Item) (st : EncodeState) : Prop where
  handles : st.buffer.handles ≠ none
  apart : items.Pairwise fun i j => Disjoint i.bytes j.bytes
  same : ∀ i ∈ items, Set.EqOn m st.mem i.bytes

theorem Pending.step {m : Mem} (h : Pending m (i :: items) st) : Pending m items (encodeItem st i) ∧
    (encodeItem st i).buffer.numHandlesUsed = st.buffer.numHandlesUsed +
      (validHandles m [i]).length :=
  ⟨⟨encodeItem_handles h.handles, h.apart.of_cons, fun j hj =>
    eqOn_encodeItem (List.rel_of_pairwise_cons h.apart hj) (h.same j (.tail _ hj))⟩,
    encodeItem_used h.handles (h.same i (.head _))⟩

theorem foldl_encodeItem_used {m : Mem} (items : List Item) (st : EncodeState)
    (h : Pending m items st) :
    (items.foldl encodeItem st).buffer.numHandlesUsed = st.buffer.numHandlesUsed +
      (validHandles m items).length := by
  induction items generalizing st with
  | nil => rfl
  | cons i items ih =>
    obtain ⟨hrest, hused⟩ := h.step
    rw [List.foldl_cons, ih _ hrest, hused, validHandles_cons m i items, List.length_append,
      Nat.add_assoc]

@[mk_iff]
structure Encodable (Γ : Descriptors) (m : Mem) (lim : ℕ) (p : Place) : Prop
    extends Visitable Γ .inMemory m lim p where
  valid : p.1.IsHandle → p.1.nullable ∨ load m p.2 4 ≠ handleInvalid

instance (Γ : Descriptors) (m : Mem) (lim : ℕ) : DecidablePred (Encodable Γ m lim) := fun p =>
  decidable_of_iff _ (encodable_iff Γ m lim p).symm

/-- Encoding is a pass. It needs an array with room for the valid handles of the value. -/
def encodePass : Pass EncodeState where
  mem := EncodeState.mem
  act := encodeItem
  process st items := .ok (items.foldl encodeItem st)
  Room m items st := st.buffer.handles ≠ none ∧
    st.buffer.numHandlesUsed + (validHandles m items).length ≤ st.buffer.numHandles
  act_eqOn := encodeItem_eqOn
  process_nil _ := rfl
  process_pointer _ _ _ := rfl
  process_append _ _ _ := by
    rw [List.foldl_append]
    rfl
  process_bind h := h
  room_append h hapart hsame := by
    obtain ⟨hhandles, hroom⟩ := h
    rw [validHandles_append, List.length_append] at hroom
    refine ⟨⟨hhandles, by omega⟩, foldl_encodeItem_handles _ _ hhandles, ?_⟩
    rw [foldl_encodeItem_used _ _ ⟨hhandles, hapart, hsame⟩, foldl_encodeItem_numHandles]
    omega

variable {Γ : Descriptors} {m : Mem} {lim n : ℕ}

abbrev EncodesAt (Γ : Descriptors) (m : Mem) (lim n : ℕ) (p : Place) : Prop :=
  encodePass.At Γ .inMemory m lim n (dispatchEncode Γ n) p

abbrev EncodesKids (Γ : Descriptors) (m : Mem) (lim n t : ℕ) (qs : List Place) (st : EncodeState) :
    Prop :=
  encodePass.Kids Γ .inMemory m lim n (dispatchEncode Γ n) t qs st

theorem structEncode_eq {d : TypeDescriptorStruct} (ht : t ≠ 0) (hroom8 : t + headerSize ≤ lim)
    (hlim : lim - t < 2 ^ 32) (st : EncodeState)
    (h : EncodesKids Γ m lim n t (structKids d m t) st) :
    structEncode (dispatchEncode Γ n) d t (lim - t) st =
      .ok (((structKids d m t).flatMap ((scheme Γ .inMemory).walk m n)).foldl encodeItem st) := by
  rw [structEncode, if_neg ht, if_neg (by omega)]
  exact h.entries_eq hlim

theorem arrayEncode_eq (hd : d.WellFormed) (ht : t ≠ 0) (hhdr : headerSize ≤ load m t 4)
    (hin : t + load m t 4 ≤ lim)
    (hlim : lim - t < 2 ^ 32) (st : EncodeState)
    (h : EncodesKids Γ m lim n t (arrayKids d m t) st) :
    arrayEncode (dispatchEncode Γ n) d t (lim - t) st =
      .ok (((arrayKids d m t).flatMap ((scheme Γ .inMemory).walk m n)).foldl encodeItem st) := by
  have hheader : load st.mem t 4 = load m t 4 ∧ load st.mem (t + 4) 4 = load m (t + 4) 4 :=
    loads_congr h.ready.header
  rw [arrayEncode, if_neg ht, if_neg (by omega), hheader.1, if_neg (by omega), hheader.2]
  rw [arrayKids] at h ⊢
  split_ifs at h ⊢ with hp
  · rfl
  · exact h.elements_eq hlim ⟨hd.elem, hp⟩

theorem encodePointer_eq (hp : Encodable Γ m lim p) (hty : p.1.IsObject)
    (hs : Set.EqOn m st.mem (span p.2 8)) :
    encodePointer p.2 (lim - p.2) st = .ok (if target .inMemory m p.2 = 0 then st.write p.2 8 0
      else st.write p.2 8 (target .inMemory m p.2 - p.2)) := by
  simp only [encodePointer, ← load_congr hs]
  change (if target .inMemory m p.2 = 0 then _ else _) = _
  by_cases ht : target .inMemory m p.2 = 0
  · simp [ht]
  · have hlt := hp.forward hty ht
    obtain ⟨hroom, -, -⟩ := hp.reach hty ht
    have hload : load m p.2 8 = target .inMemory m p.2 := rfl
    simp only [headerSize] at hroom
    rw [hload]
    simp [ht, show ¬ target .inMemory m p.2 ≤ p.2 by omega, show ¬ lim - p.2 ≤
      target .inMemory m p.2 - p.2 by omega]

theorem encodesAt_object (hp : Encodable Γ m lim p) (hobj : p.1.IsObject)
    (ha : (scheme Γ .inMemory).Apart m (n + 1) p)
    (hkids : ∀ q ∈ (scheme Γ .inMemory).kids m p, q.2 < lim ∧ EncodesAt Γ m lim n q)
    (encode : ℕ → ℕ → EncodeState → Except Fault EncodeState)
    (hdisp : ∀ st, dispatchEncode Γ (n + 1) p.1.type p.1.desc p.1.nullable p.2 (lim - p.2) st =
      encodePointer p.2 (lim - p.2) st >>= fun st' =>
        if p.1.nullable = false ∨ load st.mem p.2 8 ≠ 0 then
          encode (load st.mem p.2 8) (sub32 (lim - p.2) (load st.mem p.2 8 - p.2)) st'
        else .ok st')
    (hencode : target .inMemory m p.2 ≠ 0 → lim - target .inMemory m p.2 < 2 ^ 32 → ∀ st,
      EncodesKids Γ m lim n (target .inMemory m p.2) ((scheme Γ .inMemory).kids m p) st →
      encode (target .inMemory m p.2) (lim - target .inMemory m p.2) st =
        .ok ((((scheme Γ .inMemory).kids m p).flatMap ((scheme Γ .inMemory).walk m n)).foldl
        encodeItem st)) :
    EncodesAt Γ m lim (n + 1) p := by
  refine Pass.at_object hobj (hp.forward hobj) ha hkids (fun ht st hs => ?_) fun ht st hs h => ?_
  · have hnl : p.1.nullable = true := (hp.nonnull hobj).resolve_right (not_not.mpr ht)
    have hload : load st.mem p.2 8 = 0 := (load_congr hs).symm.trans ht
    rw [hdisp, encodePointer_eq hp hobj hs, ok_bind, hload, if_pos ht, if_neg (by simp [hnl])]
    rfl
  · have hload : load st.mem p.2 8 = target .inMemory m p.2 := (load_congr hs).symm
    obtain ⟨-, hsub, hshort⟩ := hp.reach hobj ht
    rw [hdisp, encodePointer_eq hp hobj hs, ok_bind, hload, if_neg ht, if_pos (.inr ht), hsub]
    exact hencode ht hshort _ h

theorem encodesAt_union (hp : Encodable Γ m lim p) (hty : p.1.type = .union)
    (henc : ∀ q ∈ (scheme Γ .inMemory).kids m p, q.2 < lim ∧ EncodesAt Γ m lim n q) :
    EncodesAt Γ m lim (n + 1) p := by
  obtain ⟨hbig, hsub⟩ := sub32_union (by simpa [Elem.size, hty, slotSize] using hp.room) hp.short
  refine Pass.at_union hty hsub (fun q hq => (henc q hq).2) fun st _ => ?_
  simp only [dispatchEncode, hp.pos, ↓reduceIte, unionEncode, hbig, forActiveEntry_eq]
  rfl

theorem encodeHandle_eq (hp : Encodable Γ m lim p) (hty : p.1.IsHandle)
    (hst : st.buffer.handles ≠ none)
    (hcap : st.buffer.numHandlesUsed + (validHandles m [.handle p.2]).length ≤ st.buffer.numHandles)
    (hs : Set.EqOn m st.mem (span p.2 4)) :
    encodeHandle p.1.nullable p.2 st = .ok (encodeItem st (.handle p.2)) := by
  have hload : load st.mem p.2 4 = load m p.2 4 := (load_congr hs).symm
  simp only [encodeHandle, encodeItem, EncodeState.push, hload]
  cases hh : st.buffer.handles with
  | none => exact absurd hh hst
  | some handles =>
    by_cases h0 : load m p.2 4 = handleInvalid
    · have hnl : p.1.nullable = true := (hp.valid hty).resolve_right (not_not.mpr h0)
      simp [h0, hnl]
    · rw [validHandles_cons_valid h0, List.length_cons] at hcap
      simp [h0, show st.buffer.numHandlesUsed < st.buffer.numHandles by omega]

theorem encodesAt (hΓ : Γ.WellFormed) (n : ℕ) (p : Place)
    (hl : (scheme Γ .inMemory).Legal m (Encodable Γ m lim) n p)
    (ha : (scheme Γ .inMemory).Apart m n p) : EncodesAt Γ m lim n p := by
  induction n generalizing p with
  | zero => cases hl
  | succ n ih =>
    obtain ⟨hp, hkids⟩ := hl
    have henc : ∀ q ∈ (scheme Γ .inMemory).kids m p, q.2 < lim ∧ EncodesAt Γ m lim n q :=
      fun q hq => ⟨(hkids q hq).here.lt_lim, ih q (hkids q hq) (ha.2.2 q hq)⟩
    cases hty : p.1.type with
    | unionPtr | pod => simpa [Fits, hty] using hp.fits
    | structPtr | mapPtr =>
      have hs : p.1.IsStruct := by simp [Elem.IsStruct, hty]
      refine encodesAt_object hp hs.isObject ha henc
        (structEncode (dispatchEncode Γ n) (Γ.struct p.1.desc))
        (fun st => by simp only [dispatchEncode, hty, hp.pos, ↓reduceIte]) ?_
      intro ht hshort st h
      rw [hs.kids_eq ht] at h ⊢
      exact structEncode_eq ht (hp.reach hs.isObject ht).1 hshort st h
    | arrayPtr =>
      have hobj : p.1.IsObject := Or.inr (Or.inr hty)
      refine encodesAt_object hp hobj ha henc (arrayEncode (dispatchEncode Γ n) (Γ.array p.1.desc))
        (fun st => by simp only [dispatchEncode, hty, hp.pos, ↓reduceIte]) ?_
      intro ht hshort st h
      rw [arrayPtr_kids_eq hty ht] at h ⊢
      exact arrayEncode_eq (hΓ.array _) ht (hp.fits.header hobj ht) (hp.inside hobj ht) hshort st h
    | union => exact encodesAt_union hp hty henc
    | handle | interface =>
      intro st hroom hm
      have hs : Set.EqOn m st.mem (span p.2 4) := by
        refine hm.mono (Set.Subset.trans ?_ (Scheme.touch_subset_foot n p))
        simp [scheme, placeTouch, hty]
      have hh : p.1.IsHandle := by simp [Elem.IsHandle, hty]
      rw [hh.walk_eq] at hroom ⊢
      simp only [dispatchEncode, hty, hp.pos, ↓reduceIte, encodeHandle_eq hp hh hroom.1 hroom.2 hs]
      rfl

end Mojo.CBindings
