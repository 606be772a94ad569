import Mojo.CBindings.InPlace

/-!
# Decoding as a fold over the walk

On a value whose objects do not overlap, the recursion of
`MojomStruct_DecodePointersAndHandles` does nothing but process the slots of
the walk one after another: what it writes into one slot does not change what it
later finds in another, and no assertion fails but the one that a handle makes
without an array of handles.
-/

namespace Mojo.CBindings

open Mojo.Memory

variable {st : DecodeState} {items : List Item} {n t s : ℕ} {d : TypeDescriptorArray} {p : Place}

def decodeItem (st : DecodeState) : Item → DecodeState
  | .pointer slot none =>
    { st with mem := store st.mem slot 8 0, trace := st.trace ++ [.pointer slot 0] }
  | .pointer slot (some e) =>
    { st with
      mem := store st.mem slot 8 e.addr
      trace := st.trace ++ [.pointer slot e.addr] ++ [.object e] }
  | .handle slot =>
    match st.handles with
    | none => st
    | some handles =>
      if load st.mem slot 4 = encodedHandleInvalid then
        { st with mem := store st.mem slot 4 handleInvalid }
      else
        { mem := store st.mem slot 4 (handles.getD (load st.mem slot 4) handleInvalid)
          handles := some (handles.set (load st.mem slot 4) handleInvalid)
          trace := st.trace ++ [.taken (load st.mem slot 4)] }

theorem decodeItem_eqOn (st : DecodeState) (i : Item) :
    Set.EqOn (decodeItem st i).mem st.mem i.bytesᶜ := by
  cases i with
  | pointer slot t => cases t <;> exact store_eqOn disjoint_compl_left
  | handle slot =>
    simp only [decodeItem]
    cases st.handles with
    | none => exact fun _ _ => rfl
    | some handles =>
      dsimp only
      split_ifs <;> exact store_eqOn disjoint_compl_left

theorem decodeItem_handles (st : DecodeState) (i : Item) :
    (decodeItem st i).handles = none ↔ st.handles = none := by
  cases i with
  | pointer slot t => cases t <;> exact Iff.rfl
  | handle slot =>
    simp only [decodeItem]
    cases hs : st.handles with
    | none => simp [hs]
    | some handles =>
      dsimp only
      split_ifs <;> simp

theorem foldl_decodeItem_handles (items : List Item) (st : DecodeState) :
    (items.foldl decodeItem st).handles = none ↔ st.handles = none := by
  induction items generalizing st with
  | nil => rfl
  | cons i items ih => exact (ih _).trans (decodeItem_handles st i)

/-- The slots are processed one after another. A handle needs an array, whatever the slot holds. -/
def decodeItems (st : DecodeState) (items : List Item) : Except Fault DecodeState :=
  if st.handles = none ∧ items.any Item.isHandle = true then .error .assertion
  else .ok (items.foldl decodeItem st)

theorem decodeItems_of_handles (items : List Item) (h : st.handles ≠ none) :
    decodeItems st items = .ok (items.foldl decodeItem st) := if_neg fun hn => h hn.1

theorem decodeItems_nil (st : DecodeState) : decodeItems st [] = .ok st := by
  simp [decodeItems]

theorem decodeItems_append (st : DecodeState) (items rest : List Item) :
    decodeItems st (items ++ rest) = decodeItems st items >>= fun st => decodeItems st rest := by
  by_cases h : st.handles = none ∧ items.any Item.isHandle = true
  · rw [decodeItems, decodeItems, if_pos h,
      if_pos ⟨h.1, by rw [List.any_append, h.2, Bool.true_or]⟩]
    rfl
  · rw [decodeItems, decodeItems, if_neg h, ok_bind, decodeItems, List.foldl_append]
    refine if_congr ?_ rfl rfl
    rw [foldl_decodeItem_handles, List.any_append, Bool.or_eq_true]
    tauto

theorem decodeItems_bind {f g : DecodeState → Except Fault DecodeState}
    (h : f (items.foldl decodeItem st) = g (items.foldl decodeItem st)) :
    (decodeItems st items >>= f) = (decodeItems st items >>= g) := by
  rw [decodeItems]
  split_ifs
  · rfl
  · exact h

/-- What the processing of a slot leaves in the trace, when `m` is what it finds. -/
def itemEvents (m : Mem) : Item → List DecodeEvent
  | .pointer slot none => [.pointer slot 0]
  | .pointer slot (some e) => [.pointer slot e.addr, .object e]
  | .handle slot =>
    if load m slot 4 = encodedHandleInvalid then [] else [.taken (load m slot 4)]

theorem entered_events (m : Mem) (items : List Item) :
    (items.flatMap (itemEvents m)).filterMap DecodeEvent.entered = extents items := by
  induction items with
  | nil => rfl
  | cons i items ih =>
    rw [List.flatMap_cons, List.filterMap_append, ih]
    cases i with
    | pointer slot t => cases t <;> rfl
    | handle slot =>
      simp only [itemEvents]
      split_ifs <;> rfl

theorem pointer_mem_events {m : Mem} {slot v : ℕ}
    (h : .pointer slot v ∈ items.flatMap (itemEvents m)) :
    v = 0 ∨ ∃ e ∈ extents items, v = e.addr := by
  obtain ⟨i, hi, h⟩ := List.mem_flatMap.mp h
  cases i with
  | pointer slot' t =>
    cases t with
    | none => exact Or.inl (by simp_all [itemEvents])
    | some e =>
      refine Or.inr ⟨e, List.mem_filterMap.mpr ⟨_, hi, rfl⟩, ?_⟩
      simp_all [itemEvents]
  | handle slot' =>
    simp only [itemEvents] at h
    split_ifs at h <;> simp at h

theorem decodeItem_trace {m : Mem} {i : Item} (h : st.handles ≠ none)
    (hm : Set.EqOn m st.mem i.bytes) :
    (decodeItem st i).trace = st.trace ++ itemEvents m i := by
  cases i with
  | pointer slot t =>
    cases t <;> simp only [decodeItem, itemEvents, List.append_assoc, List.singleton_append]
  | handle slot =>
    simp only [decodeItem, itemEvents, load_congr hm]
    cases hs : st.handles with
    | none => exact absurd hs h
    | some handles =>
      dsimp only
      split_ifs <;> simp

theorem foldl_decodeItem_trace {m : Mem} (items : List Item) (st : DecodeState)
    (h : st.handles ≠ none)
    (hpw : items.Pairwise fun i j => Disjoint i.bytes j.bytes)
    (hm : ∀ i ∈ items, Set.EqOn m st.mem i.bytes) :
    (items.foldl decodeItem st).trace = st.trace ++ items.flatMap (itemEvents m) := by
  induction items generalizing st with
  | nil => simp
  | cons i items ih =>
    obtain ⟨hi, hpw⟩ := List.pairwise_cons.mp hpw
    rw [List.foldl_cons, ih _ ((decodeItem_handles st i).not.mpr h) hpw, decodeItem_trace h
      (hm i (.head _)), List.flatMap_cons, List.append_assoc]
    intro j hj b hb
    rw [hm j (.tail _ hj) hb]
    exact (decodeItem_eqOn st i (Set.disjoint_right.mp (hi j hj) hb)).symm

structure Decodable (Γ : Descriptors) (m : Mem) (lim numHandles : ℕ) (p : Place) : Prop
    extends Visitable Γ .onWire m lim p where
  index : p.1.IsHandle → load m p.2 4 = encodedHandleInvalid ∨ load m p.2 4 < numHandles

variable {Γ : Descriptors} {m : Mem} {lim numHandles : ℕ}

def decodePass (numHandles : ℕ) : Pass DecodeState where
  mem := DecodeState.mem
  act := decodeItem
  process := decodeItems
  Room _ _ st := st.handles = none → numHandles = 0
  act_eqOn := decodeItem_eqOn
  process_nil := decodeItems_nil
  process_pointer _ _ _ := if_neg fun h => by simp [Item.isHandle] at h
  process_append := decodeItems_append
  process_bind := decodeItems_bind
  room_append h _ _ := ⟨h, fun hnone => h ((foldl_decodeItem_handles _ _).mp hnone)⟩

/-- Decoding the place `p` with fuel `n` goes through the slots of its walk. -/
abbrev DecodesAt (Γ : Descriptors) (m : Mem) (lim numHandles n : ℕ) (p : Place) : Prop :=
  (decodePass numHandles).At Γ .onWire m lim n (dispatchDecode Γ numHandles n) p

abbrev DecodesKids (Γ : Descriptors) (m : Mem) (lim numHandles n t : ℕ) (qs : List Place)
    (st : DecodeState) : Prop :=
  (decodePass numHandles).Kids Γ .onWire m lim n (dispatchDecode Γ numHandles n) t qs st

theorem structDecode_eq {d : TypeDescriptorStruct} (ht : t ≠ 0) (hlim : lim - t < 2 ^ 32)
    (st : DecodeState)
    (h : DecodesKids Γ m lim numHandles n t (structKids d m t) (st.log (.object ⟨t, load m t 4⟩))) :
    structDecode (dispatchDecode Γ numHandles n) d t (lim - t) numHandles st =
      decodeItems (st.log (.object ⟨t, load m t 4⟩))
        ((structKids d m t).flatMap ((scheme Γ .onWire).walk m n)) := by
  have hload : load st.mem t 4 = load m t 4 := (loads_congr h.ready.header).1
  rw [structDecode, if_neg ht, if_neg fun hn => hn.2 (h.room hn.1), hload]
  exact h.entries_eq hlim

theorem arrayDecode_eq (hd : d.WellFormed) (ht : t ≠ 0) (hlim : lim - t < 2 ^ 32) (st : DecodeState)
    (h : DecodesKids Γ m lim numHandles n t (arrayKids d m t) (st.log (.object ⟨t, load m t 4⟩))) :
    arrayDecode (dispatchDecode Γ numHandles n) d t (lim - t) numHandles st =
      decodeItems (st.log (.object ⟨t, load m t 4⟩))
        ((arrayKids d m t).flatMap ((scheme Γ .onWire).walk m n)) := by
  have hheader : load st.mem t 4 = load m t 4 ∧ load st.mem (t + 4) 4 = load m (t + 4) 4 :=
    loads_congr h.ready.header
  rw [arrayDecode, if_neg ht, if_neg fun hn => hn.2 (h.room hn.1), hheader.1, hheader.2]
  rw [arrayKids] at h ⊢
  split_ifs at h ⊢ with hp
  · exact (decodeItems_nil _).symm
  · exact h.elements_eq hlim ⟨hd.elem, hp⟩

theorem decodePointer_eq (h : Set.EqOn m st.mem (span s 8)) : decodePointer s st =
      { st with
        mem := store st.mem s 8 (target .onWire m s)
        trace := st.trace ++ [.pointer s (target .onWire m s)] } := by
  simp [decodePointer, target, load_congr h]

theorem target_onWire_lt (m : Mem) (s : ℕ) : target .onWire m s < 256 ^ 8 := by
  simp only [target, wrap64]
  split_ifs <;> omega

theorem load_decodePointer (h : Set.EqOn m st.mem (span s 8)) :
    load (decodePointer s st).mem s 8 = target .onWire m s := by
  rw [decodePointer_eq h]
  exact load_store_of_lt (target_onWire_lt m s)

theorem decodeHandle_eq (hs : Set.EqOn m st.mem (span s 4))
    (hi : load m s 4 = encodedHandleInvalid ∨ load m s 4 < numHandles) :
    decodeHandle s numHandles st = decodeItems st [.handle s] := by
  simp only [decodeHandle, decodeItems, List.foldl_cons, List.foldl_nil, decodeItem,
    ← load_congr hs]
  cases hh : st.handles with
  | none => simp [Item.isHandle]
  | some handles =>
    simp only [reduceCtorEq, false_and, ↓reduceIte]
    split_ifs with h₁ h₂
    · rfl
    · rfl
    · exact absurd (hi.resolve_left h₁) h₂

theorem decodesAt_object (hp : Decodable Γ m lim numHandles p) (hobj : p.1.IsObject)
    (ha : (scheme Γ .onWire).Apart m (n + 1) p)
    (hkids : ∀ q ∈ (scheme Γ .onWire).kids m p, q.2 < lim ∧ DecodesAt Γ m lim numHandles n q)
    (decode : ℕ → ℕ → DecodeState → Except Fault DecodeState)
    (hdisp : ∀ st, dispatchDecode Γ numHandles (n + 1) p.1.type p.1.desc p.1.nullable p.2
      (lim - p.2) st = let st := decodePointer p.2 st
      let t := load st.mem p.2 8
      if t ≠ 0 ∧ p.2 + (lim - p.2) ≤ t then .error .assertion
      else if p.1.nullable = false ∨ t ≠ 0 then decode t (sub32 (lim - p.2) (t - p.2)) st
      else .ok st)
    (hdecode : target .onWire m p.2 ≠ 0 → lim - target .onWire m p.2 < 2 ^ 32 → ∀ st,
      let st' := st.log (.object ⟨target .onWire m p.2, load m (target .onWire m p.2) 4⟩)
      DecodesKids Γ m lim numHandles n (target .onWire m p.2) ((scheme Γ .onWire).kids m p) st' →
      decode (target .onWire m p.2) (lim - target .onWire m p.2) st =
        decodeItems st' (((scheme Γ .onWire).kids m p).flatMap ((scheme Γ .onWire).walk m n))) :
    DecodesAt Γ m lim numHandles (n + 1) p := by
  refine Pass.at_object hobj (hp.forward hobj) ha hkids (fun ht st hs => ?_) fun ht st hs h => ?_
  · have hnl : p.1.nullable = true := (hp.nonnull hobj).resolve_right (not_not.mpr ht)
    rw [hdisp]
    simp only [load_decodePointer hs, ht, hnl, ne_eq, not_true_eq_false, false_and, or_false,
      reduceCtorEq, ↓reduceIte]
    rw [decodePointer_eq hs, ht]
    rfl
  · obtain ⟨hroom, hsub, hshort⟩ := hp.reach hobj ht
    have hpos : ¬ p.2 + (lim - p.2) ≤ target .onWire m p.2 := by
      have hlt := hp.forward hobj ht
      simp only [headerSize] at hroom
      omega
    simp only [hdisp, load_decodePointer hs, ht, hpos, ne_eq, not_false_eq_true, and_false, or_true,
      ↓reduceIte, hsub]
    rw [decodePointer_eq hs]
    exact hdecode ht hshort _ h

theorem decodesAt_union (hp : Decodable Γ m lim numHandles p) (hty : p.1.type = .union)
    (hdec : ∀ q ∈ (scheme Γ .onWire).kids m p, q.2 < lim ∧ DecodesAt Γ m lim numHandles n q) :
    DecodesAt Γ m lim numHandles (n + 1) p := by
  obtain ⟨hbig, hsub⟩ := sub32_union (by simpa [Elem.size, hty, slotSize] using hp.room) hp.short
  refine Pass.at_union hty hsub (fun q hq => (hdec q hq).2) fun st hroom => ?_
  have harray : ¬ (st.handles = none ∧ numHandles ≠ 0) := fun hn => hn.2 (hroom hn.1)
  simp only [dispatchDecode, hp.pos, ↓reduceIte, unionDecode, hbig, harray, forActiveEntry_eq]
  rfl

theorem decodesAt (hΓ : Γ.WellFormed) (n : ℕ) (p : Place)
    (hl : (scheme Γ .onWire).Legal m (Decodable Γ m lim numHandles) n p)
    (ha : (scheme Γ .onWire).Apart m n p) : DecodesAt Γ m lim numHandles n p := by
  induction n generalizing p with
  | zero => cases hl
  | succ n ih =>
    obtain ⟨hp, hkids⟩ := hl
    have hdec : ∀ q ∈ (scheme Γ .onWire).kids m p, q.2 < lim ∧ DecodesAt Γ m lim numHandles n q :=
      fun q hq => ⟨(hkids q hq).here.lt_lim, ih q (hkids q hq) (ha.2.2 q hq)⟩
    cases hty : p.1.type with
    | unionPtr | pod => simpa [Fits, hty] using hp.fits
    | structPtr | mapPtr =>
      have hs : p.1.IsStruct := by simp [Elem.IsStruct, hty]
      refine decodesAt_object hp hs.isObject ha hdec
        (fun t size => structDecode (dispatchDecode Γ numHandles n) (Γ.struct p.1.desc) t size
          numHandles)
        (fun st => by simp only [dispatchDecode, hty, hp.pos, ↓reduceIte]) ?_
      intro ht hshort st st' h
      rw [hs.kids_eq ht] at h ⊢
      exact structDecode_eq ht hshort st h
    | arrayPtr =>
      refine decodesAt_object hp (Or.inr (Or.inr hty)) ha hdec
        (fun t size => arrayDecode (dispatchDecode Γ numHandles n) (Γ.array p.1.desc) t size
          numHandles)
        (fun st => by simp only [dispatchDecode, hty, hp.pos, ↓reduceIte]) ?_
      intro ht hshort st st' h
      rw [arrayPtr_kids_eq hty ht] at h ⊢
      exact arrayDecode_eq (hΓ.array _) ht hshort st h
    | union => exact decodesAt_union hp hty hdec
    | handle | interface =>
      intro st hst hm
      have hs : Set.EqOn m st.mem (span p.2 4) := by
        refine hm.mono (Set.Subset.trans ?_ (Scheme.touch_subset_foot n p))
        simp [scheme, placeTouch, hty]
      have hh : p.1.IsHandle := by simp [Elem.IsHandle, hty]
      simp only [dispatchDecode, hty, hp.pos, ↓reduceIte, decodeHandle_eq hs (hp.index hh),
        hh.walk_eq]
      rfl

end Mojo.CBindings
