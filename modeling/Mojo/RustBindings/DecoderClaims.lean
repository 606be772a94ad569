import Mojo.RustBindings.Decoding
import Mojo.Memory.ByteList
import Mojo.Memory.Extent

/-!
# What a decoder hands out

`Decoder` in `Decoding` knows how much of the buffer is claimed. In the code it has the rest of the
buffer as a slice, which is taken out and split at a size that was read from the message, with
`usize` arithmetic on the way. Here both are followed: nothing panics and nothing overflows, what is
handed out lies in order, and the decoder without slices makes the same decisions.
-/

namespace Mojo.RustBindings

open Mojo.Memory Mojo.CppBindings List

structure Buffer where
  data : List UInt8
  bounded : data.length < 2 ^ 63

def usizeSub (a b : ℕ) : Except Failure ℕ := if b ≤ a then .ok (a - b) else .error .panic

def usizeAdd (a b : ℕ) : Except Failure ℕ := if a + b < 2 ^ 64 then .ok (a + b) else .error .panic

def sliceFrom (slice : List UInt8) (start : ℕ) : Except Failure (List UInt8) :=
  if start ≤ slice.length then .ok (slice.drop start) else .error .panic

/-- `Decoder`. The states are given by their slices and where these start; a handle that was taken
is `none`. -/
structure SliceDecoder where
  bytes : ℕ
  buffer : Option (List UInt8)
  states : List (ℕ × List UInt8)
  handles : List (Option ℕ)
  handlesClaimed : ℕ
  maxOffset : ℕ

namespace SliceDecoder

def new (buffer : Buffer) (handles : List ℕ) : SliceDecoder where
  bytes := 0
  buffer := some buffer.data
  states := []
  handles := handles.map some
  handlesClaimed := 0
  maxOffset := buffer.data.length

def claim (d : SliceDecoder) (offset : ℕ) : Except Failure (List UInt8 × SliceDecoder) :=
  if offset < d.bytes then .error (.invalid .illegalMemoryRange)
  else if offset % 8 ≠ 0 then .error (.invalid .misalignedObject)
  else if d.maxOffset < offset then .error (.invalid .illegalPointer)
  else
    match d.buffer with
    | none => .error .panic
    | some buffer => do
      let space ← usizeSub offset d.bytes
      let buffer ← sliceFrom buffer space
      if buffer.length < 4 then .error (.invalid .illegalMemoryRange)
      else do
        let size := load (block 0 buffer) 0 4
        if buffer.length < size then .error (.invalid .illegalMemoryRange)
        else do
          let more ← usizeAdd space size
          let bytes ← usizeAdd d.bytes more
          .ok (buffer.take size,
            { d with
              bytes := bytes
              buffer := some (buffer.drop size)
              states := d.states ++ [(offset, buffer.take size)] })

def claimHandle (d : SliceDecoder) (index : ℤ) : Except Failure (Option ℕ × SliceDecoder) :=
  if index < 0 then .error (.invalid .unexpectedInvalidHandle)
  else
    let realIndex := index.toNat
    if d.handles.length ≤ realIndex ∨ realIndex < d.handlesClaimed then
      .error (.invalid .illegalHandle)
    else .ok (d.handles.getD realIndex none,
      { d with handlesClaimed := realIndex + 1, handles := d.handles.set realIndex none })

end SliceDecoder

/-! ### Calls -/

inductive DecoderCall
  | claim (offset : ℕ)
  | claimHandle (index : ℤ)

inductive Handout
  | slice (offset : ℕ) (bytes : List UInt8)
  | handle (index : ℕ) (handle : Option ℕ)

def Handout.slice? : Handout → Option (ℕ × List UInt8)
  | .slice offset bytes => some (offset, bytes)
  | .handle _ _ => none

def Handout.handle? : Handout → Option (ℕ × Option ℕ)
  | .slice _ _ => none
  | .handle index h => some (index, h)

namespace SliceDecoder

def call (d : SliceDecoder) : DecoderCall → Except Failure (Handout × SliceDecoder)
  | .claim offset => do
    let (slice, d) ← d.claim offset
    .ok (.slice offset slice, d)
  | .claimHandle index => do
    let (handle, d) ← d.claimHandle index
    .ok (.handle index.toNat handle, d)

/-- The calls up to the first error: what they hand out, the decoder then, and the error. -/
def callAll : SliceDecoder → List DecoderCall → List Handout × SliceDecoder × Option Failure
  | d, [] => ([], d, none)
  | d, c :: cs =>
    match d.call c with
    | .error failure => ([], d, some failure)
    | .ok (handout, d') =>
      let (handouts, d'', failure) := d'.callAll cs
      (handout :: handouts, d'', failure)

/-- The rest of the buffer is there, and so are the handles that were not claimed. -/
structure Intact (buffer : Buffer) (handles : List ℕ) (d : SliceDecoder) : Prop where
  rest : d.buffer = some (buffer.data.drop d.bytes)
  inside : d.bytes ≤ buffer.data.length
  maxOffset : d.maxOffset = buffer.data.length
  length : d.handles.length = handles.length
  unclaimed : ∀ i, d.handlesClaimed ≤ i → d.handles.getD i none = handles[i]?

theorem intact_new (buffer : Buffer) (handles : List ℕ) :
    Intact buffer handles (new buffer handles) where
  rest := rfl
  inside := Nat.zero_le _
  maxOffset := rfl
  length := length_map _
  unclaimed i _ := by
    rw [new, getD_eq_getElem?_getD, getElem?_map]
    cases handles[i]? <;> rfl

section Claims

variable {buffer : Buffer} {handles : List ℕ} {d d' : SliceDecoder}

theorem load_drop (data : List UInt8) (k : ℕ) :
    load (block 0 (data.drop k)) 0 4 = load (block 0 data) k 4 := by
  refine load_shift fun i _ => ?_
  simp [block, getD_eq_getElem?_getD, getElem?_drop]

theorem Intact.claim_eq (h : Intact buffer handles d) (offset : ℕ) : d.claim offset =
    if offset < d.bytes then .error (.invalid .illegalMemoryRange)
    else if offset % 8 ≠ 0 then .error (.invalid .misalignedObject)
    else if d.maxOffset < offset then .error (.invalid .illegalPointer)
    else if d.maxOffset - offset < 4 then .error (.invalid .illegalMemoryRange)
    else if d.maxOffset - offset < load (block 0 buffer.data) offset 4 then
      .error (.invalid .illegalMemoryRange)
    else .ok ((buffer.data.drop offset).take (load (block 0 buffer.data) offset 4),
      { d with
        bytes := offset + load (block 0 buffer.data) offset 4
        buffer := some (buffer.data.drop (offset + load (block 0 buffer.data) offset 4))
        states := d.states ++
          [(offset, (buffer.data.drop offset).take (load (block 0 buffer.data) offset 4))] }) := by
  have hmax := h.maxOffset
  have hinside := h.inside
  have hbounded := buffer.bounded
  rw [claim]
  refine ite_congr rfl (fun _ => rfl) fun hbytes => ite_congr rfl (fun _ => rfl) fun _ =>
    ite_congr rfl (fun _ => rfl) fun hbound => ?_
  have hspace : usizeSub offset d.bytes = .ok (offset - d.bytes) := if_pos (by omega)
  have hslice : sliceFrom (buffer.data.drop d.bytes) (offset - d.bytes) =
      .ok (buffer.data.drop offset) := by
    rw [sliceFrom, if_pos (by rw [length_drop]; omega), drop_drop]
    congr 2
    omega
  simp only [h.rest, hspace, hslice, ok_bind, length_drop, load_drop, hmax]
  refine ite_congr rfl (fun _ => rfl) fun _ => ite_congr rfl (fun _ => rfl) fun hsize => ?_
  have hmore : usizeAdd (offset - d.bytes) (load (block 0 buffer.data) offset 4) =
      .ok (offset - d.bytes + load (block 0 buffer.data) offset 4) := if_pos (by omega)
  have hsum : usizeAdd d.bytes (offset - d.bytes + load (block 0 buffer.data) offset 4) =
      .ok (offset + load (block 0 buffer.data) offset 4) := by
    rw [usizeAdd, if_pos (by omega)]
    congr 1
    omega
  rw [hmore, ok_bind, hsum, ok_bind, drop_drop]

structure Sliced (buffer : Buffer) (offset : ℕ) (slice : List UInt8) : Prop where
  aligned : offset % 8 = 0
  inside : offset + slice.length ≤ buffer.data.length
  content : slice = (buffer.data.drop offset).take slice.length
  size : slice.length = load (block 0 buffer.data) offset 4

theorem Intact.claim_ok (h : Intact buffer handles d) {offset : ℕ} {slice : List UInt8}
    (hclaim : d.claim offset = .ok (slice, d')) :
    Sliced buffer offset slice ∧ d.bytes ≤ offset ∧ d'.bytes = offset + slice.length ∧
      d'.handlesClaimed = d.handlesClaimed ∧ Intact buffer handles d' := by
  have hmax := h.maxOffset
  rw [h.claim_eq] at hclaim
  split_ifs at hclaim with hbytes halign hbound hheader hsize
  obtain ⟨rfl, rfl⟩ := Prod.mk.inj (Except.ok.inj hclaim)
  have hlen : ((buffer.data.drop offset).take (load (block 0 buffer.data) offset 4)).length =
      load (block 0 buffer.data) offset 4 := by
    rw [length_take, length_drop]
    omega
  refine ⟨⟨not_not.mp halign, by omega, by rw [hlen], hlen⟩, not_lt.mp hbytes, by
    rw [hlen], rfl, ?_⟩
  exact ⟨rfl, by simp only; omega, h.maxOffset, h.length, h.unclaimed⟩

theorem Intact.claimHandle_ok (h : Intact buffer handles d) {index : ℤ} {handle : Option ℕ}
    (hclaim : d.claimHandle index = .ok (handle, d')) :
    d.handlesClaimed ≤ index.toNat ∧ index.toNat < handles.length ∧ handle = handles[index.toNat]? ∧
      d'.handlesClaimed = index.toNat + 1 ∧ d'.bytes = d.bytes ∧ Intact buffer handles d' := by
  have hlen := h.length
  rw [claimHandle] at hclaim
  simp only at hclaim
  split_ifs at hclaim with hneg hindex
  rw [not_or, not_le, not_lt] at hindex
  obtain ⟨rfl, rfl⟩ := Prod.mk.inj (Except.ok.inj hclaim)
  refine ⟨hindex.2, hlen ▸ hindex.1, h.unclaimed _ hindex.2, rfl, rfl, h.rest, h.inside,
    h.maxOffset, ?_, ?_⟩
  · rw [length_set]
    exact hlen
  · intro i hi
    have hne : index.toNat ≠ i := by
      simp only at hi
      omega
    simp only [getD_eq_getElem?_getD]
    rw [getElem?_set_ne hne, ← getD_eq_getElem?_getD]
    exact h.unclaimed i (by simp only at hi; omega)

variable {failure : Failure}

theorem error_of_bind_ok {α β : Type} {x : Except Failure α} {g : α → β}
    (h : (x >>= fun a => Except.ok (g a)) = .error failure) : x = .error failure := by
  cases x with
  | error e =>
    have he : (Except.error e : Except Failure β) = .error failure := h
    rw [Except.error.inj he]
  | ok a => cases h

variable {c : DecoderCall}

theorem Intact.call_error (h : Intact buffer handles d)
    (hcall : d.call c = .error failure) : ∃ error, failure = .invalid error := by
  cases c with
  | claim offset =>
    have hclaim := error_of_bind_ok hcall
    rw [h.claim_eq] at hclaim
    split_ifs at hclaim <;> exact ⟨_, (Except.error.inj hclaim).symm⟩
  | claimHandle index =>
    have hclaim := error_of_bind_ok hcall
    rw [claimHandle] at hclaim
    simp only at hclaim
    split_ifs at hclaim <;> exact ⟨_, (Except.error.inj hclaim).symm⟩

def extents (handouts : List Handout) : List Extent :=
  (handouts.filterMap Handout.slice?).map fun s => ⟨s.1, s.2.length⟩

def places (handouts : List Handout) : List Extent :=
  (handouts.filterMap Handout.handle?).map fun h => ⟨h.1, 1⟩

structure HandedOut (buffer : Buffer) (handles : List ℕ) (d d' : SliceDecoder)
    (handouts : List Handout) : Prop where
  intact : Intact buffer handles d'
  slices : Packed d.bytes (extents handouts) d'.bytes
  sliced : ∀ s ∈ handouts.filterMap Handout.slice?, Sliced buffer s.1 s.2
  places : Packed d.handlesClaimed (places handouts) d'.handlesClaimed
  taken : ∀ h ∈ handouts.filterMap Handout.handle?, h.1 < handles.length ∧ h.2 = handles[h.1]?

variable {handout : Handout}

theorem Intact.call_ok (h : Intact buffer handles d)
    (hcall : d.call c = .ok (handout, d')) : HandedOut buffer handles d d' [handout] := by
  cases c with
  | claim offset =>
    obtain ⟨⟨slice, t⟩, hclaim, hr⟩ := bind_eq_ok.mp hcall
    obtain ⟨rfl, rfl⟩ := Prod.mk.inj (Except.ok.inj hr)
    obtain ⟨hsliced, hle, hbytes, hclaimed, hintact⟩ := h.claim_ok hclaim
    constructor
    · exact hintact
    · exact ⟨hle, hbytes.ge⟩
    · intro s hs
      obtain rfl := mem_singleton.mp hs
      exact hsliced
    · exact hclaimed.ge
    · intro p hp
      cases hp
  | claimHandle index =>
    obtain ⟨⟨handle, t⟩, hclaim, hr⟩ := bind_eq_ok.mp hcall
    obtain ⟨rfl, rfl⟩ := Prod.mk.inj (Except.ok.inj hr)
    obtain ⟨hle, hlt, hhandle, hclaimed, hbytes, hintact⟩ := h.claimHandle_ok hclaim
    constructor
    · exact hintact
    · exact hbytes.ge
    · intro s hs
      cases hs
    · exact ⟨hle, hclaimed.ge⟩
    · intro p hp
      obtain rfl := mem_singleton.mp hp
      exact ⟨hlt, hhandle⟩

theorem HandedOut.cons {d'' : SliceDecoder} {handouts : List Handout}
    (h : HandedOut buffer handles d d' [handout]) (h' : HandedOut buffer handles d' d'' handouts) :
    HandedOut buffer handles d d'' (handout :: handouts) := by
  rw [← singleton_append]
  constructor
  · exact h'.intact
  · rw [extents, filterMap_append, map_append]
    exact h.slices.append h'.slices
  · intro s hs
    rw [filterMap_append, mem_append] at hs
    exact hs.elim (h.sliced s) (h'.sliced s)
  · rw [SliceDecoder.places, filterMap_append, map_append]
    exact h.places.append h'.places
  · intro p hp
    rw [filterMap_append, mem_append] at hp
    exact hp.elim (h.taken p) (h'.taken p)

theorem handedOut_nil (h : Intact buffer handles d) : HandedOut buffer handles d d [] where
  intact := h
  slices := le_refl d.bytes
  sliced s hs := by cases hs
  places := le_refl d.handlesClaimed
  taken p hp := by cases hp

theorem Intact.callAll (h : Intact buffer handles d) (cs : List DecoderCall) :
    HandedOut buffer handles d (d.callAll cs).2.1 (d.callAll cs).1 ∧
      ∀ failure, (d.callAll cs).2.2 = some failure → ∃ error, failure = .invalid error := by
  induction cs generalizing d with
  | nil => exact ⟨handedOut_nil h, fun failure hf => by cases hf⟩
  | cons c cs ih =>
    rw [SliceDecoder.callAll]
    cases hcall : d.call c with
    | error failure =>
      refine ⟨handedOut_nil h, fun failure' hf => ?_⟩
      cases hf
      exact h.call_error hcall
    | ok r =>
      obtain ⟨handout, d'⟩ := r
      have hhanded := h.call_ok hcall
      obtain ⟨hrest, hfailure⟩ := ih hhanded.intact
      exact ⟨hhanded.cons hrest, hfailure⟩

end Claims

theorem handed_out_in_order (buffer : Buffer) (handles : List ℕ) (cs : List DecoderCall) :
    let (handouts, d, failure) := (new buffer handles).callAll cs
    (∀ s ∈ handouts.filterMap Handout.slice?, Sliced buffer s.1 s.2) ∧
      (handouts.filterMap Handout.slice?).Pairwise (fun s t => s.1 + s.2.length ≤ t.1) ∧
      (∃ rest, d.buffer = some rest ∧ d.bytes + rest.length = buffer.data.length) ∧
      (∀ h ∈ handouts.filterMap Handout.handle?, h.1 < handles.length ∧ h.2 = handles[h.1]?) ∧
      (handouts.filterMap Handout.handle?).Pairwise (fun h k => h.1 < k.1) ∧
      ∀ f, failure = some f → ∃ error, f = .invalid error := by
  obtain ⟨h, hfailure⟩ := (intact_new buffer handles).callAll cs
  refine ⟨h.sliced, ?_, ⟨_, h.intact.rest, ?_⟩, h.taken, ?_, hfailure⟩
  · have hstop := h.slices.stop_le
    rw [extents, pairwise_map] at hstop
    exact hstop
  · rw [length_drop]
    exact Nat.add_sub_of_le h.intact.inside
  · have hstop := h.places.stop_le
    rw [SliceDecoder.places, pairwise_map] at hstop
    exact hstop

/-! ### The decoder without slices -/

section Refines

variable {buffer : Buffer} {handles : List ℕ} {d : SliceDecoder}

def forget (handles : List ℕ) (d : SliceDecoder) : Decoder where
  bytes := d.bytes
  states := d.states.map fun s =>
    { size := s.2.length, globalOffset := s.1, offset := 0, bitOffset := 0 }
  handles := handles
  handlesClaimed := d.handlesClaimed
  maxOffset := d.maxOffset

theorem forget_claim (h : Intact buffer handles d) (offset : ℕ) :
    ((d.forget handles).claim (block 0 buffer.data) offset).map Prod.snd =
      (d.claim offset).map fun r => r.2.forget handles := by
  have hmax := h.maxOffset
  rw [h.claim_eq, Decoder.claim]
  simp only [forget]
  by_cases hbytes : offset < d.bytes
  · simp only [hbytes, ↓reduceIte, Except.map]
  simp only [hbytes, ↓reduceIte]
  by_cases halign : offset % 8 ≠ 0
  · simp only [ne_eq, halign, not_false_eq_true, ↓reduceIte, Except.map]
  simp only [halign, ↓reduceIte]
  by_cases hbound : d.maxOffset < offset
  · simp only [hbound, ↓reduceIte, Except.map]
  simp only [hbound, ↓reduceIte]
  by_cases hheader : d.maxOffset - offset < 4
  · simp only [hheader, ↓reduceIte, Except.map]
  simp only [hheader, ↓reduceIte]
  by_cases hsize : d.maxOffset - offset < load (block 0 buffer.data) offset 4
  · simp only [hsize, ↓reduceIte, Except.map]
  simp only [hsize, ↓reduceIte]
  have hlen : ((buffer.data.drop offset).take (load (block 0 buffer.data) offset 4)).length =
      load (block 0 buffer.data) offset 4 := by
    rw [length_take, length_drop]
    omega
  simp only [Except.map, map_append, map_cons, map_nil, hlen]

theorem forget_claimHandle (h : Intact buffer handles d) {index : ℕ} (hindex : index < 2 ^ 32) :
    (d.forget handles).claimHandle index =
      (d.claimHandle (if 2 ^ 31 ≤ index then index - 2 ^ 32 else index)).map
        fun r => (r.1.getD 0, r.2.forget handles) := by
  have hlen := h.length
  rw [Decoder.claimHandle, SliceDecoder.claimHandle, DecodingState.isNegative]
  by_cases hneg : 2 ^ 31 ≤ index
  · have hlt : (index : ℤ) - 2 ^ 32 < 0 := by omega
    rw [if_pos (by simpa using hneg), if_pos hneg, if_pos hlt]
    rfl
  · have hge : ¬ (index : ℤ) < 0 := by omega
    rw [if_neg (by simpa using hneg), if_neg hneg, if_neg hge]
    simp only [Int.toNat_natCast, forget, hlen]
    by_cases hrange : handles.length ≤ index ∨ index < d.handlesClaimed
    · simp only [hrange, ↓reduceIte, Except.map]
    · have hunclaimed := h.unclaimed index (not_lt.mp (not_or.mp hrange).2)
      simp only [hrange, ↓reduceIte, Except.map, hunclaimed, getD_eq_getElem?_getD]

end Refines

end SliceDecoder

end Mojo.RustBindings
