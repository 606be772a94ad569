import Mojo.RustBindings.Decoding
import Mojo.Wire.Reader

/-!
# Reading members without an object

The decoder as a reader with cursors, which move naturally. For a nullable kind the decoder first
looks whether the member is null and so aligns the cursor twice.
-/

namespace Mojo.RustBindings

open Mojo.Memory Mojo.CppBindings Mojo.Wire DecodingState

namespace DecodingState

def of (pen : Pen) : DecodingState := ⟨pen.size, pen.base, pen.cursor.offset, pen.cursor.bit⟩

variable {pen : Pen} {m : Mem} {n a : ℕ}

theorem aligned_of (pen : Pen) (hn : 0 < n) :
    (of pen).alignToByte.alignToBytes n = of (pen.to (alignUp pen.cursor.toByte n)) := by
  have hzero : alignUp 0 n = 0 := alignUp_of_dvd hn (dvd_zero n)
  by_cases hbit : 0 < pen.cursor.bit
  · simp [of, alignToByte, alignToBytes, Cursor.toByte, hbit, alignUp, alignBytes]
  · have h0 : pen.cursor.bit = 0 := by omega
    by_cases hoff : pen.cursor.offset = 0
    · simp [of, alignToByte, alignToBytes, Cursor.toByte, h0, hoff, hzero]
    · simp [of, alignToByte, alignToBytes, Cursor.toByte, h0, hoff, alignUp, alignBytes]

theorem readInPlace_of (h : pen.cursor.offset + n ≤ pen.size) :
    (of pen).readInPlace m n = .ok (load m (pen.base + pen.cursor.offset) n) := by
  rw [readInPlace, if_pos (by simp only [of]; omega)]
  rfl

theorem decode_of (hn : 0 < n) (ha : alignUp pen.cursor.toByte n = a) (h : a + n ≤ pen.size) :
    decode m n (of pen) = .ok (load m (pen.base + a) n, of (pen.to (a + n))) := by
  rw [decode, aligned_of pen hn, ha, read, readInPlace_of h]
  rfl

theorem decodeBool_of (h : pen.cursor.offset < pen.size) :
    decodeBool m (of pen) = .ok ((m (pen.base + pen.cursor.offset)).toNat.testBit pen.cursor.bit,
      of { pen with cursor := natural.advance .bool .null pen.cursor }) := by
  rw [decodeBool, if_pos (by simpa [of] using h)]
  rfl

theorem skipIfNull_of {isNull : ℕ → Bool} {skip : ℕ} (hn : 0 < n)
    (ha : alignUp pen.cursor.toByte n = a) (h : a + n ≤ pen.size) :
    skipIfNull m n isNull skip (of pen) = .ok (isNull (load m (pen.base + a) n),
      of (pen.to (if isNull (load m (pen.base + a) n) then a + skip else a))) := by
  rw [skipIfNull, aligned_of pen hn, ha, readInPlace_of h, ok_bind]
  by_cases hnull : isNull (load m (pen.base + a) n) = true
  · simp only [hnull, ↓reduceIte]
    rfl
  · simp [hnull]

theorem skipIfNullUnion_of (ha : alignUp pen.cursor.toByte 8 = a) (h : a + 4 ≤ pen.size) :
    skipIfNullUnion m (of pen) = .ok (load m (pen.base + a) 4 == 0,
      of (pen.to (if load m (pen.base + a) 4 == 0 then a + unionSize else a))) := by
  rw [skipIfNullUnion, aligned_of pen (by decide), ha, readInPlace_of h, ok_bind]
  by_cases hnull : (load m (pen.base + a) 4 == 0) = true
  · simp only [hnull, ↓reduceIte]
    rfl
  · simp [hnull]

theorem decodePointer_of {location : ℕ} (ha : alignUp pen.cursor.toByte 8 = a)
    (h : a + 8 ≤ pen.size)
    (hload : load m (pen.base + a) 8 = location - (pen.base + a)) (hlt : pen.base + a < location)
    (hsmall : location < 2 ^ 64) :
    decodePointer m (of pen) = .ok (some location, of (pen.to (a + 8))) := by
  have hread : read m 8 (of (pen.to a)) = .ok (location - (pen.base + a), of (pen.to (a + 8))) := by
    rw [read, readInPlace_of h, ok_bind, hload]
    rfl
  have hne : ¬ (location - (pen.base + a) = 0) := by omega
  have hsum : location - (pen.base + a) + (pen.base + a) = location := by omega
  rw [decodePointer, aligned_of pen (by decide), ha]
  simp only [hread, ok_bind, if_neg hne]
  rw [show (of (pen.to a)).globalOffset + (of (pen.to a)).offset = pen.base + a from rfl, hsum,
    if_pos hsmall]

end DecodingState

/-- The decoder of a buffer of `limit` bytes with the handles `H`. -/
def reader (limit : ℕ) (H : List ℕ) : Reader Decoder where
  holds d id pen := d.states[id]? = some (DecodingState.of pen)
  claimed d lo i := d.bytes ≤ lo ∧ d.handlesClaimed ≤ i ∧ d.maxOffset = limit ∧ d.handles = H
  Frame _ _ := True
  refl _ := trivial
  trans _ _ := trivial

def Decoder.after (d : Decoder) (id : ℕ) (pen : Pen) : Decoder :=
  { d with states := d.states.set id (DecodingState.of pen) }

section Members

variable {Γ : Types} {D : Domain} {depth limit lo i version fuel : ℕ} {m : Mem} {H : List ℕ}
  {d : Decoder} {context : Context} {pen pen' : Pen} {q : Slot} {v : Value}

theorem Decoder.update_of {α : Type} (context : Context) {act : DecodingState.Action α} {a : α}
    (h : (reader limit H).holds d context.id pen)
    (hact : act (DecodingState.of pen) = .ok (a, DecodingState.of pen')) :
    d.update context act = .ok (a, d.after context.id pen') := by
  simp only [update, show d.states[context.id]? = some (DecodingState.of pen) from h, hact]
  rfl

theorem Decoder.holds_after {id : ℕ} (h : (reader limit H).holds d id pen) (pen' : Pen) :
    (reader limit H).holds (d.after id pen') id pen' :=
  List.getElem?_set_self (List.getElem?_eq_some_iff.mp h).1

theorem Decoder.others_after {id j : ℕ} {pen'' : Pen} (hj : j ≠ id)
    (h : (reader limit H).holds d j pen'') (pen' : Pen)
    : (reader limit H).holds (d.after id pen') j pen'' :=
  (List.getElem?_set_ne (Ne.symm hj)).trans h

theorem Decoder.after_after (id : ℕ) (pen pen' : Pen) :
    (d.after id pen).after id pen' = d.after id pen' := by
  simp [after]

abbrev ReadyAt (Γ : Types) (depth : ℕ) (m : Mem) (limit : ℕ) (H : List ℕ) (d : Decoder) (id : ℕ)
    (pen : Pen) (ps : List (Slot × Value)) (lo i : ℕ) : Prop :=
  (reader limit H).Ready Γ natural depth m limit H d id pen ps lo i

abbrev DoneAt (Γ : Types) (depth limit : ℕ) (H : List ℕ) (d d' : Decoder) (id : ℕ)
    (pen : Pen) (ps : List (Slot × Value)) (lo i : ℕ) : Prop :=
  (reader limit H).Done Γ natural depth d d' id pen ps lo i

def ReadsMember (Γ : Types) (m : Mem) (limit : ℕ) (H : List ℕ) (depth id : ℕ) (q : Slot) (v : Value)
    (run : Decoder → Except Failure (Value × Decoder)) : Prop :=
  ∀ {d pen lo i}, ReadyAt Γ depth m limit H d id pen [(q, v)] lo i →
    ∃ d', run d = .ok (v, d') ∧ DoneAt Γ depth limit H d d' id pen [(q, v)] lo i

theorem ReadyAt.place (h : ReadyAt Γ depth m limit H d context.id pen [(q, v)] lo i)
    (hb : q.kind ≠ .bool) :
    alignUp pen.cursor.toByte q.kind.alignment = q.addr ∧ q.addr + q.kind.size ≤ pen.size ∧
      DecodingState.of (pen.past natural (q, v)) =
        DecodingState.of (pen.to (q.addr + q.kind.size)) := by
  have haddr := h.sees.flows.1
  simp only [(natural_of_ne hb v pen.cursor).1] at haddr
  refine ⟨haddr.symm, h.sees.inside _ (.head _), ?_⟩
  simp only [Pen.past, (natural_of_ne hb v pen.cursor).2, ← haddr]
  rfl

variable {n : ℕ}

theorem read_done (h : ReadyAt Γ depth m limit H d context.id pen [(q, v)] lo i)
    (hpen : DecodingState.of pen' = DecodingState.of (pen.past natural (q, v)))
    (hn : n ≤ i + (handles Γ depth q.kind v).length) :
    DoneAt Γ depth limit H d { d.after context.id pen' with handlesClaimed := n } context.id pen
      [(q, v)] lo i where
  holds := (Decoder.holds_after h.holds pen').trans (congrArg some hpen)
  others j pen'' hj hpen'' := Decoder.others_after hj hpen'' pen'
  claimed := by
    obtain ⟨hbytes, -, hlimit, hhandles⟩ := h.claimed
    refine ⟨?_, ?_, hlimit, hhandles⟩
    · exact hbytes.trans (Nat.le_add_right lo _)
    · simpa using hn
  frame := trivial

theorem read_done' (h : ReadyAt Γ depth m limit H d context.id pen [(q, v)] lo i)
    (hpen : DecodingState.of pen' = DecodingState.of (pen.past natural (q, v))) :
    DoneAt Γ depth limit H d (d.after context.id pen') context.id pen [(q, v)] lo i :=
  read_done h hpen (h.claimed.2.1.trans (Nat.le_add_right i _))

theorem update_number (context : Context) {size : ℕ} (hsize : 0 < size)
    (h : ReadyAt Γ depth m limit H d context.id pen [(q, .number n)] lo i)
    (hq : q.kind = .number size) :
    ∃ d', d.update context (DecodingState.decode m size) = .ok (n, d') ∧
      DoneAt Γ depth limit H d d' context.id pen [(q, .number n)] lo i := by
  obtain ⟨haddr, hin, hpast⟩ := ReadyAt.place h (by simp [hq])
  rw [hq] at haddr hin hpast
  have hcontent := h.sees.content
  simp only [Content, Slot.shift, hq] at hcontent
  refine ⟨_, ?_, read_done' h hpast.symm⟩
  rw [Decoder.update_of context h.holds (DecodingState.decode_of hsize haddr hin), hcontent]
  rfl

theorem decode_number {size : ℕ} (hsize : 0 < size) (hq : q.kind = .number size) :
    ReadsMember Γ m limit H depth context.id q (.number n)
      (decode Γ m fuel (.number size) context) := by
  intro d pen lo i h
  obtain ⟨d', hrun, hd⟩ := update_number context hsize h hq
  refine ⟨d', ?_, hd⟩
  simp [decode, hrun, ok_bind]

theorem decode_bool {b : Bool} (hq : q.kind = .bool) :
    ReadsMember Γ m limit H depth context.id q (.bool b) (decode Γ m fuel .bool context) := by
  intro d pen lo i h
  have haddr : q.addr = pen.cursor.offset := by
    have := h.sees.flows.1
    simpa [hq, natural] using this
  have hbit : q.bit = pen.cursor.bit := by
    have := h.sees.flows.2.1 hq
    simpa [hq, natural] using this
  have hin := h.sees.inside _ (.head _)
  simp only [hq, Kind.size] at hin
  have hcontent := h.sees.content
  simp only [Content, Slot.shift, hq, testBit, haddr, hbit] at hcontent
  have hrun := Decoder.update_of context h.holds (DecodingState.decodeBool_of (m := m) (by omega))
  refine ⟨_, ?_, read_done' h (by simp only [Pen.past, hq]; rfl)⟩
  simp only [decode]
  rw [hrun, ok_bind, hcontent]
  rfl

theorem isNegative_of_lt (h : n < 2 ^ 31) : isNegative n = false := by
  simp only [isNegative, decide_eq_false_iff_not]
  omega

variable {x : ℕ}

theorem claimHandle_eq (hH : H.length ≤ 2 ^ 31) (hx : H[i]? = some x)
    (hc : (reader limit H).claimed d lo i) :
    d.claimHandle i = .ok (x, { d with handlesClaimed := i + 1 }) := by
  obtain ⟨hlt, hget⟩ := List.getElem?_eq_some_iff.mp hx
  obtain ⟨-, hclaimed, -, hhandles⟩ := hc
  rw [Decoder.claimHandle, isNegative_of_lt (by omega), hhandles]
  simp only [Bool.false_eq_true, ↓reduceIte]
  rw [if_neg (by omega), List.getD_eq_getElem?_getD, hx, Option.getD_some]

variable {nullable : Bool}

variable {skip : DecodingState.Action Bool} {dec : Decoder → Except Failure (Value × Decoder)}

theorem decodeOption_done
    (h : ReadyAt Γ depth m limit H d context.id pen [(q, v)] lo i) (hb : q.kind ≠ .bool)
    (halign : 0 < q.kind.alignment)
    (hskip : nullable →
      skip (DecodingState.of pen) = .ok (false, DecodingState.of (pen.to q.addr)))
    (hdec : ReadsMember Γ m limit H depth context.id q v dec) :
    ∃ d', decodeOption nullable skip context dec d = .ok (v, d') ∧
      DoneAt Γ depth limit H d d' context.id pen [(q, v)] lo i := by
  cases nullable with
  | false => exact hdec h
  | true =>
    obtain ⟨haddr, -, -⟩ := ReadyAt.place h hb
    have hagain : alignUp (Cursor.toByte ⟨q.addr, 0⟩) q.kind.alignment = q.addr :=
      alignUp_of_dvd halign (haddr ▸ Dvd.intro_left _ rfl)
    have hplace := natural_of_ne hb v ⟨q.addr, 0⟩
    have hplace' := natural_of_ne hb v pen.cursor
    rw [hagain] at hplace
    rw [haddr] at hplace'
    have hpast : Pen.past natural (pen.to q.addr) (q, v) = pen.past natural (q, v) := by
      simp [Pen.past, hplace.2, hplace'.2]
    obtain ⟨d', hrun, hd⟩ := @hdec _ (pen.to q.addr) _ _
      { holds := Decoder.holds_after h.holds _
        claimed := h.claimed
        sees :=
          { h.sees with
            flows := ⟨by simp only [hplace.1], fun hbool => absurd hbool hb, trivial⟩ } }
    refine ⟨d', ?_, ?_⟩
    · rw [decodeOption, if_pos rfl, Decoder.update_of context h.holds (hskip rfl), ok_bind]
      exact hrun
    · constructor
      · have hholds := hd.holds
        rw [Pen.pastAll, List.foldl_cons, hpast] at hholds
        exact hholds
      · intro j pen' hj hpen
        exact hd.others j pen' hj (Decoder.others_after hj hpen _)
      · exact hd.claimed
      · trivial

theorem decodeHandle_done (hH : H.length ≤ 2 ^ 31) (hq : q.kind = .handle nullable) :
    ReadsMember Γ m limit H depth context.id q (.handle x) (decodeHandle m context) := by
  intro d pen lo i h
  obtain ⟨haddr, hin, hpast⟩ := ReadyAt.place h (by simp [hq])
  have ho : object Γ q.kind (.handle x) = none := by rw [hq]; rfl
  have hx := h.sees.handle rfl (handles_of_none ho)
  have hcontent := h.sees.content
  simp only [Content, Slot.shift, hq, handleWord] at hcontent
  rw [hq] at haddr hin hpast
  simp only [Kind.alignment, Kind.size] at haddr hin hpast
  have hrun := Decoder.update_of context h.holds
    (DecodingState.decode_of (m := m) (by decide) haddr hin)
  rw [hcontent] at hrun
  have hclaim := claimHandle_eq (d := d.after context.id (pen.to (q.addr + 4))) hH hx h.claimed
  refine ⟨_, ?_, read_done h (n := i + 1) hpast.symm (by simp [handles_of_none ho])⟩
  rw [decodeHandle, hrun, ok_bind]
  exact (congrArg (· >>= fun x : ℕ × Decoder => Except.ok (Value.handle x.1, x.2)) hclaim)

theorem decodeInterface_done (hH : H.length ≤ 2 ^ 31) (hq : q.kind = .interface nullable) :
    ReadsMember Γ m limit H depth context.id q (.interface x version)
      (decodeInterface m context) := by
  intro d pen lo i h
  obtain ⟨haddr, hin, hpast⟩ := ReadyAt.place h (by simp [hq])
  have ho : object Γ q.kind (.interface x version) = none := by rw [hq]; rfl
  have hx := h.sees.handle rfl (handles_of_none ho)
  have hcontent := h.sees.content
  simp only [Content, Slot.shift, hq, handleWord] at hcontent
  rw [hq] at haddr hin hpast
  simp only [Kind.alignment, Kind.size] at haddr hin hpast
  have hrun := Decoder.update_of context h.holds (DecodingState.decode_of (m := m) (by decide) haddr
    (by omega))
  rw [hcontent.1] at hrun
  have hnext : alignUp (Cursor.toByte ⟨q.addr + 4, 0⟩) 4 = q.addr + 4 := by
    simp only [Cursor.toByte_mk, ← haddr, alignUp]
    omega
  have hrun' := Decoder.update_of context (Decoder.holds_after h.holds (pen.to (q.addr + 4)))
    (DecodingState.decode_of (m := m) (by decide) hnext (by simp only; omega))
  rw [Decoder.after_after] at hrun'
  have hclaim := claimHandle_eq (d := d.after context.id (pen.to (q.addr + 4 + 4))) hH hx h.claimed
  refine ⟨_, ?_, read_done h (n := i + 1) hpast.symm (by simp [handles_of_none ho])⟩
  rw [decodeInterface, hrun, ok_bind]
  simp only
  rw [hrun', ok_bind, ← Nat.add_assoc, hcontent.2]
  exact (congrArg (· >>= fun x : ℕ × Decoder => Except.ok (Value.interface x.1 version, x.2))
    hclaim)

theorem decodeOption_null
    (h : ReadyAt Γ depth m limit H d context.id pen [(q, .null)] lo i) (hb : q.kind ≠ .bool)
    (hskip : skip (DecodingState.of pen) =
      .ok (true, DecodingState.of (pen.to (q.addr + q.kind.size)))) :
    ∃ d', decodeOption true skip context dec d = .ok (.null, d') ∧
      DoneAt Γ depth limit H d d' context.id pen [(q, .null)] lo i := by
  obtain ⟨-, -, hpast⟩ := ReadyAt.place h hb
  refine ⟨_, ?_, read_done' h hpast.symm⟩
  rw [decodeOption, if_pos rfl, Decoder.update_of context h.holds hskip, ok_bind]
  rfl

theorem decode_null {kind : Kind} (hq : q.kind = kind)
    (hnull : kind.isNullable) (hkind : ∀ name nullable, kind ≠ .unionPointer name nullable) :
    ReadsMember Γ m limit H depth context.id q .null (decode Γ m fuel kind context) := by
  intro d pen lo i h
  have hcontent := h.sees.content
  have hb : q.kind ≠ .bool := by
    rintro hb
    rw [← hq, hb] at hnull
    cases hnull
  obtain ⟨haddr, hin, -⟩ := ReadyAt.place h hb
  have hpointer (hp : kind.isPointer = true) : skipIfNullPointer m (.of pen) =
      .ok (true, .of (pen.to (q.addr + q.kind.size))) := by
    obtain ⟨-, h8⟩ := size_of_isPointer hp
    have halign : kind.alignment = 8 := by
      cases kind <;> first | rfl | cases hp
    rw [hq, halign] at haddr
    rw [hq, h8] at hin
    have hload : load m (pen.base + q.addr) 8 = 0 := by
      cases kind <;>
        first | cases hp; done | (simp only [Content, Slot.shift, hq] at hcontent; exact hcontent.2)
    rw [skipIfNullPointer, DecodingState.skipIfNull_of (by decide) haddr hin, hload, hq, h8]
    rfl
  cases kind with
  | number | bool => cases hnull
  | unionPointer name nullable => exact absurd rfl (hkind name nullable)
  | handle nullable =>
    cases hnull
    simp only [decode]
    refine decodeOption_null h hb ?_
    simp only [Content, Slot.shift, hq] at hcontent
    rw [hq] at haddr hin
    simp only [Kind.alignment, Kind.size] at haddr hin
    rw [skipIfNullHandle, DecodingState.skipIfNull_of (by decide) haddr hin, hcontent, hq]
    rfl
  | interface nullable =>
    cases hnull
    simp only [decode]
    refine decodeOption_null h hb ?_
    simp only [Content, Slot.shift, hq] at hcontent
    rw [hq] at haddr hin
    simp only [Kind.alignment, Kind.size] at haddr hin
    rw [skipIfNullInterface, DecodingState.skipIfNull_of (by decide) haddr (by omega),
      hcontent.1, hq]
    rfl
  | union name nullable =>
    cases hnull
    simp only [decode]
    refine decodeOption_null h hb ?_
    simp only [Content, Slot.shift, hq] at hcontent
    rw [hq] at haddr hin
    simp only [Kind.alignment, Kind.size] at haddr hin
    have hload : load m (pen.base + q.addr) 4 = 0 :=
      load_eq_zero_of_subset hcontent.1 (span_subset le_rfl (by omega))
    rw [DecodingState.skipIfNullUnion_of haddr (by omega), hload, hq]
    rfl
  | string nullable | array _ _ nullable | map _ _ nullable | struct _ nullable =>
    cases hnull
    simp only [decode]
    exact decodeOption_null h hb (hpointer rfl)

end Members

end Mojo.RustBindings
