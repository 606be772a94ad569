import Mojo.RustBindings.Encoding
import Mojo.Wire.Machine

/-!
# Writing members without an object

The encoder as a machine with cursors. The cursor of an object's state moves as `walk`
says: naturally, except around a union that is not null. Numbers, bools, handles, interfaces and
null values are written by one or two actions of the state.
-/

namespace Mojo.RustBindings

open Mojo.Memory Mojo.CppBindings Mojo.Wire EncodingState

/-- The encoder does not align to a byte before it aligns to the start of a union, and aligns to
a byte last after the end of one. -/
def walk (Γ : Types) : Walk where
  place kind v c :=
    match kind, v with
    | .union _ _, .union _ _ => ⟨alignUp (Cursor.toByte ⟨alignUp c.offset 8, c.bit⟩) 4, 0⟩
    | kind, v => natural.place kind v c
  advance kind v c :=
    match kind, v with
    | .union name _, .union tag field =>
      let start := alignUp (Cursor.toByte ⟨alignUp c.offset 8, c.bit⟩) 4
      let c := natural.advance (variant Γ name tag).inUnion field ⟨start + 8, 0⟩
      ⟨Cursor.toByte ⟨alignUp c.offset 8, c.bit⟩, 0⟩
    | kind, v => natural.advance kind v c

namespace EncodingState

def of (pen : Pen) : EncodingState := ⟨pen.size, pen.base, pen.cursor.offset, pen.cursor.bit⟩

variable {pen : Pen} {m : Mem} {n x : ℕ}

theorem aligned_of (pen : Pen) (n : ℕ) :
    (of pen).alignToByte.alignToBytes n = of (pen.to (alignUp pen.cursor.toByte n)) := by
  simp only [of, alignToByte, alignToBytes, Cursor.toByte, alignUp, alignBytes]
  by_cases h : 0 < pen.cursor.bit
  · simp [h]
  · have h0 : pen.cursor.bit = 0 := by omega
    simp [h0]

theorem write_of (h : pen.cursor.offset + n ≤ pen.size) :
    write n x (of pen) m = .ok (of (pen.to (pen.cursor.offset + n)),
      store m (pen.base + pen.cursor.offset) n x) := by
  rw [write, if_pos (by simp only [of]; omega)]
  rfl

theorem encode_of {a : ℕ} (ha : alignUp pen.cursor.toByte n = a) (h : a + n ≤ pen.size) :
    encode n x (of pen) m = .ok (of (pen.to (a + n)), store m (pen.base + a) n x) := by
  rw [encode, aligned_of, ha, write_of h]

theorem alignUp_alignUp {n a : ℕ} (ha : 0 < a) : alignUp (alignUp n a) a = alignUp n a :=
  alignUp_of_dvd ha (Dvd.intro_left _ rfl)

theorem encode_aligned {a : ℕ} (hn : 0 < n) (ha : alignUp pen.cursor.toByte n = a)
    (h : a + n ≤ pen.size) : encode n x ((of pen).alignToByte.alignToBytes n) m =
      .ok (of (pen.to (a + n)), store m (pen.base + a) n x) := by
  have hagain : alignUp (Cursor.toByte ⟨a, 0⟩) n = a := by
    simp [Cursor.toByte_mk, ← ha, alignUp_alignUp hn]
  rw [aligned_of, ha]
  exact encode_of hagain h

theorem encodePointer_of {a location : ℕ} (ha : alignUp pen.cursor.toByte 8 = a)
    (h : a + 8 ≤ pen.size) (hle : pen.base + a ≤ location) :
    encodePointer location (of pen) m = .ok (of (pen.to (a + 8)),
      store m (pen.base + a) 8 (location - (pen.base + a))) := by
  have hloc : ((of pen).alignToByte.alignToBytes 8).globalOffset +
      ((of pen).alignToByte.alignToBytes 8).offset = pen.base + a := by
    rw [aligned_of, ha]
    rfl
  simp only [encodePointer, hloc, hle, ↓reduceIte]
  exact encode_aligned (by decide) ha h

end EncodingState

def machine : Machine Encoder where
  view e := ⟨e.mem, e.bytes, e.handles⟩
  limit e := e.size
  holds e id pen := e.states[id]? = some (EncodingState.of pen) ∧ pen.left = none
  Frame e e' := e'.size = e.size
  refl _ := rfl
  trans h h' := h'.trans h
  limit_eq h := h

def Encoder.after (e : Encoder) (id : ℕ) (pen : Pen) (m : Mem) (handles : List ℕ) : Encoder :=
  { e with
    states := e.states.set id (EncodingState.of pen)
    mem := m
    handles := handles }

def WritesMembers (Γ : Types) (depth id : ℕ) (ps : List (Slot × Value))
    (run : Encoder → Except Failure Encoder) : Prop :=
  ∀ {e pen}, machine.Ready Γ (walk Γ) depth e id pen ps →
    ∃ e', run e = .ok e' ∧ machine.Done Γ (walk Γ) depth e e' id pen ps

abbrev NaturalAt (Γ : Types) (kind : Kind) (v : Value) (c : Cursor) : Prop :=
  (walk Γ).place kind v c = natural.place kind v c ∧ (walk Γ).advance kind v c =
    natural.advance kind v c

section Members

variable {Γ : Types} {depth : ℕ} {e : Encoder} {context : Context} {pen pen' : Pen} {q : Slot}
  {v : Value} {m : Mem}

theorem Encoder.update_of {act : EncodingState.Action} (h : machine.holds e context.id pen)
    (hs : List ℕ) (hact : act (EncodingState.of pen) e.mem = .ok (EncodingState.of pen', m)) :
    { e with handles := hs }.update context act = .ok (e.after context.id pen' m hs) := by
  simp only [update, h.1, hact]
  rfl

theorem Encoder.holds_after (h : machine.holds e context.id pen) (hleft : pen'.left = none)
    (hs : List ℕ) : machine.holds (e.after context.id pen' m hs) context.id pen' :=
  ⟨List.getElem?_set_self (List.getElem?_eq_some_iff.mp h.1).1, hleft⟩

theorem Encoder.others_after {id j : ℕ} {pen'' : Pen} (hj : j ≠ id) (h : machine.holds e j pen'')
    (hs : List ℕ) : machine.holds (e.after id pen' m hs) j pen'' :=
  ⟨(List.getElem?_set_ne (Ne.symm hj)).trans h.1, h.2⟩

theorem left_past (h : machine.holds e context.id pen) (p : Slot × Value) :
    (pen.past (walk Γ) p).left = none := by
  simp [Pen.past, h.2]

theorem done_after (h : machine.Ready Γ (walk Γ) depth e context.id pen [(q, v)]) {hs : List ℕ}
    (hw : Wrote Γ .onWire depth pen.base [(q, v)] (machine.view e) ⟨m, e.bytes, hs⟩) :
    machine.Done Γ (walk Γ) depth e (e.after context.id (pen.past (walk Γ) (q, v)) m hs) context.id
      pen [(q, v)] where
  wrote := hw
  holds := Encoder.holds_after h.holds (left_past h.holds _) hs
  others _ _ hj hpen := Encoder.others_after hj hpen hs
  frame := rfl

theorem Ready.place (h : machine.Ready Γ (walk Γ) depth e context.id pen [(q, v)])
    (hb : q.kind ≠ .bool) (hwalk : NaturalAt Γ q.kind v pen.cursor) :
    alignUp pen.cursor.toByte q.kind.alignment = q.addr ∧ q.addr + q.kind.size ≤ pen.size ∧
      pen.past (walk Γ) (q, v) = pen.to (q.addr + q.kind.size) := by
  have haddr := h.isOpen.flows.1
  simp only [hwalk.1, (natural_of_ne hb v pen.cursor).1] at haddr
  refine ⟨haddr.symm, h.isOpen.inside _ (.head _), ?_⟩
  simp only [Pen.past, Pen.to, hwalk.2, (natural_of_ne hb v pen.cursor).2, h.holds.2,
    Option.map_none, ← haddr]

theorem encode_word {n x : ℕ} (h : machine.Ready Γ (walk Γ) depth e context.id pen [(q, v)])
    (hb : q.kind ≠ .bool) (hwalk : NaturalAt Γ q.kind v pen.cursor) (hn : q.kind.alignment = n)
    (hsize : q.kind.size = n) (hs : List ℕ) :
    { e with handles := hs }.update context (EncodingState.encode n x) =
      .ok (e.after context.id (pen.past (walk Γ) (q, v))
        (store e.mem (pen.base + q.addr) n x) hs) := by
  obtain ⟨haddr, hin, hpast⟩ := Ready.place h hb hwalk
  rw [hpast, hsize]
  rw [hsize] at hin
  exact Encoder.update_of h.holds hs (EncodingState.encode_of (hn ▸ haddr) hin)

theorem encode_words {x y : ℕ} (act : EncodingState.Action)
    (h : machine.Ready Γ (walk Γ) depth e context.id pen [(q, v)]) (hb : q.kind ≠ .bool)
    (hwalk : NaturalAt Γ q.kind v pen.cursor)
    (hn : q.kind.alignment = 4) (hsize : q.kind.size = 8)
    (hact : ∀ a, alignUp pen.cursor.toByte 4 = a → a + 4 ≤ pen.size →
      act (EncodingState.of pen) e.mem =
      .ok (EncodingState.of (pen.to (a + 4)), store e.mem (pen.base + a) 4 x))
    (hs : List ℕ) :
    ({ e with handles := hs }.update context act >>= fun e =>
      e.update context (EncodingState.encode 4 y)) =
      .ok (e.after context.id (pen.past (walk Γ) (q, v))
        (store (store e.mem (pen.base + q.addr) 4 x) (pen.base + q.addr + 4) 4 y) hs) := by
  obtain ⟨haddr, hin, hpast⟩ := Ready.place h hb hwalk
  rw [hn] at haddr
  rw [hsize] at hin hpast
  rw [Encoder.update_of h.holds hs (hact q.addr haddr (by omega)), ok_bind]
  have hnext : alignUp (Cursor.toByte ⟨q.addr + 4, 0⟩) 4 = q.addr + 4 := by
    simp only [Cursor.toByte_mk, ← haddr, alignUp]
    omega
  have hholds : machine.holds (e.after context.id (pen.to (q.addr + 4))
      (store e.mem (pen.base + q.addr) 4 x) hs) context.id (pen.to (q.addr + 4)) := by
    refine Encoder.holds_after h.holds ?_ hs
    exact h.holds.2
  have hsecond := Encoder.update_of hholds hs
    (EncodingState.encode_of (x := y) hnext (by simp only; omega))
  rw [hpast]
  refine hsecond.trans ?_
  simp only [Encoder.after, List.set_set, Nat.add_assoc, Nat.reduceAdd]

variable {fuel : ℕ}

theorem encode_number {size n : ℕ} (hq : q.kind = .number size) (hn : n < 256 ^ size) :
    WritesMembers Γ depth context.id [(q, .number n)]
      (encode Γ fuel (.number size) (.number n) context) := by
  intro e pen h
  have hrun := encode_word (x := n) (n := size) h (by simp [hq]) (by rw [hq]; exact ⟨rfl, rfl⟩)
    (by rw [hq]; rfl) (by rw [hq]; rfl) e.handles
  refine ⟨_, by simp only [encode]; exact hrun, ?_⟩
  exact done_after h (wrote_number hq hn)

theorem encode_bool {b : Bool} (hq : q.kind = .bool) :
    WritesMembers Γ depth context.id [(q, .bool b)] (encode Γ fuel .bool (.bool b) context) := by
  intro e pen h
  have haddr : q.addr = pen.cursor.offset := by
    have := h.isOpen.flows.1
    simpa [hq, walk, natural] using this
  have hbit : q.bit = pen.cursor.bit := by
    have := h.isOpen.flows.2.1 hq
    simpa [hq, walk, natural] using this
  have hin := h.isOpen.inside _ (.head _)
  simp only [hq, Kind.size] at hin
  have hpast : EncodingState.of (pen.past (walk Γ) (q, .bool b)) =
      { EncodingState.of pen with
        offset := pen.cursor.offset + (pen.cursor.bit + 1) / 8
        bitOffset := (pen.cursor.bit + 1) % 8 } := by
    simp only [Pen.past, hq]
    rfl
  have hfresh : testBit e.mem (Slot.shift q pen.base) = false := by
    have := h.isOpen.fresh _ (.head _)
    simpa [SameAt, Slot.shift, hq, testBit, machine] using this
  have hrun : e.update context (encodeBool b) =
      .ok (e.after context.id (pen.past (walk Γ) (q, .bool b))
        (if b then setBit e.mem (pen.base + q.addr) q.bit else e.mem) e.handles) := by
    refine Encoder.update_of h.holds e.handles ?_
    rw [hpast, encodeBool, haddr, hbit]
    cases b with
    | true =>
      have hlt : (EncodingState.of pen).offset < (EncodingState.of pen).size := by
        simp only [EncodingState.of]
        omega
      simp only [↓reduceIte, if_pos hlt]
      rfl
    | false => rfl
  refine ⟨_, by simp only [encode]; exact hrun, ?_⟩
  exact done_after h (wrote_bool hq (h.isOpen.bits _ (.head _)) hfresh)

theorem handles_lt (h : machine.Ready Γ (walk Γ) depth e context.id pen [(q, v)]) :
    e.handles.length < 2 ^ 32 := by
  have hle := h.isOpen.handles
  simp only [machine] at hle
  omega

theorem encode_handle {x : ℕ} {nullable : Bool} (hq : q.kind = .handle nullable) :
    WritesMembers Γ depth context.id [(q, .handle x)]
      (encode Γ fuel (.handle nullable) (.handle x) context) := by
  intro e pen h
  have hrun := encode_word (x := e.handles.length) (n := 4) h (by simp [hq])
    (by rw [hq]; exact ⟨rfl, rfl⟩) (by rw [hq]; rfl) (by rw [hq]; rfl) (e.handles ++ [x])
  refine ⟨_, by simp only [encode, Encoder.addHandle]; exact hrun, ?_⟩
  exact done_after h (wrote_handle hq (handles_lt h))

theorem encode_interface {x version : ℕ} {nullable : Bool}
    (hq : q.kind = .interface nullable) (hversion : version < 2 ^ 32) :
    WritesMembers Γ depth context.id [(q, .interface x version)]
      (encode Γ fuel (.interface nullable) (.interface x version) context) := by
  intro e pen h
  have hrun := encode_words (x := e.handles.length) (y := version)
    (EncodingState.encode 4 e.handles.length) h
    (by simp [hq]) (by rw [hq]; exact ⟨rfl, rfl⟩) (by rw [hq]; rfl) (by rw [hq]; rfl)
    (fun _ ha hin => EncodingState.encode_of ha hin) (e.handles ++ [x])
  refine ⟨_, by simp only [encode, Encoder.addHandle]; exact hrun, ?_⟩
  exact done_after h (wrote_interface hq (handles_lt h) hversion)

theorem encode_null {kind : Kind} (hq : q.kind = kind)
    (hnull : kind.isNullable) (hkind : ∀ name nullable, kind ≠ .unionPointer name nullable) :
    WritesMembers Γ depth context.id [(q, .null)] (encode Γ fuel kind .null context) := by
  intro e pen h
  have hpointer (hp : kind.isPointer = true) : e.update context encodeNullPointer =
      .ok (e.after context.id (pen.past (walk Γ) (q, .null)) (store e.mem (pen.base + q.addr) 8 0)
        e.handles) := by
    obtain ⟨hb, h8⟩ := size_of_isPointer hp
    have halign : kind.alignment = 8 := by
      cases kind <;> first | rfl | cases hp
    obtain ⟨haddr, hin, hpast⟩ :=
      Ready.place h (hq ▸ hb) (by cases kind <;> rw [hq] <;> exact ⟨rfl, rfl⟩)
    rw [hq, halign] at haddr
    rw [hq, h8] at hin hpast
    rw [hpast]
    exact Encoder.update_of h.holds e.handles (EncodingState.encode_aligned (by decide) haddr hin)
  cases kind with
  | number | bool => cases hnull
  | unionPointer name nullable => exact absurd rfl (hkind name nullable)
  | handle nullable =>
    obtain ⟨haddr, hin, hpast⟩ := Ready.place h (by simp [hq]) (by rw [hq]; exact ⟨rfl, rfl⟩)
    rw [hq] at haddr hin hpast
    have hrun : e.update context encodeNullHandle =
        .ok (e.after context.id (pen.past (walk Γ) (q, .null))
          (store e.mem (pen.base + q.addr) 4 (2 ^ 32 - 1)) e.handles) := by
      rw [hpast]
      exact Encoder.update_of h.holds e.handles (EncodingState.encode_aligned (by decide) haddr hin)
    refine ⟨_, by simp only [encode]; exact hrun, ?_⟩
    exact done_after h (wrote_nullHandle hq)
  | interface nullable =>
    have hrun := encode_words (x := 2 ^ 32 - 1) (y := 0) encodeNullHandle h
      (by simp [hq]) (by rw [hq]; exact ⟨rfl, rfl⟩) (by rw [hq]; rfl) (by rw [hq]; rfl)
      (fun _ ha hin => EncodingState.encode_aligned (by decide) ha hin) e.handles
    refine ⟨_, by simp only [encode]; exact hrun, ?_⟩
    exact done_after h (wrote_nullInterface hq)
  | union name nullable =>
    obtain ⟨haddr, hin, hpast⟩ := Ready.place h (by simp [hq]) (by rw [hq]; exact ⟨rfl, rfl⟩)
    rw [hq] at haddr hin hpast
    simp only [Kind.alignment, Kind.size] at haddr hin hpast
    have hact : encodeNullUnion (EncodingState.of pen) e.mem =
        .ok (EncodingState.of (pen.to (q.addr + 16)), store e.mem (pen.base + q.addr) 16 0) := by
      simp only [encodeNullUnion, EncodingState.aligned_of, haddr]
      rw [EncodingState.write_of (by simp only; omega), ok_bind]
      simp only
      rw [EncodingState.write_of (by simp only; omega), ok_bind]
      simp only
      rw [EncodingState.write_of (by simp only; omega)]
      simp only [← Nat.add_assoc, store_zero_append, Nat.reduceAdd]
    have hrun : e.update context encodeNullUnion =
        .ok (e.after context.id (pen.past (walk Γ) (q, .null))
          (store e.mem (pen.base + q.addr) 16 0) e.handles) := by
      rw [hpast]
      exact Encoder.update_of h.holds e.handles hact
    refine ⟨_, by simp only [encode]; exact hrun, ?_⟩
    exact done_after h (wrote_nullUnion hq)
  | string | array | map | struct =>
    refine ⟨_, by simp only [encode]; exact hpointer rfl, ?_⟩
    exact done_after h (wrote_nullPointer (by rw [hq]; rfl))

end Members

end Mojo.RustBindings
