import Mojo.RustBindings.DecodeMembers
import Mojo.RustBindings.EncodeObjects

/-!
# Decoding values

A decoder that looks at a value where the wire format puts it returns the value. An object is
claimed, its header is read, and then its members are read with the cursor of the object. `decodes`
is by induction on the depth of the value.
-/

namespace Mojo.RustBindings

open Mojo.Memory Mojo.CppBindings Mojo.Wire DecodingState

variable {n x t a : ℕ} {d' : Decoder} {pen' : Pen} {nullable : Bool}

/-- The values of the Rust types: the version of an interface is a `u32`, strings are UTF-8. -/
def domain : Domain where
  handle _ := True
  version n := n < 2 ^ 32
  string bytes := isUtf8 bytes = true

section Objects

variable {Γ : Types} {depth limit lo i fuel : ℕ} {m : Mem} {H : List ℕ}
  {d : Decoder} {context : Context} {pen : Pen} {q : Slot} {kind parent : Kind} {v : Value}
  {o : Object}

theorem skipIfNull_false {isNull : ℕ → Bool} {skip : ℕ} (hn : 0 < n)
    (haddr : alignUp pen.cursor.toByte n = q.addr)
    (hin : q.addr + n ≤ pen.size) (hload : load m (pen.base + q.addr) n = x)
    (hx : isNull x = false) :
    skipIfNull m n isNull skip (.of pen) = .ok (false, .of (pen.to q.addr)) := by
  rw [skipIfNull_of hn haddr hin, hload, hx]
  rfl

theorem decode_scalar (hH : H.length ≤ 2 ^ 31)
    (hq : q.kind = if context.isUnion then kind.inUnion else kind)
    (hk : kind.isMojom) (hv : HasKind Γ (domain) depth q.kind v) (ho : object Γ q.kind v = none)
    (hs : Supported parent q.kind v) :
    ReadsMember Γ m limit H depth context.id q v (decode Γ m fuel kind context) := by
  intro d pen lo i h
  have hscalar := hv.scalar ho
  rcases slot_cases hq with hq | ⟨name, nullable, -, hq, -⟩
  · rw [hq] at hscalar
    have hcontent := h.sees.content
    cases hscalar with
    | number hn => exact decode_number (alignment_pos (Kind.isSlot_of_isMojom hk)) hq h
    | bool b => exact decode_bool hq h
    | handle nullable hh =>
      have hx := h.sees.handle rfl (handles_of_none ho)
      have hi := (List.getElem?_eq_some_iff.mp hx).1
      obtain ⟨haddr, hin, -⟩ := ReadyAt.place h (by simp [hq])
      simp only [Content, Slot.shift, hq, handleWord] at hcontent
      simp only [hq, Kind.alignment, Kind.size] at haddr hin
      simp only [decode]
      exact decodeOption_done h (by simp [hq]) (by simp [hq, Kind.alignment])
        (fun _ => skipIfNull_false (by decide) haddr hin hcontent (isNegative_of_lt (by omega)))
        (decodeHandle_done hH hq)
    | interface nullable hh hversion =>
      have hx := h.sees.handle rfl (handles_of_none ho)
      have hi := (List.getElem?_eq_some_iff.mp hx).1
      obtain ⟨haddr, hin, -⟩ := ReadyAt.place h (by simp [hq])
      simp only [Content, Slot.shift, hq, handleWord] at hcontent
      simp only [hq, Kind.alignment, Kind.size] at haddr hin
      simp only [decode]
      exact decodeOption_done h (by simp [hq]) (by simp [hq, Kind.alignment])
        (fun _ => skipIfNull_false (by decide) haddr (by omega) hcontent.1
          (isNegative_of_lt (by omega)))
        (decodeInterface_done hH hq)
    | null hnull =>
      refine decode_null hq hnull ?_ h
      rintro name nullable rfl
      cases hk
  · rw [hq] at hscalar hs
    cases hscalar with
    | null hnull => exact hs.elim

/-! ### Objects -/

def Decoder.begun (d : Decoder) (offset size : ℕ) : Decoder :=
  { d with
    bytes := offset + size
    states := d.states ++ [of ⟨offset, size, ⟨0, 0⟩, none⟩] }

theorem claim_eq (hlaid : o.Laid) (hc : (reader limit H).claimed d lo i) (halign : lo % 8 = 0)
    (hroom : lo + align8 o.size ≤ limit) (hload : load m lo 4 = o.size) :
    d.claim m lo = .ok (⟨d.states.length, false⟩, d.begun lo o.size) := by
  obtain ⟨hbytes, -, hlimit, -⟩ := hc
  have hheader := hlaid.header
  have hle := le_align8 o.size
  simp only [headerSize] at hheader
  rw [Decoder.claim, if_neg (by omega), if_neg (by omega), if_neg (by omega),
    if_neg (by omega), hload, if_neg (by omega)]
  rfl

theorem decodeWord_of {size : ℕ} (h4 : 4 ∣ a) (h : a + 4 ≤ size) (hload : load m (t + a) 4 = n) :
    DecodingState.decode m 4 (.of ⟨t, size, ⟨a, 0⟩, none⟩) =
      .ok (n, .of ⟨t, size, ⟨a + 4, 0⟩, none⟩) := by
  have haligned : alignUp (Cursor.toByte ⟨a, 0⟩) 4 = a := alignUp_of_dvd (by decide) h4
  rw [decode_of (by decide) haligned h, hload]

theorem decodeArrayHeader_of (elem : Kind) (hk : elem.isMojom)
    (hsize : load m t 4 = headerSize + elementBytes elem n) (hword : load m (t + 4) 4 = n) :
    decodeArrayHeader m elem (.of ⟨t, headerSize + elementBytes elem n, ⟨0, 0⟩, none⟩) =
      .ok (n, .of (.start t (headerSize + elementBytes elem n))) := by
  have hbits := bitsToBytes_eq elem hk ⟨0, false⟩ (fun _ _ _ => rfl) n
  have hle : 8 ≤ headerSize + elementBytes elem n := Nat.le_add_right 8 _
  have hfirst := decodeWord_of (dvd_zero 4) ((by decide : 0 + 4 ≤ 8).trans hle) hsize
  have hsecond := decodeWord_of (dvd_refl 4) hle hword
  rw [decodeArrayHeader, if_neg (by simp only [of, headerSize]; omega), hfirst, ok_bind]
  simp only
  rw [if_neg (by simp only [headerSize, dataHeaderSize]; omega), hsecond, ok_bind]
  simp only
  rw [hbits, if_neg (by simp only [headerSize, dataHeaderSize]; omega)]
  rfl

theorem decodeStructHeader_of {s : StructType} (hne : s.versions ≠ [])
    (hheader : headerSize ≤ s.last.numBytes)
    (hsize : load m t 4 = s.last.numBytes) (hword : load m (t + 4) 4 = s.last.version) :
    decodeStructHeader m s (.of ⟨t, s.last.numBytes, ⟨0, 0⟩, none⟩) =
      .ok (s.last.version, .of (.start t s.last.numBytes)) := by
  simp only [headerSize] at hheader
  have hfirst := decodeWord_of (dvd_zero 4) ((by decide : 0 + 4 ≤ 8).trans hheader) hsize
  have hsecond := decodeWord_of (dvd_refl 4) hheader hword
  rw [decodeStructHeader, if_neg (by simp only [of]; omega), hfirst, ok_bind]
  simp only
  rw [if_neg (by simp only [dataHeaderSize]; omega), hsecond, ok_bind]
  simp only [StructType.newest_last hne le_rfl, ↓reduceIte, ne_eq, not_true_eq_false]
  rfl

theorem claim_members (hΓ : Γ.Laid) (hk : q.kind.isSlot) (hp : q.kind.isPointer)
    (ho : object Γ q.kind v = some o) (hflows : Flows natural ⟨headerSize, 0⟩ o.members)
    (hsees : Sees Γ natural (depth + 1) m limit H pen [(q, v)] lo i)
    (hc : (reader limit H).claimed d lo i) :
    d.claim m lo = .ok (⟨d.states.length, false⟩, d.begun lo o.size) ∧
      (reader limit H).holds (d.begun lo o.size) d.states.length ⟨lo, o.size, ⟨0, 0⟩, none⟩ ∧
      ReadyAt Γ depth m limit H ((d.begun lo o.size).after d.states.length (.start lo o.size))
        d.states.length (.start lo o.size) o.members (lo + align8 o.size) i := by
  obtain ⟨-, halign, -, hat, hroom⟩ := hsees.pointer hp ho
  have hlaid := object_laid hΓ hk ho
  have hholds : (reader limit H).holds (d.begun lo o.size) d.states.length
      ⟨lo, o.size, ⟨0, 0⟩, none⟩ := List.getElem?_concat_length
  refine ⟨claim_eq hlaid hc halign (by omega) hat.1, hholds, Decoder.holds_after hholds _, ?_,
    hsees.members hΓ hk hp ho hflows fun _ hn => by cases hn⟩
  exact ⟨Nat.add_le_add_left (le_align8 o.size) lo, hc.2⟩

theorem holds_of_claimed {j size : ℕ} {pen'' : Pen} {ps : List (Slot × Value)}
    (hd : DoneAt Γ depth limit H ((d.begun t size).after d.states.length pen'') d' d.states.length
      pen'' ps lo i) (h : (reader limit H).holds d j pen') : (reader limit H).holds d' j pen' := by
  have hlt := (List.getElem?_eq_some_iff.mp h).1
  refine hd.others j pen' (by omega) (Decoder.others_after (by omega) ?_ _)
  exact (List.getElem?_append_left hlt).trans h

theorem claimed_of_members {d'' : Decoder} {id : ℕ} (hp : q.kind.isPointer)
    (ho : object Γ q.kind v = some o)
    (hd : DoneAt Γ depth limit H d'' d' id pen' o.members (lo + align8 o.size) i) :
    (reader limit H).claimed d' (lo + outSize Γ (depth + 1) q.kind v)
      (i + (handles Γ (depth + 1) q.kind v).length) := by
  have hclaimed := hd.claimed
  rw [outSize_succ ho, if_pos hp, handles_succ ho, ← Nat.add_assoc]
  exact hclaimed

/-- What a decoder does with an object that it has claimed: it reads the header and then the
members. -/
def DecodesObject (Γ : Types) (m : Mem) (limit : ℕ) (H : List ℕ) (depth : ℕ) (v : Value)
    (o : Object) (body : Context → Decoder → Except Failure (Value × Decoder)) : Prop :=
  ∀ ⦃id lo i : ℕ⦄ ⦃d : Decoder⦄, (reader limit H).holds d id ⟨lo, o.size, ⟨0, 0⟩, none⟩ →
    load m lo 4 = o.size → load m (lo + 4) 4 = o.word →
    ReadyAt Γ depth m limit H (d.after id (.start lo o.size)) id (.start lo o.size) o.members
      (lo + align8 o.size) i →
    ∃ d', body ⟨id, false⟩ d = .ok (v, d') ∧
      DoneAt Γ depth limit H (d.after id (.start lo o.size)) d' id
        (.start lo o.size) o.members (lo + align8 o.size) i

theorem pointer_done (hΓ : Γ.Laid) (hk : q.kind.isSlot) (hp : q.kind.isPointer)
    (ho : object Γ q.kind v = some o) (hflows : Flows natural ⟨headerSize, 0⟩ o.members)
    (hlimit : limit < 2 ^ 64)
    (h : ReadyAt Γ (depth + 1) m limit H d context.id pen [(q, v)] lo i)
    {body : Context → Decoder → Except Failure (Value × Decoder)}
    (hbody : DecodesObject Γ m limit H depth v o body) :
    ∃ d₁ d', d.update context (DecodingState.decodePointer m) = .ok (some lo, d₁) ∧
      (d₁.claim m lo >>= fun x => body x.1 x.2) = .ok (v, d') ∧
      DoneAt Γ (depth + 1) limit H d d' context.id pen [(q, v)] lo i := by
  obtain ⟨hlt, -, hload, hat, hroom⟩ := h.sees.pointer hp ho
  obtain ⟨hb, h8⟩ := size_of_isPointer hp
  obtain ⟨haddr, hin, hpast⟩ := ReadyAt.place h hb
  rw [alignment_of_isPointer hp] at haddr
  rw [h8] at hin hpast
  have hpointer := Decoder.update_of context h.holds
    (decodePointer_of haddr hin hload hlt (by omega))
  set d₁ := d.after context.id (pen.to (q.addr + 8)) with hd₁
  obtain ⟨hclaim, hholds, hready⟩ := claim_members (d := d₁) hΓ hk hp ho hflows h.sees h.claimed
  obtain ⟨d', hrun, hd⟩ := hbody hholds hat.1 hat.2.1 hready
  refine ⟨d₁, d', hpointer, ?_, ?_⟩
  · rw [hclaim, ok_bind]
    exact hrun
  · constructor
    · refine holds_of_claimed hd ?_
      rw [Pen.pastAll, List.foldl_cons, List.foldl_nil]
      exact (Decoder.holds_after h.holds _).trans (congrArg some hpast.symm)
    · intro j pen' hj hpen
      exact holds_of_claimed hd (Decoder.others_after hj hpen _)
    · have hclaimed := claimed_of_members hp ho hd
      simpa [outSizes] using hclaimed
    · trivial

end Objects

def Decodes (Γ : Types) (m : Mem) (limit : ℕ) (H : List ℕ) (depth : ℕ) : Prop :=
  ∀ (context : Context) (kind parent : Kind) {v : Value} {q : Slot} {d : Decoder} {pen : Pen}
    {lo i : ℕ}, kind.isMojom = true → q.kind = (if context.isUnion then kind.inUnion else kind) →
    HasKind Γ (domain) depth q.kind v → Always Γ (Encodable Γ limit) depth parent q.kind v →
    ReadyAt Γ depth m limit H d context.id pen [(q, v)] lo i →
    ∃ d', decode Γ m depth kind context d = .ok (v, d') ∧
      DoneAt Γ depth limit H d d' context.id pen [(q, v)] lo i

section Values

variable {Γ : Types} {depth limit lo i id : ℕ} {m : Mem} {H : List ℕ}
  {d : Decoder} {pen : Pen} {kind parent : Kind} {v : Value} {o : Object}

theorem forall₂_replicate {α β : Type} {a : α} {P : β → Prop} {l : List β} (h : ∀ b ∈ l, P b) :
    List.Forall₂ (fun _ b => P b) (List.replicate l.length a) l := by
  induction l with
  | nil => exact .nil
  | cons b l ih =>
    exact .cons (h b (.head _)) (ih fun c hc => h c (.tail b hc))

variable {elems : List Value}

variable {elem : Kind}

theorem decode_elements (ih : Decodes Γ m limit H depth) (hk : elem.isMojom)
    (hv : ∀ p ∈ (elementSlots elem 0 elems.length).zip elems, HasKind Γ (domain) depth p.1.kind p.2)
    (ha : ∀ p ∈ (elementSlots elem 0 elems.length).zip elems, Always Γ (Encodable Γ limit) depth
      parent p.1.kind p.2)
    (h : ReadyAt Γ depth m limit H d id pen ((elementSlots elem 0 elems.length).zip elems) lo i) :
    ∃ d', collect (fun _ d => decode Γ m depth elem ⟨id, false⟩ d)
        (List.replicate elems.length ()) d = .ok (elems, d') ∧
      DoneAt Γ depth limit H d d' id pen ((elementSlots elem 0 elems.length).zip elems) lo i := by
  have hlen : (elementSlots elem 0 elems.length).length = elems.length := by
    simp [elementSlots]
  have hmembers := forall₂_replicate (a := ()) (P := fun p => ∀ d' pen lo i, True →
    ReadyAt Γ depth m limit H d' id pen [p] lo i →
    ∃ d'', decode Γ m depth elem ⟨id, false⟩ d' = .ok (p.2, d'') ∧
      DoneAt Γ depth limit H d' d'' id pen [p] lo i)
    (l := (elementSlots elem 0 elems.length).zip elems) fun p hp d' pen lo i _ hready => by
      obtain ⟨j, -, hj⟩ := mem_elementSlots (List.of_mem_zip hp).1
      have hkind : p.1.kind = elem := by rw [hj, elementSlot_kind]
      exact ih ⟨id, false⟩ elem parent hk hkind (hv p hp) (ha p hp) hready
  obtain ⟨d', hrun, hd⟩ := Reader.collect_done hmembers h
  rw [List.length_zip, hlen, min_self, List.map_snd_zip hlen.ge] at hrun
  exact ⟨d', hrun, hd⟩

theorem decode_array {count : ℕ} (ih : Decodes Γ m limit H depth)
    (hk : elem.isMojom) (ho : object Γ (.array elem count nullable) (.array elems) = some o)
    (hcount : count ≠ 0 → elems.length = count)
    (hv : ∀ p ∈ o.members, HasKind Γ (domain) depth p.1.kind p.2)
    (ha : ∀ p ∈ o.members, Always Γ (Encodable Γ limit) depth parent p.1.kind p.2) :
    DecodesObject Γ m limit H depth (.array elems) o
      (decodeValue Γ m (decode Γ m depth) (.array elem count nullable)) := by
  intro id lo i d hholds hsize hword hready
  cases ho
  have hheader := Decoder.update_of ⟨id, false⟩ hholds (decodeArrayHeader_of elem hk hsize hword)
  obtain ⟨d', hrun, hd⟩ := decode_elements ih hk hv ha hready
  refine ⟨d', ?_, hd⟩
  simp only [decodeValue]
  rw [hheader, ok_bind]
  simp only
  rw [if_neg (by simp only [ne_eq]; tauto), hrun, ok_bind]

theorem decode_string {bytes : List UInt8}
    (ho : object Γ (.string nullable) (.string bytes) = some o) (hutf : isUtf8 bytes) :
    DecodesObject Γ m limit H depth (.string bytes) o
      (decodeValue Γ m (decode Γ m depth) (.string nullable)) := by
  intro id lo i d hholds hsize hword hready
  cases ho
  have hbytes : headerSize + bytes.length = headerSize + elementBytes (.number 1) bytes.length := by
    simp [elementBytes, Kind.size]
  simp only [hbytes] at hholds hsize hready ⊢
  have hheader := Decoder.update_of ⟨id, false⟩ hholds
    (decodeArrayHeader_of (.number 1) rfl hsize hword)
  have hlen : ((elementSlots (.number 1) 0 bytes.length).zip
      (bytes.map fun b => Value.number b.toNat)).length = bytes.length := by
    simp [elementSlots, min_self]
  have hmembers := forall₂_replicate (a := ()) (P := fun p => ∀ d' pen lo i, True →
    ReadyAt Γ depth m limit H d' id pen [p] lo i →
    ∃ d'', d'.update ⟨id, false⟩ (DecodingState.decode m 1) = .ok (p.2.toNat, d'') ∧
      DoneAt Γ depth limit H d' d'' id pen [p] lo i)
    (l := (elementSlots (.number 1) 0 bytes.length).zip (bytes.map fun b => Value.number b.toNat))
    fun p hp d' pen lo i _ hready => by
      obtain ⟨hs, hb⟩ := List.of_mem_zip hp
      obtain ⟨j, -, hj⟩ := mem_elementSlots hs
      obtain ⟨b, -, hb⟩ := List.mem_map.mp hb
      have hkind : p.1.kind = .number 1 := by rw [hj, elementSlot_kind]
      obtain ⟨q, v⟩ := p
      obtain rfl : Value.number b.toNat = v := hb
      exact update_number ⟨id, false⟩ (by decide) hready hkind
  obtain ⟨d', hrun, hd⟩ := Reader.collect_done hmembers hready
  have hvalues : ((elementSlots (.number 1) 0 bytes.length).zip
      (bytes.map fun b => Value.number b.toNat)).map (fun p => p.2.toNat) =
        bytes.map UInt8.toNat := by
    have hmap : ((elementSlots (.number 1) 0 bytes.length).zip
        (bytes.map fun b => Value.number b.toNat)).map Prod.snd =
        bytes.map fun b => Value.number b.toNat := List.map_snd_zip (by simp [elementSlots])
    have := congrArg (List.map Value.toNat) hmap
    rwa [List.map_map, List.map_map] at this
  refine ⟨d', ?_, hd⟩
  rw [hlen, hvalues] at hrun
  have hback : (bytes.map UInt8.toNat).map UInt8.ofNat = bytes := by
    simp [Function.comp_def]
  simp only [decodeValue]
  rw [hheader, ok_bind]
  simp only
  rw [hrun, ok_bind]
  simp [hback, hutf]

variable {name : ℕ}

theorem decode_struct {fields : List Value} (hΓ : Γ.Laid)
    (hmin : ∀ f ∈ (Γ.struct name).fields, f.minVersion ≤ (Γ.struct name).last.version)
    (ih : Decodes Γ m limit H depth)
    (ho : object Γ (.struct name nullable) (.struct fields) = some o)
    (hv : HasKind Γ (domain) (depth + 1) (.struct name nullable) (.struct fields))
    (ha : ∀ p ∈ o.members, Always Γ (Encodable Γ limit) depth parent p.1.kind p.2) :
    DecodesObject Γ m limit H depth (.struct fields) o
      (decodeValue Γ m (decode Γ m depth) (.struct name nullable)) := by
  intro id lo i d hholds hsize hword hready
  cases ho
  have hlaid := hΓ.struct name
  have hne : (Γ.struct name).versions ≠ [] := by
    intro hnil
    have := hlaid.header
    simp [StructType.last, hnil, headerSize] at this
  have hheader := Decoder.update_of ⟨id, false⟩ hholds
    (decodeStructHeader_of hne hlaid.header hsize hword)
  simp only [HasKind] at hv
  have hmembers : List.Forall₂ (fun (f : Field) p => ∀ d' pen lo i, True →
      ReadyAt Γ depth m limit H d' id pen [p] lo i →
      ∃ d'', (if f.minVersion ≤ (Γ.struct name).last.version then
          decode Γ m depth f.kind ⟨id, false⟩ d' else .ok (defaultValue f.kind, d')) =
        .ok (p.2, d'') ∧ DoneAt Γ depth limit H d' d'' id pen [p] lo i)
      (Γ.struct name).fields (((Γ.struct name).fields.map fun f => f.slot 0).zip fields) := by
    refine forall₂_members hv fun f hf v hmem hv d' pen lo i _ hready => ?_
    rw [if_pos (hmin f hf)]
    exact ih ⟨id, false⟩ f.kind parent (hlaid.kinds f hf) rfl hv (ha _ hmem) hready
  obtain ⟨d', hrun, hd⟩ := Reader.collect_done hmembers hready
  refine ⟨d', ?_, hd⟩
  have hlen := hv.length_eq
  rw [List.map_snd_zip (by simp [hlen])] at hrun
  simp only [decodeValue]
  rw [hheader, ok_bind]
  simp only
  rw [hrun, ok_bind]

variable {q : Slot}

theorem claim_array (hΓ : Γ.Laid) (ih : Decodes Γ m limit H (depth + 1))
    (hk : elem.isMojom) (hq : q.kind = .array elem 0 false)
    (hv : HasKind Γ (domain) (depth + 1) q.kind (.array elems))
    (ha : Always Γ (Encodable Γ limit) (depth + 1) parent q.kind (.array elems))
    (hsees : Sees Γ natural (depth + 1) m limit H pen [(q, .array elems)] lo i)
    (hc : (reader limit H).claimed d lo i) :
    ∃ d₁ d', arrayClaimAndDecodeHeader m elem lo d =
      .ok (⟨d.states.length, false⟩, elems.length, d₁) ∧
      collect (fun _ d' => decode Γ m (depth + 1) elem ⟨d.states.length, false⟩ d')
        (List.replicate elems.length ()) d₁ = .ok (elems, d') ∧
      (reader limit H).claimed d' (lo + outSize Γ (depth + 1) q.kind (.array elems))
        (i + (handles Γ (depth + 1) q.kind (.array elems)).length) ∧
      ∀ j pen', (reader limit H).holds d j pen' → (reader limit H).holds d' j pen' := by
  have ho : object Γ q.kind (.array elems) = some ⟨headerSize + elementBytes elem elems.length,
      elems.length, (elementSlots elem 0 elems.length).zip elems⟩ := by rw [hq]; rfl
  have hp : q.kind.isPointer = true := by rw [hq]; rfl
  have hslot : q.kind.isSlot = true := by rw [hq]; exact hk
  have hmembers := hv.members ho
  obtain ⟨-, -, -, hat, -⟩ := hsees.pointer hp ho
  obtain ⟨hclaim, hholds, hready⟩ := claim_members hΓ hslot hp ho (ha.here.packed _ ho) hsees hc
  have hheader := Decoder.update_of ⟨d.states.length, false⟩ hholds
    (decodeArrayHeader_of elem hk hat.1 hat.2.1)
  obtain ⟨d', hrun, hd⟩ := decode_elements ih hk (fun p hp => (hmembers p hp).succ)
    (fun p hp => (ha.2 _ ho p hp).succ (hmembers p hp))
    ⟨hready.holds, hready.claimed, hready.sees.of_hasKind hmembers⟩
  refine ⟨_, d', ?_, hrun, claimed_of_members hp ho (hd.of_hasKind hmembers), ?_⟩
  · rw [arrayClaimAndDecodeHeader, hclaim, ok_bind]
    simp only
    rw [hheader, ok_bind]
  · exact fun j pen' hpen => holds_of_claimed hd hpen

theorem decode_map {key value : Kind} {keys values : List Value} (hΓ : Γ.Laid)
    (hlimit : limit < 2 ^ 64)
    (ih : Decodes Γ m limit H depth) (hk : (Kind.map key value nullable).isMojom)
    (ho : object Γ (.map key value nullable) (.map keys values) = some o)
    (hv : HasKind Γ (domain) (depth + 1) (.map key value nullable) (.map keys values))
    (ha : ∀ p ∈ o.members, Always Γ (Encodable Γ limit) depth (.map key value nullable)
      p.1.kind p.2) :
    DecodesObject Γ m limit H depth (.map keys values) o
      (decodeValue Γ m (decode Γ m depth) (.map key value nullable)) := by
  intro id lo i d hholds hsize hword hready
  cases ho
  obtain ⟨hkey, hvalue⟩ := isMojom_key (Kind.isSlot_of_isMojom hk)
  simp only [HasKind] at hv
  obtain ⟨hnodup, hlen, hvkeys, hvvalues⟩ := hv
  have hakeys := ha _ (.head _)
  have havalues := ha _ (.tail _ (.head _))
  cases depth with
  | zero => cases hvkeys
  | succ depth =>
    have hheader : d.update ⟨id, false⟩ (decodeStructHeader m mapVersions) =
        .ok (0, d.after id ⟨lo, 24, ⟨8, 0⟩, none⟩) :=
      Decoder.update_of ⟨id, false⟩ hholds
        (decodeStructHeader_of (s := mapVersions) (by simp [mapVersions]) (by decide) hsize hword)
    -- the two pointers
    have hok : object Γ (.array key 0 false) (.array keys) = some _ := rfl
    have hov : object Γ (.array value 0 false) (.array values) = some _ := rfl
    have hsees := hready.sees.head
    have hsees' := hready.sees.tail
    obtain ⟨hlt, -, hload, -, hroom⟩ := hsees.pointer rfl hok
    obtain ⟨hlt', -, hload', -, hroom'⟩ := hsees'.pointer rfl hov
    set lo₁ := lo + align8 24 with hlo₁
    set lo₂ := lo₁ + outSize Γ (depth + 1) (.array key 0 false) (.array keys) with hlo₂
    have hfirst : alignUp (Cursor.toByte ⟨8, 0⟩) 8 = 8 := by decide
    have hsecond : alignUp (Cursor.toByte ⟨16, 0⟩) 8 = 16 := by decide
    have hpointer : (d.after id ⟨lo, 24, ⟨8, 0⟩, none⟩).update ⟨id, false⟩
        (DecodingState.decodePointer m) = .ok (some lo₁, d.after id ⟨lo, 24, ⟨16, 0⟩, none⟩) := by
      have := Decoder.update_of ⟨id, false⟩ hready.holds
        (decodePointer_of hfirst (show 8 + 8 ≤ 24 by decide) hload hlt (by omega))
      rwa [Decoder.after_after] at this
    have hpointer' : (d.after id ⟨lo, 24, ⟨16, 0⟩, none⟩).update ⟨id, false⟩
        (DecodingState.decodePointer m) = .ok (some lo₂, d.after id ⟨lo, 24, ⟨24, 0⟩, none⟩) := by
      have := Decoder.update_of ⟨id, false⟩ (Decoder.holds_after hholds ⟨lo, 24, ⟨16, 0⟩, none⟩)
        (decodePointer_of hsecond (show 16 + 8 ≤ 24 by decide) hload' hlt' (by omega))
      rwa [Decoder.after_after] at this
    -- the two arrays
    obtain ⟨d₂, d₃, hclaim, hkeys, hclaimed, hkept⟩ :=
      claim_array (d := d.after id ⟨lo, 24, ⟨24, 0⟩, none⟩) hΓ ih hkey rfl hvkeys hakeys hsees
        hready.claimed
    obtain ⟨d₄, d₅, hclaim', hvalues, hclaimed', hkept'⟩ := claim_array (d := d₃) hΓ ih hvalue rfl
      hvvalues havalues hsees' hclaimed
    refine ⟨d₅, ?_, ?_⟩
    · simp only [decodeValue, decodeMap]
      rw [hheader, ok_bind, hpointer, ok_bind]
      simp only
      rw [hpointer', ok_bind]
      simp only
      rw [if_neg (by omega), hclaim, ok_bind, hkeys, ok_bind, hclaim', ok_bind]
      simp only
      rw [if_neg (by omega), hlen, hvalues, ok_bind]
      simp [insertAll_eq hnodup hlen]
    · constructor
      · have hpast : Pen.pastAll natural (.start lo 24)
            [(⟨.array key 0 false, 8, 0⟩, .array keys),
              (⟨.array value 0 false, 16, 0⟩, .array values)] =
            ⟨lo, 24, ⟨24, 0⟩, none⟩ := by
          simp [Pen.pastAll, Pen.past, natural, Kind.alignment, Kind.size, alignUp, Cursor.toByte,
            headerSize]
        rw [hpast]
        exact hkept' _ _ (hkept _ _ (Decoder.holds_after hholds _))
      · intro j pen' hj hpen
        have hold := Decoder.others_after hj hpen ⟨lo, 24, ⟨24, 0⟩, none⟩
        rw [Decoder.after_after] at hold
        exact hkept' _ _ (hkept _ _ hold)
      · simpa [hlo₂, outSizes, Nat.add_assoc] using hclaimed'
      · trivial

variable {tag : ℕ} {field : Value}

theorem decode_nested (hΓ : Γ.Laid) (ih : Decodes Γ m limit H depth)
    (hactive : (Γ.union name).active tag = some kind)
    (hv : HasKind Γ (domain) depth kind.inUnion field)
    (ha : Always Γ (Encodable Γ limit) depth (.unionPointer name nullable) kind.inUnion field) :
    DecodesObject Γ m limit H depth (.union tag field)
      ⟨unionSize, tag, [(⟨kind.inUnion, 8, 0⟩, field)]⟩
      (decodeUnion Γ m (decode Γ m depth) name) := by
  intro id lo i d hholds hsize hword hready
  have hmojom := isMojom_of_active hΓ hactive
  have hkind : kind.inUnion = kind := by
    cases kind with
    | union name' nullable' =>
      have hs := ha.here.supported
      cases field with
      | null => exact hs.elim
      | _ => exact absurd rfl (hs name nullable)
    | _ => rfl
  have hfirst : d.update ⟨id, false⟩ (DecodingState.decode m 4) =
      .ok (unionSize, d.after id ⟨lo, unionSize, ⟨4, 0⟩, none⟩) :=
    Decoder.update_of ⟨id, false⟩ hholds
      (decodeWord_of (dvd_zero 4) (show 0 + 4 ≤ 16 by decide) hsize)
  have hsecond : (d.after id ⟨lo, unionSize, ⟨4, 0⟩, none⟩).update ⟨id, false⟩
      (DecodingState.decode m 4) = .ok (tag, d.after id ⟨lo, unionSize, ⟨8, 0⟩, none⟩) := by
    have := Decoder.update_of ⟨id, false⟩ (Decoder.holds_after hholds ⟨lo, unionSize, ⟨4, 0⟩, none⟩)
      (decodeWord_of (dvd_refl 4) (show 4 + 4 ≤ 16 by decide) hword)
    rwa [Decoder.after_after] at this
  obtain ⟨d', hrun, hd⟩ := ih ⟨id, false⟩ kind _ hmojom hkind hv ha hready
  refine ⟨d', ?_, hd⟩
  have hvariant : variant Γ name tag = kind := by rw [variant, hactive, Option.getD_some]
  rw [decodeUnion, hfirst, ok_bind]
  simp only [ne_eq, not_true_eq_false, ↓reduceIte]
  rw [hsecond, ok_bind]
  simp only [hvariant, hactive, reduceCtorEq, ↓reduceIte]
  rw [show (⟨8, 0⟩ : Cursor) = ⟨headerSize, 0⟩ from rfl, hrun, ok_bind]

theorem advance_field (v : Value) (hk : kind.isMojom) (h8 : 8 ∣ a) :
    alignUp (Cursor.toByte (natural.advance kind.inUnion v ⟨a + 8, 0⟩)) 8 = a + 16 := by
  obtain ⟨halign, -⟩ := alignment_dvd (isSlot_inUnion hk)
  have hdvd : kind.inUnion.alignment ∣ a + 8 := Nat.dvd_add (halign.trans h8) halign
  have hle := size_inUnion hk
  by_cases hb : kind.inUnion = .bool
  · simp only [hb, natural, Cursor.toByte, alignUp, Nat.zero_add, Nat.reduceDiv, Nat.reduceMod,
      Nat.zero_lt_one, ↓reduceIte]
    omega
  · have hpos := size_pos (isSlot_inUnion hk)
    rw [(natural_of_ne hb v _).2]
    simp only [Cursor.toByte_mk, alignUp_of_dvd (alignment_pos (isSlot_inUnion hk)) hdvd]
    simp only [alignUp]
    omega

variable {context : Context}

theorem decode_inline
    (hΓ : Γ.Laid) (ih : Decodes Γ m limit H depth) (hq : q.kind = .union name nullable)
    (hv : HasKind Γ (domain) (depth + 1) q.kind (.union tag field))
    (ha : Always Γ (Encodable Γ limit) (depth + 1) parent q.kind (.union tag field)) :
    ReadsMember Γ m limit H (depth + 1) context.id q (.union tag field)
      (inlineDecode Γ m (decode Γ m depth) name (context.setIsUnion true)) := by
  intro d pen lo i h
  obtain ⟨kind, hactive, -, ho⟩ := active_of_hasKind (.inl hq) hv
  have hvariant : variant Γ name tag = kind := by rw [variant, hactive, Option.getD_some]
  have hmojom := isMojom_of_active hΓ hactive
  obtain ⟨haddr, hin, hpast⟩ := ReadyAt.place h (by simp [hq])
  simp only [hq, Kind.alignment, Kind.size] at haddr hin hpast
  have h8 : 8 ∣ q.addr := haddr ▸ Dvd.intro_left _ rfl
  have hcontent := h.sees.content
  simp only [Content, Slot.shift, hq] at hcontent
  have halign {pen : Pen} {a : ℕ} (ha : alignUp pen.cursor.toByte 8 = a) :
      alignUnion (.of pen) = .ok ((), .of (pen.to a)) := by
    rw [alignUnion, aligned_of pen (by decide), ha]
  -- the start of the union and its two words
  have hstart : d.update (context.setIsUnion true) alignUnion =
      .ok ((), d.after context.id (pen.to q.addr)) :=
    Decoder.update_of (context.setIsUnion true) h.holds (halign haddr)
  have hword {a : ℕ} (h4 : 4 ∣ a) (hle : a + 4 ≤ pen.size) :
      (d.after context.id (pen.to a)).update (context.setIsUnion true) (DecodingState.decode m 4) =
        .ok (load m (pen.base + a) 4, d.after context.id (pen.to (a + 4))) := by
    have haligned : alignUp (Cursor.toByte ⟨a, 0⟩) 4 = a := alignUp_of_dvd (by decide) h4
    have := Decoder.update_of (context.setIsUnion true) (Decoder.holds_after h.holds (pen.to a))
      (decode_of (m := m) (by decide) haligned hle)
    rwa [show (context.setIsUnion true).id = context.id from rfl, Decoder.after_after] at this
  have hsize := hword (a := q.addr) (by omega) (by omega)
  have htag := hword (a := q.addr + 4) (by omega) (by omega)
  rw [hcontent.1] at hsize
  rw [← Nat.add_assoc, hcontent.2] at htag
  -- the field
  have hflows : Flows natural ⟨q.addr + 8, 0⟩ [(⟨kind.inUnion, q.addr + 8, 0⟩, field)] :=
    flows_field hmojom (by omega) rfl
  obtain ⟨d₃, hrun, hd⟩ := ih (context.setIsUnion true) kind q.kind
    (q := ⟨kind.inUnion, q.addr + 8, 0⟩) hmojom rfl (hv.members ho _ (.head _))
    (ha.2 _ ho _ (.head _))
    ⟨Decoder.holds_after h.holds (pen.to (q.addr + 8)), h.claimed, h.sees.field hΓ hq
      hactive hflows⟩
  have hend : d₃.update (context.setIsUnion true) alignUnion =
      .ok ((), d₃.after context.id (pen.to (q.addr + 16))) :=
    Decoder.update_of (context.setIsUnion true) hd.holds (halign (advance_field field hmojom h8))
  refine ⟨d₃.after context.id (pen.to (q.addr + 16)), ?_, ?_⟩
  rotate_left
  · constructor
    · exact (Decoder.holds_after hd.holds _).trans (congrArg some hpast.symm)
    · intro j pen' hj hpen
      exact Decoder.others_after hj (hd.others j pen' hj (Decoder.others_after hj hpen _)) _
    · have hclaimed : (reader limit H).claimed (d₃.after context.id (pen.to (q.addr + 16))) _ _ :=
        hd.claimed
      rw [outSizes_cons, outSize_succ ho, if_neg (by rw [hq]; exact Bool.false_ne_true)]
      simpa [outSizes, handles_succ ho] using hclaimed
    · trivial
  · rw [inlineDecode, hstart, ok_bind]
    simp only [decodeUnion]
    rw [hsize, ok_bind]
    simp only [ne_eq, not_true_eq_false, ↓reduceIte]
    rw [htag, ok_bind]
    simp only [hvariant, hactive, reduceCtorEq, ↓reduceIte, Nat.add_assoc, Nat.reduceAdd]
    rw [hrun, ok_bind, ok_bind]
    simp only
    rw [hend, ok_bind]

theorem pointerDecode_done (hΓ : Γ.Laid) (hlimit : limit < 2 ^ 64)
    (hk : q.kind.isSlot) (hp : q.kind.isPointer) (ho : object Γ q.kind v = some o)
    (hflows : Flows natural ⟨headerSize, 0⟩ o.members)
    (hbody : DecodesObject Γ m limit H depth v o (decodeValue Γ m (decode Γ m depth) q.kind)) :
    ReadsMember Γ m limit H (depth + 1) context.id q v
      (pointerDecode Γ m (decode Γ m depth) q.kind context) := by
  intro d pen lo i h
  have hlt := (h.sees.pointer hp ho).1
  obtain ⟨d₁, d', hpointer, hrun, hd⟩ := pointer_done hΓ hk hp ho hflows hlimit h hbody
  refine ⟨d', ?_, hd⟩
  rw [pointerDecode, hpointer, ok_bind]
  simp only
  rw [if_neg (by omega)]
  exact hrun

theorem skipIfNullPointer_of (hp : q.kind.isPointer)
    (ho : object Γ q.kind v = some o)
    (h : ReadyAt Γ (depth + 1) m limit H d context.id pen [(q, v)] lo i) :
    skipIfNullPointer m (.of pen) = .ok (false, .of (pen.to q.addr)) := by
  obtain ⟨hlt, -, hload, -, -⟩ := h.sees.pointer hp ho
  obtain ⟨hb, h8⟩ := size_of_isPointer hp
  obtain ⟨haddr, hin, -⟩ := ReadyAt.place h hb
  rw [alignment_of_isPointer hp] at haddr
  rw [h8] at hin
  refine skipIfNull_false (by decide) haddr hin hload ?_
  simp only [beq_eq_false_iff_ne, ne_eq]
  omega

theorem low_word (hload : load m a 8 = x) (hx : 0 < x) (hlt : x < 2 ^ 32) : load m a 4 ≠ 0 := by
  intro hzero
  have hsplit := load_add m a 4 4
  rw [hzero, hload] at hsplit
  omega

theorem skipIfNullUnion_false (haddr : alignUp pen.cursor.toByte 8 = a)
    (hin : a + 4 ≤ pen.size) (hload : load m (pen.base + a) 4 ≠ 0) :
    skipIfNullUnion m (.of pen) = .ok (false, .of (pen.to a)) := by
  have hnull : (load m (pen.base + a) 4 == 0) = false := by
    simp [beq_eq_false_iff_ne, hload]
  rw [skipIfNullUnion_of haddr hin, hnull]
  rfl

theorem decode_pointer_eq (hp : kind.isPointer) (hk : kind.isMojom) :
    decode Γ m (depth + 1) kind context d =
      decodeOption kind.isNullable (skipIfNullPointer m) context
        (pointerDecode Γ m (decode Γ m depth) kind context) d := by
  cases kind with
  | string | array | map | struct => rfl
  | unionPointer => cases hk
  | number | bool | handle | interface | union => cases hp

theorem decode_object (hΓ : Γ.Laid)
    (hmin : ∀ name, ∀ f ∈ (Γ.struct name).fields, f.minVersion ≤ (Γ.struct name).last.version)
    (hlimit : limit < 2 ^ 64)
    (ih : Decodes Γ m limit H depth) (hk : kind.isMojom) (hp : kind.isPointer)
    (ho : object Γ kind v = some o) (hv : HasKind Γ (domain) (depth + 1) kind v)
    (ha : Always Γ (Encodable Γ limit) (depth + 1) parent kind v) :
    DecodesObject Γ m limit H depth v o (decodeValue Γ m (decode Γ m depth) kind) := by
  have hmembers := hv.members ho
  have halways := ha.2 o ho
  cases objectOf ho with
  | string nullable bytes => exact decode_string ho hv
  | array elem count nullable elems =>
    simp only [HasKind] at hv
    exact decode_array ih (show elem.isMojom = true from hk) ho hv.1 hmembers halways
  | map key value nullable keys values => exact decode_map hΓ hlimit ih hk ho hv halways
  | struct name nullable fields => exact decode_struct hΓ (hmin name) ih ho hv halways
  | unionPointer => cases hk
  | union => cases hp

theorem decode_pointer (hΓ : Γ.Laid)
    (hmin : ∀ name, ∀ f ∈ (Γ.struct name).fields, f.minVersion ≤ (Γ.struct name).last.version)
    (hlimit : limit < 2 ^ 64)
    (ih : Decodes Γ m limit H depth) (hk : q.kind.isMojom) (hp : q.kind.isPointer)
    (ho : object Γ q.kind v = some o) (hv : HasKind Γ (domain) (depth + 1) q.kind v)
    (ha : Always Γ (Encodable Γ limit) (depth + 1) parent q.kind v) :
    ReadsMember Γ m limit H (depth + 1) context.id q v (decode Γ m (depth + 1) q.kind context) := by
  intro d pen lo i h
  rw [decode_pointer_eq hp hk]
  refine decodeOption_done h (size_of_isPointer hp).1 ?_ (fun _ => skipIfNullPointer_of hp ho h) ?_
  · rw [alignment_of_isPointer hp]
    decide
  · exact pointerDecode_done hΓ hlimit (Kind.isSlot_of_isMojom hk) hp ho (ha.here.packed o ho)
      (decode_object hΓ hmin hlimit ih hk hp ho hv ha)

theorem nestedDecode_done (hΓ : Γ.Laid)
    (hlimit : limit < 2 ^ 64) (ih : Decodes Γ m limit H depth)
    (hq : q.kind = .unionPointer name nullable)
    (hctx : context.isUnion) (hv : HasKind Γ (domain) (depth + 1) q.kind (.union tag field))
    (ha : Always Γ (Encodable Γ limit) (depth + 1) parent q.kind (.union tag field)) :
    ReadsMember Γ m limit H (depth + 1) context.id q (.union tag field)
      (decode Γ m (depth + 1) (.union name nullable) context) := by
  intro d pen lo i h
  obtain ⟨kind, hactive, -, ho⟩ := active_of_hasKind (.inr hq) hv
  have hp : q.kind.isPointer = true := by rw [hq]; rfl
  have hslot : q.kind.isSlot = true := by rw [hq]; rfl
  have hbody : DecodesObject Γ m limit H depth (.union tag field)
      ⟨unionSize, tag, [(⟨kind.inUnion, 8, 0⟩, field)]⟩
      (decodeUnion Γ m (decode Γ m depth) name) := by
    refine decode_nested hΓ ih hactive ?_
      (?_ : Always Γ (Encodable Γ limit) depth (.unionPointer name nullable) kind.inUnion field)
    · exact hv.members ho _ (.head _)
    · exact hq ▸ ha.2 _ ho _ (.head _)
  obtain ⟨hlt, -, hload, -, hroom⟩ := h.sees.pointer hp ho
  obtain ⟨hb, h8⟩ := size_of_isPointer hp
  obtain ⟨haddr, hin, -⟩ := ReadyAt.place h hb
  rw [alignment_of_isPointer hp] at haddr
  rw [h8] at hin
  rw [show align8 unionSize = 16 from rfl] at hroom
  simp only [decode, hctx, ↓reduceIte]
  refine decodeOption_done h hb ?_ (fun hnull => ?_) fun h => ?_
  · rw [alignment_of_isPointer hp]
    decide
  · have hnear := ha.here.near name (hnull ▸ hq)
    exact skipIfNullUnion_false haddr (by omega) (low_word hload (by omega) (by omega))
  · have hlt := (h.sees.pointer hp ho).1
    obtain ⟨d₁, d', hpointer, hrun, hd⟩ := pointer_done hΓ hslot hp ho (ha.here.packed _ ho)
      hlimit h hbody
    refine ⟨d', ?_, hd⟩
    rw [nestedDecode, hpointer, ok_bind]
    simp only
    rw [if_neg (by omega)]
    exact hrun

theorem decodes (hΓ : Γ.Laid) (hmin : ∀ name, ∀ f ∈ (Γ.struct name).fields, f.minVersion ≤
    (Γ.struct name).last.version)
    (hlimit : limit < 2 ^ 64) (hH : H.length ≤ 2 ^ 31) : Decodes Γ m limit H depth := by
  induction depth with
  | zero =>
    intro context kind parent v q d pen lo i hk hq hv ha h
    exact decode_scalar hH hq hk hv (hasKind_zero hv) ha.supported h
  | succ depth ih =>
    intro context kind parent v q d pen lo i hk hq hv ha h
    cases ho : object Γ q.kind v with
    | none => exact decode_scalar hH hq hk hv ho ha.here.supported h
    | some o =>
      rcases slot_cases hq with hq' | ⟨name, nullable, rfl, hq', hctx⟩
      · by_cases hp : q.kind.isPointer = true
        · rw [← hq'] at hk ⊢
          exact decode_pointer hΓ hmin hlimit ih hk hp ho hv ha h
        · obtain ⟨name, nullable, tag, field, hq'', rfl⟩ := union_of_inline ho hp
          obtain rfl := hq'.symm.trans hq''
          have hfalse : context.isUnion = false := by
            by_contra hctx
            rw [if_pos (Bool.eq_true_of_not_eq_false hctx), hq'] at hq
            cases hq
          obtain ⟨haddr, hin, -⟩ := ReadyAt.place h (by simp [hq''])
          simp only [hq'', Kind.alignment, Kind.size] at haddr hin
          have hcontent := h.sees.content
          simp only [Content, Slot.shift, hq''] at hcontent
          simp only [decode, hfalse, Bool.false_eq_true, ↓reduceIte]
          refine decodeOption_done h (by simp [hq'']) (by simp [hq'', Kind.alignment])
            (fun _ => skipIfNullUnion_false haddr (by omega) ?_) (decode_inline hΓ ih hq'' hv ha)
          rw [hcontent.1]
          decide
      · rw [hq'] at ho
        cases v with
        | union tag field => exact nestedDecode_done hΓ hlimit ih hq' hctx hv ha h
        | _ => cases ho

end Values

end Mojo.RustBindings
