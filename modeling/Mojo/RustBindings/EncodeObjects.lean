import Mojo.RustBindings.EncodeMembers

/-!
# Encoding values

A member with an object is a pointer, the header of the object and the object's members. A
union that is not null is either in its slot or, in another union, behind a pointer. `encode_done`
is by induction on the depth of the value.
-/

namespace Mojo.RustBindings

open Mojo.Memory Mojo.CppBindings Mojo.Wire EncodingState

theorem alignDefault_eq (n : ℕ) : alignDefault n = align8 n := rfl

section Objects

variable {Γ : Types} {depth : ℕ} {e : Encoder} {context : Context} {pen : Pen} {q : Slot}
  {v : Value} {o : Object}

def Encoder.begun (e : Encoder) (size word : ℕ) : Encoder :=
  { e with
    bytes := e.bytes + align8 size
    states := e.states ++ [of (.start e.bytes size)]
    mem := store (store e.mem e.bytes 4 size) (e.bytes + 4) 4 word }

theorem Encoder.add_eq {size word : ℕ} (hsize : size < 2 ^ 32) (hword : word < 2 ^ 32)
    (hheader : headerSize ≤ size)
    (hroom : e.bytes + align8 size ≤ e.size) :
    e.add size word = .ok (⟨e.states.length, false⟩, e.begun size word) := by
  have hle := le_align8 size
  simp only [headerSize] at hheader
  have hfirst : write 4 size (.of ⟨e.bytes, size, ⟨0, 0⟩, none⟩) e.mem =
      .ok (.of ⟨e.bytes, size, ⟨4, 0⟩, none⟩, store e.mem e.bytes 4 size) :=
    write_of (by simp only; omega)
  have hsecond : write 4 word (.of ⟨e.bytes, size, ⟨4, 0⟩, none⟩)
      (store e.mem e.bytes 4 size) = .ok (.of (.start e.bytes size),
        store (store e.mem e.bytes 4 size) (e.bytes + 4) 4 word) :=
    write_of (by simp only; omega)
  have hpadding : align8 size - size ≤ e.size - e.bytes - size := by omega
  rw [add, Nat.mod_eq_of_lt hsize, Nat.mod_eq_of_lt hword, if_neg (by omega), alignDefault_eq]
  simp only [hpadding, ↓reduceIte]
  change (write 4 size (of ⟨e.bytes, size, ⟨0, 0⟩, none⟩) e.mem >>= _) = _
  rw [hfirst, ok_bind]
  simp only
  rw [hsecond, ok_bind]
  have hbytes : e.bytes + size + (align8 size - size) = e.bytes + align8 size := by omega
  simp only [hbytes]
  rfl

theorem walk_of_isPointer (Γ : Types) {kind : Kind} (hp : kind.isPointer) (v : Value) (c : Cursor) :
    NaturalAt Γ kind v c := by
  cases kind <;> first | cases hp; done | exact ⟨rfl, rfl⟩

theorem alignment_of_isPointer {kind : Kind} (hp : kind.isPointer) : kind.alignment = 8 := by
  cases kind <;> first | rfl | cases hp

theorem encode_object (hΓ : Γ.Laid) (context : Context)
    (hp : q.kind.isPointer) (ho : object Γ q.kind v = some o) (hsize : o.size < 2 ^ 32)
    (hword : o.word < 2 ^ 32) (hflows : Flows (walk Γ) ⟨headerSize, 0⟩ o.members)
    (body : Context → Encoder → Except Failure Encoder)
    (hbody : ∀ id, WritesMembers Γ depth id o.members (body ⟨id, false⟩)) :
    WritesMembers Γ (depth + 1) context.id [(q, v)] fun e =>
      e.update context (encodePointer e.bytes) >>= fun e =>
        e.add o.size o.word >>= fun x => body x.1 x.2 := by
  intro e pen h
  obtain ⟨hb, h8⟩ := size_of_isPointer hp
  obtain ⟨haddr, hin, hpast⟩ := Ready.place h hb (walk_of_isPointer Γ hp v pen.cursor)
  rw [alignment_of_isPointer hp] at haddr
  rw [h8] at hin hpast
  have hbelow := h.isOpen.below.below _ (.head _)
  simp only [h8, machine] at hbelow
  have hroom := h.isOpen.room
  rw [outSizes_cons, outSize_succ ho, if_pos hp] at hroom
  have hheader := (object_laid hΓ (h.isOpen.below.kinds _ (.head _)) ho).header
  -- the pointer
  have hact : encodePointer e.bytes (.of pen) e.mem =
      .ok (.of (pen.past (walk Γ) (q, v)), store e.mem (pen.base + q.addr) 8
        (e.bytes - (pen.base + q.addr))) := by
    rw [hpast]
    exact encodePointer_of haddr hin (by omega)
  have hpointer := Encoder.update_of h.holds e.handles hact
  set e₁ := e.after context.id (pen.past (walk Γ) (q, v))
    (store e.mem (pen.base + q.addr) 8 (e.bytes - (pen.base + q.addr))) e.handles with he₁
  have hlen : e₁.states.length = e.states.length := List.length_set ..
  -- the header
  have hadd := Encoder.add_eq (e := e₁) hsize hword hheader
    (by simp only [he₁, Encoder.after, machine] at hroom ⊢; omega)
  rw [hlen] at hadd
  have hnew : (e₁.begun o.size o.word).states[e.states.length]? =
      some (of (.start e.bytes o.size)) := by
    rw [Encoder.begun, ← hlen, List.getElem?_concat_length]
    rfl
  obtain ⟨e', hrun, hd⟩ := hbody e.states.length (e := e₁.begun o.size o.word)
    ⟨⟨hnew, rfl⟩, h.isOpen.enter hΓ hp ho hflows⟩
  have hkept : ∀ j pen', machine.holds e₁ j pen' → machine.holds e' j pen' := by
    intro j pen' hj
    have hjlt := (List.getElem?_eq_some_iff.mp hj.1).1
    refine hd.others j pen' (by omega) ⟨?_, hj.2⟩
    rw [Encoder.begun, List.getElem?_append_left hjlt]
    exact hj.1
  refine ⟨e', ?_, ?_⟩
  · beta_reduce
    rw [hpointer, ok_bind, hadd, ok_bind]
    exact hrun
  · constructor
    · exact h.isOpen.wrote_object hΓ hp ho hsize hword hd.wrote
    · exact hkept _ _ (Encoder.holds_after h.holds (left_past h.holds _) e.handles)
    · intro j pen' hj hpen
      exact hkept _ _ (Encoder.others_after hj hpen e.handles)
    · exact hd.frame

end Objects

def Kind.isUnion : Kind → Bool
  | .union _ _ | .unionPointer _ _ => true
  | _ => false

/-- What the bindings make of a union in a union: it is neither null nor in a union that is
itself behind a pointer, and an array of unions in a union has no elements. -/
def Supported (parent kind : Kind) (v : Value) : Prop :=
  match kind, v with
  | .unionPointer _ _, .null => False
  | .unionPointer _ _, _ => ∀ name nullable, parent ≠ .unionPointer name nullable
  | .array (.union _ _) _ _, .array elems => Kind.isUnion parent = false ∨ elems = []
  | _, _ => True

/-- The object of a member has a header that holds its size and its second word, and the cursor
of the encoder comes by the places of its members. A nullable union in a union is taken for null if
the low word of the pointer to it is zero, so the buffer is `limit` bytes long and not longer than a
word can tell. -/
structure Encodable (Γ : Types) (limit : ℕ) (parent kind : Kind) (v : Value) : Prop where
  fits : ∀ o, object Γ kind v = some o → o.size < 2 ^ 32 ∧ o.word < 2 ^ 32
  walked : ∀ o, object Γ kind v = some o → Flows (walk Γ) ⟨headerSize, 0⟩ o.members
  packed : ∀ o, object Γ kind v = some o → Flows natural ⟨headerSize, 0⟩ o.members
  supported : Supported parent kind v
  near : ∀ name, kind = .unionPointer name true → limit ≤ 2 ^ 32

def isSupported (parent kind : Kind) (v : Value) : Bool :=
  match kind, v with
  | .unionPointer _ _, .null => false
  | .unionPointer _ _, _ =>
    match parent with
    | .unionPointer _ _ => false
    | _ => true
  | .array (.union _ _) _ _, .array elems => !Kind.isUnion parent || elems.isEmpty
  | _, _ => true

theorem isSupported_iff (parent kind : Kind) (v : Value) :
    isSupported parent kind v ↔ Supported parent kind v := by
  cases kind with
  | unionPointer name nullable =>
    cases v with
    | null => exact iff_of_false Bool.false_ne_true id
    | _ => cases parent <;> simp [isSupported, Supported]
  | array elem count nullable =>
    cases elem with
    | union name nullable' => cases v <;> simp [isSupported, Supported]
    | _ => exact iff_of_true rfl trivial
  | _ => exact iff_of_true rfl trivial

def isNear (limit : ℕ) : Kind → Bool
  | .unionPointer _ true => limit ≤ 2 ^ 32
  | _ => true

theorem isNear_iff (limit : ℕ) (kind : Kind) :
    isNear limit kind ↔ ∀ name, kind = .unionPointer name true → limit ≤ 2 ^ 32 := by
  cases kind with
  | unionPointer name nullable => cases nullable <;> simp [isNear]
  | _ => simp [isNear]

instance decidableEncodable (Γ : Types) (limit : ℕ) (parent kind : Kind) (v : Value) :
    Decidable (Encodable Γ limit parent kind v) :=
  match ho : object Γ kind v with
  | none => decidable_of_iff (isSupported parent kind v = true ∧ isNear limit kind = true) (by
      constructor
      · rintro ⟨hs, hn⟩
        refine ⟨?_, ?_, ?_, (isSupported_iff _ _ _).mp hs, (isNear_iff _ _).mp hn⟩
        · simp [ho]
        · simp [ho]
        · simp [ho]
      · exact fun h => ⟨(isSupported_iff _ _ _).mpr h.supported, (isNear_iff _ _).mpr h.near⟩)
  | some o => decidable_of_iff (isSupported parent kind v = true ∧ isNear limit kind = true ∧
      (o.size < 2 ^ 32 ∧ o.word < 2 ^ 32) ∧ Flows (walk Γ) ⟨headerSize, 0⟩ o.members ∧
      Flows natural ⟨headerSize, 0⟩ o.members) (by
      constructor
      · rintro ⟨hs, hn, hfits, hwalked, hpacked⟩
        refine ⟨?_, ?_, ?_, (isSupported_iff _ _ _).mp hs, (isNear_iff _ _).mp hn⟩
        · simpa [ho] using hfits
        · simpa [ho] using hwalked
        · simpa [ho] using hpacked
      · exact fun h => ⟨(isSupported_iff _ _ _).mpr h.supported, (isNear_iff _ _).mpr h.near,
          h.fits o ho, h.walked o ho, h.packed o ho⟩)

section Values

variable {Γ : Types} {D : Domain} {depth fuel limit : ℕ} {e : Encoder} {context : Context}
  {pen : Pen} {q : Slot} {kind parent : Kind} {v : Value} {o : Object}

theorem slot_cases (hq : q.kind = if context.isUnion then kind.inUnion else kind) :
    q.kind = kind ∨ ∃ name nullable, kind = .union name nullable ∧
      q.kind = .unionPointer name nullable ∧ context.isUnion := by
  split at hq
  · rename_i hctx
    cases kind with
    | union name nullable => exact .inr ⟨name, nullable, rfl, hq, hctx⟩
    | _ => exact .inl hq
  · exact .inl hq

theorem encode_scalar (hD : D.Words)
    (hq : q.kind = if context.isUnion then kind.inUnion else kind) (hk : kind.isMojom)
    (hv : HasKind Γ D depth q.kind v) (ho : object Γ q.kind v = none)
    (hs : Supported parent q.kind v) :
    WritesMembers Γ depth context.id [(q, v)] (encode Γ fuel kind v context) := by
  intro e pen h
  have hscalar := hv.scalar ho
  rcases slot_cases hq with hq | ⟨name, nullable, -, hq, -⟩
  · rw [hq] at hscalar
    cases hscalar with
    | number hn => exact encode_number hq hn h
    | bool b => exact encode_bool hq h
    | handle nullable hh => exact encode_handle hq h
    | interface nullable hh hversion => exact encode_interface hq (hD _ hversion) h
    | null hnull =>
      refine encode_null hq hnull ?_ h
      rintro name nullable rfl
      cases hk
  · rw [hq] at hscalar hs
    cases hscalar with
    | null hnull => exact hs.elim

theorem bitsToBytes_eq (elem : Kind) (hk : elem.isMojom) (context : Context)
    (hu : ∀ name nullable, elem = .union name nullable → context.isUnion = false) (n : ℕ) :
    bitsToBytes (embedSize context elem * n) = elementBytes elem n := by
  cases elem with
  | number size =>
    simp only [bitsToBytes, embedSize, elementBytes, Kind.size, Nat.mul_assoc]
    omega
  | union name nullable =>
    simp only [bitsToBytes, embedSize, hu name nullable rfl, elementBytes, Kind.size,
      Bool.false_eq_true, ↓reduceIte]
    omega
  | unionPointer => cases hk
  | _ =>
    simp only [bitsToBytes, embedSize, elementBytes, Kind.size, pointerBitSize]
    omega

theorem header_eq (hk : kind.isMojom) (hp : kind.isPointer)
    (hctx : context.isUnion = Kind.isUnion parent)
    (hs : Supported parent kind v) (ho : object Γ kind v = some o) :
    serializedSize Γ context kind v = o.size ∧ headerData Γ kind v = o.word := by
  cases objectOf ho with
  | string nullable bytes => exact ⟨rfl, rfl⟩
  | array elem count nullable elems =>
    refine ⟨congrArg (headerSize + ·) ?_, rfl⟩
    cases elems with
    | nil => cases elem <;> rfl
    | cons v vs =>
      rw [if_pos (List.length_pos_of_ne_nil (List.cons_ne_nil v vs))]
      refine bitsToBytes_eq elem hk context ?_ _
      rintro name nullable rfl
      rw [hctx]
      exact hs.resolve_right (List.cons_ne_nil v vs)
  | map key value nullable keys values => exact ⟨rfl, rfl⟩
  | struct name nullable fields => exact ⟨rfl, rfl⟩
  | unionPointer => cases hk
  | union => cases hp

def Encodes (Γ : Types) (D : Domain) (limit depth : ℕ) : Prop :=
  ∀ (context : Context) (kind parent : Kind) {v : Value} {q : Slot} {e : Encoder} {pen : Pen},
    kind.isMojom = true → context.isUnion = Kind.isUnion parent →
    q.kind = (if context.isUnion then kind.inUnion else kind) → q.kind.alignment ∣ q.addr →
    HasKind Γ D depth q.kind v → Always Γ (Encodable Γ limit) depth parent q.kind v →
    machine.Ready Γ (walk Γ) depth e context.id pen [(q, v)] →
    ∃ e', encode Γ depth kind v context e = .ok e' ∧
      machine.Done Γ (walk Γ) depth e e' context.id pen [(q, v)]

theorem encode_members (hΓ : Γ.Laid) (ih : Encodes Γ D limit depth)
    (hparent : Kind.isUnion parent = false)
    {ps : List (Slot × Value)} {id : ℕ} (hkinds : ∀ p ∈ ps, p.1.kind.isMojom)
    (hplaces : ∀ p ∈ ps, p.1.kind.alignment ∣ p.1.addr)
    (hv : ∀ p ∈ ps, HasKind Γ D depth p.1.kind p.2)
    (ha : ∀ p ∈ ps, Always Γ (Encodable Γ limit) depth parent p.1.kind p.2) :
    WritesMembers Γ depth id ps
      (forEach (fun x e => encode Γ depth x.1 x.2 ⟨id, false⟩ e)
        (ps.map fun p => (p.1.kind, p.2))) := by
  intro e pen h
  rw [forEach_map]
  refine Machine.forEach_done hΓ (fun p hp e' pen' _ hready => ?_) h
  exact ih ⟨id, false⟩ _ parent (hkinds p hp) hparent.symm rfl (hplaces p hp) (hv p hp)
    (ha p hp) hready

theorem encodeValue_eq (hm : ∀ key value nullable, kind ≠ .map key value nullable)
    (hp : kind.isPointer) (hk : kind.isMojom) (ho : object Γ kind v = some o) :
    encodeValue Γ (encode Γ depth) kind v context e =
      forEach (fun x e => encode Γ depth x.1 x.2 context e)
        (o.members.map fun p => (p.1.kind, p.2)) e := by
  cases objectOf ho with
  | string nullable bytes =>
    have hzip := zip_kinds (.number 1) (bytes.map fun b => .number b.toNat)
    rw [List.length_map] at hzip
    simp only [hzip, forEach_map, encodeValue, encode]
  | array elem count nullable elems => simp only [zip_kinds, forEach_map, encodeValue]
  | struct name nullable fields => simp only [zip_fields, encodeValue]
  | map key value nullable => exact absurd rfl (hm key value nullable)
  | unionPointer => cases hk
  | union => cases hp

variable {nullable : Bool}

theorem encode_map (hΓ : Γ.Laid) (ih : Encodes Γ D limit depth) {key value : Kind}
    {keys values : List Value} {id : ℕ} (hk : (Kind.map key value nullable).isMojom)
    (ho : object Γ (.map key value nullable) (.map keys values) = some o)
    (hplaces : ∀ p ∈ o.members, p.1.kind.alignment ∣ p.1.addr)
    (hv : ∀ p ∈ o.members, HasKind Γ D depth p.1.kind p.2)
    (ha : ∀ p ∈ o.members,
      Always Γ (Encodable Γ limit) depth (.map key value nullable) p.1.kind p.2) :
    WritesMembers Γ depth id o.members (encodeValue Γ (encode Γ depth)
      (.map key value nullable) (.map keys values) ⟨id, false⟩) := by
  intro e pen h
  cases ho
  obtain ⟨hkey, hvalue⟩ := isMojom_key (Kind.isSlot_of_isMojom hk)
  have hmem := List.mem_cons_self (a := ((⟨.array key 0 false, 8, 0⟩ : Slot), Value.array keys))
    (l := [(⟨.array value 0 false, 16, 0⟩, .array values)])
  have hvk := hv _ hmem
  have hak := ha _ hmem
  have hmem' := List.mem_cons_of_mem ((⟨.array key 0 false, 8, 0⟩ : Slot), Value.array keys)
    (.head ([] : List (Slot × Value)) (a := (⟨.array value 0 false, 16, 0⟩, .array values)))
  cases depth with
  | zero => cases hvk
  | succ depth =>
    have hok : object Γ (.array key 0 false) (.array keys) = some
        ⟨headerSize + elementBytes key keys.length, keys.length,
          (elementSlots key 0 keys.length).zip keys⟩ := rfl
    obtain ⟨hsize, hword⟩ := hak.here.fits _ hok
    have hmembers := hvk.members hok
    have hmojom := isMojom_members hΓ (show (Kind.array key 0 false).isMojom = true from hkey)
      (by simp) hok
    -- the elements of the keys are one level less deep than the fuel
    have hkeys : ∀ id, WritesMembers Γ depth id ((elementSlots key 0 keys.length).zip keys)
        (forEach (fun k e => encode Γ (depth + 1) key k ⟨id, false⟩ e) keys) := by
      intro id e pen hready
      obtain ⟨e', hrun, hd⟩ := encode_members hΓ ih rfl hmojom
        (dvd_of_flows (hak.here.packed _ hok)) (fun p hp => (hmembers p hp).succ)
        (fun p hp => (hak.2 _ hok p hp).succ (hmembers p hp))
        ⟨hready.holds, hready.isOpen.of_hasKind hmembers⟩
      rw [zip_kinds, forEach_map] at hrun
      exact ⟨e', hrun, hd.of_hasKind hmembers⟩
    obtain ⟨e₁, hrun, hd⟩ := encode_object hΓ ⟨id, false⟩ rfl hok hsize hword
      (hak.here.walked _ hok)
      (fun c e => forEach (fun k e => encode Γ (depth + 1) key k c e) keys e) hkeys h.head
    obtain ⟨e₂, hrun', hd'⟩ := ih ⟨id, false⟩ (.array value 0 false) _ hvalue
      rfl rfl (hplaces _ hmem') (hv _ hmem') (ha _ hmem') (h.tail hd)
    refine ⟨e₂, ?_, hd.cons hΓ h hd'⟩
    beta_reduce at hrun
    rw [← bitsToBytes_eq key hkey ⟨id, false⟩ (fun _ _ _ => rfl)] at hrun
    calc encodeValue Γ (encode Γ (depth + 1)) (.map key value nullable) (.map keys values)
          ⟨id, false⟩ e
        = ((e.update ⟨id, false⟩ (encodePointer e.bytes) >>= fun e =>
            e.add (headerSize + bitsToBytes (embedSize ⟨id, false⟩ key * keys.length))
              keys.length >>= fun x =>
                forEach (fun k e => encode Γ (depth + 1) key k x.1 e) keys x.2) >>= fun e =>
            encode Γ (depth + 1) (.array value 0 false) (.array values) ⟨id, false⟩ e) := by
          simp only [bind_assoc]
          rfl
      _ = .ok e₂ := by rw [hrun, ok_bind, hrun']

theorem encode_pointer_eq (hp : kind.isPointer) (hk : kind.isMojom)
    (ho : object Γ kind v = some o) :
    encode Γ (depth + 1) kind v context e = e.update context (encodePointer e.bytes) >>= fun e =>
        e.add (serializedSize Γ context kind v) (headerData Γ kind v) >>= fun x =>
          encodeValue Γ (encode Γ depth) kind v x.1 x.2 := by
  cases objectOf ho with
  | string | array | map | struct => rfl
  | unionPointer => cases hk
  | union => cases hp

theorem encode_pointer (hΓ : Γ.Laid) (ih : Encodes Γ D limit depth) (hk : kind.isMojom)
    (hctx : context.isUnion = Kind.isUnion parent) (hq : q.kind = kind) (hp : q.kind.isPointer)
    (hv : HasKind Γ D (depth + 1) q.kind v)
    (ha : Always Γ (Encodable Γ limit) (depth + 1) parent q.kind v)
    (ho : object Γ q.kind v = some o) :
    WritesMembers Γ (depth + 1) context.id [(q, v)] (encode Γ (depth + 1) kind v context) := by
  intro e pen h
  have hplaces := dvd_of_flows (ha.here.packed o ho)
  have hmembers := hv.members ho
  have halways := ha.2 o ho
  obtain ⟨hfits, hwords⟩ := ha.here.fits o ho
  have hu : ∀ name nullable, kind ≠ .union name nullable := by
    rintro name nullable rfl
    rw [hq] at hp
    cases hp
  obtain ⟨e', hrun, hd⟩ := encode_object hΓ context hp ho hfits hwords (ha.here.walked o ho)
    (encodeValue Γ (encode Γ depth) kind v) (fun id e pen hready => by
      rw [hq] at ho halways
      by_cases hm : ∃ key value nullable, kind = .map key value nullable
      · obtain ⟨key, value, nullable, rfl⟩ := hm
        cases v with
        | map keys values => exact encode_map hΓ ih hk ho hplaces hmembers halways hready
        | _ => cases ho
      · rw [encodeValue_eq (fun key value nullable hkind => hm ⟨key, value, nullable, hkind⟩)
          (hq ▸ hp) hk ho]
        refine encode_members hΓ ih ?_ (isMojom_members hΓ hk hu ho) hplaces hmembers halways hready
        rw [← hq]
        cases hkind : q.kind <;> rw [hkind] at hp hq <;> first | rfl | cases hp; done | skip
        rw [← hq] at hk
        cases hk) h
  refine ⟨e', ?_, hd⟩
  rw [hq] at hp ho ha
  obtain ⟨hsize, hdata⟩ := header_eq hk hp hctx ha.here.supported ho
  rw [encode_pointer_eq hp hk ho, hsize, hdata]
  exact hrun

theorem encode_nested (hΓ : Γ.Laid) (ih : Encodes Γ D limit depth) {name tag : ℕ}
    {field : Value} (hctx : context.isUnion) (hq : q.kind = .unionPointer name nullable)
    (hv : HasKind Γ D (depth + 1) q.kind (.union tag field))
    (ha : Always Γ (Encodable Γ limit) (depth + 1) parent q.kind (.union tag field)) :
    WritesMembers Γ (depth + 1) context.id [(q, .union tag field)]
      (encode Γ (depth + 1) (.union name nullable) (.union tag field) context) := by
  intro e pen h
  obtain ⟨kind, hactive, -, ho⟩ := active_of_hasKind (.inr hq) hv
  have hp : q.kind.isPointer = true := by rw [hq]; rfl
  obtain ⟨hfits, hwords⟩ := ha.here.fits _ ho
  have hbody : ∀ id, WritesMembers Γ depth id [(⟨kind.inUnion, 8, 0⟩, field)]
      (encode Γ depth kind field ⟨id, true⟩) := by
    intro id e pen hready
    refine ih ⟨id, true⟩ kind q.kind (isMojom_of_active hΓ hactive) ?_ rfl ?_ ?_ ?_ hready
    · rw [hq]
      rfl
    · exact (alignment_dvd (isSlot_inUnion (isMojom_of_active hΓ hactive))).1
    · exact hv.members ho _ (.head _)
    · exact ha.2 _ ho _ (.head _)
  obtain ⟨e', hrun, hd⟩ := encode_object hΓ context hp ho hfits hwords (ha.here.walked _ ho)
    (fun c e => encode Γ depth kind field (c.setIsUnion true) e) hbody h
  refine ⟨e', ?_, hd⟩
  have hvariant : variant Γ name tag = kind := by rw [variant, hactive, Option.getD_some]
  simp only [encode, hctx, ↓reduceIte, nestedEncode, hvariant]
  exact hrun

theorem encode_tag {m : Mem} {a : ℕ} (h8 : 8 ∣ a)
    (ha : alignUp (Cursor.toByte ⟨alignUp pen.cursor.offset 8, pen.cursor.bit⟩) 4 = a)
    (h : a + 8 ≤ pen.size) (tag : ℕ) :
    startUnion tag (.of pen) m = .ok (.of (pen.to (a + 8)),
        store (store m (pen.base + a) 4 unionSize) (pen.base + a + 4) 4 tag) := by
  have hstate : (of pen).alignToBytes 8 =
      .of { pen with cursor := ⟨alignUp pen.cursor.offset 8, pen.cursor.bit⟩ } := rfl
  have hnext : alignUp (Cursor.toByte ⟨a + 4, 0⟩) 4 = a + 4 := by
    simp only [Cursor.toByte_mk, alignUp]
    omega
  rw [startUnion, hstate, encode_of ha (by simp only; omega), ok_bind]
  simp only
  rw [encode_of hnext (by simp only; omega)]
  simp only [Nat.add_assoc, Nat.reduceAdd]

theorem walk_inUnion (Γ : Types) (kind : Kind) (v : Value) (c : Cursor) :
    NaturalAt Γ kind.inUnion v c := by
  cases kind <;> exact ⟨rfl, rfl⟩

theorem encode_inline (hΓ : Γ.Laid) (ih : Encodes Γ D limit depth) {name tag : ℕ}
    {field : Value} (hctx : context.isUnion = false) (hq : q.kind = .union name nullable)
    (haddr : 8 ∣ q.addr) (hv : HasKind Γ D (depth + 1) q.kind (.union tag field))
    (ha : Always Γ (Encodable Γ limit) (depth + 1) parent q.kind (.union tag field)) :
    WritesMembers Γ (depth + 1) context.id [(q, .union tag field)]
      (encode Γ (depth + 1) (.union name nullable) (.union tag field) context) := by
  intro e pen h
  obtain ⟨kind, hactive, -, ho⟩ := active_of_hasKind (.inl hq) hv
  have hvariant : variant Γ name tag = kind := by rw [variant, hactive, Option.getD_some]
  have hmojom := isMojom_of_active hΓ hactive
  obtain ⟨hfits, hwords⟩ := ha.here.fits _ ho
  have hin := h.isOpen.inside _ (.head _)
  have hplace := h.isOpen.flows.1
  simp only [hq, Kind.size, walk] at hin hplace
  -- the two words of the union
  have hheader := Encoder.update_of h.holds e.handles
    (encode_tag (m := e.mem) haddr hplace.symm (by omega) tag)
  set e₁ := e.after context.id (pen.to (q.addr + 8))
    (store (store e.mem (pen.base + q.addr) 4 unionSize) (pen.base + q.addr + 4) 4 tag) e.handles
    with he₁
  -- the field
  have hfield : 8 ∣ q.addr + 8 := Nat.dvd_add haddr dvd_rfl
  have hflows := flows_field hmojom hfield (walk_inUnion Γ kind field ⟨q.addr + 8, 0⟩).1
  have hholds : machine.holds e₁ context.id (pen.to (q.addr + 8)) := by
    refine Encoder.holds_after h.holds ?_ e.handles
    exact h.holds.2
  obtain ⟨e₂, hrun, hd⟩ := ih (context.setIsUnion true) kind q.kind
    (q := ⟨kind.inUnion, q.addr + 8, 0⟩) hmojom (by rw [hq]; rfl) rfl
    ((alignment_dvd (isSlot_inUnion hmojom)).1.trans hfield) (hv.members ho _ (.head _))
    (ha.2 _ ho _ (.head _)) ⟨hholds, h.isOpen.tag hΓ hq hactive hflows⟩
  -- past the union
  have hlast : finishUnion (.of (Pen.past (walk Γ) (pen.to (q.addr + 8))
        (⟨kind.inUnion, q.addr + 8, 0⟩, field))) e₂.mem =
        .ok (.of (pen.past (walk Γ) (q, .union tag field)), e₂.mem) := by
    have hcursor : (walk Γ).advance q.kind (.union tag field) pen.cursor =
        ⟨Cursor.toByte ⟨alignUp (natural.advance kind.inUnion field ⟨q.addr + 8, 0⟩).offset 8,
          (natural.advance kind.inUnion field ⟨q.addr + 8, 0⟩).bit⟩, 0⟩ := by
      simp [hq, walk, hvariant, ← hplace]
    simp only [Pen.past, hcursor, (walk_inUnion Γ kind field _).2, finishUnion,
      of, alignToBytes, alignToByte, Cursor.toByte, alignUp,
      alignBytes]
    split <;> simp_all
  have hend := Encoder.update_of hd.holds e₂.handles hlast
  refine ⟨e₂.after context.id (pen.past (walk Γ) (q, .union tag field)) e₂.mem e₂.handles, ?_, ?_⟩
  · simp only [encode, hctx, inlineEncode, hvariant, Bool.false_eq_true, ↓reduceIte]
    change (e.update context (startUnion tag) >>= _) = _
    rw [hheader, ok_bind, hrun, ok_bind]
    exact hend
  · constructor
    · exact h.isOpen.wrote_inline hΓ (by rw [hq]; exact Bool.false_ne_true) ho hfits hwords
        hd.wrote.reshift
    · exact Encoder.holds_after hd.holds (left_past h.holds _) e₂.handles
    · intro j pen' hj hpen
      exact Encoder.others_after hj (hd.others j pen' hj (Encoder.others_after hj hpen e.handles))
        e₂.handles
    · exact hd.frame

theorem encodes (hΓ : Γ.Laid) (hD : D.Words) : Encodes Γ D limit depth := by
  induction depth with
  | zero =>
    intro context kind parent v q e pen hk _ hq _ hv ha h
    exact encode_scalar hD hq hk hv (hasKind_zero hv) ha.supported h
  | succ depth ih =>
    intro context kind parent v q e pen hk hctx hq haddr hv ha h
    cases ho : object Γ q.kind v with
    | none => exact encode_scalar hD hq hk hv ho ha.here.supported h
    | some o =>
      rcases slot_cases hq with hq' | ⟨name, nullable, rfl, hq', hctx'⟩
      · by_cases hp : q.kind.isPointer = true
        · exact encode_pointer hΓ ih hk hctx hq' hp hv ha ho h
        · obtain ⟨name, nullable, tag, field, hq'', rfl⟩ := union_of_inline ho hp
          obtain rfl := hq'.symm.trans hq''
          have hfalse : context.isUnion = false := by
            by_contra hctx'
            rw [if_pos (Bool.eq_true_of_not_eq_false hctx'), hq'] at hq
            cases hq
          rw [hq''] at haddr
          exact encode_inline hΓ ih hfalse hq'' haddr hv ha h
      · rw [hq'] at ho
        cases v with
        | union tag field => exact encode_nested hΓ ih hctx' hq' hv ha h
        | _ => cases ho

end Values

end Mojo.RustBindings
