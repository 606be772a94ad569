import Mojo.RustBindings.EncoderCursor
import Mojo.RustBindings.RoundTrip

/-!
# Unions between other fields

The decoder aligns to a byte and then to 8 bytes before and after a union; the encoder aligns in the
other order. The two cursors are at the same place unless a bit is pending: before a union that
follows a bool, and after a union whose field is a bool, if the next field is not aligned to 8
bytes.
-/

namespace Mojo.RustBindings

open Mojo.Memory Mojo.CppBindings Mojo.Wire

def isPresentUnion : Kind → Value → Bool
  | .union _ _, .union _ _ => true
  | _, _ => false

def endsInBool (Γ : Types) : Kind → Value → Bool
  | .union name _, .union tag _ => variant Γ name tag = .bool
  | _, _ => false

/-- No bit is pending before a union that is not null, and a union that holds a bool is followed by
a member that is aligned to 8 bytes, if by any. The decoder's cursor is at `c`. -/
def Agrees (Γ : Types) : Cursor → List (Slot × Value) → Prop
  | _, [] => True
  | c, p :: ps =>
    (isPresentUnion p.1.kind p.2 = true → c.bit = 0) ∧
      (endsInBool Γ p.1.kind p.2 = true → ∀ q ∈ ps.head?, q.1.kind.alignment = 8) ∧
      Agrees Γ (natural.advance p.1.kind p.2 c) ps

section Cursors

variable {Γ : Types} {kind : Kind} {v : Value} {c : Cursor} {ps : List (Slot × Value)}

theorem walk_of_absent (h : ¬ isPresentUnion kind v) (c : Cursor) : NaturalAt Γ kind v c := by
  cases kind <;> cases v <;> first | exact ⟨rfl, rfl⟩ | exact absurd rfl h

theorem endsInBool_of_absent (h : ¬ isPresentUnion kind v) : ¬ endsInBool Γ kind v := by
  cases kind <;> cases v <;> first | exact Bool.false_ne_true | exact absurd rfl h

theorem walk_place_iff (h : isPresentUnion kind v) (c : Cursor) :
    (natural.place kind v c).offset = ((walk Γ).place kind v c).offset ↔ c.bit = 0 := by
  cases kind with
  | union name nullable =>
    cases v with
    | union tag field =>
      simp only [natural, walk, Kind.alignment, alignUp, Cursor.toByte]
      split <;> omega
    | _ => cases h
  | _ => cases v <;> cases h

theorem walk_advance (h : isPresentUnion kind v)
    (hmojom : ∀ name nullable tag field, kind = .union name nullable → v = .union tag field →
      (variant Γ name tag).isMojom) (hbit : c.bit = 0) :
    natural.advance kind v c = ⟨alignUp c.offset 8 + 16, 0⟩ ∧
      (walk Γ).advance kind v c =
        ⟨alignUp c.offset 8 + if endsInBool Γ kind v = true then 9 else 16, 0⟩ := by
  cases kind with
  | union name nullable =>
    cases v with
    | union tag field =>
      have hk := hmojom name nullable tag field rfl rfl
      obtain ⟨halign, -⟩ := alignment_dvd (isSlot_inUnion hk)
      have hstart : alignUp (Cursor.toByte ⟨alignUp c.offset 8, 0⟩) 4 = alignUp c.offset 8 := by
        simp only [Cursor.toByte_mk, alignUp]
        omega
      have h8 : 8 ∣ alignUp c.offset 8 := Dvd.intro_left _ rfl
      refine ⟨?_, ?_⟩
      · simp [natural, Kind.alignment, Kind.size, Cursor.toByte, hbit]
      · simp only [walk, hbit, hstart, endsInBool, decide_eq_true_eq]
        by_cases hb : variant Γ name tag = .bool
        · simp only [hb, Kind.inUnion, natural, Cursor.toByte, alignUp, ↓reduceIte, Nat.zero_add,
            Nat.reduceDiv, Nat.reduceMod, Nat.zero_lt_one, Nat.add_zero]
          congr 1
          omega
        · have hne : (variant Γ name tag).inUnion ≠ .bool := by
            intro hbool
            cases hvariant : variant Γ name tag <;> rw [hvariant] at hbool hb <;>
              first | exact hb rfl | cases hbool
          have hdvd : (variant Γ name tag).inUnion.alignment ∣ alignUp c.offset 8 + 8 :=
            Nat.dvd_add (halign.trans h8) halign
          have hle := size_inUnion hk
          have hpos := size_pos (isSlot_inUnion hk)
          rw [(natural_of_ne hne field _).2]
          simp only [Cursor.toByte_mk, ↓reduceIte, hb,
            alignUp_of_dvd (alignment_pos (isSlot_inUnion hk)) hdvd]
          congr 1
          simp only [alignUp] at h8 ⊢
          omega
    | _ => cases h
  | _ => cases v <;> cases h

theorem walk_of_aligned {a : ℕ} (ha : 8 ∣ a) (hk : kind.isSlot) (h8 : kind.alignment = 8) :
    (walk Γ).place kind v ⟨a + 9, 0⟩ = (walk Γ).place kind v ⟨a + 16, 0⟩ ∧
      (walk Γ).advance kind v ⟨a + 9, 0⟩ = (walk Γ).advance kind v ⟨a + 16, 0⟩ := by
  have hnine : alignUp (a + 9) 8 = a + 16 := by
    simp only [alignUp]
    omega
  have hsixteen : alignUp (a + 16) 8 = a + 16 := by
    simp only [alignUp]
    omega
  by_cases hu : isPresentUnion kind v = true
  · cases kind with
    | union name nullable =>
      cases v with
      | union tag field => simp only [walk, hnine, hsixteen, and_self]
      | _ => cases hu
    | _ => cases v <;> cases hu
  · have hb : kind ≠ .bool := by
      rintro rfl
      cases h8
    obtain ⟨hplace, hadvance⟩ := walk_of_absent (Γ := Γ) hu ⟨a + 9, 0⟩
    obtain ⟨hplace', hadvance'⟩ := walk_of_absent (Γ := Γ) hu ⟨a + 16, 0⟩
    obtain ⟨hp, hadv⟩ := natural_of_ne hb v ⟨a + 9, 0⟩
    obtain ⟨hp', hadv'⟩ := natural_of_ne hb v ⟨a + 16, 0⟩
    rw [h8] at hp hp' hadv hadv'
    simp only [Cursor.toByte_mk, hnine, hsixteen] at hp hp' hadv hadv'
    rw [hplace, hplace', hadvance, hadvance', hp, hp', hadv, hadv']
    exact ⟨rfl, rfl⟩

theorem walk_place_of_unaligned {a : ℕ} (ha : 8 ∣ a) (hk : kind.isSlot) (h8 : kind.alignment ≠ 8) :
    (natural.place kind v ⟨a + 16, 0⟩).offset ≠ ((walk Γ).place kind v ⟨a + 9, 0⟩).offset := by
  have hu : ¬ isPresentUnion kind v = true := by
    intro hu
    cases kind with
    | union => exact h8 rfl
    | _ => cases v <;> cases hu
  rw [(walk_of_absent hu _).1]
  cases kind with
  | number size =>
    simp only [Kind.isSlot, Kind.isMojom, List.mem_cons, List.not_mem_nil, or_false,
      decide_eq_true_eq] at hk
    simp only [Kind.alignment] at h8
    simp only [natural, Kind.alignment, Cursor.toByte_mk, alignUp]
    rcases hk with rfl | rfl | rfl | rfl <;> omega
  | bool =>
    simp only [natural]
    omega
  | handle | interface =>
    simp only [natural, Kind.alignment, Cursor.toByte_mk, alignUp]
    omega
  | _ => exact absurd rfl h8

theorem flows_walk_iff (hkinds : ∀ p ∈ ps, p.1.kind.isSlot)
    (hmojom : ∀ p ∈ ps, ∀ name nullable tag field, p.1.kind = .union name nullable →
      p.2 = .union tag field → (variant Γ name tag).isMojom)
    (h : Flows natural c ps) : Flows (walk Γ) c ps ↔ Agrees Γ c ps := by
  induction ps generalizing c with
  | nil => exact Iff.rfl
  | cons p ps ih =>
    have htail := ih (fun q hq => hkinds q (.tail p hq)) (fun q hq => hmojom q (.tail p hq)) h.2.2
    obtain ⟨haddr, hbit, hflows⟩ := h
    by_cases hu : isPresentUnion p.1.kind p.2 = true
    · have hb : p.1.kind ≠ .bool := by
        intro hb
        rw [hb] at hu
        cases hu
      rw [Flows, Agrees, haddr, walk_place_iff hu]
      by_cases hzero : c.bit = 0
      · obtain ⟨hnatural, hwalk⟩ := walk_advance hu (hmojom p (.head _)) hzero
        simp only [hzero, hb, false_implies, true_and, implies_true]
        rw [hnatural] at htail hflows ⊢
        rw [hwalk]
        by_cases hends : endsInBool Γ p.1.kind p.2 = true
        · simp only [hends, ↓reduceIte, true_implies]
          have h8 : 8 ∣ alignUp c.offset 8 := Dvd.intro_left _ rfl
          cases ps with
          | nil => simp [Flows, Agrees]
          | cons q qs =>
            have hq := hkinds q (.tail p (.head _))
            by_cases haligned : q.1.kind.alignment = 8
            · obtain ⟨hplace, hadvance⟩ := walk_of_aligned (Γ := Γ) (v := q.2) h8 hq haligned
              rw [← htail, Flows, Flows, hplace, hadvance]
              simp [haligned]
            · have hmiss := walk_place_of_unaligned (Γ := Γ) (v := q.2) h8 hq haligned
              rw [← hflows.1] at hmiss
              simp [Flows, hmiss, haligned]
        · simp only [hends, Bool.false_eq_true, ↓reduceIte, false_implies, true_and]
          exact htail
      · simp [hzero, hu]
    · obtain ⟨hplace, hadvance⟩ := walk_of_absent (Γ := Γ) hu c
      rw [Flows, Agrees, hplace, hadvance, htail]
      constructor
      · rintro ⟨-, -, hrest⟩
        exact ⟨fun h => absurd h hu, fun h => absurd h (endsInBool_of_absent hu), hrest⟩
      · rintro ⟨-, -, hrest⟩
        exact ⟨haddr, hbit, hrest⟩

def cursorAfter (w : Walk) (c : Cursor) (ps : List (Slot × Value)) : Cursor :=
  ps.foldl (fun c p => w.advance p.1.kind p.2 c) c

theorem flows_iff_places {w : Walk} : Flows w c ps ↔ ∀ i p, ps[i]? = some p →
    p.1.addr = (w.place p.1.kind p.2 (cursorAfter w c (ps.take i))).offset ∧
      (p.1.kind = .bool → p.1.bit = (w.place p.1.kind p.2 (cursorAfter w c (ps.take i))).bit) := by
  induction ps generalizing c with
  | nil => simp [Flows]
  | cons p ps ih =>
    rw [Flows, ih]
    constructor
    · rintro ⟨haddr, hbit, hrest⟩ i q hq
      cases i with
      | zero =>
        cases hq
        exact ⟨haddr, hbit⟩
      | succ i => exact hrest i q hq
    · intro h
      exact ⟨(h 0 p rfl).1, (h 0 p rfl).2, fun i q hq => h (i + 1) q hq⟩

end Cursors

def encodeFirst (Γ : Types) (depth name : ℕ) (fields : List Value) (n : ℕ) :
    Except Failure Encoder := do
  let size := computeSize Γ (depth + 1) (.struct name false) (.struct fields) ⟨0, false⟩
  let (context, e) ← (Encoder.new size).add (serializedSize Γ ⟨0, false⟩ (.struct name false)
    (.struct fields))
    (headerData Γ (.struct name false) (.struct fields))
  forEach (fun p e => encode Γ depth p.1 p.2 context e)
    ((((Γ.struct name).fields.map Field.kind).zip fields).take n) e

def InPlace (Γ : Types) (depth name : ℕ) (fields : List Value) : Prop :=
  ∀ i p e s, (((Γ.struct name).fields.map fun f => f.slot 0).zip fields)[i]? = some p →
    encodeFirst Γ depth name fields i = .ok e → e.states[0]? = some s →
    p.1.addr = ((walk Γ).place p.1.kind p.2 s.cursor).offset ∧
      (p.1.kind = .bool → p.1.bit = ((walk Γ).place p.1.kind p.2 s.cursor).bit)

section Structs

variable {Γ : Types} {depth name : ℕ} {fields : List Value} {e e' : Encoder}

theorem autoSerialize_eq_encodeFirst :
    autoSerialize Γ depth name fields = encodeFirst Γ depth name fields fields.length := by
  rw [encodeFirst, List.take_of_length_le (by simp)]
  rfl

theorem forEach_walks {id : ℕ} {ps : List (Slot × Value)}
    (hnull : ∀ p ∈ ps, ∀ name nullable tag field, p.1.kind = .union name nullable →
      p.2 = .union tag field → ∀ name' nullable', variant Γ name tag = .union name' nullable' →
      field ≠ .null)
    (h : forEach (fun x e => encode Γ depth x.1 x.2 ⟨id, false⟩ e) (ps.map fun p => (p.1.kind, p.2))
      e = .ok e') : Moved id (fun c => cursorAfter (walk Γ) c ps) e e' := by
  induction ps generalizing e with
  | nil =>
    cases h
    exact ⟨⟨le_rfl, fun _ _ _ => rfl⟩, fun s hs => hs⟩
  | cons p ps ih =>
    obtain ⟨e₁, hfirst, hrest⟩ := bind_eq_ok.mp h
    exact (encode_walks rfl (hnull p (.head _)) hfirst).trans
      (ih (fun q hq => hnull q (.tail p hq)) hrest)

theorem add_cursor {size data : ℕ} {c : Context} (h : e.add size data = .ok (c, e')) :
    c = ⟨e.states.length, false⟩ ∧
      ∃ s : EncodingState, e'.states[e.states.length]? = some s ∧ s.cursor = ⟨headerSize, 0⟩ := by
  simp only [Encoder.add] at h
  split at h
  · cases h
  · obtain ⟨⟨s, m⟩, hfirst, h⟩ := bind_eq_ok.mp h
    obtain ⟨⟨s', m'⟩, hsecond, h⟩ := bind_eq_ok.mp h
    obtain ⟨rfl, rfl⟩ := Prod.mk.inj (Except.ok.inj h)
    refine ⟨rfl, s', List.getElem?_concat_length, ?_⟩
    rw [EncodingState.write_moves 4 _ hsecond, EncodingState.write_moves 4 _ hfirst]
    rfl

theorem encodeFirst_cursor {n : ℕ} {ps : List (Slot × Value)}
    (hps : ps = ((Γ.struct name).fields.map fun f => f.slot 0).zip fields)
    (hnull : ∀ p ∈ ps, ∀ name nullable tag field, p.1.kind = .union name nullable →
      p.2 = .union tag field → ∀ name' nullable', variant Γ name tag = .union name' nullable' →
      field ≠ .null)
    (h : encodeFirst Γ depth name fields n = .ok e) :
    ∃ s : EncodingState, e.states[0]? = some s ∧
      s.cursor = cursorAfter (walk Γ) ⟨headerSize, 0⟩ (ps.take n) := by
  obtain ⟨⟨c, e₁⟩, hadd, hrun⟩ := bind_eq_ok.mp h
  obtain ⟨rfl, s, hs, hcursor⟩ := add_cursor hadd
  have hmembers : (((Γ.struct name).fields.map Field.kind).zip fields).take n =
      (ps.take n).map fun p => (p.1.kind, p.2) := by
    rw [hps, List.map_take, zip_fields]
  simp only [hmembers] at hrun
  have hmoved := forEach_walks (fun p hp => hnull p (List.mem_of_mem_take hp)) hrun
  refine ⟨_, hmoved.moved s hs, ?_⟩
  rw [EncodingState.cursor_move, hcursor]

theorem encodeFirst_of_le {n k : ℕ} (hle : n ≤ k) (h : encodeFirst Γ depth name fields k = .ok e) :
    ∃ e, encodeFirst Γ depth name fields n = .ok e := by
  obtain ⟨⟨c, e₁⟩, hadd, hrun⟩ := bind_eq_ok.mp h
  obtain ⟨k, rfl⟩ := Nat.exists_eq_add_of_le hle
  simp only [List.take_add, forEach_append] at hrun
  obtain ⟨e₂, hfirst, -⟩ := bind_eq_ok.mp hrun
  refine ⟨e₂, bind_eq_ok.mpr ⟨_, hadd, hfirst⟩⟩

theorem variant_of_hasKind {D : Domain} {kind : Kind} {nullable : Bool} {tag : ℕ} {field v : Value}
    (hΓ : Γ.Laid)
    (hk : kind = .union name nullable) (hv : v = .union tag field) (h : HasKind Γ D depth kind v) :
    (variant Γ name tag).isMojom ∧ ∃ n, depth = n + 1 ∧
      object Γ kind v = some ⟨unionSize, tag, [(⟨(variant Γ name tag).inUnion, 8, 0⟩, field)]⟩ := by
  subst hk hv
  cases depth with
  | zero => cases h
  | succ n =>
    simp only [HasKind] at h
    obtain ⟨kind, hactive, -⟩ := h
    simp only [variant, object, hactive, Option.getD_some, Option.map_some]
    exact ⟨isMojom_of_active hΓ hactive, n, rfl, trivial⟩

/-- The fields of a struct whose members can be encoded and decoded themselves: `auto_serialize` has
its cursor at the packed place of every field, and `deserialize` gives the value back, if and only
if no pending bit comes next to a union. -/
theorem inPlace_iff_agrees {o : Object} (hΓ : Γ.Laid) (hpacked : Γ.Packed)
    (hv : HasKind Γ domain (depth + 1) (.struct name false) (.struct fields))
    (ho : object Γ (.struct name false) (.struct fields) = some o)
    (hbelow : ∀ p ∈ o.members, Always Γ (Encodable Γ
      (computeSize Γ (depth + 1) (.struct name false) (.struct fields) ⟨0, false⟩)) depth
      (.struct name false) p.1.kind p.2)
    (hsize : computeSize Γ (depth + 1) (.struct name false) (.struct fields) ⟨0, false⟩ < 2 ^ 64)
    (hhandles : (handles Γ (depth + 1) (.struct name false) (.struct fields)).length ≤ 2 ^ 31) :
    ((∃ e, autoSerialize Γ depth name fields = .ok e ∧
        deserialize Γ e.mem depth name e.size e.handles = .ok (.struct fields)) ∧
      InPlace Γ depth name fields) ↔ Agrees Γ ⟨headerSize, 0⟩ o.members := by
  have hmembers := hv.members ho
  have hps : o.members = ((Γ.struct name).fields.map fun f => f.slot 0).zip fields := by
    cases ho
    rfl
  have hmojom : ∀ p ∈ o.members, ∀ name nullable tag field, p.1.kind = .union name nullable →
      p.2 = .union tag field → (variant Γ name tag).isMojom = true :=
    fun p hp name nullable tag field hk hval => (variant_of_hasKind hΓ hk hval (hmembers p hp)).1
  have hnull : ∀ p ∈ o.members, ∀ name nullable tag field, p.1.kind = .union name nullable →
      p.2 = .union tag field → ∀ name' nullable', variant Γ name tag = .union name' nullable' →
      field ≠ .null := by
    rintro p hp name nullable tag field hk hval name' nullable' hvariant rfl
    obtain ⟨-, n, rfl, hobject⟩ := variant_of_hasKind hΓ hk hval (hmembers p hp)
    have hsupported := ((hbelow p hp).2 _ hobject _ (.head _)).here.supported
    rw [hvariant] at hsupported
    exact hsupported
  rw [← flows_walk_iff (object_laid hΓ rfl ho).kinds hmojom (flows_members hpacked hΓ rfl ho)]
  constructor
  · rintro ⟨⟨e, hrun, -⟩, hplace⟩
    rw [autoSerialize_eq_encodeFirst] at hrun
    refine flows_iff_places.mpr fun i p hp => ?_
    have hlt : i < fields.length := by
      have := (List.getElem?_eq_some_iff.mp hp).1
      rw [hps, List.length_zip] at this
      omega
    obtain ⟨e', hrun'⟩ := encodeFirst_of_le hlt.le hrun
    obtain ⟨s, hs, hcursor⟩ := encodeFirst_cursor hps hnull hrun'
    rw [← hcursor]
    exact hplace i p e' s (hps ▸ hp) hrun' hs
  · intro hflows
    have ha : Always Γ (Encodable Γ
        (computeSize Γ (depth + 1) (.struct name false) (.struct fields) ⟨0, false⟩)) (depth + 1)
        (.struct name false) (.struct name false) (.struct fields) := by
      refine ⟨⟨?_, ?_, ?_, trivial, fun _ hkind => by cases hkind⟩, ?_⟩
      · rintro o' ho'
        obtain rfl := Option.some.inj ho'
        exact ⟨(hΓ.struct name).size, (hΓ.struct name).version⟩
      · rintro o' ho'
        obtain rfl := Option.some.inj (ho.symm.trans ho')
        exact hflows
      · exact fun o' ho' => flows_members hpacked hΓ rfl ho'
      · rintro o' ho'
        obtain rfl := Option.some.inj (ho.symm.trans ho')
        exact hbelow
    obtain ⟨e, hrun, -, -, -, hread⟩ := autoSerialize_returns hΓ hv ha ho hpacked rfl hsize hhandles
    refine ⟨⟨e, hrun, hread⟩, fun i p e' s hp hrun' hs => ?_⟩
    obtain ⟨s', hs', hcursor⟩ := encodeFirst_cursor hps hnull hrun'
    obtain rfl := Option.some.inj (hs.symm.trans hs')
    rw [hcursor]
    exact flows_iff_places.mp hflows i p (hps ▸ hp)

end Structs

/-- Structs with a union next to a small field: after a bool, before a byte, and between a byte
and a pointer. The union holds a byte or a bool. -/
def flagTypes : Types where
  struct i :=
    match i with
    | 0 => ⟨[⟨0, 32⟩], [⟨.bool, 0, 0, 0⟩, ⟨.union 0 false, 8, 0, 0⟩]⟩
    | 1 => ⟨[⟨0, 32⟩], [⟨.union 0 false, 0, 0, 0⟩, ⟨.number 1, 16, 0, 0⟩]⟩
    | _ => ⟨[⟨0, 40⟩], [⟨.number 1, 0, 0, 0⟩, ⟨.union 0 false, 8, 0, 0⟩, ⟨.string true, 24, 0, 0⟩]⟩
  union _ := ⟨[.number 1, .bool]⟩

theorem flagTypes_laid : flagTypes.Laid where
  struct i := by
    match i with
    | 0 | 1 | n + 2 =>
      constructor <;> simp [flagTypes, Kind.isMojom, Kind.size, headerSize, StructType.last]
  union _ := by simp [flagTypes, Kind.isMojom]
  tags _ := by simp [flagTypes]

theorem flagTypes_packed : flagTypes.Packed := by
  intro i
  match i with
  | 0 | 1 | n + 2 =>
    constructor <;> simp [flagTypes, Flows, natural, Field.slot, Kind.alignment, Kind.size, alignUp,
      Cursor.toByte, headerSize]

theorem cursors_differ_after_bool :
    HasKind flagTypes domain 2 (.struct 0 false) (.struct [.bool true, .union 0 (.number 5)]) ∧
      ¬ Agrees flagTypes ⟨headerSize, 0⟩ (((flagTypes.struct 0).fields.map fun f => f.slot 0).zip
        [.bool true, .union 0 (.number 5)]) ∧
      ∃ e, autoSerialize flagTypes 1 0 [.bool true, .union 0 (.number 5)] = .ok e ∧
        deserialize flagTypes e.mem 1 0 e.size e.handles =
        .error (.invalid .unexpectedNullUnion) := by
  refine ⟨?_, ?_, bind_eq_error (by decide +kernel) (by decide +kernel)⟩
  · simp [HasKind, flagTypes, UnionType.active, Kind.inUnion]
  · simp [Agrees, flagTypes, Field.slot, isPresentUnion, natural]

theorem inPlace_flags :
    ((∃ e, autoSerialize flagTypes 1 2 [.number 7, .union 1 (.bool true), .null] = .ok e ∧
        deserialize flagTypes e.mem 1 2 e.size e.handles =
        .ok (.struct [.number 7, .union 1 (.bool true), .null])) ∧
      InPlace flagTypes 1 2 [.number 7, .union 1 (.bool true), .null]) ↔
      Agrees flagTypes ⟨headerSize, 0⟩ (((flagTypes.struct 2).fields.map fun f => f.slot 0).zip
        [.number 7, .union 1 (.bool true), .null]) := by
  refine inPlace_iff_agrees flagTypes_laid flagTypes_packed ?_ rfl ?_ (by decide) (by decide)
  · simp [HasKind, flagTypes, UnionType.active, Kind.inUnion, Kind.isNullable]
  · decide

end Mojo.RustBindings
