import Mojo.Wire.Layout

/-!
# Cursors that find the members of an object

Some bindings do not use the offsets of members: they go through the members in order with a cursor
of bytes and bits, and align it as the next member needs. `Flows` says that a cursor which
is moved in a given way comes by the places of the members. The elements of an array are
found by every cursor that gets from one to the next.
-/

namespace Mojo.CppBindings

def Kind.alignment : Kind → ℕ
  | .number size => size
  | .bool => 1
  | .handle _ | .interface _ => 4
  | .string _ | .array _ _ _ | .map _ _ _ | .struct _ _ | .union _ _ | .unionPointer _ _ => 8

end Mojo.CppBindings

namespace Mojo.Wire

open Mojo.Memory Mojo.CppBindings

def alignUp (n a : ℕ) : ℕ := (n + a - 1) / a * a

theorem alignUp_of_dvd {n a : ℕ} (ha : 0 < a) (h : a ∣ n) : alignUp n a = n := by
  obtain ⟨k, rfl⟩ := h
  rw [alignUp, Nat.add_sub_assoc (by omega), Nat.mul_add_div ha, Nat.div_eq_of_lt (by omega),
    Nat.add_zero, Nat.mul_comm]

structure Cursor where
  offset : ℕ
  bit : ℕ
deriving DecidableEq, Repr

def Cursor.toByte (c : Cursor) : ℕ := if 0 < c.bit then c.offset + 1 else c.offset

@[simp] theorem Cursor.toByte_mk (a : ℕ) : Cursor.toByte ⟨a, 0⟩ = a := rfl

structure Walk where
  place : Kind → Value → Cursor → Cursor
  advance : Kind → Value → Cursor → Cursor

/-- Members are aligned to their natural boundary, bools follow one another. -/
def natural : Walk where
  place kind _ c :=
    match kind with
    | .bool => c
    | _ => ⟨alignUp c.toByte kind.alignment, 0⟩
  advance kind _ c :=
    match kind with
    | .bool => ⟨c.offset + (c.bit + 1) / 8, (c.bit + 1) % 8⟩
    | _ => ⟨alignUp c.toByte kind.alignment + kind.size, 0⟩

def Flows (w : Walk) : Cursor → List (Slot × Value) → Prop
  | _, [] => True
  | c, p :: ps =>
    p.1.addr = (w.place p.1.kind p.2 c).offset ∧
      (p.1.kind = .bool → p.1.bit = (w.place p.1.kind p.2 c).bit) ∧
      Flows w (w.advance p.1.kind p.2 c) ps

instance decidableFlows (w : Walk) : ∀ c ps, Decidable (Flows w c ps)
  | _, [] => isTrue trivial
  | c, p :: ps =>
    haveI := decidableFlows w (w.advance p.1.kind p.2 c) ps
    inferInstanceAs (Decidable (p.1.addr = (w.place p.1.kind p.2 c).offset ∧
      (p.1.kind = .bool → p.1.bit = (w.place p.1.kind p.2 c).bit) ∧
      Flows w (w.advance p.1.kind p.2 c) ps))

theorem flows_elements {w : Walk} {elem : Kind} (At : ℕ → Cursor → Prop)
    (hplace : ∀ i v c, At i c → (elementSlot elem 0 i).addr = (w.place elem v c).offset ∧
      (elem = .bool → (elementSlot elem 0 i).bit = (w.place elem v c).bit))
    (hadvance : ∀ i v c, At i c → At (i + 1) (w.advance elem v c)) (hstart : At 0 ⟨headerSize, 0⟩)
    (elems : List Value) :
    Flows w ⟨headerSize, 0⟩ ((elementSlots elem 0 elems.length).zip elems) := by
  have hfrom : ∀ i c, At i c →
      Flows w c (((List.range' i elems.length).map (elementSlot elem 0)).zip elems) := by
    induction elems with
    | nil => exact fun _ _ _ => trivial
    | cons v vs ih =>
      intro i c hc
      obtain ⟨haddr, hbit⟩ := hplace i v c hc
      rw [List.length_cons, List.range'_succ, List.map_cons, List.zip_cons_cons, Flows]
      simp only [elementSlot_kind]
      exact ⟨haddr, hbit, ih (i + 1) _ (hadvance i v c hc)⟩
  rw [elementSlots, List.range_eq_range']
  exact hfrom 0 _ hstart

def indexed (slots : List Slot) : Walk where
  place _ _ c := (slots[c.offset - headerSize]?.map fun s => ⟨s.addr, s.bit⟩).getD c
  advance _ _ c := ⟨c.offset + 1, 0⟩

theorem flows_indexed (ps : List (Slot × Value)) :
    Flows (indexed (ps.map Prod.fst)) ⟨headerSize, 0⟩ ps := by
  have hfrom : ∀ (before rest : List (Slot × Value)),
      Flows (indexed ((before ++ rest).map Prod.fst)) ⟨headerSize + before.length, 0⟩ rest := by
    intro before rest
    induction rest generalizing before with
    | nil => trivial
    | cons p rest ih =>
      have hplace : (indexed ((before ++ p :: rest).map Prod.fst)).place p.1.kind p.2
          ⟨headerSize + before.length, 0⟩ = ⟨p.1.addr, p.1.bit⟩ := by
        simp [indexed]
      rw [Flows, hplace]
      refine ⟨rfl, fun _ => rfl, ?_⟩
      have htail := ih (before ++ [p])
      rw [List.append_assoc, List.singleton_append, List.length_append, List.length_singleton,
        ← Nat.add_assoc] at htail
      exact htail
  exact hfrom [] ps

variable {kind : Kind}

theorem alignment_pos (h : kind.isSlot) : 0 < kind.alignment := by
  cases kind with
  | number size =>
    simp only [Kind.isSlot, Kind.isMojom, List.mem_cons, List.not_mem_nil, or_false,
      decide_eq_true_eq] at h
    simp only [Kind.alignment]
    omega
  | _ => simp [Kind.alignment]

theorem size_pos (h : kind.isSlot) : 0 < kind.size := by
  cases kind with
  | number size => exact alignment_pos h
  | _ => simp [Kind.size]

theorem alignment_dvd (h : kind.isSlot) : kind.alignment ∣ 8 ∧ kind.alignment ∣ kind.size := by
  cases kind with
  | number size =>
    simp only [Kind.isSlot, Kind.isMojom, List.mem_cons, List.not_mem_nil, or_false,
      decide_eq_true_eq] at h
    refine ⟨?_, dvd_rfl⟩
    rcases h with rfl | rfl | rfl | rfl <;> decide
  | _ => simp [Kind.alignment, Kind.size]

theorem natural_of_ne (h : kind ≠ .bool) (v : Value) (c : Cursor) :
    natural.place kind v c = ⟨alignUp c.toByte kind.alignment, 0⟩ ∧
      natural.advance kind v c = ⟨alignUp c.toByte kind.alignment + kind.size, 0⟩ := by
  cases kind <;> first | exact ⟨rfl, rfl⟩ | exact absurd rfl h

theorem dvd_of_flows {c : Cursor} {ps : List (Slot × Value)} (h : Flows natural c ps) :
    ∀ p ∈ ps, p.1.kind.alignment ∣ p.1.addr := by
  induction ps generalizing c with
  | nil => simp
  | cons p ps ih =>
    intro q hq
    rcases List.mem_cons.mp hq with rfl | hq
    · by_cases hb : q.1.kind = .bool
      · simp [hb, Kind.alignment]
      · rw [h.1, (natural_of_ne hb _ _).1]
        exact Dvd.intro_left _ rfl
    · exact ih h.2.2 q hq

theorem flows_field {w : Walk} {v : Value} {a : ℕ} (hk : kind.isMojom) (h8 : 8 ∣ a)
    (hplace : w.place kind.inUnion v ⟨a, 0⟩ = natural.place kind.inUnion v ⟨a, 0⟩) :
    Flows w ⟨a, 0⟩ [(⟨kind.inUnion, a, 0⟩, v)] := by
  have halign : kind.inUnion.alignment ∣ a := (alignment_dvd (isSlot_inUnion hk)).1.trans h8
  simp only [Flows, hplace, and_true]
  by_cases hb : kind.inUnion = .bool
  · simp [hb, natural]
  · simp [hb, (natural_of_ne hb v ⟨a, 0⟩).1, Cursor.toByte,
      alignUp_of_dvd (alignment_pos (isSlot_inUnion hk)) halign]

theorem flows_natural {elem : Kind} (h : elem.isSlot) (elems : List Value) :
    Flows natural ⟨headerSize, 0⟩ ((elementSlots elem 0 elems.length).zip elems) := by
  by_cases hb : elem = .bool
  · subst hb
    refine flows_elements (fun i c => c = ⟨headerSize + i / 8, i % 8⟩) ?_ ?_ rfl elems
    · rintro i v c rfl
      simp [elementSlot, natural]
    · rintro i v c rfl
      simp only [natural, Cursor.mk.injEq]
      omega
  · refine flows_elements (fun i c => c = ⟨headerSize + elem.size * i, 0⟩) ?_ ?_ rfl elems
    all_goals
      rintro i v c rfl
      obtain ⟨hplace, hadvance⟩ := natural_of_ne hb v ⟨headerSize + elem.size * i, 0⟩
      obtain ⟨h8, hsize⟩ := alignment_dvd h
      have hdvd : elem.alignment ∣ headerSize + elem.size * i :=
        (Nat.dvd_add_right h8).mpr (hsize.mul_right i)
      have halign : alignUp (headerSize + elem.size * i) elem.alignment = headerSize +
          elem.size * i :=
        alignUp_of_dvd (alignment_pos h) hdvd
    · rw [elementSlot_of_ne hb, hplace]
      simp [Cursor.toByte, halign, hb]
    · rw [hadvance]
      simp only [Cursor.toByte_mk, halign, Nat.mul_succ, Nat.add_assoc]

theorem flows_zip {c : Cursor} {slots : List Slot}
    (h : Flows natural c (slots.map fun s => (s, .null)))
    (vs : List Value) : Flows natural c (slots.zip vs) := by
  induction slots generalizing c vs with
  | nil => trivial
  | cons s slots ih =>
    cases vs with
    | nil => trivial
    | cons v vs => exact ⟨h.1, h.2.1, ih h.2.2 vs⟩

end Mojo.Wire

namespace Mojo.CppBindings

open Mojo.Wire

/-- The fields of a struct are where a cursor finds them that aligns them naturally, and the struct
has all of them in its newest version. -/
structure StructType.Packed (d : StructType) : Prop where
  flows : Flows natural ⟨headerSize, 0⟩ ((d.fields.map fun f => f.slot 0).map fun s => (s, .null))
  versions : ∀ f ∈ d.fields, f.minVersion ≤ d.last.version

def Types.Packed (Γ : Types) : Prop := ∀ i, (Γ.struct i).Packed

end Mojo.CppBindings

namespace Mojo.Wire

open Mojo.CppBindings

theorem flows_members {Γ : Types} (hΓ : Γ.Packed) (hlaid : Γ.Laid) {kind : Kind} {v : Value}
    {o : Object} (hk : kind.isSlot) (ho : object Γ kind v = some o) :
    Flows natural ⟨headerSize, 0⟩ o.members := by
  cases objectOf ho with
  | string nullable bytes =>
    have := flows_natural (rfl : (Kind.number 1).isSlot = true)
      (bytes.map fun b => Value.number b.toNat)
    rwa [List.length_map] at this
  | array elem count nullable elems =>
    exact flows_natural (Kind.isSlot_of_isMojom (show elem.isMojom = true from hk)) elems
  | map key value nullable keys values =>
    simp [Flows, natural, Kind.alignment, Kind.size, alignUp, Cursor.toByte, headerSize]
  | struct name nullable fields => exact flows_zip (hΓ name).flows fields
  | union name nullable tag field kind hactive
  | unionPointer name nullable tag field kind hactive =>
    exact flows_field (isMojom_of_active hlaid hactive) (by decide) rfl

end Mojo.Wire
