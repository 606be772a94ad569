import Mojo.Wire.Reader
import Mojo.Wire.PackedBools
import Mojo.Memory.ByteList

/-!
# Objects that are put together from byte strings

Some encoders append the bytes of one object after another and never write to a byte twice. What
their result holds is shown from the bytes themselves, wherever they end up: for a list of members
in parts, and for the elements of an array that are written as a whole.
-/

namespace Mojo.Wire

open Mojo.Memory Mojo.CppBindings
open List hiding Mem

variable {Γ : Types} {form : Form} {depth t lo i : ℕ} {m : Mem} {ps qs : List (Slot × Value)}

theorem outSizes_append : outSizes Γ depth (ps ++ qs) = outSizes Γ depth ps +
    outSizes Γ depth qs := by
  rw [outSizes, map_append, sum_append]
  rfl

theorem repAll_append {R : Slot → Value → ℕ → ℕ → Prop} :
    RepAll Γ R depth (ps ++ qs) t lo i ↔ RepAll Γ R depth ps t lo i ∧
      RepAll Γ R depth qs t (lo + outSizes Γ depth ps)
        (i + (handlesOf Γ depth ps).length) := by
  induction ps generalizing lo i with
  | nil => simp [RepAll, outSizes]
  | cons p ps ih =>
    rw [cons_append, RepAll, RepAll, ih, and_assoc, outSizes_cons, handlesOf_cons, length_append,
      Nat.add_assoc, Nat.add_assoc]

/-- The member is all in its slot, and is no handle. -/
structure Inline (Γ : Types) (depth : ℕ) (p : Slot × Value) : Prop where
  object : object Γ p.1.kind p.2 = none
  handles : handles Γ depth p.1.kind p.2 = []

theorem inline_number (q : Slot) (n : ℕ) : Inline Γ depth (q, .number n) := by
  have hnone : object Γ q.kind (.number n) = none := by cases q.kind <;> rfl
  exact ⟨hnone, handles_of_none hnone⟩

theorem inline_bool (q : Slot) (b : Bool) : Inline Γ depth (q, .bool b) := by
  have hnone : object Γ q.kind (.bool b) = none := by cases q.kind <;> rfl
  exact ⟨hnone, handles_of_none hnone⟩

theorem inline_zip {α : Type} {f : α → Value} (hf : ∀ q a, Inline Γ depth (q, f a))
    {values : List Value} {l : List α}
    (h : values = l.map f) (slots : List Slot) : ∀ p ∈ slots.zip values, Inline Γ depth p := by
  rintro ⟨q, v⟩ hp
  rw [h] at hp
  obtain ⟨a, -, rfl⟩ := mem_map.mp (of_mem_zip hp).2
  exact hf q a

theorem outSizes_of_inline (h : ∀ p ∈ ps, Inline Γ depth p) : outSizes Γ depth ps = 0 := by
  induction ps with
  | nil => rfl
  | cons p ps ih =>
    rw [outSizes_cons, outSize_of_none (h p (.head _)).object, ih fun q hq => h q (.tail p hq)]

theorem flatMap_handles_of_inline (h : ∀ p ∈ ps, Inline Γ depth p) : handlesOf Γ depth ps = [] :=
  flatMap_eq_nil_iff.mpr fun p hp => (h p hp).handles

theorem repAll_of_inline (h : ∀ p ∈ ps, Inline Γ depth p ∧ ∀ lo i, Content form m (Slot.shift p.1 t)
    p.2 lo i) :
    RepAll Γ (Rep Γ form m depth) depth ps t lo i := by
  induction ps generalizing lo i with
  | nil => trivial
  | cons p ps ih =>
    obtain ⟨hinline, hcontent⟩ := h p (.head _)
    exact ⟨rep_of_none hinline.object (hcontent lo i), ih fun q hq => h q (.tail p hq)⟩

/-! ### Arrays -/

variable {vs : List Value}

theorem mem_zip_elementSlots {elem : Kind} {p : Slot × Value}
    (hp : p ∈ (elementSlots elem 0 vs.length).zip vs) :
    ∃ k, ∃ h : k < vs.length, p = (elementSlot elem 0 k, vs[k]) := by
  rw [zip_elementSlots, mem_map] at hp
  obtain ⟨x, hx, rfl⟩ := hp
  obtain ⟨hlt, hget⟩ := mem_zipIdx' hx
  exact ⟨x.2, hlt, by rw [hget]⟩

theorem mem_elements (elem : Kind) {v : Value} (hv : v ∈ vs) :
    ∃ q : Slot, q.kind = elem ∧ (q, v) ∈ (elementSlots elem 0 vs.length).zip vs := by
  obtain ⟨k, hk, rfl⟩ := getElem_of_mem hv
  refine ⟨elementSlot elem 0 k, elementSlot_kind elem 0 k, ?_⟩
  rw [zip_elementSlots, mem_map]
  exact ⟨(vs[k], k), mk_mem_zipIdx_iff_getElem?.mpr (getElem?_eq_getElem hk), rfl⟩

variable {values : List ℕ}

theorem holds_flatMap_bytesOf {a size : ℕ} (h : Holds m a (values.flatMap (bytesOf size))) {k : ℕ}
    (hk : k < values.length) : Holds m (a + size * k) (bytesOf size values[k]) := by
  induction values generalizing a k with
  | nil => cases hk
  | cons n values ih =>
    rw [flatMap_cons, holds_append, length_bytesOf] at h
    cases k with
    | zero => exact h.1
    | succ k =>
      have htail := ih h.2 (Nat.lt_of_succ_lt_succ hk)
      rw [Nat.add_assoc, Nat.add_comm size, ← Nat.mul_succ] at htail
      exact htail

theorem length_flatMap_bytesOf (size : ℕ) (values : List ℕ) :
    (values.flatMap (bytesOf size)).length = size * values.length := by
  induction values with
  | nil => rfl
  | cons n values ih =>
    rw [flatMap_cons, length_append, length_bytesOf, ih, length_cons, Nat.mul_succ, Nat.add_comm]

variable {elems : List Value}

theorem repAll_numbers {size : ℕ} (helems : elems = values.map .number)
    (hlt : ∀ n ∈ values, n < 256 ^ size)
    (h : Holds m (t + headerSize) (values.flatMap (bytesOf size))) :
    RepAll Γ (Rep Γ form m depth) depth ((elementSlots (.number size) 0 elems.length).zip elems) t
      lo i := by
  refine repAll_of_inline fun p hp => ?_
  subst helems
  obtain ⟨k, hk, rfl⟩ := mem_zip_elementSlots hp
  rw [getElem_map]
  refine ⟨inline_number _ _, fun lo i => ?_⟩
  rw [length_map] at hk
  have hload := (holds_flatMap_bytesOf h hk).load_eq (hlt _ (getElem_mem hk))
  simpa [Content, elementSlot, Slot.shift, Kind.size, Nat.add_assoc] using hload

theorem repAll_bools {values : List Bool} (helems : elems = values.map .bool)
    (h : ∀ k (hk : k < values.length), (m (t + headerSize + k / 8)).toNat.testBit (k % 8) =
      values[k]) :
    RepAll Γ (Rep Γ form m depth) depth ((elementSlots .bool 0 elems.length).zip elems) t lo i := by
  refine repAll_of_inline fun p hp => ?_
  subst helems
  obtain ⟨k, hk, rfl⟩ := mem_zip_elementSlots hp
  rw [getElem_map]
  refine ⟨inline_bool _ _, fun lo i => ?_⟩
  rw [length_map] at hk
  simpa [Content, elementSlot, Slot.shift, testBit, Nat.add_assoc] using h k hk

/-! ### Readers -/

variable {w : Walk}

theorem Flows.append_left {c : Cursor} (h : Flows w c (ps ++ qs)) : Flows w c ps := by
  induction ps generalizing c with
  | nil => trivial
  | cons p ps ih => exact ⟨h.1, h.2.1, ih h.2.2⟩

variable {limit : ℕ} {H : List ℕ}

theorem Sees.append_left {pen : Pen}
    (h : Sees Γ w depth m limit H pen (ps ++ qs) lo i) : Sees Γ w depth m limit H pen ps lo i where
  flows := h.flows.append_left
  inside p hp := h.inside p (mem_append_left qs hp)
  base := h.base
  rep := (repAll_append.mp h.rep).1
  room := by
    have hroom := h.room
    rw [outSizes_append] at hroom
    omega
  handles := by
    obtain ⟨rest, hrest⟩ := h.handles
    rw [handlesOf_append, append_assoc] at hrest
    exact ⟨_, hrest⟩
  left n hn := by
    have hleft := h.left n hn
    rw [length_append] at hleft
    omega

theorem Sees.append_right {pen : Pen}
    (h : Sees Γ w depth m limit H pen (ps ++ qs) lo i) :
    Sees Γ w depth m limit H (pen.pastAll w ps) qs (lo + outSizes Γ depth ps)
      (i + (handlesOf Γ depth ps).length) := by
  induction ps generalizing pen lo i with
  | nil => simpa [outSizes, Pen.pastAll] using h
  | cons p ps ih =>
    have htail := ih (Sees.tail h)
    rw [outSizes_cons, handlesOf_cons, length_append, ← Nat.add_assoc, ← Nat.add_assoc]
    exact htail

end Mojo.Wire
