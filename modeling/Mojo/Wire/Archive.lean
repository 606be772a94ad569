import Mojo.Wire.Value
import Mathlib.Data.Nat.Bitwise

/-!
# Values in memory

`Rep` says that a member holds a value: what its own bytes are, and that the objects
behind it lie one after another from an address on, the object of a member
before the objects of the next one. In memory a pointer is an address and a handle is itself;
on the wire a pointer is a distance and a handle is a position in the vector of handles.

A member is changed by nothing but a write to it or behind it. `Keeps` is this
frame condition for the members that a loop has written.
-/

namespace Mojo.Wire

open Mojo.Memory Mojo.CppBindings

def Slot.shift (s : Slot) (t : ℕ) : Slot := { s with addr := t + s.addr }

def Slot.Apart (s s' : Slot) : Prop :=
  Disjoint s.bytes s'.bytes ∨ s.kind = .bool ∧ s'.kind = .bool ∧ (s.addr ≠ s'.addr ∨ s.bit ≠ s'.bit)

def testBit (m : Mem) (s : Slot) : Bool := (m s.addr).toNat.testBit s.bit

def SameAt (m m' : Mem) (s : Slot) : Prop :=
  if s.kind = .bool then testBit m' s = testBit m s else Set.EqOn m m' s.bytes

def Keeps (m m' : Mem) (slots : List Slot) (lo hi : ℕ) : Prop :=
  ∀ s : Slot, (∀ w ∈ slots, Slot.Apart w s) → Disjoint s.bytes (Set.Ico lo hi) → SameAt m m' s

section Frames

variable {m m' m'' : Mem} {s s' : Slot} {slots slots' : List Slot} {lo mid hi : ℕ}

theorem Slot.Apart.symm (h : Slot.Apart s s') : Slot.Apart s' s := by
  rcases h with h | ⟨hs, hs', h⟩
  · exact .inl h.symm
  · exact .inr ⟨hs', hs, h.imp Ne.symm Ne.symm⟩

theorem SameAt.refl (m : Mem) (s : Slot) : SameAt m m s := by
  unfold SameAt
  split
  · rfl
  · exact Set.eqOn_refl m _

theorem SameAt.trans (h : SameAt m m' s) (h' : SameAt m' m'' s) : SameAt m m'' s := by
  unfold SameAt at *
  split at h
  · rename_i hb
    rw [if_pos hb] at h' ⊢
    exact h'.trans h
  · rename_i hb
    rw [if_neg hb] at h' ⊢
    exact h.trans h'

theorem sameAt_of_eqOn (h : Set.EqOn m m' s.bytes) : SameAt m m' s := by
  unfold SameAt
  split
  · rename_i hb
    have hmem : s.addr ∈ s.bytes := by simp [Slot.bytes, hb, Kind.size]
    rw [testBit, testBit, h hmem]
  · exact h

theorem SameAt.eqOn (h : SameAt m m' s) (hs : s.kind ≠ .bool) : Set.EqOn m m' s.bytes := by
  rwa [SameAt, if_neg hs] at h

theorem Keeps.refl (m : Mem) (slots : List Slot) (lo hi : ℕ) : Keeps m m slots lo hi :=
  fun s _ _ => .refl m s

theorem Keeps.trans (h : Keeps m m' slots lo mid) (h' : Keeps m' m'' slots' mid hi)
    (hlo : lo ≤ mid) (hhi : mid ≤ hi) : Keeps m m'' (slots ++ slots') lo hi := by
  intro s hs hout
  have h₁ : SameAt m m' s := h s (fun w hw => hs w (List.mem_append_left _ hw))
    (hout.mono_right (Set.Ico_subset_Ico_right hhi))
  have h₂ : SameAt m' m'' s := h' s (fun w hw => hs w (List.mem_append_right _ hw))
    (hout.mono_right (Set.Ico_subset_Ico_left hlo))
  exact h₁.trans h₂

theorem Keeps.mono (h : Keeps m m' slots lo hi) {lo' hi' : ℕ}
    (hslots : ∀ w ∈ slots, w ∈ slots' ∨ w.bytes ⊆ Set.Ico lo' hi')
    (hlo : lo' ≤ lo) (hhi : hi ≤ hi') : Keeps m m' slots' lo' hi' := by
  intro s hs hout
  refine h s (fun w hw => ?_) (hout.mono_right (Set.Ico_subset_Ico hlo hhi))
  rcases hslots w hw with hw | hw
  · exact hs w hw
  · exact .inl (hout.mono_right hw).symm

theorem Keeps.eqOn (h : Keeps m m' slots lo hi) {R : Set ℕ} (hs : ∀ w ∈ slots, Disjoint w.bytes R)
    (hout : Disjoint R (Set.Ico lo hi)) : Set.EqOn m m' R := by
  intro a ha
  have hbyte : (⟨.number 1, a, 0⟩ : Slot).bytes ⊆ R := by
    intro b hb
    simp only [Slot.bytes, Kind.size, mem_span] at hb
    obtain rfl : b = a := by omega
    exact ha
  have hsame := h ⟨.number 1, a, 0⟩ (fun w hw => .inl ((hs w hw).mono_right hbyte))
    (hout.mono_left hbyte)
  exact hsame.eqOn (by simp) (by simp [Slot.bytes, Kind.size])

theorem keeps_store {a n x : ℕ} (h : ∀ b ∈ span a n, (∃ w ∈ slots, w.kind ≠ .bool ∧ b ∈ w.bytes) ∨
    b ∈ Set.Ico lo hi) : Keeps m (store m a n x) slots lo hi := by
  intro s hs hout
  apply sameAt_of_eqOn
  refine (store_eqOn (Set.disjoint_right.mpr fun b hb hbs => ?_)).symm
  rcases h b hb with ⟨w, hw, hkind, hbw⟩ | hb
  · rcases hs w hw with hdisj | ⟨hbool, -⟩
    · exact Set.disjoint_left.mp hdisj hbw hbs
    · exact hkind hbool
  · exact Set.disjoint_left.mp hout hbs hb

end Frames

/-! ### Representation -/

def pointerWord : Form → ℕ → ℕ → ℕ
  | .inMemory, _, lo => lo
  | .onWire, slot, lo => lo - slot

def handleWord : Form → ℕ → ℕ → ℕ
  | .inMemory, h, _ => h
  | .onWire, _, i => i

def nullHandle : Form → ℕ
  | .inMemory => invalidHandle
  | .onWire => encodedInvalidHandle

def Content (form : Form) (m : Mem) (s : Slot) (v : Value) (lo i : ℕ) : Prop :=
  match s.kind, v with
  | .number size, .number n => load m s.addr size = n
  | .bool, .bool b => testBit m s = b
  | .handle _, .handle h => load m s.addr 4 = handleWord form h i
  | .interface _, .interface h version =>
    load m s.addr 4 = handleWord form h i ∧ load m (s.addr + 4) 4 = version
  | .union _ _, .union tag _ => load m s.addr 4 = unionSize ∧ load m (s.addr + 4) 4 = tag
  | .handle _, .null => load m s.addr 4 = nullHandle form
  | .interface _, .null => load m s.addr 4 = nullHandle form ∧ load m (s.addr + 4) 4 = 0
  | .union _ _, .null => load m s.addr 8 = 0 ∧ load m (s.addr + 8) 8 = 0
  | kind, .null => kind.isPointer = true ∧ load m s.addr 8 = 0
  | kind, _ =>
    kind.isPointer = true ∧ s.addr < lo ∧ lo % 8 = 0 ∧ load m s.addr 8 = pointerWord form s.addr lo

variable (Γ : Types) (form : Form) (m : Mem)

def RepAll (R : Slot → Value → ℕ → ℕ → Prop) (depth : ℕ) : List (Slot × Value) → ℕ → ℕ → ℕ → Prop
  | [], _, _, _ => True
  | p :: ps, t, lo, i =>
    R (Slot.shift p.1 t) p.2 lo i ∧ RepAll R depth ps t (lo + outSize Γ depth p.1.kind p.2)
        (i + (handles Γ depth p.1.kind p.2).length)

def ObjectAt (R : Slot → Value → ℕ → ℕ → Prop) (depth : ℕ) (o : Object) (t i : ℕ) : Prop :=
  load m t 4 = o.size ∧ load m (t + 4) 4 = o.word ∧
    RepAll Γ R depth o.members t (t + align8 o.size) i

/-- The member holds the value; the objects behind it start at `lo`, its handles are counted
from `i`. -/
def Rep : ℕ → Slot → Value → ℕ → ℕ → Prop
  | 0, s, v, lo, i => Content form m s v lo i ∧ object Γ s.kind v = none
  | depth + 1, s, v, lo, i => Content form m s v lo i ∧ match object Γ s.kind v with
    | none => True
    | some o =>
      if s.kind.isPointer then ObjectAt Γ m (Rep depth) depth o lo i
      else RepAll Γ (Rep depth) depth o.members s.addr lo i

end Mojo.Wire
