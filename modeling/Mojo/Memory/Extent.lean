import Mojo.Memory.Bytes
import Mathlib.Algebra.BigOperators.Group.List.Basic
import Mathlib.Data.List.Pairwise
import Mathlib.Order.Interval.Finset.Nat

/-!
# Extents handed out by a cursor

A cursor that only moves forward hands out extents one after another. What is
used of it is collected in `Packed`: the extents lie in order between two
cursor positions, so they are inside that range and pairwise disjoint. `stack`
is what a cursor hands out that moves by a fixed rule.
-/

namespace Mojo.Memory

variable {e : Extent} {lo hi : ℕ} {es fs : List Extent}

structure Extent where
  addr : ℕ
  len : ℕ
deriving DecidableEq, Repr

namespace Extent

def stop (e : Extent) : ℕ := e.addr + e.len

def bytes (e : Extent) : Set ℕ := span e.addr e.len

theorem bytes_disjoint_of_le {f : Extent} (h : e.stop ≤ f.addr) : Disjoint e.bytes f.bytes :=
  span_disjoint_of_le h

end Extent

def Packed : ℕ → List Extent → ℕ → Prop
  | lo, [], hi => lo ≤ hi
  | lo, e :: es, hi => lo ≤ e.addr ∧ Packed e.stop es hi

instance Packed.decidable : ∀ (lo : ℕ) (es : List Extent) (hi : ℕ), Decidable (Packed lo es hi)
  | lo, [], hi => inferInstanceAs (Decidable (lo ≤ hi))
  | lo, e :: es, hi =>
    have := Packed.decidable e.stop es hi
    inferInstanceAs (Decidable (lo ≤ e.addr ∧ Packed e.stop es hi))

theorem packed_cons : Packed lo (e :: es) hi ↔ lo ≤ e.addr ∧ Packed e.stop es hi := Iff.rfl

theorem Packed.le (h : Packed lo es hi) : lo ≤ hi := by
  induction es generalizing lo with
  | nil => exact h
  | cons e es ih =>
    have hs : e.addr ≤ e.stop := Nat.le_add_right _ _
    exact h.1.trans (hs.trans (ih h.2))

theorem Packed.mono_left {lo' : ℕ} (h : Packed lo es hi) (hl : lo' ≤ lo) : Packed lo' es hi := by
  cases es with
  | nil => exact hl.trans h
  | cons e es => exact ⟨hl.trans h.1, h.2⟩

theorem Packed.mono_right {hi' : ℕ} (h : Packed lo es hi) (hh : hi ≤ hi') : Packed lo es hi' := by
  induction es generalizing lo with
  | nil => exact Nat.le_trans h hh
  | cons e es ih => exact ⟨h.1, ih h.2⟩

theorem Packed.append {mid : ℕ} (h₁ : Packed lo es mid) (h₂ : Packed mid fs hi) :
    Packed lo (es ++ fs) hi := by
  induction es generalizing lo with
  | nil => exact h₂.mono_left h₁
  | cons e es ih => exact ⟨h₁.1, ih h₁.2⟩

theorem Packed.split (h : Packed lo (es ++ fs) hi) :
    ∃ mid, Packed lo es mid ∧ Packed mid fs hi := by
  induction es generalizing lo with
  | nil => exact ⟨lo, le_refl lo, h⟩
  | cons e es ih =>
    obtain ⟨mid, h₁, h₂⟩ := ih h.2
    exact ⟨mid, ⟨h.1, h₁⟩, h₂⟩

theorem Packed.of_flatMap {α : Type*} {f : α → List Extent} {as : List α}
    (h : Packed lo (as.flatMap f) hi) {a : α} (ha : a ∈ as) : Packed lo (f a) hi := by
  induction as generalizing lo with
  | nil => cases ha
  | cons b bs ih =>
    rw [List.flatMap_cons] at h
    obtain ⟨mid, h₁, h₂⟩ := h.split
    rcases ha with _ | ⟨_, ha⟩
    · exact h₁.mono_right h₂.le
    · exact (ih h₂ ha).mono_left h₁.le

theorem Packed.mem (h : Packed lo es hi) (he : e ∈ es) : lo ≤ e.addr ∧ e.stop ≤ hi := by
  induction es generalizing lo with
  | nil => cases he
  | cons f fs ih =>
    have hs : f.addr ≤ f.stop := Nat.le_add_right _ _
    rcases he with _ | ⟨_, he⟩
    · exact ⟨h.1, h.2.le⟩
    · have hf := ih h.2 he
      exact ⟨h.1.trans (hs.trans hf.1), hf.2⟩

theorem Packed.stop_le (h : Packed lo es hi) : es.Pairwise fun e f => e.stop ≤ f.addr := by
  induction es generalizing lo with
  | nil => exact List.Pairwise.nil
  | cons e es ih => exact List.pairwise_cons.mpr ⟨fun f hf => (h.2.mem hf).1, ih h.2⟩

theorem Packed.pairwise (h : Packed lo es hi) : es.Pairwise fun e f => Disjoint e.bytes f.bytes :=
  h.stop_le.imp Extent.bytes_disjoint_of_le

theorem Packed.addr_lt (h : Packed lo es hi) (hpos : ∀ e ∈ es, 0 < e.len) :
    (es.map Extent.addr).Pairwise (· < ·) := by
  induction es generalizing lo with
  | nil => exact List.Pairwise.nil
  | cons e es ih =>
    rw [List.map_cons, List.pairwise_cons]
    refine ⟨?_, ih h.2 fun f hf => hpos f (.tail _ hf)⟩
    intro a ha
    obtain ⟨f, hf, rfl⟩ := List.mem_map.mp ha
    have hstop : e.addr < e.stop := Nat.lt_add_of_pos_right (hpos e (.head _))
    exact hstop.trans_le (h.2.mem hf).1

/-- Extents of the given lengths, one after another, when `step` says how far an
extent moves the cursor. -/
def stack (step : ℕ → ℕ) : ℕ → List ℕ → List Extent
  | _, [] => []
  | lo, n :: ns => ⟨lo, n⟩ :: stack step (lo + step n) ns

section

variable {step : ℕ → ℕ}

theorem stack_append (lo : ℕ) (ns ks : List ℕ) :
    stack step lo (ns ++ ks) = stack step lo ns ++ stack step (lo + (ns.map step).sum) ks := by
  induction ns generalizing lo with
  | nil => rfl
  | cons n ns ih =>
    simp only [List.cons_append, stack, ih, List.map_cons, List.sum_cons, Nat.add_assoc]

theorem packed_stack (hstep : ∀ n, n ≤ step n) (lo : ℕ) (ns : List ℕ) :
    Packed lo (stack step lo ns) (lo + (ns.map step).sum) := by
  induction ns generalizing lo with
  | nil => exact le_rfl
  | cons n ns ih =>
    rw [stack, packed_cons, List.map_cons, List.sum_cons, ← Nat.add_assoc]
    exact ⟨le_rfl, (ih (lo + step n)).mono_left (Nat.add_le_add_left (hstep n) lo)⟩

theorem stack_aligned {k : ℕ} (hlo : k ∣ lo) (hstep : ∀ n, k ∣ step n) (ns : List ℕ) :
    ∀ e ∈ stack step lo ns, k ∣ e.addr := by
  induction ns generalizing lo with
  | nil => exact fun e he => absurd he List.not_mem_nil
  | cons n ns ih =>
    intro e he
    rcases he with _ | ⟨_, he⟩
    · exact hlo
    · exact ih (Nat.dvd_add hlo (hstep n)) e he

end

theorem sum_len_le (hpw : es.Pairwise fun e f => Disjoint e.bytes f.bytes)
    (hin : ∀ e ∈ es, lo ≤ e.addr ∧ e.stop ≤ hi) : (es.map Extent.len).sum ≤ hi - lo := by
  -- The bytes of all the extents, counted as a finite set.
  have hcard : ∃ s : Finset ℕ, s.card = (es.map Extent.len).sum ∧ ∀ b, b ∈ s ↔
      ∃ e ∈ es, b ∈ e.bytes := by
    induction es with
    | nil => exact ⟨∅, rfl, by simp⟩
    | cons e es ih =>
      obtain ⟨he, hpw⟩ := List.pairwise_cons.mp hpw
      obtain ⟨s, hs, hmem⟩ := ih hpw fun f hf => hin f (.tail _ hf)
      have hd : Disjoint (Finset.Ico e.addr e.stop) s := by
        rw [Finset.disjoint_left]
        intro b hb hb'
        obtain ⟨f, hf, hb'⟩ := (hmem b).mp hb'
        exact Set.disjoint_left.mp (he f hf) (Finset.mem_Ico.mp hb) hb'
      refine ⟨Finset.Ico e.addr e.stop ∪ s, ?_, ?_⟩
      · rw [Finset.card_union_of_disjoint hd, Nat.card_Ico, hs, List.map_cons, List.sum_cons,
          Extent.stop, Nat.add_sub_cancel_left]
      · intro b
        rw [Finset.mem_union, Finset.mem_Ico, hmem b, List.exists_mem_cons_iff]
        rfl
  obtain ⟨s, hs, hmem⟩ := hcard
  have hsub : s ⊆ Finset.Ico lo hi := by
    intro b hb
    obtain ⟨e, he, hb⟩ := (hmem b).mp hb
    obtain ⟨h₁, h₂⟩ := hin e he
    have hb' : e.addr ≤ b ∧ b < e.stop := hb
    exact Finset.mem_Ico.mpr ⟨h₁.trans hb'.1, hb'.2.trans_le h₂⟩
  have := Finset.card_le_card hsub
  rwa [hs, Nat.card_Ico] at this

end Mojo.Memory
