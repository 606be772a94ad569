import Mojo.Wire.Typed
import Mathlib.Order.Interval.Finset.Nat

/-!
# The number of handles

The members of an object have no bit in common, so a value has fewer handles than its objects have
bytes. A bound of the size of a message is a bound of the number of its handles.
-/

namespace Mojo.Wire

open Mojo.Memory Mojo.CppBindings

section Handles

variable {Γ : Types} {D : Domain} {depth : ℕ} {v : Value}

def ownBytes (s : Slot) : Finset ℕ :=
  if s.kind = .bool then ∅ else Finset.Ico s.addr (s.addr + s.kind.size)

theorem card_ownBytes (s : Slot) :
    (ownBytes s).card = if s.kind = .bool then 0 else s.kind.size := by
  unfold ownBytes
  split
  · rfl
  · rw [Nat.card_Ico, Nat.add_sub_cancel_left]

theorem disjoint_ownBytes {s s' : Slot} (h : Slot.Apart s s') :
    Disjoint (ownBytes s) (ownBytes s') := by
  unfold ownBytes
  rcases h with h | ⟨hs, -, -⟩
  · split
    · exact Finset.disjoint_empty_left _
    · split
      · exact Finset.disjoint_empty_right _
      · rw [Finset.disjoint_left]
        intro x hx hx'
        exact Set.disjoint_left.mp h (by simpa [Slot.bytes] using hx)
          (by simpa [Slot.bytes] using hx')
  · rw [if_pos hs]
    exact Finset.disjoint_empty_left _

theorem sum_ownBytes_le {slots : List Slot} {lo hi : ℕ} (hapart : slots.Pairwise Slot.Apart)
    (hin : ∀ s ∈ slots, lo ≤ s.addr ∧ s.addr + s.kind.size ≤ hi) :
    (slots.map fun s => (ownBytes s).card).sum ≤ hi - lo := by
  have hcard : (slots.map fun s => (ownBytes s).card).sum =
      (slots.foldr (fun s all => ownBytes s ∪ all) ∅).card ∧
      ∀ x ∈ slots.foldr (fun s all => ownBytes s ∪ all) ∅, ∃ s ∈ slots, x ∈ ownBytes s := by
    induction slots with
    | nil => exact ⟨rfl, fun x hx => absurd hx (Finset.notMem_empty x)⟩
    | cons s slots ih =>
      rw [List.pairwise_cons] at hapart
      obtain ⟨hsum, hfrom⟩ := ih hapart.2 fun s' hs' => hin s' (.tail s hs')
      refine ⟨?_, fun x hx => ?_⟩
      · rw [List.map_cons, List.sum_cons, hsum, List.foldr_cons, Finset.card_union_of_disjoint]
        rw [Finset.disjoint_left]
        intro x hx hx'
        obtain ⟨s', hs', hxs'⟩ := hfrom x hx'
        exact Finset.disjoint_left.mp (disjoint_ownBytes (hapart.1 s' hs')) hx hxs'
      · rcases Finset.mem_union.mp hx with hx | hx
        · exact ⟨s, .head _, hx⟩
        · obtain ⟨s', hs', hxs'⟩ := hfrom x hx
          exact ⟨s', .tail s hs', hxs'⟩
  rw [hcard.1, ← Nat.card_Ico]
  refine Finset.card_le_card fun x hx => ?_
  obtain ⟨s, hs, hxs⟩ := hcard.2 x hx
  have hs := hin s hs
  unfold ownBytes at hxs
  split at hxs
  · exact absurd hxs (Finset.notMem_empty x)
  · rw [Finset.mem_Ico] at hxs ⊢
    omega

theorem length_handles_of_none {q : Slot} (ho : object Γ q.kind v = none)
    (hv : HasKind Γ D depth q.kind v) :
    (handles Γ depth q.kind v).length ≤ (ownBytes q).card + outSize Γ depth q.kind v := by
  have hscalar := hv.scalar ho
  refine le_trans ?_ (Nat.le_add_right _ _)
  rw [card_ownBytes]
  obtain ⟨kind, addr, bit⟩ := q
  cases hscalar <;> cases depth <;> simp_all [handles, Kind.size]

theorem length_flatMap_handles_le {ps : List (Slot × Value)} {lo hi : ℕ}
    (hapart : ps.Pairwise fun p q => Slot.Apart p.1 q.1)
    (hin : ∀ p ∈ ps, lo ≤ p.1.addr ∧ p.1.addr + p.1.kind.size ≤ hi)
    (h : ∀ p ∈ ps, (handles Γ depth p.1.kind p.2).length ≤ (ownBytes p.1).card +
      outSize Γ depth p.1.kind p.2) :
    (handlesOf Γ depth ps).length ≤ hi - lo + outSizes Γ depth ps := by
  have hown : ((ps.map Prod.fst).map fun s => (ownBytes s).card).sum ≤ hi - lo := by
    refine sum_ownBytes_le (List.pairwise_map.mpr hapart) fun s hs => ?_
    obtain ⟨p, hp, rfl⟩ := List.mem_map.mp hs
    exact hin p hp
  have hsum : (handlesOf Γ depth ps).length ≤
      ((ps.map Prod.fst).map fun s => (ownBytes s).card).sum + outSizes Γ depth ps := by
    clear hown hin hapart
    induction ps with
    | nil => exact Nat.zero_le _
    | cons p ps ih =>
      have hp := h p (.head _)
      have hps := ih fun q hq => h q (.tail p hq)
      rw [handlesOf_cons, List.length_append, outSizes_cons, List.map_cons, List.map_cons,
        List.sum_cons]
      omega
  omega

theorem length_handles_le (hΓ : Γ.Laid) {q : Slot} (hk : q.kind.isSlot)
    (hv : HasKind Γ D depth q.kind v) :
    (handles Γ depth q.kind v).length ≤ (ownBytes q).card + outSize Γ depth q.kind v := by
  induction depth generalizing q v with
  | zero => exact length_handles_of_none (hasKind_zero hv) hv
  | succ depth ih =>
    cases ho : object Γ q.kind v with
    | none => exact length_handles_of_none ho hv
    | some o =>
      have hlaid := object_laid hΓ hk ho
      have hmembers := length_flatMap_handles_le hlaid.apart hlaid.inside
        fun p hp => ih (hlaid.kinds p hp) (hv.members ho p hp)
      have hle := le_align8 o.size
      rw [handles_succ ho, outSize_succ ho]
      by_cases hp : q.kind.isPointer = true
      · rw [if_pos hp]
        omega
      · obtain ⟨hb, hsize⟩ := size_of_inline ho hp
        rw [if_neg hp, card_ownBytes, if_neg hb, hsize]
        omega

end Handles

end Mojo.Wire
