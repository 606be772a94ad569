import Mojo.CBindings.ObjectGraph
import Mathlib.Tactic.MkIffOfInductiveProp

/-!
# Rewriting a buffer in place

Encoding and decoding visit the same places in the same way, and differ in what they make of a slot.
A `Pass` is one of them. On a value whose objects do not overlap, its recursion processes the slots
of the walk one after another: what it writes into one slot does not change what it later finds in
another.
-/

namespace Mojo.CBindings

open Mojo.Memory

def visitActive {σ : Type} (mem : σ → Mem) (dispatch : Dispatch σ) (u size : ℕ)
    (entries : List TypeDescriptorUnionEntry) (st : σ) : Except Fault σ :=
  match entries.find? fun e => e.tag = load (mem st) (u + 4) 4 with
  | none => .ok st
  | some e => if e.elemType = .pod then .ok st else
      dispatch e.elemType e.elemDescriptor e.nullable (u + 8) (sub32 size 8) st

theorem forActiveEntry_eq {σ : Type} (mem : σ → Mem) (dispatch : Dispatch σ) (u size : ℕ)
    (entries : List TypeDescriptorUnionEntry) (st : σ) :
    forActiveEntry mem dispatch u size entries st = visitActive mem dispatch u size entries st :=
  scan_eq_find? (forActiveEntry mem dispatch u size · st) entries rfl fun _ _ => rfl

/-- What becomes of the state at one slot is `act`. Several are processed by `process`, which can
fail, and `Room` is what has to be there for the slots that a memory shows. -/
structure Pass (σ : Type) where
  mem : σ → Mem
  act : σ → Item → σ
  process : σ → List Item → Except Fault σ
  Room : Mem → List Item → σ → Prop
  act_eqOn : ∀ st i, Set.EqOn (mem (act st i)) (mem st) i.bytesᶜ
  process_nil : ∀ st, process st [] = .ok st
  process_pointer : ∀ st slot t, process st [.pointer slot t] = .ok (act st (.pointer slot t))
  process_append : ∀ st items rest, process st (items ++ rest) = process st items >>= fun st =>
    process st rest
  process_bind : ∀ {st items} {f g : σ → Except Fault σ}, f (items.foldl act st) =
    g (items.foldl act st) → (process st items >>= f) = (process st items >>= g)
  room_append : ∀ {m items rest st}, Room m (items ++ rest) st →
    items.Pairwise (fun i j => Disjoint i.bytes j.bytes) →
      (∀ i ∈ items, Set.EqOn m (mem st) i.bytes) →
    Room m items st ∧ Room m rest (items.foldl act st)

namespace Pass

variable {σ : Type} {P : Pass σ} {Γ : Descriptors} {f : Form} {m : Mem} {lim n t : ℕ}
  {dispatch dispatch' : Dispatch σ} {p q : Place} {qs : List Place} {st : σ}

def At (P : Pass σ) (Γ : Descriptors) (f : Form) (m : Mem) (lim n : ℕ) (dispatch : Dispatch σ)
    (p : Place) : Prop :=
  ∀ st, P.Room m ((scheme Γ f).walk m n p) st → Set.EqOn m (P.mem st) ((scheme Γ f).foot m n p) →
    dispatch p.1.type p.1.desc p.1.nullable p.2 (lim - p.2) st =
      P.process st ((scheme Γ f).walk m n p)

structure Kids (P : Pass σ) (Γ : Descriptors) (f : Form) (m : Mem) (lim n : ℕ)
    (dispatch : Dispatch σ) (t : ℕ) (qs : List Place) (st : σ) : Prop where
  kids : ∀ q ∈ qs, q.2 < lim ∧ (scheme Γ f).Apart m n q ∧ P.At Γ f m lim n dispatch q
  room : P.Room m (qs.flatMap ((scheme Γ f).walk m n)) st
  ready : (scheme Γ f).Ready m n (span t 8) qs (P.mem st)

theorem Kids.step {next : σ → Except Fault σ} (h : P.Kids Γ f m lim n dispatch t (q :: qs) st)
    (hnext : ∀ st, P.Kids Γ f m lim n dispatch t qs st →
      next st = P.process st (qs.flatMap ((scheme Γ f).walk m n))) :
    (dispatch q.1.type q.1.desc q.1.nullable q.2 (lim - q.2) st >>= next) =
      P.process st ((q :: qs).flatMap ((scheme Γ f).walk m n)) := by
  obtain ⟨-, hapart, hat⟩ := h.kids q (.head _)
  have hfeet := h.ready.feet q (.head _)
  obtain ⟨hroom, hrest⟩ := P.room_append h.room (Scheme.walk_pairwise n q hapart)
    fun i hi => hfeet.mono (Scheme.bytes_subset_foot hi)
  have hframe : Set.EqOn (P.mem (((scheme Γ f).walk m n q).foldl P.act st)) (P.mem st)
      ((scheme Γ f).foot m n q)ᶜ := (foldl_eqOn P.mem P.act P.act_eqOn _ st).mono
    (Set.compl_subset_compl.mpr (Scheme.slots_walk_subset_foot n q))
  rw [hat st hroom hfeet, List.flatMap_cons, P.process_append]
  exact P.process_bind (hnext _ ⟨fun r hr => h.kids r (.tail _ hr), hrest, h.ready.step hframe⟩)

theorem Kids.entries_eq (hlim : lim - t < 2 ^ 32) (entries : List TypeDescriptorStructEntry)
    (st : σ) (h : P.Kids Γ f m lim n dispatch t (entryKids m t entries) st) :
    forEntries P.mem dispatch t (lim - t) entries st =
      P.process st ((entryKids m t entries).flatMap ((scheme Γ f).walk m n)) := by
  induction entries generalizing st with
  | nil => exact (P.process_nil st).symm
  | cons e es ih =>
    rw [forEntries, (loads_congr h.ready.header).2]
    by_cases hact : e.minVersion ≤ load m (t + 4) 4
    · rw [entryKids_of_le hact] at h ⊢
      have hr : t + headerSize + e.offset < lim := (h.kids _ (.head _)).1
      rw [if_neg (by omega), if_neg (by omega)]
      dsimp only
      rw [sub32_sub hlim (by omega) hr.le]
      exact h.step ih
    · rw [entryKids_of_not_le hact] at h ⊢
      rw [if_pos (by omega)]
      exact ih st h

theorem Kids.elements_eq {d : TypeDescriptorArray} (hlim : lim - t < 2 ^ 32)
    (helem : d.elemType ≠ .unionPtr ∧ d.elemType ≠ .pod) (is : List ℕ) (st : σ)
    (h : P.Kids Γ f m lim n dispatch t (elementKids d t is) st) :
    forElements dispatch d t (lim - t) is st =
      P.process st ((elementKids d t is).flatMap ((scheme Γ f).walk m n)) := by
  induction is generalizing st with
  | nil => exact (P.process_nil st).symm
  | cons i is ih =>
    rw [elementKids_cons] at h ⊢
    have hr : t + headerSize + slotSize d.elemType * i < lim := (h.kids _ (.head _)).1
    rw [forElements, arrayIndexByType_eq helem]
    dsimp only
    rw [if_neg (by omega), sub32_sub hlim (by omega) hr.le]
    exact h.step ih

theorem at_object (hobj : p.1.IsObject)
    (hforward : target f m p.2 ≠ 0 → p.2 + 8 ≤ target f m p.2) (ha : (scheme Γ f).Apart m (n + 1) p)
    (hkids : ∀ q ∈ (scheme Γ f).kids m p, q.2 < lim ∧ P.At Γ f m lim n dispatch q)
    (hnull : target f m p.2 = 0 → ∀ st, Set.EqOn m (P.mem st) (span p.2 8) →
      dispatch' p.1.type p.1.desc p.1.nullable p.2 (lim - p.2) st =
        .ok (P.act st (.pointer p.2 none)))
    (henter : target f m p.2 ≠ 0 → ∀ st, Set.EqOn m (P.mem st) (span p.2 8) →
      let st' := P.act st (.pointer p.2 (some ⟨target f m p.2, load m (target f m p.2) 4⟩))
      P.Kids Γ f m lim n dispatch (target f m p.2) ((scheme Γ f).kids m p) st' →
      dispatch' p.1.type p.1.desc p.1.nullable p.2 (lim - p.2) st =
        P.process st' (((scheme Γ f).kids m p).flatMap ((scheme Γ f).walk m n))) :
    P.At Γ f m lim (n + 1) dispatch' p := by
  intro st hroom hm
  have hs : Set.EqOn m (P.mem st) (span p.2 8) :=
    hm.mono (hobj.slot_subset.trans (Scheme.touch_subset_foot n p))
  by_cases ht : target f m p.2 = 0
  · rw [hnull ht st hs, hobj.walk_null ht, P.process_pointer]
  · rw [hobj.walk_eq ht, ← List.singleton_append] at hroom ⊢
    obtain ⟨-, hrest⟩ := P.room_append hroom (List.pairwise_singleton _ _) fun i hi => by
      rw [List.mem_singleton.mp hi]
      exact hs
    rw [P.process_append, P.process_pointer]
    exact henter ht st hs ⟨fun q hq => ⟨(hkids q hq).1, ha.2.2 q hq, (hkids q hq).2⟩, hrest,
      hobj.ready ht (hforward ht) ha hm (P.act_eqOn st _)⟩

theorem at_union (hty : p.1.type = .union) (hsub : sub32 (lim - p.2) 8 = lim - (p.2 + 8))
    (hkids : ∀ q ∈ (scheme Γ f).kids m p, P.At Γ f m lim n dispatch q)
    (hdisp : ∀ st, P.Room m ((scheme Γ f).walk m (n + 1) p) st →
      dispatch' .union p.1.desc p.1.nullable p.2 (lim - p.2) st =
        if p.1.nullable = false ∨ load (P.mem st) p.2 4 ≠ 0 then
          visitActive P.mem dispatch p.2 (lim - p.2) (Γ.union p.1.desc).entries st
        else .ok st) : P.At Γ f m lim (n + 1) dispatch' p := by
  intro st hroom hm
  have htouch : (scheme Γ f).touch m p = span p.2 8 := by
    simp [scheme, placeTouch, hty]
  have hs : Set.EqOn m (P.mem st) (span p.2 8) :=
    hm.mono (htouch.symm.subset.trans (Scheme.touch_subset_foot n p))
  rw [hty, hdisp st hroom, visitActive, (loads_congr hs).1, (loads_congr hs).2, hsub]
  rw [union_walk hty] at hroom ⊢
  rcases union_kids (Γ := Γ) (f := f) (m := m) hty with ⟨⟨hnullable, hsize⟩, hk⟩ | ⟨hgo, hk⟩
  · simp [hk, hnullable, hsize, P.process_nil]
  · rw [if_pos hgo]
    rw [hk, unionKids, activeEntry] at hroom ⊢
    cases hact : (Γ.union p.1.desc).entries.find? fun e => e.tag = load m (p.2 + 4) 4 with
    | none => exact (P.process_nil st).symm
    | some e =>
      by_cases hpod : e.elemType = .pod
      · simp [hpod, P.process_nil]
      · have hmem : (e.elem, p.2 + 8) ∈ (scheme Γ f).kids m p := by
          rw [hk]
          exact mem_unionKids.mpr ⟨e, hact, hpod, rfl⟩
        simp only [hact, hpod, ↓reduceIte, List.flatMap_singleton] at hroom ⊢
        exact hkids _ hmem st hroom (hm.mono (Scheme.foot_kid_subset hmem))

end Pass

/-- What both directions need of a place. -/
@[mk_iff]
structure Visitable (Γ : Descriptors) (f : Form) (m : Mem) (lim : ℕ) (p : Place) : Prop where
  fits : Fits Γ f m p
  pos : p.2 ≠ 0
  room : p.2 + p.1.size ≤ lim
  short : lim - p.2 < 2 ^ 32
  nonnull : p.1.IsObject → p.1.nullable ∨ target f m p.2 ≠ 0
  forward : p.1.IsObject → target f m p.2 ≠ 0 → p.2 + 8 ≤ target f m p.2
  inside : p.1.IsObject → target f m p.2 ≠ 0 → target f m p.2 + load m (target f m p.2) 4 ≤ lim

instance (Γ : Descriptors) (f : Form) (m : Mem) (lim : ℕ) : DecidablePred (Visitable Γ f m lim) :=
  fun p => decidable_of_iff _ (visitable_iff Γ f m lim p).symm

section

variable {Γ : Descriptors} {f : Form} {m : Mem} {lim : ℕ} {p : Place}

theorem Visitable.lt_lim (hp : Visitable Γ f m lim p) : p.2 < lim := by
  have hroom := hp.room
  have hsize := hp.fits.size_pos
  omega

theorem Visitable.reach (hp : Visitable Γ f m lim p) (hty : p.1.IsObject)
    (ht : target f m p.2 ≠ 0) :
    target f m p.2 + headerSize ≤ lim ∧
      sub32 (lim - p.2) (target f m p.2 - p.2) = lim - target f m p.2 ∧
      lim - target f m p.2 < 2 ^ 32 := by
  have hlt := hp.forward hty ht
  have hin := hp.inside hty ht
  have hhdr := hp.fits.header hty ht
  have hshort := hp.short
  simp only [headerSize] at hhdr ⊢
  exact ⟨by omega, sub32_sub hshort (by omega) (by omega), by omega⟩

end

theorem sub32_union {lim s : ℕ} (hroom : s + 16 ≤ lim) (hshort : lim - s < 2 ^ 32) :
    ¬ lim - s < unionLayoutSize ∧ sub32 (lim - s) 8 = lim - (s + 8) := by
  rw [unionLayoutSize]
  exact ⟨by omega, sub32_eight hshort (by omega)⟩

end Mojo.CBindings
