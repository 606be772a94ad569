import Mojo.CBindings.SerializedSize

/-!
# Copies of a value

A copy of a value shows at every place what the original shows at the place it
was copied from: the same headers, the same handles, NULL where the original
has NULL, and otherwise a copy of the object. All bytes of an object but those
of its pointers are the same. What holds at the places of a value because of
what they show holds at the places of its copies.
-/

namespace Mojo.CBindings

open Mojo.Memory

variable {Γ : Descriptors} {m m' m'' : Mem} {ptrs : Set ℕ} {n : ℕ}

def moved (t t' : ℕ) (q : Place) : Place := (q.1, t' + (q.2 - t))

def origin (m : Mem) (p : Place) : ℕ :=
  if p.1.IsObject then target .inMemory m p.2 else p.2

/-- The place `p'` of `m'` shows what the place `p` of `m` shows, with an object
at another address and other bytes at most where `ptrs` says that pointers are. -/
structure Alike (m m' : Mem) (ptrs : Set ℕ) (p p' : Place) : Prop where
  elem : p'.1 = p.1
  null : p.1.IsObject → (target .inMemory m' p'.2 = 0 ↔ target .inMemory m p.2 = 0)
  header : p.1.IsObject → target .inMemory m p.2 ≠ 0 →
    load m' (target .inMemory m' p'.2) 4 = load m (target .inMemory m p.2) 4 ∧
    load m' (target .inMemory m' p'.2 + 4) 4 = load m (target .inMemory m p.2 + 4) 4
  bytes : p.1.IsObject → target .inMemory m p.2 ≠ 0 →
    ∀ k < load m (target .inMemory m p.2) 4, target .inMemory m p.2 + k ∉ ptrs →
      m' (target .inMemory m' p'.2 + k) = m (target .inMemory m p.2 + k)
  union : p.1.type = .union → load m' p'.2 4 = load m p.2 4 ∧ load m' (p'.2 + 4) 4 =
    load m (p.2 + 4) 4
  handle : p.1.IsHandle → load m' p'.2 4 = load m p.2 4

/-- The tree below the place `p'` of `m'` is a copy of the tree below the place `p` of `m`. -/
def Copied (Γ : Descriptors) (m m' : Mem) (ptrs : Set ℕ) : ℕ → Place → Place → Prop
  | 0, _, _ => False
  | n + 1, p, p' => Alike m m' ptrs p p' ∧
      ∀ q ∈ (scheme Γ .inMemory).kids m p, Copied Γ m m' ptrs n q
        (moved (origin m p) (origin m' p') q)

theorem structKids_moved {d : TypeDescriptorStruct} {t t' : ℕ}
    (h : load m' (t' + 4) 4 = load m (t + 4) 4) :
    structKids d m' t' = (structKids d m t).map (moved t t') := by
  simp only [structKids, entryKids, h, List.map_map]
  apply List.map_congr_left
  intro e _
  simp only [Function.comp_apply, moved, Prod.mk.injEq, true_and]
  omega

theorem arrayKids_moved {d : TypeDescriptorArray} {t t' : ℕ}
    (h : load m' (t' + 4) 4 = load m (t + 4) 4) :
    arrayKids d m' t' = (arrayKids d m t).map (moved t t') := by
  simp only [arrayKids, h]
  split_ifs
  · rfl
  · simp only [elementKids, List.map_map]
    apply List.map_congr_left
    intro i _
    simp only [Function.comp_apply, moved, Prod.mk.injEq, true_and]
    omega

theorem unionKids_moved {d : TypeDescriptorUnion} {u u' : ℕ}
    (h : load m' (u' + 4) 4 = load m (u + 4) 4) :
    unionKids d m' u' = (unionKids d m u).map (moved u u') := by
  simp only [unionKids, activeEntry, h]
  cases d.entries.find? fun e => e.tag = load m (u + 4) 4 with
  | none => rfl
  | some e =>
    dsimp only
    split_ifs
    · rfl
    · simp [moved]

theorem Elem.IsObject.origin_eq {p : Place} (h : p.1.IsObject) :
    origin m p = target .inMemory m p.2 := if_pos h

theorem origin_union {p : Place} (h : p.1.type = .union) : origin m p = p.2 :=
  if_neg (by simp [Elem.IsObject, h])

namespace Alike

variable {p p' : Place}

theorem isObject (h : Alike m m' ptrs p p') (hobj : p.1.IsObject) : p'.1.IsObject :=
  h.elem.symm ▸ hobj

theorem target_ne (h : Alike m m' ptrs p p') (hobj : p.1.IsObject)
    (ht : target .inMemory m p.2 ≠ 0) : target .inMemory m' p'.2 ≠ 0 :=
  (h.null hobj).not.mpr ht

theorem kids (h : Alike m m' ptrs p p') : (scheme Γ .inMemory).kids m' p' =
    ((scheme Γ .inMemory).kids m p).map (moved (origin m p) (origin m' p')) := by
  have he := h.elem
  by_cases hobj : p.1.IsObject
  · by_cases ht : target .inMemory m p.2 = 0
    · rw [(hobj.null_eq ht).2, ((h.isObject hobj).null_eq ((h.null hobj).mpr ht)).2]
      rfl
    · have hword := (h.header hobj ht).2
      rw [hobj.origin_eq, (h.isObject hobj).origin_eq]
      cases hty : p.1.type with
      | structPtr | mapPtr =>
        have hs : p.1.IsStruct := by simp [Elem.IsStruct, hty]
        have hs' : p'.1.IsStruct := he.symm ▸ hs
        rw [hs.kids_eq ht, hs'.kids_eq (h.target_ne hobj ht), he]
        exact structKids_moved hword
      | arrayPtr =>
        have hty' : p'.1.type = .arrayPtr := he.symm ▸ hty
        rw [arrayPtr_kids_eq hty ht, arrayPtr_kids_eq hty' (h.target_ne hobj ht), he]
        exact arrayKids_moved hword
      | union | unionPtr | handle | interface | pod => simp [Elem.IsObject, hty] at hobj
  · cases hty : p.1.type with
    | structPtr | mapPtr | arrayPtr => simp [Elem.IsObject, hty] at hobj
    | union =>
      obtain ⟨hsize, htag⟩ := h.union hty
      rw [origin_union hty, origin_union (he.symm ▸ hty)]
      simp only [scheme, placeKids, hty, he, hsize]
      split_ifs
      · rfl
      · exact unionKids_moved htag
    | handle | interface | unionPtr | pod => simp [scheme, placeKids, he, hty]

theorem fits (h : Alike m m' ptrs p p') (hp : Fits Γ .inMemory m p) : Fits Γ .inMemory m' p' := by
  have he := h.elem
  have hpart : p.1.IsObject → target .inMemory m' p'.2 ≠ 0 → target .inMemory m p.2 ≠ 0 :=
    fun hobj ht => (h.null hobj).not.mp ht
  cases hty : p.1.type with
  | structPtr | mapPtr =>
    have hobj : p.1.IsObject := by simp [Elem.IsObject, hty]
    simp only [Fits, hty, he] at hp ⊢
    intro ht
    obtain ⟨h₁, h₂⟩ := h.header hobj (hpart hobj ht)
    rw [h₁, h₂]
    exact hp (hpart hobj ht)
  | arrayPtr =>
    have hobj : p.1.IsObject := by simp [Elem.IsObject, hty]
    simp only [Fits, hty, he] at hp ⊢
    intro ht
    obtain ⟨h₁, h₂⟩ := h.header hobj (hpart hobj ht)
    rw [h₁, h₂]
    exact hp (hpart hobj ht)
  | union | handle | interface => simp only [Fits, hty, he]
  | unionPtr | pod => simp only [Fits, hty] at hp

theorem congr (h : Alike m m' ptrs p p') (hm : Set.EqOn m' m''
    ((scheme Γ .inMemory).touch m' p' ∪ cover (extents ((scheme Γ .inMemory).items m' p')))) :
    Alike m m'' ptrs p p' := by
  have he := h.elem
  have hslot : p.1.IsObject → target .inMemory m'' p'.2 = target .inMemory m' p'.2 := fun hobj =>
    target_congr (hm.mono ((h.isObject hobj).slot_subset.trans Set.subset_union_left))
  have hhdr : p.1.IsObject → target .inMemory m p.2 ≠ 0 →
      Set.EqOn m' m'' (span (target .inMemory m' p'.2) 8) := by
    intro hobj ht
    refine hm.mono (Set.Subset.trans ?_ Set.subset_union_left)
    rw [(h.isObject hobj).touch_eq (h.target_ne hobj ht)]
    exact Set.subset_union_right
  refine ⟨he, ?_, ?_, ?_, ?_, ?_⟩
  · intro hobj
    rw [hslot hobj]
    exact h.null hobj
  · intro hobj ht
    obtain ⟨h₁, h₂⟩ := loads_congr (hhdr hobj ht)
    rw [hslot hobj, h₁, h₂]
    exact h.header hobj ht
  · intro hobj ht k hk hptr
    rw [hslot hobj, ← h.bytes hobj ht k hk hptr]
    refine (hm (Or.inr ⟨⟨target .inMemory m' p'.2, load m' (target .inMemory m' p'.2) 4⟩, ?_,
      ?_⟩)).symm
    · rw [(h.isObject hobj).items_eq (h.target_ne hobj ht), extents_cons_some]
      exact .head _
    · simp only [Extent.bytes, mem_span, (h.header hobj ht).1]
      omega
  · intro hty
    have hs : Set.EqOn m' m'' (span p'.2 8) := by
      refine hm.mono (Set.Subset.trans ?_ Set.subset_union_left)
      simp [scheme, placeTouch, he, hty]
    rw [(loads_congr hs).1, (loads_congr hs).2]
    exact h.union hty
  · intro hty
    have hs : Set.EqOn m' m'' (span p'.2 4) := by
      refine hm.mono (Set.Subset.trans ?_ Set.subset_union_left)
      rcases hty with hty | hty <;> simp only [scheme, placeTouch, he, hty, subset_rfl]
    rw [← load_congr hs]
    exact h.handle hty

theorem lens_items (h : Alike m m' ptrs p p') :
    lens ((scheme Γ .inMemory).items m' p') = lens ((scheme Γ .inMemory).items m p) := by
  have he := h.elem
  by_cases hobj : p.1.IsObject
  · by_cases ht : target .inMemory m p.2 = 0
    · rw [(hobj.null_eq ht).1, ((h.isObject hobj).null_eq ((h.null hobj).mpr ht)).1]
      rfl
    · rw [hobj.items_eq ht, (h.isObject hobj).items_eq (h.target_ne hobj ht), (h.header hobj ht).1]
      rfl
  · cases hty : p.1.type with
    | structPtr | mapPtr | arrayPtr => simp [Elem.IsObject, hty] at hobj
    | union | unionPtr | pod | handle | interface =>
      simp only [scheme, placeItems, he, hty, lens, extents, List.filterMap_nil,
        List.filterMap_cons, Item.extent]

end Alike

namespace Copied

variable {p' p : Place}

theorem here (h : Copied Γ m m' ptrs n p p') : Alike m m' ptrs p p' := by
  cases n with
  | zero => cases h
  | succ n => exact h.1

/-- What places guarantee because of what they show, a copy guarantees as well. -/
theorem legal {P P' : Place → Prop} (hP : ∀ n p p', Copied Γ m m' ptrs (n + 1) p p' → P p → P' p')
    (hl : (scheme Γ .inMemory).Legal m P n p) (h : Copied Γ m m' ptrs n p p') :
    (scheme Γ .inMemory).Legal m' P' n p' := by
  induction n generalizing p p' with
  | zero => cases h
  | succ n ih =>
    refine ⟨hP n p p' h hl.1, ?_⟩
    rw [h.1.kids]
    intro q' hq'
    obtain ⟨q, hq, rfl⟩ := List.mem_map.mp hq'
    exact ih (hl.2 q hq) (h.2 q hq)

theorem flatMap_walk {α : Type*} {f f' : List Item → List α} (hf : ∀ l r, f (l ++ r) = f l ++ f r)
    (hf' : ∀ l r, f' (l ++ r) = f' l ++ f' r) (hnil : f [] = []) (hnil' : f' [] = [])
    (hitems : ∀ p p', Alike m m' ptrs p p' →
      f' ((scheme Γ .inMemory).items m' p') = f ((scheme Γ .inMemory).items m p)) (h :
        Copied Γ m m' ptrs n p p') :
    f' ((scheme Γ .inMemory).walk m' n p') = f ((scheme Γ .inMemory).walk m n p) := by
  induction n generalizing p p' with
  | zero => cases h
  | succ n ih =>
    obtain ⟨hp, hkids⟩ := h
    rw [Scheme.walk, Scheme.walk, hf, hf', hitems p p' hp, hp.kids]
    congr 1
    generalize (scheme Γ .inMemory).kids m p = qs at hkids
    induction qs with
    | nil => exact hnil'.trans hnil.symm
    | cons q qs ihq =>
      rw [List.map_cons, List.flatMap_cons, List.flatMap_cons, hf, hf',
        ih (hkids q (.head _)), ihq fun r hr => hkids r (.tail _ hr)]

theorem lens (h : Copied Γ m m' ptrs n p p') :
    lens ((scheme Γ .inMemory).walk m' n p') = lens ((scheme Γ .inMemory).walk m n p) :=
  h.flatMap_walk lens_append lens_append rfl rfl fun _ _ hp => hp.lens_items

theorem congr (h : Copied Γ m m' ptrs n p p') (hm : Set.EqOn m' m''
    ((scheme Γ .inMemory).foot m' n p' ∪ cover (extents ((scheme Γ .inMemory).walk m' n p')))) :
    Copied Γ m m'' ptrs n p p' := by
  induction n generalizing p p' with
  | zero => cases h
  | succ n ih =>
    obtain ⟨hp, hkids⟩ := h
    have hown : Set.EqOn m' m'' ((scheme Γ .inMemory).touch m' p' ∪
        cover (extents ((scheme Γ .inMemory).items m' p'))) :=
      hm.mono (Set.union_subset_union (Scheme.touch_subset_foot n p')
        (Scheme.cover_items_subset n p'))
    have horigin : origin m'' p' = origin m' p' := by
      by_cases hobj : p'.1.IsObject
      · rw [hobj.origin_eq, hobj.origin_eq]
        exact target_congr (hown.mono (hobj.slot_subset.trans Set.subset_union_left))
      · simp [origin, hobj]
    refine ⟨hp.congr hown, ?_⟩
    intro q hq
    have hq' : moved (origin m p) (origin m' p') q ∈ (scheme Γ .inMemory).kids m' p' := by
      rw [hp.kids]
      exact List.mem_map_of_mem hq
    rw [horigin]
    exact ih (hkids q hq) (hm.mono (Set.union_subset_union (Scheme.foot_kid_subset hq')
      (Scheme.cover_kid_subset hq')))

end Copied

end Mojo.CBindings
