import Mojo.CBindings.Codec
import Mojo.Memory.Traversal

/-!
# The objects of a value, as the C bindings walk them

All the recursions of the library visit the same places in the same order.
`scheme` states once what lies at a place, for pointers as they are in memory
and as they are on the wire. `Fits` says that the headers found leave room for
the slots that their descriptors promise; for such a value, objects that do not
overlap make a traversal that looks at no byte twice.
-/

namespace Mojo.CBindings

open Mojo.Memory

variable {k : Elem} {d : TypeDescriptorStruct} {m m' : Mem} {t u i n : ℕ} {f : Form} {p q : Place}
  {Γ : Descriptors}

structure Elem where
  type : TypeDescriptorType
  desc : ℕ
  nullable : Bool
deriving DecidableEq, Repr

def TypeDescriptorStructEntry.elem (e : TypeDescriptorStructEntry) : Elem :=
  ⟨e.elemType, e.elemDescriptor, e.nullable⟩

def TypeDescriptorUnionEntry.elem (e : TypeDescriptorUnionEntry) : Elem :=
  ⟨e.elemType, e.elemDescriptor, e.nullable⟩

def TypeDescriptorArray.elem (d : TypeDescriptorArray) : Elem :=
  ⟨d.elemType, d.elemDescriptor, d.nullable⟩

def Elem.size (k : Elem) : ℕ := slotSize k.type

def Elem.IsObject (k : Elem) : Prop :=
  k.type = .structPtr ∨ k.type = .mapPtr ∨ k.type = .arrayPtr

instance (k : Elem) : Decidable k.IsObject := inferInstanceAs (Decidable (_ ∨ _ ∨ _))

theorem Elem.IsObject.size_eq (h : k.IsObject) : k.size = 8 := by
  rcases h with h | h | h <;> simp [Elem.size, h, slotSize]

theorem Elem.IsObject.isPointer (h : k.IsObject) : isPointer k.type := by
  rcases h with h | h | h <;> simp [h, CBindings.isPointer]

def Elem.IsStruct (k : Elem) : Prop := k.type = .structPtr ∨ k.type = .mapPtr

theorem Elem.IsStruct.isObject (h : k.IsStruct) : k.IsObject :=
  h.elim Or.inl fun h => Or.inr (Or.inl h)

def Elem.IsHandle (k : Elem) : Prop := k.type = .handle ∨ k.type = .interface

instance (k : Elem) : Decidable k.IsHandle := inferInstanceAs (Decidable (_ ∨ _))

abbrev Place := Elem × ℕ

def entryKids (m : Mem) (t : ℕ) (entries : List TypeDescriptorStructEntry) : List Place :=
  (entries.filter fun e => e.minVersion ≤ load m (t + 4) 4).map fun e =>
    (e.elem, t + headerSize + e.offset)

def structKids (d : TypeDescriptorStruct) (m : Mem) (t : ℕ) : List Place := entryKids m t d.entries

def elementKids (d : TypeDescriptorArray) (t : ℕ) (is : List ℕ) : List Place :=
  is.map fun i => (d.elem, t + headerSize + slotSize d.elemType * i)

variable {e : TypeDescriptorStructEntry} {es : List TypeDescriptorStructEntry}

theorem entryKids_of_le
    (h : e.minVersion ≤ load m (t + 4) 4) :
    entryKids m t (e :: es) = (e.elem, t + headerSize + e.offset) :: entryKids m t es := by
  simp [entryKids, h]

theorem entryKids_of_not_le
    (h : ¬ e.minVersion ≤ load m (t + 4) 4) : entryKids m t (e :: es) = entryKids m t es := by
  simp [entryKids, h]

theorem elementKids_cons (d : TypeDescriptorArray) (t i : ℕ) (is : List ℕ) :
    elementKids d t (i :: is) =
    (d.elem, t + headerSize + slotSize d.elemType * i) :: elementKids d t is := rfl

def arrayKids (d : TypeDescriptorArray) (m : Mem) (t : ℕ) : List Place :=
  if d.elemType = .pod then [] else elementKids d t (List.range (load m (t + 4) 4))

def activeEntry (d : TypeDescriptorUnion) (m : Mem) (u : ℕ) : Option TypeDescriptorUnionEntry :=
  d.entries.find? fun e => e.tag = load m (u + 4) 4

/-- A loop over the entries of a union that stops at the first one with the tag. -/
theorem scan_eq_find? {β : Type} (loop : List TypeDescriptorUnionEntry → β) {tag : ℕ} {z : β}
    {f : TypeDescriptorUnionEntry → β} (entries : List TypeDescriptorUnionEntry)
    (hnil : loop [] = z) (hcons : ∀ e es, loop (e :: es) = if tag ≠ e.tag then loop es else f e) :
    loop entries = match entries.find? fun e => e.tag = tag with
      | none => z
      | some e => f e := by
  induction entries with
  | nil => exact hnil
  | cons e es ih =>
    rw [hcons, ih]
    by_cases he : e.tag = tag
    · simp [he]
    · simp [he, Ne.symm he]

def unionKids (d : TypeDescriptorUnion) (m : Mem) (u : ℕ) : List Place :=
  match activeEntry d m u with
  | none => []
  | some e => if e.elemType = .pod then [] else [(e.elem, u + 8)]

def placeItems (f : Form) (m : Mem) (p : Place) : List Item :=
  match p.1.type with
  | .structPtr | .mapPtr | .arrayPtr =>
    if target f m p.2 = 0 then [.pointer p.2 none]
    else [.pointer p.2 (some ⟨target f m p.2, load m (target f m p.2) 4⟩)]
  | .handle | .interface => [.handle p.2]
  | .union | .unionPtr | .pod => []

def placeKids (Γ : Descriptors) (f : Form) (m : Mem) (p : Place) : List Place :=
  match p.1.type with
  | .structPtr | .mapPtr =>
    if target f m p.2 = 0 then [] else structKids (Γ.struct p.1.desc) m (target f m p.2)
  | .arrayPtr =>
    if target f m p.2 = 0 then [] else arrayKids (Γ.array p.1.desc) m (target f m p.2)
  | .union =>
    if p.1.nullable = true ∧ load m p.2 4 = 0 then [] else unionKids (Γ.union p.1.desc) m p.2
  | .unionPtr | .handle | .interface | .pod => []

def placeTouch (f : Form) (m : Mem) (p : Place) : Set ℕ :=
  match p.1.type with
  | .structPtr | .mapPtr | .arrayPtr =>
    span p.2 8 ∪ if target f m p.2 = 0 then ∅ else span (target f m p.2) 8
  | .union => span p.2 8
  | .handle | .interface => span p.2 4
  | .unionPtr | .pod => ∅

theorem structKids_congr (h : Set.EqOn m m' (span t 8)) : structKids d m' t = structKids d m t := by
  simp [structKids, entryKids, (loads_congr h).2]

theorem arrayKids_congr {d : TypeDescriptorArray}
    (h : Set.EqOn m m' (span t 8)) : arrayKids d m' t = arrayKids d m t := by
  simp [arrayKids, (loads_congr h).2]

theorem unionKids_congr {d : TypeDescriptorUnion}
    (h : Set.EqOn m m' (span u 8)) : unionKids d m' u = unionKids d m u := by
  simp [unionKids, activeEntry, (loads_congr h).2]

theorem placeItems_congr (h : Set.EqOn m m' (placeTouch f m p)) :
    placeItems f m' p = placeItems f m p := by
  obtain ⟨⟨type, desc, nullable⟩, s⟩ := p
  cases type <;> simp only [placeItems, placeTouch] at h ⊢ <;>
  · have ht := target_congr (f := f) (h.mono Set.subset_union_left)
    simp only [ht]
    split_ifs with h0
    · rfl
    · have hs := h.mono (Set.subset_union_right)
      simp only [h0, ↓reduceIte] at hs
      rw [(loads_congr hs).1]

theorem placeKids_congr (h : Set.EqOn m m' (placeTouch f m p)) :
    placeKids Γ f m' p = placeKids Γ f m p := by
  obtain ⟨⟨type, desc, nullable⟩, s⟩ := p
  cases type with
  | handle | interface | unionPtr | pod => rfl
  | union =>
    simp only [placeTouch] at h
    simp [placeKids, (loads_congr h).1, unionKids_congr h]
  | structPtr | mapPtr =>
    simp only [placeKids, placeTouch] at h ⊢
    rw [target_congr (h.mono Set.subset_union_left)]
    split_ifs with h0
    · rfl
    · have hs := h.mono (Set.subset_union_right)
      simp only [h0, ↓reduceIte] at hs
      exact structKids_congr hs
  | arrayPtr =>
    simp only [placeKids, placeTouch] at h ⊢
    rw [target_congr (h.mono Set.subset_union_left)]
    split_ifs with h0
    · rfl
    · have hs := h.mono (Set.subset_union_right)
      simp only [h0, ↓reduceIte] at hs
      exact arrayKids_congr hs

theorem placeItems_subset {i : Item} (hi : i ∈ placeItems f m p) : i.bytes ⊆ placeTouch f m p := by
  obtain ⟨⟨type, desc, nullable⟩, s⟩ := p
  cases type with
  | structPtr | mapPtr | arrayPtr =>
    simp only [placeItems] at hi
    split_ifs at hi <;> obtain rfl := List.mem_singleton.mp hi <;> exact Set.subset_union_left
  | handle | interface =>
    obtain rfl := List.mem_singleton.mp hi
    exact subset_rfl
  | union | unionPtr | pod => cases hi

theorem placeItems_pairwise (f : Form) (m : Mem) (p : Place) :
    (placeItems f m p).Pairwise fun i j => Disjoint i.bytes j.bytes := by
  obtain ⟨⟨type, desc, nullable⟩, s⟩ := p
  cases type with
  | structPtr | mapPtr | arrayPtr =>
    simp only [placeItems]
    split_ifs <;> exact List.pairwise_singleton _ _
  | handle | interface => exact List.pairwise_singleton _ _
  | union | unionPtr | pod => exact List.Pairwise.nil

def scheme (Γ : Descriptors) (f : Form) : Scheme Elem where
  items := placeItems f
  kids := placeKids Γ f
  touch := placeTouch f
  bytes_subset _ _ _ hi := placeItems_subset hi
  items_apart := placeItems_pairwise f
  depends _ _ _ h := ⟨placeItems_congr h, placeKids_congr h⟩

theorem Elem.IsObject.touch_eq (hty : p.1.IsObject) (ht : target f m p.2 ≠ 0) :
    (scheme Γ f).touch m p = span p.2 8 ∪ span (target f m p.2) 8 := by
  obtain ⟨⟨type, desc, nullable⟩, s⟩ := p
  cases type <;> simp_all [Elem.IsObject, scheme, placeTouch]

theorem Elem.IsObject.items_eq (hty : p.1.IsObject) (ht : target f m p.2 ≠ 0) :
    (scheme Γ f).items m p =
      [.pointer p.2 (some ⟨target f m p.2, load m (target f m p.2) 4⟩)] := by
  obtain ⟨⟨type, desc, nullable⟩, s⟩ := p
  cases type <;> simp_all [Elem.IsObject, scheme, placeItems]

theorem Elem.IsStruct.kids_eq (hty : p.1.IsStruct) (ht : target f m p.2 ≠ 0) :
    (scheme Γ f).kids m p =
      structKids (Γ.struct p.1.desc) m (target f m p.2) := by
  obtain ⟨⟨type, desc, nullable⟩, s⟩ := p
  cases type <;> simp_all [Elem.IsStruct, scheme, placeKids]

theorem arrayPtr_kids_eq (hty : p.1.type = .arrayPtr) (ht : target f m p.2 ≠ 0) :
    (scheme Γ f).kids m p =
      arrayKids (Γ.array p.1.desc) m (target f m p.2) := by
  simp [scheme, placeKids, hty, ht]

theorem Elem.IsObject.null_eq (hty : p.1.IsObject) (ht : target f m p.2 = 0) :
    (scheme Γ f).items m p = [.pointer p.2 none] ∧ (scheme Γ f).kids m p = [] := by
  obtain ⟨⟨type, desc, nullable⟩, s⟩ := p
  cases type <;> simp_all [Elem.IsObject, scheme, placeItems, placeKids]

theorem Elem.IsObject.walk_null (hty : p.1.IsObject) (ht : target f m p.2 = 0) (n : ℕ) :
    (scheme Γ f).walk m (n + 1) p = [.pointer p.2 none] := by
  obtain ⟨hitems, hkids⟩ := hty.null_eq (Γ := Γ) ht
  rw [Scheme.walk, hitems, hkids, List.flatMap_nil, List.append_nil]

theorem Elem.IsObject.walk_eq (hty : p.1.IsObject) (ht : target f m p.2 ≠ 0) (n : ℕ) :
    (scheme Γ f).walk m (n + 1) p =
      .pointer p.2 (some ⟨target f m p.2, load m (target f m p.2) 4⟩) ::
        ((scheme Γ f).kids m p).flatMap ((scheme Γ f).walk m n) := by
  rw [Scheme.walk, hty.items_eq ht, List.singleton_append]

theorem Elem.IsHandle.walk_eq (hty : p.1.IsHandle) (n : ℕ) :
    (scheme Γ f).walk m (n + 1) p = [.handle p.2] := by
  rcases hty with hty | hty <;>
    simp [Scheme.walk, scheme, placeItems, placeKids, hty]

theorem union_walk (hty : p.1.type = .union) (n : ℕ) :
    (scheme Γ f).walk m (n + 1) p = ((scheme Γ f).kids m p).flatMap ((scheme Γ f).walk m n) := by
  rw [Scheme.walk]
  simp [scheme, placeItems, hty]

theorem union_kids (hty : p.1.type = .union) :
    (p.1.nullable ∧ load m p.2 4 = 0) ∧ (scheme Γ f).kids m p = [] ∨
      (p.1.nullable = false ∨ load m p.2 4 ≠ 0) ∧ (scheme Γ f).kids m p =
        unionKids (Γ.union p.1.desc) m p.2 := by
  by_cases hnull : p.1.nullable = true ∧ load m p.2 4 = 0
  · exact .inl ⟨hnull, by simp [scheme, placeKids, hty, hnull]⟩
  · refine .inr ⟨?_, by simp [scheme, placeKids, hty, hnull]⟩
    rwa [not_and_or, Bool.not_eq_true] at hnull

theorem Elem.IsObject.slot_subset (hty : p.1.IsObject) : span p.2 8 ⊆ (scheme Γ f).touch m p := by
  obtain ⟨⟨type, desc, nullable⟩, s⟩ := p
  cases type <;> simp_all [Elem.IsObject, scheme, placeTouch]

theorem Elem.IsObject.ready {mem : Mem} (hty : p.1.IsObject) (ht : target f m p.2 ≠ 0)
    (hlt : p.2 + 8 ≤ target f m p.2) (ha : (scheme Γ f).Apart m (n + 1) p)
    (hm : Set.EqOn m mem ((scheme Γ f).foot m (n + 1) p)) (hw : Set.EqOn m' mem (span p.2 8)ᶜ) :
    (scheme Γ f).Ready m n (span (target f m p.2) 8) ((scheme Γ f).kids m p) m' := by
  have hslots : slots ((scheme Γ f).items m p) = span p.2 8 := by
    rw [hty.items_eq ht]
    exact slots_singleton _
  apply Scheme.Ready.of_apart ha hm
  · rw [hslots]
    exact hw
  · rw [hty.touch_eq ht]
    exact Set.subset_union_right
  · rw [hslots]
    exact (span_disjoint_of_le hlt).symm

theorem extent_of_mem_items {i : Item} {e : Extent} (hi : i ∈ (scheme Γ f).items m p)
    (he : i.extent = some e) :
    p.1.IsObject ∧ target f m p.2 ≠ 0 ∧ e = ⟨target f m p.2, load m (target f m p.2) 4⟩ := by
  by_cases hobj : p.1.IsObject
  · by_cases ht : target f m p.2 = 0
    · rw [(hobj.null_eq (Γ := Γ) ht).1, List.mem_singleton] at hi
      simp [hi, Item.extent] at he
    · rw [hobj.items_eq ht, List.mem_singleton] at hi
      rw [hi, Item.extent, Option.some.injEq] at he
      exact ⟨hobj, ht, he.symm⟩
  · exfalso
    cases hty : p.1.type with
    | structPtr | mapPtr | arrayPtr => simp [Elem.IsObject, hty] at hobj
    | union | unionPtr | pod => simp [scheme, placeItems, hty] at hi
    | handle | interface =>
      simp only [scheme, placeItems, hty, List.mem_singleton] at hi
      simp [hi, Item.extent] at he

theorem legal_forall_extents {P : Place → Prop}
    {Q : Extent → Prop} (hPQ : ∀ p, P p → p.1.IsObject → target f m p.2 ≠ 0 →
      Q ⟨target f m p.2, load m (target f m p.2) 4⟩)
    (h : (scheme Γ f).Legal m P n p) : ∀ e ∈ extents ((scheme Γ f).walk m n p), Q e := by
  intro e he
  obtain ⟨i, hi, hie⟩ := List.mem_filterMap.mp he
  refine h.forall_walk (Q := fun i => ∀ e, i.extent = some e → Q e) ?_ i hi e hie
  intro p hp i hi e hie
  obtain ⟨hobj, ht, rfl⟩ := extent_of_mem_items hi hie
  exact hPQ p hp hobj ht

def Fits (Γ : Descriptors) (f : Form) (m : Mem) (p : Place) : Prop :=
  match p.1.type with
  | .structPtr | .mapPtr => target f m p.2 ≠ 0 → headerSize ≤ load m (target f m p.2) 4 ∧
      ∀ e ∈ (Γ.struct p.1.desc).entries, e.minVersion ≤ load m (target f m p.2 + 4) 4 →
        headerSize + e.offset + slotSize e.elemType ≤ load m (target f m p.2) 4
  | .arrayPtr =>
    target f m p.2 ≠ 0 → headerSize ≤ load m (target f m p.2) 4 ∧
      ((Γ.array p.1.desc).elemType ≠ .pod →
        headerSize + slotSize (Γ.array p.1.desc).elemType * load m (target f m p.2 + 4) 4 ≤
          load m (target f m p.2) 4)
  | .union | .handle | .interface => True
  | .unionPtr | .pod => False

instance (Γ : Descriptors) (f : Form) (m : Mem) : DecidablePred (Fits Γ f m) := fun p => by
  unfold Fits
  split <;> infer_instance

theorem Fits.size_pos (h : Fits Γ f m p) : 0 < p.1.size := by
  obtain ⟨⟨type, desc, nullable⟩, s⟩ := p
  cases type with
  | unionPtr | pod => cases h
  | structPtr | mapPtr | arrayPtr | union | handle | interface => simp [Elem.size, slotSize]

theorem Fits.header (h : Fits Γ f m p)
    (hty : p.1.IsObject) (ht : target f m p.2 ≠ 0) : headerSize ≤ load m (target f m p.2) 4 := by
  obtain ⟨⟨type, desc, nullable⟩, s⟩ := p
  cases type with
  | structPtr | mapPtr | arrayPtr => exact (h ht).1
  | unionPtr | pod => cases h
  | union | handle | interface => simp [Elem.IsObject] at hty

theorem Elem.IsObject.transfer {f' : Form} (hty : p.1.IsObject) (ht : target f m p.2 ≠ 0)
    (htgt : target f' m' p.2 = target f m p.2) (hhdr : Set.EqOn m m' (span (target f m p.2) 8)) :
    (scheme Γ f').items m' p = (scheme Γ f).items m p ∧
      (scheme Γ f').kids m' p = (scheme Γ f).kids m p ∧ (Fits Γ f m p → Fits Γ f' m' p) := by
  obtain ⟨h₁, h₂⟩ := loads_congr hhdr
  refine ⟨?_, ?_, ?_⟩
  · rw [hty.items_eq ht, hty.items_eq (htgt ▸ ht), htgt, h₁]
  · simp only [scheme, placeKids]
    rw [htgt]
    rcases hty with hty | hty | hty <;> simp only [hty, ht, ↓reduceIte]
    · exact structKids_congr hhdr
    · exact structKids_congr hhdr
    · exact arrayKids_congr hhdr
  · simp only [Fits]
    rw [htgt, h₁, h₂]
    rcases hty with hty | hty | hty <;> simp only [hty] <;> exact id

theorem mem_structKids : q ∈ structKids d m t ↔ ∃ e ∈ d.entries, e.minVersion ≤ load m (t + 4) 4 ∧
      q = (e.elem, t + headerSize + e.offset) := by
  simp [structKids, entryKids, and_assoc, eq_comm (a := q)]

theorem mem_arrayKids {d : TypeDescriptorArray} :
    q ∈ arrayKids d m t ↔ d.elemType ≠ .pod ∧ ∃ i < load m (t + 4) 4,
      q = (d.elem, t + headerSize + slotSize d.elemType * i) := by
  unfold arrayKids
  split_ifs with h
  · simp [h]
  · simp [elementKids, h, eq_comm (a := q)]

theorem mem_unionKids {d : TypeDescriptorUnion} :
    q ∈ unionKids d m u ↔ ∃ e, activeEntry d m u = some e ∧ e.elemType ≠ .pod ∧
      q = (e.elem, u + 8) := by
  unfold unionKids
  cases activeEntry d m u with
  | none => simp
  | some e => by_cases h : e.elemType = .pod <;> simp [h]

theorem activeEntry_mem {d : TypeDescriptorUnion}
    {e : TypeDescriptorUnionEntry} (h : activeEntry d m u = some e) : e ∈ d.entries :=
  List.mem_of_find?_eq_some h

theorem uses_structKids (hq : q ∈ structKids (Γ.struct i) m t) : Γ.Uses q.1.type q.1.desc := by
  obtain ⟨e, he, -, rfl⟩ := mem_structKids.mp hq
  exact Descriptors.Uses.struct i e he

theorem uses_arrayKids (hq : q ∈ arrayKids (Γ.array i) m t) : Γ.Uses q.1.type q.1.desc := by
  obtain ⟨-, j, -, rfl⟩ := mem_arrayKids.mp hq
  exact Descriptors.Uses.array i

theorem uses_unionKids (hq : q ∈ unionKids (Γ.union i) m u) : Γ.Uses q.1.type q.1.desc := by
  obtain ⟨e, he, -, rfl⟩ := mem_unionKids.mp hq
  exact Descriptors.Uses.union i e (activeEntry_mem he)

theorem uses_kids (hq : q ∈ (scheme Γ f).kids m p) : Γ.Uses q.1.type q.1.desc := by
  simp only [scheme, placeKids] at hq
  split at hq <;> try split_ifs at hq
  all_goals
    first | cases hq | exact uses_structKids hq | exact uses_arrayKids hq | exact uses_unionKids hq

theorem mem_union_kids (hty : p.1.type = .union) (hq : q ∈ (scheme Γ f).kids m p) :
    q ∈ unionKids (Γ.union p.1.desc) m p.2 := by
  rcases union_kids hty with ⟨-, h⟩ | ⟨-, h⟩ <;> rw [h] at hq
  · cases hq
  · exact hq

theorem slotSize_le {type : TypeDescriptorType} (h : type ≠ .union) : slotSize type ≤ 8 := by
  cases type <;> simp_all [slotSize]

theorem structKids_pairwise (hd : d.WellFormed) (m : Mem) (t : ℕ) :
    (structKids d m t).Pairwise fun q r =>
      Disjoint (span q.2 q.1.size) (span r.2 r.1.size) := by
  refine List.pairwise_map.mpr ((hd.apart.filter _).imp ?_)
  intro e e' h
  rcases h with h | h
  · exact span_disjoint_of_le (by simp only [Elem.size, TypeDescriptorStructEntry.elem]; omega)
  · exact (span_disjoint_of_le
      (by simp only [Elem.size, TypeDescriptorStructEntry.elem]; omega)).symm

theorem arrayKids_pairwise (d : TypeDescriptorArray) (m : Mem) (t : ℕ) :
    (arrayKids d m t).Pairwise fun q r => Disjoint (span q.2 q.1.size) (span r.2 r.1.size) := by
  unfold arrayKids
  split_ifs
  · exact List.Pairwise.nil
  · refine List.pairwise_map.mpr (List.pairwise_lt_range.imp ?_)
    intro i j hij
    apply span_disjoint_of_le
    have h := Nat.mul_le_mul_left (slotSize d.elemType) hij
    rw [Nat.mul_succ] at h
    simp only [Elem.size, TypeDescriptorArray.elem]
    omega

theorem unionKids_pairwise (d : TypeDescriptorUnion) (m : Mem) (u : ℕ) :
    (unionKids d m u).Pairwise fun q r => Disjoint (span q.2 q.1.size) (span r.2 r.1.size) := by
  unfold unionKids
  cases activeEntry d m u with
  | none => exact List.Pairwise.nil
  | some e =>
    dsimp only
    split_ifs
    · exact List.Pairwise.nil
    · exact List.pairwise_singleton _ _

theorem structKids_inside (hq : q ∈ structKids d m t)
    (h : ∀ e ∈ d.entries, e.minVersion ≤ load m (t + 4) 4 →
      headerSize + e.offset + slotSize e.elemType ≤ n) :
    t + headerSize ≤ q.2 ∧ q.2 + q.1.size ≤ t + n := by
  obtain ⟨e, he, hv, rfl⟩ := mem_structKids.mp hq
  have := h e he hv
  simp only [Elem.size, TypeDescriptorStructEntry.elem]
  omega

theorem arrayKids_inside {d : TypeDescriptorArray} (hq : q ∈ arrayKids d m t)
    (h : d.elemType ≠ .pod → headerSize + slotSize d.elemType * load m (t + 4) 4 ≤ n) :
    t + headerSize ≤ q.2 ∧ q.2 + q.1.size ≤ t + n := by
  obtain ⟨hp, i, hi, rfl⟩ := mem_arrayKids.mp hq
  have hn := h hp
  have hm := Nat.mul_le_mul_left (slotSize d.elemType) hi
  rw [Nat.mul_succ] at hm
  simp only [Elem.size, TypeDescriptorArray.elem]
  omega

theorem Fits.kids_inside (h : Fits Γ f m p) (hobj : p.1.IsObject) (ht : target f m p.2 ≠ 0) :
    ∀ q ∈ (scheme Γ f).kids m p,
      target f m p.2 + headerSize ≤ q.2 ∧ q.2 + q.1.size ≤ target f m p.2 +
        load m (target f m p.2) 4 := by
  obtain ⟨⟨type, desc, nullable⟩, s⟩ := p
  cases type with
  | structPtr | mapPtr =>
    rw [Elem.IsStruct.kids_eq (by simp [Elem.IsStruct]) ht]
    exact fun q hq => structKids_inside hq (h ht).2
  | arrayPtr =>
    rw [arrayPtr_kids_eq rfl ht]
    exact fun q hq => arrayKids_inside hq (h ht).2
  | unionPtr | pod => cases h
  | union | handle | interface => simp [Elem.IsObject] at hobj

theorem unionKids_inside {d : TypeDescriptorUnion} (hd : d.WellFormed)
    (hq : q ∈ unionKids d m u) : q.2 = u + 8 ∧ q.2 + q.1.size ≤ u + 16 := by
  obtain ⟨e, he, -, rfl⟩ := mem_unionKids.mp hq
  have hs : slotSize e.elemType ≤ 8 := slotSize_le (hd.elem e (activeEntry_mem he))
  refine ⟨rfl, ?_⟩
  simp only [Elem.size, TypeDescriptorUnionEntry.elem]
  omega

theorem nested_of_object (hsize : p.1.size = 8)
    (hitems : extents ((scheme Γ f).items m p) = [⟨t, n⟩])
    (htouch : (scheme Γ f).touch m p = span p.2 8 ∪ span t 8) (hn : headerSize ≤ n)
    (hin : ∀ q ∈ (scheme Γ f).kids m p, t + headerSize ≤ q.2 ∧ q.2 + q.1.size ≤ t + n)
    (hpw : ((scheme Γ f).kids m p).Pairwise fun q r =>
      Disjoint (span q.2 q.1.size) (span r.2 r.1.size)) :
    (scheme Γ f).Nested m Elem.size p where
  touch_subset := by
    rw [htouch, hitems, hsize]
    refine Set.union_subset_union_right _ ?_
    intro b hb
    exact ⟨_, List.mem_singleton_self _, span_subset le_rfl (Nat.add_le_add_left hn t) hb⟩
  kid_subset q hq := by
    rw [hitems]
    intro b hb
    refine Or.inr ⟨_, List.mem_singleton_self _, ?_⟩
    exact span_subset (by have := (hin q hq).1; omega) (hin q hq).2 hb
  kid_disjoint hslot q hq := by
    rw [htouch, Set.disjoint_union_left]
    obtain ⟨h₁, h₂⟩ := hin q hq
    rw [hsize, hitems] at hslot
    refine ⟨hslot.mono_right ?_, span_disjoint_of_le h₁⟩
    intro b hb
    exact ⟨_, List.mem_singleton_self _, span_subset (by omega) h₂ hb⟩
  kids_pairwise := hpw

theorem nested_of_no_kids (htouch : (scheme Γ f).touch m p ⊆ span p.2 p.1.size)
    (hkids : (scheme Γ f).kids m p = []) : (scheme Γ f).Nested m Elem.size p where
  touch_subset := htouch.trans Set.subset_union_left
  kid_subset := by simp [hkids]
  kid_disjoint := by simp [hkids]
  kids_pairwise := by simp [hkids]

theorem nested_of_fits (hΓ : Γ.WellFormed) (h : Fits Γ f m p) :
    (scheme Γ f).Nested m Elem.size p := by
  obtain ⟨⟨type, desc, nullable⟩, s⟩ := p
  cases type with
  | unionPtr | pod => cases h
  | handle => exact nested_of_no_kids subset_rfl rfl
  | interface => exact nested_of_no_kids (span_subset le_rfl (by simp [Elem.size, slotSize])) rfl
  | structPtr | mapPtr | arrayPtr =>
    by_cases ht : target f m s = 0
    · exact nested_of_no_kids (by simp [scheme, placeTouch, ht, Elem.size, slotSize])
        (by simp [scheme, placeKids, ht])
    · refine nested_of_object (t := target f m s) rfl
        (by simp [scheme, placeItems, ht, extents, Item.extent])
        (by simp [scheme, placeTouch, ht]) (h ht).1 (h.kids_inside (by simp [Elem.IsObject]) ht) ?_
      simp only [scheme, placeKids, ht, ↓reduceIte]
      first
      | exact structKids_pairwise (hΓ.struct desc) m _
      | exact arrayKids_pairwise _ m _
  | union =>
    by_cases hnull : nullable = true ∧ load m s 4 = 0
    · exact nested_of_no_kids (span_subset le_rfl (by simp [Elem.size, slotSize]))
        (by simp [scheme, placeKids, hnull])
    · have hkids : (scheme Γ f).kids m (⟨.union, desc, nullable⟩, s) =
          unionKids (Γ.union desc) m s := by simp [scheme, placeKids, hnull]
      have hin := fun q hq => unionKids_inside (hΓ.union desc) (m := m) (u := s) (q := q) hq
      refine ⟨?_, ?_, ?_, ?_⟩
      · exact (span_subset le_rfl (by simp [Elem.size, slotSize])).trans Set.subset_union_left
      · rw [hkids]
        intro q hq
        have hle : q.2 + q.1.size ≤ s + 16 := (hin q hq).2
        have heq : q.2 = s + 8 := (hin q hq).1
        exact (span_subset (by omega) hle).trans Set.subset_union_left
      · rw [hkids]
        intro _ q hq
        have heq : q.2 = s + 8 := (hin q hq).1
        exact span_disjoint_of_le (by omega)
      · rw [hkids]
        exact unionKids_pairwise _ m s

def structWalk (Γ : Descriptors) (f : Form) (d : TypeDescriptorStruct) (m : Mem) (t n : ℕ) :
    List Item :=
  (structKids d m t).flatMap ((scheme Γ f).walk m n)

theorem ready_root (hΓ : Γ.WellFormed) (hd : d.WellFormed) (h8 : headerSize ≤ load m t 4)
    (hin : ∀ e ∈ d.entries, e.minVersion ≤ load m (t + 4) 4 → headerSize + e.offset +
      slotSize e.elemType ≤ load m t 4)
    (hl : ∀ q ∈ structKids d m t, (scheme Γ f).Legal m (Fits Γ f m) n q)
    (hpw : (⟨t, load m t 4⟩ :: extents (structWalk Γ f d m t n)).Pairwise fun e f =>
      Disjoint e.bytes f.bytes) :
    (scheme Γ f).Ready m n (span t 8) (structKids d m t) m ∧ ∀ q ∈ structKids d m t,
      (scheme Γ f).Apart m n q := by
  apply Scheme.ready_of_pairwise _ _ _ (structKids_pairwise hd m t) hpw
  · intro q hq
    exact (hl q hq).imp fun p hp => nested_of_fits hΓ hp
  · exact span_subset le_rfl (Nat.add_le_add_left h8 t)
  · intro q hq b hb
    have hq' := structKids_inside hq hin
    simp only [headerSize] at hq'
    simp only [mem_span] at hb
    simp only [Extent.bytes, Set.mem_sdiff, mem_span]
    omega

theorem twoNodesInMemory_packed : Packed 8 (⟨8, load twoNodesInMemory 8 4⟩ ::
    extents (structWalk nodeDescriptors .inMemory nodeStruct twoNodesInMemory 8 3)) 56 := by
  decide +kernel

end Mojo.CBindings
