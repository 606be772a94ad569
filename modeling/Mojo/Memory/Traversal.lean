import Mojo.Memory.Extent

/-!
# Traversals of a linked layout in memory

A traversal visits places: a kind of slot and the address where it lies. A
`Scheme` says what a memory holds at one place: the pointer or handle slot to
be processed there, the places that are visited next, and the bytes that are
looked at to find this out. `walk` lists the slots in the order of visit.

Two facts carry every proof about such a traversal. A walk depends only on the
bytes of its footprint, and when no byte is looked at twice (`Apart`) the
processing of one place cannot disturb the visit of another.
-/

namespace Mojo.Memory

open Set
open List hiding Disjoint disjoint_left disjoint_right

variable {α : Type*} {ps : List α} {f : α → List Item} {b n : ℕ} {e : Extent} {m' mem' : Mem}
  {hdr : Set ℕ}

inductive Item
  | pointer (slot : ℕ) (target : Option Extent)
  | handle (slot : ℕ)
deriving DecidableEq, Repr

namespace Item

def bytes : Item → Set ℕ
  | .pointer slot _ => span slot 8
  | .handle slot => span slot 4

def extent : Item → Option Extent
  | .pointer _ target => target
  | .handle _ => none

def isHandle : Item → Bool
  | .pointer _ _ => false
  | .handle _ => true

end Item

def extents (items : List Item) : List Extent := items.filterMap Item.extent

def slots (items : List Item) : Set ℕ := {b | ∃ i ∈ items, b ∈ i.bytes}

@[simp] theorem extents_nil : extents [] = [] := rfl

@[simp] theorem extents_cons_some (slot : ℕ) (e : Extent) (l : List Item) :
    extents (.pointer slot (some e) :: l) = e :: extents l := rfl

@[simp] theorem extents_append (l r : List Item) : extents (l ++ r) = extents l ++ extents r :=
  filterMap_append

theorem slots_singleton (i : Item) : slots [i] = i.bytes := by
  ext b
  simp [slots]

theorem slots_append (l r : List Item) : slots (l ++ r) = slots l ∪ slots r := by
  ext b
  simp [slots, or_and_right, exists_or]

theorem mem_slots_flatMap : b ∈ slots (ps.flatMap f) ↔ ∃ p ∈ ps, b ∈ slots (f p) := by
  simp only [slots, mem_flatMap, mem_ofPred_eq]
  constructor
  · intro h
    obtain ⟨i, ⟨p, hp, hi⟩, hb⟩ := h
    exact ⟨p, hp, i, hi, hb⟩
  · intro h
    obtain ⟨p, hp, i, hi, hb⟩ := h
    exact ⟨i, ⟨p, hp, hi⟩, hb⟩

theorem extents_flatMap (ps : List α) (f : α → List Item) :
    extents (ps.flatMap f) = ps.flatMap fun p => extents (f p) := by
  induction ps with
  | nil => rfl
  | cons p ps ih => simp [extents_append, ih]

theorem mem_extents_flatMap : e ∈ extents (ps.flatMap f) ↔ ∃ p ∈ ps, e ∈ extents (f p) := by
  rw [extents_flatMap, mem_flatMap]

def lens (items : List Item) : List ℕ := (extents items).map Extent.len

@[simp] theorem lens_append (l r : List Item) : lens (l ++ r) = lens l ++ lens r := by
  simp [lens, extents_append]

def cover (es : List Extent) : Set ℕ := {b | ∃ e ∈ es, b ∈ e.bytes}

theorem foldl_eqOn {σ : Type*} (mem : σ → Mem) (act : σ → Item → σ)
    (hact : ∀ st i, Set.EqOn (mem (act st i)) (mem st) i.bytesᶜ) (items : List Item) (st : σ) :
    Set.EqOn (mem (items.foldl act st)) (mem st) (slots items)ᶜ := by
  induction items generalizing st with
  | nil => exact fun _ _ => rfl
  | cons i items ih =>
    intro b hb
    have hi : b ∈ i.bytesᶜ := fun h => hb ⟨i, .head _, h⟩
    have hs : b ∈ (slots items)ᶜ := by
      intro h
      obtain ⟨j, hj, h⟩ := h
      exact hb ⟨j, .tail _ hj, h⟩
    rw [foldl_cons, ih (act st i) hs, hact st i hi]

structure Scheme (κ : Type*) where
  items : Mem → κ × ℕ → List Item
  kids : Mem → κ × ℕ → List (κ × ℕ)
  touch : Mem → κ × ℕ → Set ℕ
  bytes_subset : ∀ m p, ∀ i ∈ items m p, i.bytes ⊆ touch m p
  items_apart : ∀ m p, (items m p).Pairwise fun i j => Disjoint i.bytes j.bytes
  depends : ∀ m m' p, Set.EqOn m m' (touch m p) → items m' p = items m p ∧ kids m' p = kids m p

namespace Scheme

variable {κ : Type*} (S : Scheme κ) (m : Mem)

def walk : ℕ → κ × ℕ → List Item
  | 0, _ => []
  | n + 1, p => S.items m p ++ (S.kids m p).flatMap (walk n)

def foot : ℕ → κ × ℕ → Set ℕ
  | 0, _ => ∅
  | n + 1, p => S.touch m p ∪ {b | ∃ q ∈ S.kids m p, b ∈ foot n q}

def Apart : ℕ → κ × ℕ → Prop
  | 0, _ => True
  | n + 1, p => (∀ q ∈ S.kids m p, Disjoint (S.touch m p) (S.foot m n q)) ∧
      ((S.kids m p).Pairwise fun q r => Disjoint (S.foot m n q) (S.foot m n r)) ∧
      ∀ q ∈ S.kids m p, Apart n q

/-- The traversal ends within `n` levels and every place it visits satisfies `P`. -/
def Legal (P : κ × ℕ → Prop) : ℕ → κ × ℕ → Prop
  | 0, _ => False
  | n + 1, p => P p ∧ ∀ q ∈ S.kids m p, Legal P n q

instance Legal.decidable (P : κ × ℕ → Prop) [DecidablePred P] :
    ∀ (n : ℕ) (p : κ × ℕ), Decidable (S.Legal m P n p)
  | 0, _ => inferInstanceAs (Decidable False)
  | n + 1, p =>
    have := Legal.decidable P n
    inferInstanceAs (Decidable (P p ∧ ∀ q ∈ S.kids m p, S.Legal m P n q))

variable {S m} {P : κ × ℕ → Prop} {p q : κ × ℕ} {qs : List (κ × ℕ)}

theorem touch_subset_foot (n : ℕ) (p : κ × ℕ) : S.touch m p ⊆ S.foot m (n + 1) p :=
  subset_union_left

theorem foot_kid_subset (hq : q ∈ S.kids m p) : S.foot m n q ⊆ S.foot m (n + 1) p :=
  fun _ hb => Or.inr ⟨q, hq, hb⟩

theorem slots_walk_subset_foot (n : ℕ) (p : κ × ℕ) : slots (S.walk m n p) ⊆ S.foot m n p := by
  induction n generalizing p with
  | zero =>
    intro b hb
    obtain ⟨i, hi, -⟩ := hb
    cases hi
  | succ n ih =>
    intro b hb
    rw [walk, slots_append] at hb
    rcases hb with ⟨i, hi, hb⟩ | hb
    · exact Or.inl (S.bytes_subset m p i hi hb)
    · obtain ⟨q, hq, hb⟩ := mem_slots_flatMap.mp hb
      exact foot_kid_subset hq (ih q hb)

theorem bytes_subset_foot {i : Item} (hi : i ∈ S.walk m n p) : i.bytes ⊆ S.foot m n p :=
  fun _ hb => slots_walk_subset_foot n p ⟨i, hi, hb⟩

theorem flatMap_walk_pairwise (hw : ∀ q ∈ qs, (S.walk m n q).Pairwise fun i j =>
    Disjoint i.bytes j.bytes)
    (hqs : qs.Pairwise fun q r => Disjoint (S.foot m n q) (S.foot m n r)) :
    (qs.flatMap (S.walk m n)).Pairwise fun i j => Disjoint i.bytes j.bytes := by
  rw [pairwise_flatMap]
  refine ⟨hw, hqs.imp ?_⟩
  intro q r hqr i hi j hj
  exact hqr.mono (bytes_subset_foot hi) (bytes_subset_foot hj)

theorem mem_slots_of_foot (hqs : qs.Pairwise fun q r => Disjoint (S.foot m n q) (S.foot m n r))
    (hq : q ∈ qs) (hb : b ∈ S.foot m n q)
    (hs : b ∈ slots (qs.flatMap (S.walk m n))) : b ∈ slots (S.walk m n q) := by
  obtain ⟨r, hr, hs⟩ := mem_slots_flatMap.mp hs
  by_cases hqr : r = q
  · exact hqr ▸ hs
  · have : Std.Symm fun q r => Disjoint (S.foot m n q) (S.foot m n r) := ⟨fun _ _ h => h.symm⟩
    have hd := hqs.forall hq hr (Ne.symm hqr)
    exact absurd (slots_walk_subset_foot n r hs) (disjoint_left.mp hd hb)

theorem walk_pairwise (n : ℕ) (p : κ × ℕ) (ha : S.Apart m n p) :
    (S.walk m n p).Pairwise fun i j => Disjoint i.bytes j.bytes := by
  induction n generalizing p with
  | zero => exact List.Pairwise.nil
  | succ n ih =>
    obtain ⟨hpk, hkk, hk⟩ := ha
    rw [walk, pairwise_append]
    refine ⟨S.items_apart m p, flatMap_walk_pairwise (fun q hq => ih q (hk q hq)) hkk, ?_⟩
    intro i hi j hj
    obtain ⟨q, hq, hj⟩ := mem_flatMap.mp hj
    exact (hpk q hq).mono (S.bytes_subset m p i hi) (bytes_subset_foot hj)

theorem walk_congr (n : ℕ) (p : κ × ℕ) (h : Set.EqOn m m' (S.foot m n p)) :
    S.walk m' n p = S.walk m n p := by
  induction n generalizing p with
  | zero => rfl
  | succ n ih =>
    obtain ⟨hi, hk⟩ := S.depends m m' p (h.mono (touch_subset_foot n p))
    rw [walk, walk, hi, hk]
    congr 1
    apply flatMap_congr
    intro q hq
    exact ih q (h.mono (foot_kid_subset hq))

theorem Legal.here (h : S.Legal m P n p) : P p := by
  cases n with
  | zero => cases h
  | succ n => exact h.1

theorem Legal.imp {Q : κ × ℕ → Prop} (hPQ : ∀ p, P p → Q p) (h : S.Legal m P n p) :
    S.Legal m Q n p := by
  induction n generalizing p with
  | zero => exact h
  | succ n ih => exact ⟨hPQ p h.1, fun q hq => ih (h.2 q hq)⟩

theorem Legal.and {Q : κ × ℕ → Prop} (hP : S.Legal m P n p)
    (hQ : S.Legal m Q n p) : S.Legal m (fun q => P q ∧ Q q) n p := by
  induction n generalizing p with
  | zero => exact hP
  | succ n ih => exact ⟨⟨hP.1, hQ.1⟩, fun q hq => ih (hP.2 q hq) (hQ.2 q hq)⟩

theorem Legal.forall_walk {Q : Item → Prop} (hPQ : ∀ p, P p → ∀ i ∈ S.items m p, Q i)
    (h : S.Legal m P n p) : ∀ i ∈ S.walk m n p, Q i := by
  induction n generalizing p with
  | zero => cases h
  | succ n ih =>
    intro i hi
    rw [walk, mem_append] at hi
    rcases hi with hi | hi
    · exact hPQ p h.1 i hi
    · obtain ⟨q, hq, hi⟩ := mem_flatMap.mp hi
      exact ih (h.2 q hq) i hi

theorem Legal.succ (h : S.Legal m P n p) :
    S.Legal m P (n + 1) p ∧ S.walk m (n + 1) p = S.walk m n p := by
  induction n generalizing p with
  | zero => cases h
  | succ n ih =>
    refine ⟨⟨h.1, fun q hq => (ih (h.2 q hq)).1⟩, ?_⟩
    rw [walk, walk]
    congr 1
    apply flatMap_congr
    intro q hq
    exact (ih (h.2 q hq)).2

theorem Legal.mono {n' : ℕ} (h : S.Legal m P n p) (hn : n ≤ n') :
    S.Legal m P n' p ∧ S.walk m n' p = S.walk m n p := by
  induction n', hn using Nat.le_induction with
  | base => exact ⟨h, rfl⟩
  | succ n' _ ih =>
    obtain ⟨hl, hw⟩ := ih.1.succ
    exact ⟨hl, hw.trans ih.2⟩

theorem Legal.transfer {S' : Scheme κ} {P' : κ × ℕ → Prop} {R : Item → Prop}
    (hstep : ∀ p, P p → Set.EqOn m m' (S.touch m p \ slots (S.items m p)) →
      (∀ i ∈ S.items m p, R i) →
      S'.items m' p = S.items m p ∧ S'.kids m' p = S.kids m p ∧ P' p) (hl : S.Legal m P n p) (ha :
        S.Apart m n p)
    (heq : Set.EqOn m m' (S.foot m n p \ slots (S.walk m n p))) (hR : ∀ i ∈ S.walk m n p, R i) :
    S'.walk m' n p = S.walk m n p ∧ S'.Legal m' P' n p := by
  induction n generalizing p with
  | zero => cases hl
  | succ n ih =>
    obtain ⟨hpk, hkk, hk⟩ := ha
    have hown : S'.items m' p = S.items m p ∧ S'.kids m' p = S.kids m p ∧ P' p := by
      apply hstep p hl.1
      · intro b hb
        refine heq ⟨Or.inl hb.1, ?_⟩
        rw [walk, slots_append]
        intro hs
        rcases hs with hs | hs
        · exact hb.2 hs
        · obtain ⟨q, hq, hs⟩ := mem_slots_flatMap.mp hs
          exact disjoint_left.mp (hpk q hq) hb.1 (slots_walk_subset_foot n q hs)
      · exact fun i hi => hR i (mem_append_left _ hi)
    have hkid : ∀ q ∈ S.kids m p, S'.walk m' n q = S.walk m n q ∧ S'.Legal m' P' n q := by
      intro q hq
      apply ih (hl.2 q hq) (hk q hq)
      · intro b hb
        refine heq ⟨foot_kid_subset hq hb.1, ?_⟩
        rw [walk, slots_append]
        intro hs
        rcases hs with ⟨i, hi, hs⟩ | hs
        · exact disjoint_left.mp (hpk q hq) (S.bytes_subset m p i hi hs) hb.1
        · exact hb.2 (mem_slots_of_foot hkk hq hb.1 hs)
      · intro i hi
        exact hR i (mem_append_right _ (mem_flatMap.mpr ⟨q, hq, hi⟩))
    refine ⟨?_, hown.2.2, ?_⟩
    · rw [walk, walk, hown.1, hown.2.1]
      congr 1
      apply flatMap_congr
      intro q hq
      exact (hkid q hq).1
    · rw [hown.2.1]
      exact fun q hq => (hkid q hq).2

/-- The memory `mem` still shows what `m` shows at the places `qs` and in the
bytes `hdr` that say which places these are, and none of them overlap. -/
structure Ready (S : Scheme κ) (m : Mem) (n : ℕ) (hdr : Set ℕ) (qs : List (κ × ℕ))
    (mem : Mem) : Prop where
  header : Set.EqOn m mem hdr
  feet : ∀ q ∈ qs, Set.EqOn m mem (S.foot m n q)
  header_apart : ∀ q ∈ qs, Disjoint hdr (S.foot m n q)
  feet_apart : qs.Pairwise fun q r => Disjoint (S.foot m n q) (S.foot m n r)

theorem Ready.step {mem : Mem} (h : S.Ready m n hdr (q :: qs) mem)
    (hw : Set.EqOn mem' mem (S.foot m n q)ᶜ) :
    S.Ready m n hdr qs mem' where
  header b hb := by
    have hq := disjoint_left.mp (h.header_apart q (.head _)) hb
    rw [h.header hb, hw hq]
  feet r hr b hb := by
    have hq := disjoint_right.mp ((pairwise_cons.mp h.feet_apart).1 r hr) hb
    rw [h.feet r (.tail _ hr) hb, hw hq]
  header_apart r hr := h.header_apart r (.tail _ hr)
  feet_apart := (pairwise_cons.mp h.feet_apart).2

theorem Ready.of_apart {mem : Mem} (ha : S.Apart m (n + 1) p)
    (hm : Set.EqOn m mem (S.foot m (n + 1) p))
    (hw : Set.EqOn mem' mem (slots (S.items m p))ᶜ) (hsub : hdr ⊆ S.touch m p)
    (hoff : Disjoint hdr (slots (S.items m p))) : S.Ready m n hdr (S.kids m p) mem' where
  header b hb := by
    rw [hm (touch_subset_foot n p (hsub hb)), hw (disjoint_left.mp hoff hb)]
  feet q hq b hb := by
    have hs : b ∉ slots (S.items m p) := by
      intro hs
      obtain ⟨i, hi, hs⟩ := hs
      exact disjoint_left.mp (ha.1 q hq) (S.bytes_subset m p i hi hs) hb
    rw [hm (foot_kid_subset hq hb), hw hs]
  header_apart q hq := (ha.1 q hq).mono_left hsub
  feet_apart := ha.2.1

/-- What one place contributes lies in its own slot of `size` bytes and in the
object it points to, and when these two are apart, the slots it leads to share
none of the bytes that are looked at. -/
structure Nested (S : Scheme κ) (m : Mem) (size : κ → ℕ) (p : κ × ℕ) : Prop where
  touch_subset : S.touch m p ⊆ span p.2 (size p.1) ∪ cover (extents (S.items m p))
  kid_subset : ∀ q ∈ S.kids m p,
    span q.2 (size q.1) ⊆ span p.2 (size p.1) ∪ cover (extents (S.items m p))
  kid_disjoint : Disjoint (span p.2 (size p.1)) (cover (extents (S.items m p))) →
    ∀ q ∈ S.kids m p, Disjoint (S.touch m p) (span q.2 (size q.1))
  kids_pairwise : (S.kids m p).Pairwise fun q r =>
    Disjoint (span q.2 (size q.1)) (span r.2 (size r.1))

variable {size : κ → ℕ}

theorem cover_kid_subset (hq : q ∈ S.kids m p) :
    cover (extents (S.walk m n q)) ⊆ cover (extents (S.walk m (n + 1) p)) := by
  intro b hb
  obtain ⟨e, he, hb⟩ := hb
  refine ⟨e, ?_, hb⟩
  rw [walk, extents_append]
  exact mem_append_right _ (mem_extents_flatMap.mpr ⟨q, hq, he⟩)

theorem cover_items_subset (n : ℕ) (p : κ × ℕ) :
    cover (extents (S.items m p)) ⊆ cover (extents (S.walk m (n + 1) p)) := by
  intro b hb
  obtain ⟨e, he, hb⟩ := hb
  refine ⟨e, ?_, hb⟩
  rw [walk, extents_append]
  exact mem_append_left _ he

theorem foot_subset_cover (n : ℕ) (p : κ × ℕ) (h : S.Legal m (S.Nested m size) n p) :
    S.foot m n p ⊆ span p.2 (size p.1) ∪ cover (extents (S.walk m n p)) := by
  induction n generalizing p with
  | zero => cases h
  | succ n ih =>
    intro b hb
    rcases hb with hb | hb
    · rcases h.1.touch_subset hb with hb | hb
      · exact Or.inl hb
      · exact Or.inr (cover_items_subset n p hb)
    · obtain ⟨q, hq, hb⟩ := hb
      rcases ih q (h.2 q hq) hb with hb | hb
      · rcases h.1.kid_subset q hq hb with hb | hb
        · exact Or.inl hb
        · exact Or.inr (cover_items_subset n p hb)
      · exact Or.inr (cover_kid_subset hq hb)

theorem cover_disjoint {es fs : List Extent}
    (h : ∀ e ∈ es, ∀ f ∈ fs, Disjoint e.bytes f.bytes) : Disjoint (cover es) (cover fs) := by
  rw [disjoint_left]
  intro b hb hb'
  obtain ⟨e, he, hb⟩ := hb
  obtain ⟨f, hf, hb'⟩ := hb'
  exact disjoint_left.mp (h e he f hf) hb hb'

theorem apart_of_pairwise (n : ℕ) (p : κ × ℕ) (h : S.Legal m (S.Nested m size) n p)
    (hd : (extents (S.walk m n p)).Pairwise fun e f => Disjoint e.bytes f.bytes)
    (hs : Disjoint (span p.2 (size p.1)) (cover (extents (S.walk m n p)))) : S.Apart m n p := by
  induction n generalizing p with
  | zero => trivial
  | succ n ih =>
    have hw : extents (S.walk m (n + 1) p) = extents (S.items m p) ++
        (S.kids m p).flatMap fun q => extents (S.walk m n q) := by
      rw [walk, extents_append, extents_flatMap]
    rw [hw, pairwise_append, pairwise_flatMap] at hd
    obtain ⟨-, ⟨hself, hcross⟩, hown⟩ := hd
    -- The object at `p` and the objects below a place it leads to.
    have hbelow : ∀ q ∈ S.kids m p, Disjoint
        (span p.2 (size p.1) ∪ cover (extents (S.items m p))) (cover (extents (S.walk m n q))) := by
      intro q hq
      rw [disjoint_union_left]
      refine ⟨hs.mono_right (cover_kid_subset hq), cover_disjoint ?_⟩
      intro e he f hf
      exact hown e he f (mem_flatMap.mpr ⟨q, hq, hf⟩)
    have hkid : ∀ q ∈ S.kids m p, Disjoint (span q.2 (size q.1)) (cover (extents (S.walk m n q))) :=
      fun q hq => (hbelow q hq).mono_left (h.1.kid_subset q hq)
    refine ⟨?_, ?_, fun q hq => ih q (h.2 q hq) (hself q hq) (hkid q hq)⟩
    · intro q hq
      refine Disjoint.mono_right (foot_subset_cover n q (h.2 q hq)) ?_
      rw [disjoint_union_right]
      exact ⟨h.1.kid_disjoint (hs.mono_right (cover_items_subset n p)) q hq, (hbelow q hq).mono_left
        h.1.touch_subset⟩
    · refine (List.Pairwise.and_mem.mp (h.1.kids_pairwise.and hcross)).imp ?_
      intro q r hqr
      obtain ⟨hq, hr, hspan, hext⟩ := hqr
      refine Disjoint.mono (foot_subset_cover n q (h.2 q hq)) (foot_subset_cover n r (h.2 r hr)) ?_
      rw [disjoint_union_left, disjoint_union_right, disjoint_union_right]
      refine ⟨⟨hspan, ?_⟩, ?_, cover_disjoint hext⟩
      · exact (hbelow r hr).mono_left (h.1.kid_subset q hq)
      · exact ((hbelow q hq).mono_left (h.1.kid_subset r hr)).symm

theorem ready_of_pairwise (h : ∀ q ∈ qs, S.Legal m (S.Nested m size) n q) (hsub : hdr ⊆ e.bytes)
    (hin : ∀ q ∈ qs, span q.2 (size q.1) ⊆ e.bytes \ hdr)
    (hpw : qs.Pairwise fun q r => Disjoint (span q.2 (size q.1)) (span r.2 (size r.1)))
    (hd : (e :: extents (qs.flatMap (S.walk m n))).Pairwise fun e f => Disjoint e.bytes f.bytes) :
    S.Ready m n hdr qs m ∧ ∀ q ∈ qs, S.Apart m n q := by
  rw [pairwise_cons, extents_flatMap, pairwise_flatMap] at hd
  obtain ⟨hown, hself, hcross⟩ := hd
  have hbelow : ∀ q ∈ qs, Disjoint e.bytes (cover (extents (S.walk m n q))) := by
    intro q hq
    rw [disjoint_left]
    intro b hb hb'
    obtain ⟨f, hf, hb'⟩ := hb'
    exact disjoint_left.mp (hown f (mem_flatMap.mpr ⟨q, hq, hf⟩)) hb hb'
  have hslot : ∀ q ∈ qs, span q.2 (size q.1) ⊆ e.bytes := fun q hq b hb => (hin q hq hb).1
  refine ⟨⟨fun _ _ => rfl, fun _ _ _ _ => rfl, ?_, ?_⟩, ?_⟩
  · intro q hq
    refine Disjoint.mono_right (foot_subset_cover n q (h q hq)) ?_
    rw [disjoint_union_right]
    exact ⟨disjoint_right.mpr fun b hb => (hin q hq hb).2, (hbelow q hq).mono_left hsub⟩
  · refine (List.Pairwise.and_mem.mp (hpw.and hcross)).imp ?_
    intro q r hqr
    obtain ⟨hq, hr, hspan, hext⟩ := hqr
    refine Disjoint.mono (foot_subset_cover n q (h q hq)) (foot_subset_cover n r (h r hr)) ?_
    rw [disjoint_union_left, disjoint_union_right, disjoint_union_right]
    exact ⟨⟨hspan, (hbelow r hr).mono_left (hslot q hq)⟩,
      ((hbelow q hq).mono_left (hslot r hr)).symm, cover_disjoint hext⟩
  · intro q hq
    exact apart_of_pairwise n q (h q hq) (hself q hq) ((hbelow q hq).mono_left (hslot q hq))

/-- The slot of `p` lies from `base` on and ends before its object, which ends before `stop`. -/
structure Forward (S : Scheme κ) (m : Mem) (size : κ → ℕ) (base stop : ℕ) (p : κ × ℕ) : Prop where
  base_le : base ≤ p.2
  le_stop : p.2 + size p.1 ≤ stop
  object : ∀ e ∈ extents (S.items m p), p.2 + size p.1 ≤ e.addr ∧ e.stop ≤ stop

theorem Legal.forward {base lo hi : ℕ}
    (h : S.Legal m (fun q => S.Nested m size q ∧ 0 < size q.1) n p)
    (hbase : base ≤ p.2) (hslot : p.2 + size p.1 ≤ lo)
    (hp : Packed lo (extents (S.walk m n p)) hi) :
    S.Legal m (S.Forward m size base hi) n p := by
  induction n generalizing p lo with
  | zero => cases h
  | succ n ih =>
    obtain ⟨⟨hnested, -⟩, hkids⟩ := h
    rw [walk, extents_append, extents_flatMap] at hp
    obtain ⟨mid, hown, hbelow⟩ := hp.split
    refine ⟨⟨hbase, hslot.trans (hown.le.trans hbelow.le), ?_⟩, ?_⟩
    · intro e he
      exact ⟨hslot.trans (hown.mem he).1, (hown.mem he).2.trans hbelow.le⟩
    · intro q hq
      have hpos := (hkids q hq).here.2
      have hsub := hnested.kid_subset q hq
      -- The first and the last byte of the slot lie in the slot or the object of `p`.
      have hin : ∀ b ∈ span q.2 (size q.1), base ≤ b ∧ b < mid := by
        intro b hb
        rcases hsub hb with hb | ⟨e, he, hb⟩
        · have := hown.le
          simp only [mem_span] at hb
          omega
        · obtain ⟨h₁, h₂⟩ := hown.mem he
          have hb' : e.addr ≤ b ∧ b < e.stop := hb
          omega
      have hfirst := hin q.2 (by simp only [mem_span]; omega)
      have hlast := hin (q.2 + size q.1 - 1) (by simp only [mem_span]; omega)
      exact ih (hkids q hq) hfirst.1 (by omega) (hbelow.of_flatMap hq)

end Scheme

end Mojo.Memory
