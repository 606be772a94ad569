import Mojo.CBindings.CopyTree

/-!
# What a deep copy does

A copy succeeds exactly when the objects of the value fit into what is left of
the buffer. It then puts them there one after another, in the order of the
walk, and every slot of the copy is rewritten to lead to the copy of its
object. The source is only read. The proof follows one place at a time: a slot
is copied along with its object, and then what it leads to is copied behind
everything that was copied before.
-/

namespace Mojo.CBindings

open Mojo.Memory Set

variable {Γ : Descriptors} {m : Mem} {src ptrs : Set ℕ} {n : ℕ} {k : ℕ}

namespace Buffer

def cursor (b : Buffer) : ℕ := b.buf + b.numBytesUsed

def advance (b : Buffer) (k : ℕ) : Buffer := { b with numBytesUsed := b.numBytesUsed + k }

def free (b : Buffer) : Set ℕ := span b.cursor (b.bufSize - b.numBytesUsed)

def Holds (b : Buffer) (k : ℕ) : Prop := b.numBytesUsed + k ≤ b.bufSize

instance (b : Buffer) (k : ℕ) : Decidable (b.Holds k) := inferInstanceAs (Decidable (_ ≤ _))

variable {b : Buffer}

theorem Holds.span_subset (h : b.Holds k) : span b.cursor k ⊆ b.free :=
  Memory.span_subset le_rfl (by unfold Holds at h; omega)

theorem cursor_advance (b : Buffer) (k : ℕ) : (b.advance k).cursor = b.cursor + k :=
  (Nat.add_assoc ..).symm

theorem holds_advance {j : ℕ} : (b.advance k).Holds j ↔ b.Holds (k + j) := by
  simp only [Holds, advance, Nat.add_assoc]

theorem free_advance_subset (b : Buffer) (k : ℕ) : (b.advance k).free ⊆ b.free := by
  intro a ha
  simp only [free, cursor, Buffer.advance, mem_span] at ha ⊢
  omega

theorem Holds.mono {j : ℕ} (h : b.Holds k) (hj : j ≤ k) : b.Holds j := by
  unfold Holds at h ⊢
  omega

end Buffer

theorem bufferAllocate_eq (b : Buffer) (k : ℕ) : bufferAllocate b k =
    if b.Holds (roundTo8 k) then some (b.cursor, b.advance (roundTo8 k)) else none := by
  simp only [bufferAllocate]
  by_cases h : b.Holds (roundTo8 k)
  · rw [if_neg (Nat.not_lt.mpr h), if_pos h]
    rfl
  · rw [if_pos (Nat.lt_of_not_ge h), if_neg h]

structure Copying (m : Mem) (src : Set ℕ) (st : CopyState) : Prop where
  source : Set.EqOn m st.mem src
  apart : Disjoint src st.buffer.free
  cursor_ne : st.buffer.cursor ≠ 0
  used : st.buffer.numBytesUsed ≤ st.buffer.bufSize
  stop : st.buffer.buf + st.buffer.bufSize ≤ 2 ^ 64

/-- A computation that succeeds exactly when the `w` bytes it needs are left,
and that writes nothing but the bytes `own` and what is left of the buffer. -/
def Copies (st : CopyState) (w : ℕ) (own : Set ℕ) (done : CopyState → Prop)
    (x : Except Fault (Bool × CopyState)) : Prop :=
  ∃ st', x = .ok (decide (st.buffer.Holds w), st') ∧
    Set.EqOn st'.mem st.mem (own ∪ st.buffer.free)ᶜ ∧ (st.buffer.Holds w → done st')

variable {st : CopyState}

theorem Copies.imp {w : ℕ} {own own' : Set ℕ} {done done' : CopyState → Prop}
    {x : Except Fault (Bool × CopyState)} (h : Copies st w own done x) (hown : own ⊆ own')
    (hdone : ∀ st', done st' → done' st') : Copies st w own' done' x := by
  obtain ⟨st', hx, hframe, hst'⟩ := h
  exact ⟨st', hx, hframe.mono (compl_subset_compl.mpr (union_subset_union_left _ hown)),
    fun hw => hdone st' (hst' hw)⟩

structure PlaceCopied (Γ : Descriptors) (m : Mem) (ptrs : Set ℕ) (n : ℕ) (p : Place) (s : ℕ)
    (st st' : CopyState) : Prop where
  buffer : st'.buffer = st.buffer.advance (weight roundTo8 Γ m n p)
  frame : Set.EqOn st'.mem st.mem
    (span s p.1.size ∪ span st.buffer.cursor (weight roundTo8 Γ m n p))ᶜ
  slot : ∀ k < p.1.size, p.2 + k ∉ ptrs → st'.mem (s + k) = m (p.2 + k)
  copied : Copied Γ m st'.mem ptrs n p (p.1, s)
  stacked : extents ((scheme Γ .inMemory).walk st'.mem n (p.1, s)) =
    stack roundTo8 st.buffer.cursor (lens ((scheme Γ .inMemory).walk m n p))

/-- A place whose slot has been copied as it is to `s`, with nothing in the way. -/
structure Ready (m : Mem) (src : Set ℕ) (p : Place) (s : ℕ) (st : CopyState) : Prop where
  pos : s ≠ 0
  apart : Disjoint (span s p.1.size) src
  before : s + p.1.size ≤ st.buffer.cursor
  bytes : ∀ k < p.1.size, st.mem (s + k) = m (p.2 + k)

def CopiesAt (Γ : Descriptors) (m : Mem) (src ptrs : Set ℕ) (n : ℕ) (p : Place) : Prop :=
  ∀ s st, Copying m src st → Ready m src p s st →
    Copies st (weight roundTo8 Γ m n p) (span s p.1.size) (PlaceCopied Γ m ptrs n p s st)
      (dispatchDeepCopy Γ n p.1.type p.1.desc p.2 s st)

variable {st' : CopyState}

theorem PlaceCopied.keep (hΓ : Γ.WellFormed) {p : Place} {s : ℕ} {mem : Mem}
    (hl : (scheme Γ .inMemory).Legal m (Fits Γ .inMemory m) n p)
    (h : PlaceCopied Γ m ptrs n p s st st')
    (hm : Set.EqOn st'.mem mem
      (span s p.1.size ∪ span st.buffer.cursor (weight roundTo8 Γ m n p))) :
    Copied Γ m mem ptrs n p (p.1, s) ∧
      (scheme Γ .inMemory).walk mem n (p.1, s) = (scheme Γ .inMemory).walk st'.mem n (p.1, s) := by
  have hnested : (scheme Γ .inMemory).Legal st'.mem ((scheme Γ .inMemory).Nested st'.mem Elem.size)
      n (p.1, s) :=
    h.copied.legal (fun _ _ _ hq hfits => nested_of_fits hΓ (hq.here.fits hfits)) hl
  have hcover : cover (extents ((scheme Γ .inMemory).walk st'.mem n (p.1, s))) ⊆
      span st.buffer.cursor (weight roundTo8 Γ m n p) := by
    intro b hb
    obtain ⟨e, he, hb⟩ := hb
    rw [h.stacked] at he
    obtain ⟨h₁, h₂⟩ := (packed_stack le_roundTo8 _ _).mem he
    exact span_subset h₁ h₂ hb
  have hfoot := Scheme.foot_subset_cover n (p.1, s) hnested
  have hall : (scheme Γ .inMemory).foot st'.mem n (p.1, s) ⊆
      span s p.1.size ∪ span st.buffer.cursor (weight roundTo8 Γ m n p) :=
    hfoot.trans (union_subset_union_right _ hcover)
  refine ⟨h.copied.congr (hm.mono (union_subset hall ?_)), Scheme.walk_congr n _ (hm.mono hall)⟩
  exact hcover.trans subset_union_right

def movedSlots (t t' : ℕ) (qs : List Place) : Set ℕ :=
  {b | ∃ q ∈ qs, b ∈ span (moved t t' q).2 q.1.size}

/-- The places `qs` of an object at `t` have been copied to the object at `t'`. -/
structure SlotsCopied (Γ : Descriptors) (m : Mem) (ptrs : Set ℕ) (n t t' : ℕ) (qs : List Place)
    (st st' : CopyState) : Prop where
  buffer : st'.buffer = st.buffer.advance (weights roundTo8 Γ m n qs)
  frame : Set.EqOn st'.mem st.mem
    (movedSlots t t' qs ∪ span st.buffer.cursor (weights roundTo8 Γ m n qs))ᶜ
  slot : ∀ q ∈ qs, ∀ k < q.1.size, q.2 + k ∉ ptrs → st'.mem ((moved t t' q).2 + k) = m (q.2 + k)
  copied : ∀ q ∈ qs, Copied Γ m st'.mem ptrs n q (moved t t' q)
  stacked : extents ((qs.map (moved t t')).flatMap ((scheme Γ .inMemory).walk st'.mem n)) =
    stack roundTo8 st.buffer.cursor (lens (qs.flatMap ((scheme Γ .inMemory).walk m n)))

structure Waiting (m : Mem) (src : Set ℕ) (t t' : ℕ) (qs : List Place) (st : CopyState) :
    Prop where
  copying : Copying m src st
  ready : ∀ q ∈ qs, Ready m src q (moved t t' q).2 st
  pairwise : qs.Pairwise fun q r =>
    Disjoint (span (moved t t' q).2 q.1.size) (span (moved t t' r).2 r.1.size)

theorem Copying.step {s w : ℕ} (h : Copying m src st) (hw : st.buffer.Holds w)
    (hs : Disjoint (span s k) src) (hbuffer : st'.buffer = st.buffer.advance w)
    (hframe : Set.EqOn st'.mem st.mem (span s k ∪ span st.buffer.cursor w)ᶜ) :
    Copying m src st' where
  source b hb := by
    rw [h.source hb]
    refine (hframe ?_).symm
    intro hb'
    rcases hb' with hb' | hb'
    · exact disjoint_left.mp hs hb' hb
    · exact disjoint_left.mp h.apart hb (hw.span_subset hb')
  apart := hbuffer ▸ h.apart.mono_right (Buffer.free_advance_subset _ _)
  cursor_ne := by
    have := h.cursor_ne
    rw [hbuffer, Buffer.cursor_advance]
    omega
  used := hbuffer ▸ hw
  stop := hbuffer ▸ h.stop

variable {qs : List Place}

theorem Waiting.step {t t' : ℕ} {q : Place}
    (h : Waiting m src t t' (q :: qs) st) (hw : st.buffer.Holds (weight roundTo8 Γ m n q))
    (hq : PlaceCopied Γ m ptrs n q (moved t t' q).2 st st') : Waiting m src t t' qs st' := by
  have hq₀ := h.ready q (.head _)
  obtain ⟨hdis, hpw⟩ := List.pairwise_cons.mp h.pairwise
  refine ⟨h.copying.step hw hq₀.apart hq.buffer hq.frame, ?_, hpw⟩
  intro r hr
  have hr₀ := h.ready r (.tail _ hr)
  have hbefore := hr₀.before
  refine ⟨hr₀.pos, hr₀.apart, ?_, ?_⟩
  · rw [hq.buffer, Buffer.cursor_advance]
    omega
  · intro k hk
    rw [← hr₀.bytes k hk]
    apply hq.frame
    intro hb
    rcases hb with hb | hb
    · refine disjoint_right.mp (hdis r hr) ?_ hb
      simp only [mem_span]
      omega
    · simp only [mem_span] at hb
      omega

theorem movedSlots_cons (t t' : ℕ) (q : Place) (qs : List Place) :
    movedSlots t t' (q :: qs) = span (moved t t' q).2 q.1.size ∪ movedSlots t t' qs := by
  ext b
  simp only [movedSlots, List.exists_mem_cons_iff, mem_union, mem_ofPred_eq]

theorem SlotsCopied.nil (t t' : ℕ) (st : CopyState) : SlotsCopied Γ m ptrs n t t' [] st st where
  buffer := rfl
  frame _ _ := rfl
  slot _ hq := absurd hq List.not_mem_nil
  copied _ hq := absurd hq List.not_mem_nil
  stacked := rfl

theorem SlotsCopied.cons (hΓ : Γ.WellFormed) {t t' : ℕ} {q : Place} {st₁ : CopyState}
    (hl : (scheme Γ .inMemory).Legal m (Fits Γ .inMemory m) n q)
    (h : Waiting m src t t' (q :: qs) st)
    (hq : PlaceCopied Γ m ptrs n q (moved t t' q).2 st st₁)
    (hqs : SlotsCopied Γ m ptrs n t t' qs st₁ st') :
    SlotsCopied Γ m ptrs n t t' (q :: qs) st st' := by
  have hq₀ := h.ready q (.head _)
  have hbefore := hq₀.before
  have hdis := (List.pairwise_cons.mp h.pairwise).1
  have hcursor : st₁.buffer.cursor = st.buffer.cursor + weight roundTo8 Γ m n q := by
    rw [hq.buffer, Buffer.cursor_advance]
  have hkeep : Set.EqOn st₁.mem st'.mem (span (moved t t' q).2 q.1.size ∪
      span st.buffer.cursor (weight roundTo8 Γ m n q)) := by
    intro b hb
    refine (hqs.frame ?_).symm
    intro hb'
    rcases hb' with ⟨r, hr, hb'⟩ | hb'
    · have hr₀ := (h.ready r (.tail _ hr)).before
      rcases hb with hb | hb
      · exact disjoint_left.mp (hdis r hr) hb hb'
      · simp only [mem_span] at hb hb'
        omega
    · rw [hcursor] at hb'
      rcases hb with hb | hb <;> simp only [mem_span] at hb hb' <;> omega
  obtain ⟨hcopied, hwalk⟩ := hq.keep hΓ hl hkeep
  refine ⟨?_, ?_, ?_, ?_, ?_⟩
  · rw [hqs.buffer, hq.buffer, weights_cons]
    simp only [Buffer.advance, Nat.add_assoc]
  · intro b hb
    rw [movedSlots_cons, weights_cons] at hb
    rw [hqs.frame, hq.frame]
    · intro hb'
      refine hb ?_
      rcases hb' with hb' | hb'
      · exact Or.inl (Or.inl hb')
      · exact Or.inr (span_subset le_rfl (by omega) hb')
    · intro hb'
      refine hb ?_
      rcases hb' with hb' | hb'
      · exact Or.inl (Or.inr hb')
      · exact Or.inr (span_subset (by omega) (by omega) hb')
  · intro r hr k hk hptr
    rcases hr with _ | ⟨_, hr⟩
    · rw [← hq.slot k hk hptr]
      refine (hkeep (Or.inl ?_)).symm
      simp only [mem_span]
      omega
    · exact hqs.slot r hr k hk hptr
  · intro r hr
    rcases hr with _ | ⟨_, hr⟩
    · exact hcopied
    · exact hqs.copied r hr
  · rw [List.map_cons, List.flatMap_cons, List.flatMap_cons, extents_append, lens_append,
      stack_append, hqs.stacked, hcursor]
    congr 1
    exact (congrArg extents hwalk).trans hq.stacked

def CopiesAll (Γ : Descriptors) (m : Mem) (ptrs : Set ℕ) (n t t' : ℕ) (qs : List Place)
    (st : CopyState) (x : Except Fault (Bool × CopyState)) : Prop :=
  Copies st (weights roundTo8 Γ m n qs) (movedSlots t t' qs) (SlotsCopied Γ m ptrs n t t' qs st) x

/-- The places `qs` of the object at `t` are still to be copied to the object at `t'`, which the
slot `s` leads to. -/
structure CopiesKids (Γ : Descriptors) (m : Mem) (src ptrs : Set ℕ) (n t t' s : ℕ) (qs : List Place)
    (st : CopyState) : Prop where
  kids : ∀ q ∈ qs, (scheme Γ .inMemory).Legal m (Fits Γ .inMemory m) n q ∧ CopiesAt Γ m src ptrs n q
  waiting : Waiting m src t t' qs st
  pointer : load st.mem s 8 = t'
  slot : Disjoint (span s 8) (movedSlots t t' qs ∪ st.buffer.free)

section

variable {t t' s : ℕ} {st : CopyState}

theorem CopiesKids.cons (hΓ : Γ.WellFormed) {q : Place} {qs : List Place}
    {next : CopyState → Except Fault (Bool × CopyState)}
    (h : CopiesKids Γ m src ptrs n t t' s (q :: qs) st)
    (hnext : ∀ st₁, CopiesKids Γ m src ptrs n t t' s qs st₁ →
      CopiesAll Γ m ptrs n t t' qs st₁ (next st₁)) :
    CopiesAll Γ m ptrs n t t' (q :: qs) st
      (dispatchDeepCopy Γ n q.1.type q.1.desc q.2 (moved t t' q).2 st >>= fun r =>
        if r.1 then next r.2 else .ok (false, r.2)) := by
  obtain ⟨hl, hq⟩ := h.kids q (.head _)
  obtain ⟨st₁, hx, hframe, hdone⟩ := hq _ st h.waiting.copying (h.waiting.ready q (.head _))
  have hframe₁ : Set.EqOn st₁.mem st.mem (movedSlots t t' (q :: qs) ∪ st.buffer.free)ᶜ := by
    refine hframe.mono (compl_subset_compl.mpr (union_subset_union_left _ ?_))
    rw [movedSlots_cons]
    exact subset_union_left
  rw [CopiesAll, hx, ok_bind, weights_cons]
  by_cases hw : st.buffer.Holds (weight roundTo8 Γ m n q)
  · have hcopied := hdone hw
    have hfree : st₁.buffer.free ⊆ st.buffer.free := by
      rw [hcopied.buffer]
      exact Buffer.free_advance_subset _ _
    have hsub : movedSlots t t' qs ∪ st₁.buffer.free ⊆ movedSlots t t' (q :: qs) ∪
        st.buffer.free := by
      rw [movedSlots_cons]
      exact union_subset_union subset_union_right hfree
    have hpointer : load st₁.mem s 8 = t' :=
      (load_congr (hframe₁.mono h.slot.subset_compl_right)).trans h.pointer
    obtain ⟨st', hx', hframe', hdone'⟩ := hnext st₁ ⟨fun r hr => h.kids r (.tail _ hr),
      h.waiting.step hw hcopied, hpointer, h.slot.mono_right hsub⟩
    simp only [hcopied.buffer, Buffer.holds_advance] at hx' hdone'
    simp only [hw, decide_true, ↓reduceIte]
    refine ⟨st', hx', ?_, fun hall => .cons hΓ hl h.waiting hcopied (hdone' hall)⟩
    intro b hb
    rw [hframe' fun hb' => hb (hsub hb'), hframe₁ hb]
  · have hall : ¬ st.buffer.Holds (weight roundTo8 Γ m n q + weights roundTo8 Γ m n qs) :=
      fun hall => hw (hall.mono (Nat.le_add_right _ _))
    simp only [hw, decide_false, Bool.false_eq_true, ↓reduceIte]
    exact ⟨st₁, by simp only [hall, decide_false], hframe₁, fun h => absurd h hall⟩

theorem CopiesKids.nil (h : CopiesKids Γ m src ptrs n t t' s [] st) :
    CopiesAll Γ m ptrs n t t' [] st (.ok (true, st)) := by
  have hw : st.buffer.Holds 0 := h.waiting.copying.used
  exact ⟨st, by simp only [weights_nil, hw, decide_true], fun _ _ => rfl, fun _ => .nil t t' st⟩

theorem structDeepCopyEntries_copies (hΓ : Γ.WellFormed) (hsrc : span t 8 ⊆ src)
    (entries : List TypeDescriptorStructEntry) (st : CopyState)
    (h : CopiesKids Γ m src ptrs n t t' s (entryKids m t entries) st) :
    CopiesAll Γ m ptrs n t t' (entryKids m t entries) st
      (structDeepCopyEntries (dispatchDeepCopy Γ n) t s entries st) := by
  induction entries generalizing st with
  | nil => exact h.nil
  | cons e es ih =>
    have hv : load st.mem (t + 4) 4 = load m (t + 4) 4 :=
      (loads_congr (h.waiting.copying.source.mono hsrc)).2
    by_cases hact : e.minVersion ≤ load m (t + 4) 4
    · have hmoved : t' + headerSize + e.offset =
          (moved t t' (e.elem, t + headerSize + e.offset)).2 := by
        simp only [moved]
        omega
      rw [entryKids_of_le hact] at h ⊢
      simp only [structDeepCopyEntries, hv, Nat.not_lt.mpr hact, ↓reduceIte, h.pointer, hmoved]
      exact h.cons hΓ ih
    · rw [entryKids_of_not_le hact] at h ⊢
      simp only [structDeepCopyEntries, hv, Nat.lt_of_not_ge hact, ↓reduceIte]
      exact ih st h

theorem arrayDeepCopyElements_copies (hΓ : Γ.WellFormed) {d : TypeDescriptorArray}
    (helem : d.elemType ≠ .unionPtr ∧ d.elemType ≠ .pod) (is : List ℕ) (st : CopyState)
    (h : CopiesKids Γ m src ptrs n t t' s (elementKids d t is) st) :
    CopiesAll Γ m ptrs n t t' (elementKids d t is) st
      (arrayDeepCopyElements (dispatchDeepCopy Γ n) d t s is st) := by
  induction is generalizing st with
  | nil => exact h.nil
  | cons i is ih =>
    have hmoved : t' + headerSize + slotSize d.elemType * i =
        (moved t t' (d.elem, t + headerSize + slotSize d.elemType * i)).2 := by
      simp only [moved]
      omega
    simp only [arrayDeepCopyElements, arrayIndexByType_eq helem, h.pointer, hmoved]
    exact CopiesKids.cons hΓ h ih

end

/-- The object at `t` with the places `qs` has been copied, and the slot `s` leads to the copy. -/
structure ObjectCopied (Γ : Descriptors) (m : Mem) (ptrs : Set ℕ) (n t : ℕ) (qs : List Place)
    (s : ℕ) (st st' : CopyState) : Prop where
  buffer : st'.buffer = st.buffer.advance (roundTo8 (load m t 4) + weights roundTo8 Γ m n qs)
  frame : Set.EqOn st'.mem st.mem
    (span s 8 ∪ span st.buffer.cursor (roundTo8 (load m t 4) + weights roundTo8 Γ m n qs))ᶜ
  pointer : load st'.mem s 8 = st.buffer.cursor
  header : ∀ k < 8, st'.mem (st.buffer.cursor + k) = m (t + k)
  bytes : ∀ k < load m t 4, t + k ∉ ptrs → st'.mem (st.buffer.cursor + k) = m (t + k)
  copied : ∀ q ∈ qs, Copied Γ m st'.mem ptrs n q (moved t st.buffer.cursor q)
  stacked : extents ((qs.map (moved t st.buffer.cursor)).flatMap
    ((scheme Γ .inMemory).walk st'.mem n)) =
    stack roundTo8 (st.buffer.cursor + roundTo8 (load m t 4))
      (lens (qs.flatMap ((scheme Γ .inMemory).walk m n)))

/-- The state in which the bytes of an object have been copied and its slot leads to them. -/
def CopyState.place (st : CopyState) (t s k : ℕ) : CopyState :=
  ⟨copy (store st.mem s 8 st.buffer.cursor) st.buffer.cursor t k, st.buffer.advance (roundTo8 k)⟩

section

variable {t s : ℕ} {qs : List Place} {st : CopyState}

theorem place_eqOn (st : CopyState) (t s k : ℕ) :
    Set.EqOn (st.place t s k).mem st.mem (span s 8 ∪ span st.buffer.cursor k)ᶜ := by
  intro b hb
  have h₁ : b ∈ (span st.buffer.cursor k)ᶜ := fun h => hb (Or.inr h)
  have h₂ : b ∈ (span s 8)ᶜ := fun h => hb (Or.inl h)
  exact (copy_eqOn disjoint_compl_left h₁).trans (store_eqOn disjoint_compl_left h₂)

theorem place_bytes (h : Copying m src st) {len : ℕ} (hsrc : span t len ⊆ src)
    (hs : Disjoint (span s 8) src)
    (hk : k < len) : (st.place t s len).mem (st.buffer.cursor + k) = m (t + k) := by
  have hb : t + k ∈ src := hsrc (by simp only [mem_span]; omega)
  dsimp only [CopyState.place]
  rw [copy_apply hk, store_apply_of_notMem (disjoint_right.mp hs hb), ← h.source hb]

theorem place_pointer (h : Copying m src st) {len : ℕ} (hlen : 0 < len)
    (hw : st.buffer.Holds (roundTo8 len))
    (hs : Disjoint (span s 8) st.buffer.free) :
    load (st.place t s len).mem s 8 = st.buffer.cursor := by
  have hstop := h.stop
  have hle := le_roundTo8 len
  have hd : Disjoint (span s 8) (span st.buffer.cursor len) :=
    hs.mono_right (hw.mono hle).span_subset
  unfold Buffer.Holds at hw
  have hlt : st.buffer.cursor < 256 ^ 8 := by
    unfold Buffer.cursor
    omega
  rw [CopyState.place, load_congr (copy_eqOn hd), load_store_of_lt hlt]

theorem place_waiting (h : Copying m src st) (hsrc : span t (load m t 4) ⊆ src)
    (hs : Disjoint (span s 8) src) (hw : st.buffer.Holds (roundTo8 (load m t 4)))
    (hin : ∀ q ∈ qs, t + headerSize ≤ q.2 ∧ q.2 + q.1.size ≤ t + load m t 4)
    (hpw : qs.Pairwise fun q r => Disjoint (span q.2 q.1.size) (span r.2 r.1.size)) :
    Waiting m src t st.buffer.cursor qs (st.place t s (load m t 4)) := by
  have hle := le_roundTo8 (load m t 4)
  have hplace := (place_eqOn st t s (load m t 4)).mono (compl_subset_compl.mpr
    (union_subset_union_right (span s 8) (span_subset le_rfl (Nat.add_le_add_left hle _))))
  refine ⟨h.step hw hs rfl hplace, ?_, ?_⟩
  · intro q hq
    obtain ⟨h₁, h₂⟩ := hin q hq
    have hcursor := h.cursor_ne
    refine ⟨?_, ?_, ?_, ?_⟩
    · simp only [moved]
      omega
    · refine (h.apart.mono_right (Set.Subset.trans ?_ (hw.mono hle).span_subset)).symm
      exact span_subset (by simp only [moved]; omega) (by simp only [moved]; omega)
    · simp only [CopyState.place, Buffer.cursor_advance, moved]
      omega
    · intro k hk
      have hb := place_bytes (k := q.2 - t + k) h hsrc hs (by omega)
      rwa [← Nat.add_assoc, show t + (q.2 - t + k) = q.2 + k by omega] at hb
  · refine (List.Pairwise.and_mem.mp hpw).imp ?_
    intro q r hqr
    obtain ⟨hq, hr, hd⟩ := hqr
    obtain ⟨hq₁, -⟩ := hin q hq
    obtain ⟨hr₁, -⟩ := hin r hr
    rw [disjoint_left] at hd ⊢
    intro b hb hb'
    simp only [moved, mem_span] at hb hb'
    exact hd (a := b - st.buffer.cursor + t) (by simp only [mem_span]; omega)
      (by simp only [mem_span]; omega)

theorem copies_object (next : CopyState → Except Fault (Bool × CopyState))
    (h : Copying m src st) (hsrc : span t (load m t 4) ⊆ src) (h8 : headerSize ≤ load m t 4)
    (hs : Disjoint (span s 8) src) (hs' : Disjoint (span s 8) st.buffer.free)
    (hin : ∀ q ∈ qs, t + headerSize ≤ q.2 ∧ q.2 + q.1.size ≤ t + load m t 4)
    (hpw : qs.Pairwise fun q r => Disjoint (span q.2 q.1.size) (span r.2 r.1.size))
    (hkids : ∀ q ∈ qs, (scheme Γ .inMemory).Legal m (Fits Γ .inMemory m) n q ∧
      CopiesAt Γ m src ptrs n q)
    (hnext : ∀ st₁, CopiesKids Γ m src ptrs n t st.buffer.cursor s qs st₁ →
      CopiesAll Γ m ptrs n t st.buffer.cursor qs st₁ (next st₁)) :
    Copies st (roundTo8 (load m t 4) + weights roundTo8 Γ m n qs) (span s 8)
      (ObjectCopied Γ m ptrs n t qs s st) (match bufferAllocate st.buffer (load st.mem t 4) with
      | none => .ok (false, { st with mem := store st.mem s 8 0 })
      | some (addr, buffer) =>
        next ⟨copy (store st.mem s 8 addr) addr t (load st.mem t 4), buffer⟩) := by
  simp only [headerSize] at h8 hin
  have hlen : load st.mem t 4 = load m t 4 :=
    (load_congr (h.source.mono ((span_subset le_rfl (by omega)).trans hsrc))).symm
  have hle := le_roundTo8 (load m t 4)
  rw [hlen, bufferAllocate_eq]
  by_cases hw : st.buffer.Holds (roundTo8 (load m t 4))
  · simp only [hw, ↓reduceIte]
    have hwait := place_waiting (s := s) h hsrc hs hw hin hpw
    have hslots : movedSlots t st.buffer.cursor qs ⊆ span st.buffer.cursor (load m t 4) := by
      intro b hb
      obtain ⟨q, hq, hb⟩ := hb
      obtain ⟨h₁, h₂⟩ := hin q hq
      simp only [moved, mem_span] at hb ⊢
      omega
    have hdis : Disjoint (span s 8)
        (movedSlots t st.buffer.cursor qs ∪ (st.place t s (load m t 4)).buffer.free) := by
      refine hs'.mono_right (union_subset (hslots.trans (hw.mono hle).span_subset) ?_)
      exact Buffer.free_advance_subset _ _
    obtain ⟨st', hx, hframe, hdone⟩ :=
      hnext _ ⟨hkids, hwait, place_pointer h (by omega) hw hs', hdis⟩
    have hplace := place_eqOn st t s (load m t 4)
    have hfree : (st.place t s (load m t 4)).buffer.free ⊆ st.buffer.free :=
      Buffer.free_advance_subset _ _
    simp only [CopyState.place, Buffer.holds_advance] at hx
    refine ⟨st', hx, ?_, ?_⟩
    · intro b hb
      rw [hframe fun hb' => hb ?_, hplace fun hb' => hb ?_]
      · rcases hb' with hb' | hb'
        · exact Or.inl hb'
        · exact Or.inr ((hw.mono hle).span_subset hb')
      · rcases hb' with hb' | hb'
        · exact Or.inr ((hw.mono hle).span_subset (hslots hb'))
        · exact Or.inr (hfree hb')
    · intro hall
      have hd := hdone (Buffer.holds_advance.mpr hall)
      have hcur : (st.place t s (load m t 4)).buffer.cursor =
          st.buffer.cursor + roundTo8 (load m t 4) := Buffer.cursor_advance _ _
      -- Bytes of the copied object that are no slot of it stay as they were copied.
      have hplain : ∀ k < load m t 4, st.buffer.cursor + k ∉ movedSlots t st.buffer.cursor qs →
          st'.mem (st.buffer.cursor + k) = m (t + k) := by
        intro k hk hno
        rw [← place_bytes h hsrc hs hk]
        apply hd.frame
        rw [hcur]
        intro hb
        rcases hb with hb | hb
        · exact hno hb
        · simp only [mem_span] at hb
          omega
      refine ⟨?_, ?_, ?_, ?_, ?_, hd.copied, ?_⟩
      · rw [hd.buffer]
        simp only [CopyState.place, Buffer.advance, Nat.add_assoc]
      · intro b hb
        rw [hd.frame fun hb' => hb ?_, hplace fun hb' => hb ?_]
        · rcases hb' with hb' | hb'
          · exact Or.inl hb'
          · exact Or.inr (span_subset le_rfl (by omega) hb')
        · rw [hcur] at hb'
          rcases hb' with hb' | hb'
          · exact Or.inr (span_subset le_rfl (by omega) (hslots hb'))
          · exact Or.inr (span_subset (by omega) (by omega) hb')
      · rw [← place_pointer (t := t) h (by omega) hw hs']
        refine load_congr (hframe.mono ?_)
        exact hdis.subset_compl_right
      · intro k hk
        refine hplain k (by omega) ?_
        intro hb
        obtain ⟨q, hq, hb⟩ := hb
        obtain ⟨h₁, -⟩ := hin q hq
        simp only [moved, mem_span] at hb
        omega
      · intro k hk hptr
        by_cases hb : st.buffer.cursor + k ∈ movedSlots t st.buffer.cursor qs
        · obtain ⟨q, hq, hb⟩ := hb
          obtain ⟨h₁, -⟩ := hin q hq
          simp only [moved, mem_span] at hb
          have hpos : t + k = q.2 + (t + k - q.2) := by omega
          have hslot := hd.slot q hq (t + k - q.2) (by omega) (hpos ▸ hptr)
          rw [← hpos] at hslot
          rw [← hslot]
          congr 1
          simp only [moved]
          omega
        · exact hplain k hk hb
      · rw [hd.stacked, hcur]
  · have hall : ¬ st.buffer.Holds (roundTo8 (load m t 4) + weights roundTo8 Γ m n qs) :=
      fun hall => hw (hall.mono (Nat.le_add_right _ _))
    simp only [hw, ↓reduceIte]
    refine ⟨{ st with mem := store st.mem s 8 0 }, by simp only [hall, decide_false], ?_,
      fun hall' => absurd hall' hall⟩
    intro b hb
    exact store_apply_of_notMem fun h => hb (Or.inl h)

end

structure Copyable (Γ : Descriptors) (m : Mem) (src ptrs : Set ℕ) (p : Place) : Prop where
  typed : Typed Γ m p
  slot : span p.2 p.1.size ⊆ src
  object : p.1.IsObject → target .inMemory m p.2 ≠ 0 →
    span (target .inMemory m p.2) (load m (target .inMemory m p.2) 4) ⊆ src
  pointer : p.1.IsObject → span p.2 8 ⊆ ptrs

section

variable {p : Place} {s : ℕ} {st st' : CopyState}

theorem Elem.IsObject.ne_union {k : Elem} (h : k.IsObject) : k.type ≠ .union := by
  rcases h with h | h | h <;> simp [h]

theorem Elem.IsObject.not_isHandle {k : Elem} (h : k.IsObject) : ¬ k.IsHandle := by
  rcases h with h | h | h <;> simp [Elem.IsHandle, h]

theorem ObjectCopied.alike (hobj : p.1.IsObject) (ht : target .inMemory m p.2 ≠ 0)
    (hcursor : st.buffer.cursor ≠ 0)
    (h : ObjectCopied Γ m ptrs n (target .inMemory m p.2) ((scheme Γ .inMemory).kids m p) s
      st st') :
    Alike m st'.mem ptrs p (p.1, s) where
  elem := rfl
  null _ := by
    have htgt : target .inMemory st'.mem s = st.buffer.cursor := h.pointer
    simp [htgt, hcursor, ht]
  header _ _ := by
    have htgt : target .inMemory st'.mem s = st.buffer.cursor := h.pointer
    dsimp only
    rw [htgt]
    refine ⟨load_shift fun i hi => h.header i (by omega), load_shift fun i hi => ?_⟩
    rw [Nat.add_assoc, Nat.add_assoc]
    exact h.header (4 + i) (by omega)
  bytes _ _ k hk hptr := by
    have htgt : target .inMemory st'.mem s = st.buffer.cursor := h.pointer
    dsimp only
    rw [htgt]
    exact h.bytes k hk hptr
  union hty := absurd hty hobj.ne_union
  handle hty := absurd hty hobj.not_isHandle

theorem ObjectCopied.place (hp : Copyable Γ m src ptrs p) (hobj : p.1.IsObject)
    (ht : target .inMemory m p.2 ≠ 0) (hcursor : st.buffer.cursor ≠ 0)
    (h : ObjectCopied Γ m ptrs n (target .inMemory m p.2) ((scheme Γ .inMemory).kids m p) s
      st st') :
    PlaceCopied Γ m ptrs (n + 1) p s st st' := by
  have halike := h.alike hobj ht hcursor
  have horigin : origin m p = target .inMemory m p.2 := hobj.origin_eq
  have htgt : target .inMemory st'.mem s = st.buffer.cursor := h.pointer
  have horigin' : origin st'.mem (p.1, s) = st.buffer.cursor :=
    Eq.trans (Elem.IsObject.origin_eq (p := (p.1, s)) hobj) htgt
  have ht' : target .inMemory st'.mem (p.1, s).2 ≠ 0 := halike.target_ne hobj ht
  refine ⟨?_, ?_, ?_, ⟨halike, ?_⟩, ?_⟩
  · rw [hobj.weight_eq ht]
    exact h.buffer
  · rw [hobj.weight_eq ht, hobj.size_eq]
    exact h.frame
  · intro k hk hptr
    rw [hobj.size_eq] at hk
    exact absurd (hp.pointer hobj (by simp only [mem_span]; omega)) hptr
  · rw [horigin, horigin']
    exact h.copied
  · rw [Elem.IsObject.walk_eq (p := (p.1, s)) hobj ht', hobj.walk_eq ht, halike.kids, horigin,
      horigin', extents_cons_some, h.stacked, (halike.header hobj ht).1]
    dsimp only
    rw [htgt]
    rfl

theorem copies_null (hp : Copyable Γ m src ptrs p) (hobj : p.1.IsObject)
    (ht : target .inMemory m p.2 = 0) (hc : Copying m src st) :
    Copies st (weight roundTo8 Γ m (n + 1) p) (span s p.1.size)
      (PlaceCopied Γ m ptrs (n + 1) p s st)
      (.ok (true, { st with mem := store st.mem s 8 0 })) := by
  have hw : st.buffer.Holds 0 := hc.used
  have ht' : target .inMemory (store st.mem s 8 0) s = 0 := load_store_of_lt (by omega)
  rw [hobj.weight_null ht, hobj.size_eq]
  refine ⟨{ st with mem := store st.mem s 8 0 }, by simp only [hw, decide_true], ?_, fun _ => ?_⟩
  · exact fun b hb => store_apply_of_notMem fun h => hb (Or.inl h)
  have halike : Alike m (store st.mem s 8 0) ptrs p (p.1, s) :=
    ⟨rfl, fun _ => by simp only [ht, ht'], fun _ h => absurd ht h, fun _ h => absurd ht h,
      fun h => absurd h hobj.ne_union, fun h => absurd h hobj.not_isHandle⟩
  refine ⟨?_, ?_, ?_, ⟨halike, ?_⟩, ?_⟩
  · rw [hobj.weight_null ht]
    rfl
  · rw [hobj.size_eq]
    exact fun b hb => store_apply_of_notMem fun h => hb (Or.inl h)
  · intro k hk hptr
    rw [hobj.size_eq] at hk
    exact absurd (hp.pointer hobj (by simp only [mem_span]; omega)) hptr
  · rw [(hobj.null_eq (Γ := Γ) ht).2]
    exact fun q hq => absurd hq List.not_mem_nil
  · rw [Elem.IsObject.walk_null (p := (p.1, s)) hobj ht', hobj.walk_null ht]
    rfl

theorem Ready.pointer_disjoint (hobj : p.1.IsObject) (hr : Ready m src p s st) :
    Disjoint (span s 8) src ∧ Disjoint (span s 8) st.buffer.free := by
  have happart := hr.apart
  have hbefore := hr.before
  rw [hobj.size_eq] at happart hbefore
  exact ⟨happart, span_disjoint_of_le hbefore⟩

theorem Copying.load_slot (hc : Copying m src st) (hp : Copyable Γ m src ptrs p)
    (hobj : p.1.IsObject) : load st.mem p.2 8 = target .inMemory m p.2 := by
  have hslot := hp.slot
  rw [hobj.size_eq] at hslot
  exact (load_congr (hc.source.mono hslot)).symm

theorem copiesAt_object (hΓ : Γ.WellFormed) (hp : Copyable Γ m src ptrs p) (hobj : p.1.IsObject)
    {t : ℕ} (htgt : target .inMemory m p.2 = t)
    (hkids : ∀ q ∈ (scheme Γ .inMemory).kids m p,
      (scheme Γ .inMemory).Legal m (Fits Γ .inMemory m) n q ∧ CopiesAt Γ m src ptrs n q)
    (next : ℕ → CopyState → Except Fault (Bool × CopyState))
    (hdisp : ∀ s st, s ≠ 0 → load st.mem p.2 8 = t →
      (t ≠ 0 → load st.mem (t + 4) 4 = load m (t + 4) 4) →
      dispatchDeepCopy Γ (n + 1) p.1.type p.1.desc p.2 s st =
        if t = 0 then .ok (true, { st with mem := store st.mem s 8 0 })
        else match bufferAllocate st.buffer (load st.mem t 4) with
          | none => .ok (false, { st with mem := store st.mem s 8 0 })
          | some (addr, buffer) =>
            next s ⟨copy (store st.mem s 8 addr) addr t (load st.mem t 4), buffer⟩)
    (hnext : t ≠ 0 → span t 8 ⊆ src → ∀ t' s st, CopiesKids Γ m src ptrs n t t' s
      ((scheme Γ .inMemory).kids m p) st →
      CopiesAll Γ m ptrs n t t' ((scheme Γ .inMemory).kids m p) st (next s st)) :
    CopiesAt Γ m src ptrs (n + 1) p := by
  subst htgt
  intro s st hc hr
  have hheader : target .inMemory m p.2 ≠ 0 → span (target .inMemory m p.2) 8 ⊆ src := fun ht =>
    (span_subset le_rfl (Nat.add_le_add_left (hp.typed.fits.header hobj ht) _)).trans
      (hp.object hobj ht)
  rw [hdisp s st hr.pos (hc.load_slot hp hobj) fun ht =>
    (loads_congr (hc.source.mono (hheader ht))).2]
  by_cases ht : target .inMemory m p.2 = 0
  · rw [if_pos ht]
    exact copies_null hp hobj ht hc
  · obtain ⟨hs, hs'⟩ := hr.pointer_disjoint hobj
    rw [if_neg ht, hobj.weight_eq ht, hobj.size_eq]
    exact Copies.imp (copies_object (next s) hc (hp.object hobj ht)
      (hp.typed.fits.header hobj ht) hs hs' (hp.typed.fits.kids_inside hobj ht)
      (nested_of_fits hΓ hp.typed.fits).kids_pairwise hkids
      (hnext ht (hheader ht) _ s)) subset_rfl fun st' h => h.place hp hobj ht hc.cursor_ne

theorem unionDeepCopyEntries_eq (dispatch : DispatchDeepCopy) (numFields u u' : ℕ) (st : CopyState)
    (entries : List TypeDescriptorUnionEntry) :
    unionDeepCopyEntries dispatch numFields u u' entries st =
      match entries.find? fun e => e.tag = load st.mem (u + 4) 4 with
      | none => .ok (load st.mem (u + 4) 4 < numFields ||
          load st.mem (u + 4) 4 == unionTagUnknown, st)
      | some e => if e.elemType = .pod then .ok (true, st) else
          dispatch e.elemType e.elemDescriptor (u + 8) (u' + 8) st :=
  scan_eq_find? (unionDeepCopyEntries dispatch numFields u u' · st) entries rfl fun _ _ => rfl

theorem copies_leaf (hc : Copying m src st) (hr : Ready m src p s st)
    (hitems : lens ((scheme Γ .inMemory).items m p) = [])
    (hkids : (scheme Γ .inMemory).kids m p = []) (halike : Alike m st.mem ptrs p (p.1, s)) :
    Copies st (weight roundTo8 Γ m (n + 1) p) (span s p.1.size)
      (PlaceCopied Γ m ptrs (n + 1) p s st) (.ok (true, st)) := by
  have hwalk : lens ((scheme Γ .inMemory).walk m (n + 1) p) = [] := by
    rw [Scheme.walk, hkids, List.flatMap_nil, List.append_nil, hitems]
  have hweight : weight roundTo8 Γ m (n + 1) p = 0 := by rw [weight, hwalk]; rfl
  have hcopied : Copied Γ m st.mem ptrs (n + 1) p (p.1, s) := by
    refine ⟨halike, ?_⟩
    rw [hkids]
    exact fun q hq => absurd hq List.not_mem_nil
  have hw : st.buffer.Holds 0 := hc.used
  rw [hweight]
  refine ⟨st, by simp only [hw, decide_true], fun _ _ => rfl, fun _ => ?_⟩
  refine ⟨by rw [hweight]; rfl, fun _ _ => rfl, fun k hk _ => hr.bytes k hk, hcopied, ?_⟩
  rw [hwalk]
  exact List.map_eq_nil_iff.mp (hcopied.lens.trans hwalk)

theorem alike_union {mem : Mem} (hty : p.1.type = .union)
    (h : ∀ k < 8, mem (s + k) = m (p.2 + k)) : Alike m mem ptrs p (p.1, s) := by
  have hno : ¬ p.1.IsObject := fun hobj => hobj.ne_union hty
  refine ⟨rfl, fun h => absurd h hno, fun h => absurd h hno, fun h => absurd h hno, fun _ => ?_,
    fun h => by simp [Elem.IsHandle, hty] at h⟩
  refine ⟨load_shift fun i hi => h i (by omega), load_shift fun i hi => ?_⟩
  rw [Nat.add_assoc, Nat.add_assoc]
  exact h (4 + i) (by omega)

theorem Ready.field {e : Elem} (hsize : p.1.size = 16) (he : e.size ≤ 8)
    (hr : Ready m src p s st) : Ready m src (e, p.2 + 8) (s + 8) st := by
  have hpos := hr.pos
  have hbefore := hr.before
  have hapart := hr.apart
  have hbytes := hr.bytes
  rw [hsize] at hbefore hapart hbytes
  refine ⟨by omega, hapart.mono_left (span_subset (by omega) ?_), ?_, ?_⟩
  · dsimp only
    omega
  · dsimp only
    omega
  · intro k hk
    dsimp only at hk ⊢
    rw [Nat.add_assoc, Nat.add_assoc]
    exact hbytes (8 + k) (by omega)

theorem PlaceCopied.of_field {e : Elem} (hty : p.1.type = .union) (he : e.size ≤ 8)
    (hkids : (scheme Γ .inMemory).kids m p = [(e, p.2 + 8)]) (hr : Ready m src p s st)
    (h : PlaceCopied Γ m ptrs n (e, p.2 + 8) (s + 8) st st') :
    PlaceCopied Γ m ptrs (n + 1) p s st st' := by
  have hsize : p.1.size = 16 := by simp [Elem.size, hty, slotSize]
  have hbefore := hr.before
  have hbytes := hr.bytes
  rw [hsize] at hbefore hbytes
  have hsub : span (s + 8) e.size ⊆ span s 16 := span_subset (by omega) (by omega)
  have hkeep : ∀ k < 16, s + k ∉ span (s + 8) e.size → st'.mem (s + k) = m (p.2 + k) := by
    intro k hk hno
    rw [← hbytes k hk]
    apply h.frame
    intro hb
    rcases hb with hb | hb
    · exact hno hb
    · simp only [mem_span] at hb
      omega
  have halike : Alike m st'.mem ptrs p (p.1, s) := by
    apply alike_union hty
    intro k hk
    refine hkeep k (by omega) ?_
    simp only [mem_span]
    omega
  have hweight : weight roundTo8 Γ m (n + 1) p = weight roundTo8 Γ m n (e, p.2 + 8) := by
    rw [weight_union hty, hkids, weights_cons, weights_nil, Nat.add_zero]
  have hmoved : moved (origin m p) (origin st'.mem (p.1, s)) (e, p.2 + 8) = (e, s + 8) := by
    rw [origin_union hty, origin_union (p := (p.1, s)) hty]
    simp [moved]
  have hwalk : ∀ mem s', (scheme Γ .inMemory).kids mem (p.1, s') = [(e, s' + 8)] →
      (scheme Γ .inMemory).walk mem (n + 1) (p.1, s') =
        (scheme Γ .inMemory).walk mem n (e, s' + 8) := by
    intro mem s' hk
    rw [union_walk (p := (p.1, s')) hty, hk, List.flatMap_singleton]
  refine ⟨?_, ?_, ?_, ⟨halike, ?_⟩, ?_⟩
  · rw [hweight]
    exact h.buffer
  · rw [hweight, hsize]
    exact h.frame.mono (compl_subset_compl.mpr (union_subset_union_left _ hsub))
  · intro k hk hptr
    rw [hsize] at hk
    by_cases hk8 : s + k ∈ span (s + 8) e.size
    · simp only [mem_span] at hk8
      have hpos : p.2 + 8 + (k - 8) = p.2 + k := by omega
      have hslot := h.slot (k - 8) (by dsimp only; omega) (by rwa [hpos])
      dsimp only at hslot
      rwa [show s + 8 + (k - 8) = s + k by omega, hpos] at hslot
    · exact hkeep k hk hk8
  · rw [hkids]
    simp only [List.mem_singleton, forall_eq, hmoved]
    exact h.copied
  · rw [hwalk _ s, hwalk m p.2 hkids, h.stacked]
    rw [halike.kids, hkids, List.map_singleton, hmoved]

theorem copiesAt_union (hΓ : Γ.WellFormed) (hp : Copyable Γ m src ptrs p) (hty : p.1.type = .union)
    (hq : ∀ q ∈ (scheme Γ .inMemory).kids m p, CopiesAt Γ m src ptrs n q) :
    CopiesAt Γ m src ptrs (n + 1) p := by
  intro s st hc hr
  have hsize : p.1.size = 16 := by simp [Elem.size, hty, slotSize]
  have hslot := hp.slot
  have hbytes := hr.bytes
  rw [hsize] at hslot hbytes
  -- The slot was copied along with the object it lies in, so copying it again changes nothing.
  have hsame : copy st.mem s p.2 unionLayoutSize = st.mem := by
    funext b
    by_cases hb : b ∈ span s 16
    · simp only [mem_span] at hb
      obtain ⟨k, rfl⟩ : ∃ k, b = s + k := ⟨b - s, by omega⟩
      have hk : p.2 + k ∈ span p.2 16 := by simp only [mem_span]; omega
      rw [unionLayoutSize, copy_apply (by omega), hbytes k (by omega), hc.source (hslot hk)]
    · exact copy_eqOn (disjoint_singleton_left.mpr hb) rfl
  have hs : Set.EqOn m st.mem (span p.2 8) :=
    hc.source.mono ((span_subset le_rfl (by omega)).trans hslot)
  have hitems : lens ((scheme Γ .inMemory).items m p) = [] := by
    simp [scheme, placeItems, hty, lens, extents_nil]
  have halike : Alike m st.mem ptrs p (p.1, s) := alike_union hty fun k hk => hbytes k (by omega)
  have hleaf := fun hkids => copies_leaf (n := n) hc hr hitems hkids halike
  simp only [dispatchDeepCopy, hty, hp.typed.pos, ↓reduceIte, unionDeepCopy, hsame,
    (loads_congr hs).1]
  by_cases h0 : load m p.2 4 = 0
  · have hn : p.1.nullable = true := (hp.typed.present hty).resolve_right (not_not.mpr h0)
    rw [if_pos h0]
    exact hleaf (by simp [scheme, placeKids, hty, hn, h0])
  · have hkids : (scheme Γ .inMemory).kids m p = unionKids (Γ.union p.1.desc) m p.2 := by
      simp [scheme, placeKids, hty, h0]
    have hrec := hp.typed.recognised hty h0
    rw [if_neg h0, unionDeepCopyEntries_eq, (loads_congr hs).2]
    simp only [unionKids, activeEntry, Recognised] at hrec hkids
    cases hact : (Γ.union p.1.desc).entries.find? fun e => e.tag = load m (p.2 + 4) 4 with
    | none =>
      simp only [hact, ne_eq, not_true_eq_false, false_or] at hrec hkids ⊢
      have htag : (decide (load m (p.2 + 4) 4 < (Γ.union p.1.desc).numFields) ||
          load m (p.2 + 4) 4 == unionTagUnknown) = true := by
        simpa using hrec
      rw [htag]
      exact hleaf hkids
    | some e =>
      simp only [hact] at hkids ⊢
      by_cases hpod : e.elemType = .pod
      · simp only [hpod, ↓reduceIte] at hkids ⊢
        exact hleaf hkids
      · simp only [hpod, ↓reduceIte] at hkids ⊢
        have hfield : e.elem.size ≤ 8 := slotSize_le ((hΓ.union _).elem e (activeEntry_mem hact))
        have hweight : weight roundTo8 Γ m (n + 1) p = weight roundTo8 Γ m n (e.elem, p.2 + 8) := by
          rw [weight_union hty, hkids, weights_cons, weights_nil, Nat.add_zero]
        rw [hkids] at hq
        rw [hweight, hsize]
        refine Copies.imp (hq _ (.head _) (s + 8) st hc (hr.field hsize hfield)) ?_
          fun st' h => h.of_field hty hfield hkids hr
        exact span_subset (by omega) (by dsimp only; omega)

theorem copiesAt (hΓ : Γ.WellFormed) (n : ℕ) (p : Place)
    (hl : (scheme Γ .inMemory).Legal m (Copyable Γ m src ptrs) n p)
    : CopiesAt Γ m src ptrs n p := by
  induction n generalizing p with
  | zero => cases hl
  | succ n ih =>
    obtain ⟨hp, hkids⟩ := hl
    have hcopy := fun q hq =>
      And.intro ((hkids q hq).imp fun p (h : Copyable Γ m src ptrs p) => h.typed.fits)
        (ih q (hkids q hq))
    cases hty : p.1.type with
    | unionPtr | pod => simpa [Fits, hty] using hp.typed.fits
    | structPtr | mapPtr =>
      have hs : p.1.IsStruct := by simp [Elem.IsStruct, hty]
      refine copiesAt_object hΓ hp hs.isObject rfl hcopy
        (fun s => structDeepCopyEntries (dispatchDeepCopy Γ n) (target .inMemory m p.2) s
          (Γ.struct p.1.desc).entries)
        ?_ ?_
      · intro s st hpos hload _
        simp only [dispatchDeepCopy, hty, hp.typed.pos, ↓reduceIte, hload]
        split_ifs with ht
        · rfl
        · exact if_neg (not_or.mpr ⟨ht, hpos⟩)
      · intro ht hsrc t' s st h
        rw [hs.kids_eq ht] at h ⊢
        exact structDeepCopyEntries_copies hΓ hsrc _ st h
    | arrayPtr =>
      refine copiesAt_object hΓ hp (Or.inr (Or.inr hty)) rfl hcopy (fun s st =>
        if (Γ.array p.1.desc).elemType = .pod then .ok (true, st)
        else arrayDeepCopyElements (dispatchDeepCopy Γ n) (Γ.array p.1.desc)
          (target .inMemory m p.2) s
          (List.range (load m (target .inMemory m p.2 + 4) 4)) st) ?_ ?_
      · intro s st hpos hload hcount
        simp only [dispatchDeepCopy, hty, hp.typed.pos, ↓reduceIte, hload]
        by_cases ht : target .inMemory m p.2 = 0
        · simp [ht]
        · rw [if_neg ht, if_neg ht, ← hcount ht]
          exact if_neg (not_or.mpr ⟨ht, hpos⟩)
      · intro ht hsrc t' s st h
        rw [arrayPtr_kids_eq hty ht] at h ⊢
        by_cases hpod : (Γ.array p.1.desc).elemType = .pod
        · simp only [arrayKids, hpod, ↓reduceIte] at h ⊢
          exact h.nil
        · simp only [arrayKids, hpod, ↓reduceIte] at h ⊢
          exact arrayDeepCopyElements_copies hΓ ⟨(hΓ.array _).elem, hpod⟩ _ st h
    | union => exact copiesAt_union hΓ hp hty fun q hq => (hcopy q hq).2
    | handle | interface =>
      intro s st hc hr
      have hh : p.1.IsHandle := by simp [Elem.IsHandle, hty]
      have hno : ¬ p.1.IsObject := fun h => h.not_isHandle hh
      have hsize : 4 ≤ p.1.size := by simp only [Elem.size, hty, slotSize]; omega
      simp only [dispatchDeepCopy, hty, hp.typed.pos, ↓reduceIte]
      apply copies_leaf hc hr
      · simp only [scheme, placeItems, hty]
        rfl
      · simp [scheme, placeKids, hty]
      · exact ⟨rfl, fun h => absurd h hno, fun h => absurd h hno, fun h => absurd h hno,
          fun h => by simp [hty] at h, fun _ => load_shift fun i hi => hr.bytes i (by omega)⟩

end

end Mojo.CBindings
