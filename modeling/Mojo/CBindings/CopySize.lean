import Mojo.CBindings.DeepCopy

/-!
# The serialized size is what a copy needs

For a value in memory that is a tree of objects, the serialized size is the
number of bytes that its copy takes, so that a copy into a buffer succeeds
exactly when the buffer has that many bytes left.
-/

namespace Mojo.CBindings

open Mojo.Memory

variable {Γ : Descriptors} {m : Mem} {src ptrs : Set ℕ} {n : ℕ}

structure Value (Γ : Descriptors) (d : TypeDescriptorStruct) (m : Mem) (t depth : ℕ) : Prop where
  pos : t ≠ 0
  header : headerSize ≤ load m t 4
  stop : t + load m t 4 ≤ 2 ^ 64
  slots : ∀ e ∈ d.entries, e.minVersion ≤ load m (t + 4) 4 → headerSize + e.offset +
    slotSize e.elemType ≤ load m t 4
  legal : ∀ q ∈ structKids d m t, (scheme Γ .inMemory).Legal m (Typed Γ m) depth q

structure Tree (Γ : Descriptors) (d : TypeDescriptorStruct) (m : Mem) (t depth : ℕ) : Prop
    extends Value Γ d m t depth where
  disjoint : (⟨t, load m t 4⟩ :: extents (structWalk Γ .inMemory d m t depth)).Pairwise
    fun e f => Disjoint e.bytes f.bytes

def copyRoom (Γ : Descriptors) (d : TypeDescriptorStruct) (m : Mem) (t n : ℕ) : ℕ :=
  roundTo8 (load m t 4) + weights roundTo8 Γ m n (structKids d m t)

def Whole (Γ : Descriptors) (d : TypeDescriptorStruct) (m : Mem) (t n : ℕ) : Prop :=
  ∀ k ∈ load m t 4 :: lens (structWalk Γ .inMemory d m t n), k % 8 = 0

instance (Γ : Descriptors) (d : TypeDescriptorStruct) (m : Mem) (t n : ℕ) :
    Decidable (Whole Γ d m t n) := inferInstanceAs (Decidable (∀ k ∈ _, _))

def treeBytes (Γ : Descriptors) (d : TypeDescriptorStruct) (m : Mem) (t n : ℕ) : Set ℕ :=
  cover (⟨t, load m t 4⟩ :: extents (structWalk Γ .inMemory d m t n))

def pointerBytes (items : List Item) : Set ℕ := {b | ∃ s e, .pointer s e ∈ items ∧ b ∈ span s 8}

structure StructCopied (Γ : Descriptors) (d : TypeDescriptorStruct) (m m' : Mem) (n t t' : ℕ) :
    Prop where
  size : load m' t' 4 = load m t 4
  version : load m' (t' + 4) 4 = load m (t + 4) 4
  bytes : ∀ k < load m t 4, t + k ∉ pointerBytes (structWalk Γ .inMemory d m t n) →
    m' (t' + k) = m (t + k)
  copied : ∀ q ∈ structKids d m t, Copied Γ m m' (pointerBytes (structWalk Γ .inMemory d m t n)) n q
    (moved t t' q)

theorem cover_mono {es fs : List Extent} (h : ∀ e ∈ es, e ∈ fs) : cover es ⊆ cover fs := by
  intro b hb
  obtain ⟨e, he, hb⟩ := hb
  exact ⟨e, h e he, hb⟩

theorem Elem.IsObject.pointer_mem_items {p : Place} (hobj : p.1.IsObject) :
    ∃ e, .pointer p.2 e ∈ (scheme Γ .inMemory).items m p := by
  by_cases ht : target .inMemory m p.2 = 0
  · exact ⟨none, (hobj.null_eq (Γ := Γ) ht).1 ▸ (.head _)⟩
  · exact ⟨some _, hobj.items_eq (Γ := Γ) ht ▸ List.mem_cons_self⟩

theorem legal_copyable (hΓ : Γ.WellFormed) (n : ℕ) (p : Place)
    (hl : (scheme Γ .inMemory).Legal m (Typed Γ m) n p)
    (hslot : span p.2 p.1.size ⊆ src)
    (hsrc : cover (extents ((scheme Γ .inMemory).walk m n p)) ⊆ src)
    (hptrs : pointerBytes ((scheme Γ .inMemory).walk m n p) ⊆ ptrs) :
    (scheme Γ .inMemory).Legal m (Copyable Γ m src ptrs) n p := by
  induction n generalizing p with
  | zero => cases hl
  | succ n ih =>
    obtain ⟨hp, hkids⟩ := hl
    have hown := (Scheme.cover_items_subset n p).trans hsrc
    refine ⟨⟨hp, hslot, ?_, ?_⟩, ?_⟩
    · intro hobj ht b hb
      apply hown
      rw [hobj.items_eq ht]
      exact ⟨_, .head _, hb⟩
    · intro hobj b hb
      obtain ⟨e, he⟩ := hobj.pointer_mem_items (Γ := Γ) (m := m)
      exact hptrs ⟨p.2, e, List.mem_append_left _ he, hb⟩
    · intro q hq
      apply ih q (hkids q hq)
      · exact ((nested_of_fits hΓ hp.fits).kid_subset q hq).trans (Set.union_subset hslot hown)
      · exact (Scheme.cover_kid_subset hq).trans hsrc
      · intro b hb
        obtain ⟨s, e, he, hb⟩ := hb
        exact hptrs ⟨s, e, List.mem_append_right _ (List.mem_flatMap.mpr ⟨q, hq, he⟩), hb⟩

section

variable {d : TypeDescriptorStruct} {t : ℕ}

theorem Value.legal_copyable (hΓ : Γ.WellFormed) (h : Value Γ d m t n) : ∀ q ∈ structKids d m t,
    (scheme Γ .inMemory).Legal m (Copyable Γ m (treeBytes Γ d m t n)
      (pointerBytes (structWalk Γ .inMemory d m t n))) n q := by
  intro q hq
  apply CBindings.legal_copyable hΓ n q (h.legal q hq)
  · obtain ⟨h₁, h₂⟩ := structKids_inside hq h.slots
    intro b hb
    exact ⟨_, .head _, span_subset (by omega) h₂ hb⟩
  · apply cover_mono
    intro e he
    exact .tail _ (mem_extents_flatMap.mpr ⟨q, hq, he⟩)
  · intro b hb
    obtain ⟨s, e, he, hb⟩ := hb
    exact ⟨s, e, List.mem_flatMap.mpr ⟨q, hq, he⟩, hb⟩

theorem Value.copies (hΓ : Γ.WellFormed) (hd : d.WellFormed) (h : Value Γ d m t n) {st : CopyState}
    {out : ℕ} (hout : out ≠ 0) (hc : Copying m (treeBytes Γ d m t n) st)
    (hslot : Disjoint (span out 8) (treeBytes Γ d m t n))
    (hslot' : Disjoint (span out 8) st.buffer.free) :
    Copies st (copyRoom Γ d m t n) (span out 8)
      (ObjectCopied Γ m (pointerBytes (structWalk Γ .inMemory d m t n)) n t (structKids d m t) out
        st)
      (structDeepCopy (dispatchDeepCopy Γ n) d t out st) := by
  have hl := h.legal_copyable hΓ
  have hsrc : span t (load m t 4) ⊆ treeBytes Γ d m t n := fun b hb => ⟨_, .head _, hb⟩
  have h8 := h.header
  simp only [structDeepCopy, h.pos, hout, or_self, ↓reduceIte]
  apply copies_object (structDeepCopyEntries (dispatchDeepCopy Γ n) t out d.entries) hc hsrc
    h.header hslot hslot' (fun q hq => structKids_inside hq h.slots)
    (structKids_pairwise hd m t)
      (fun q hq => ⟨(hl q hq).imp fun _ hp => hp.typed.fits, copiesAt hΓ n q (hl q hq)⟩)
  apply structDeepCopyEntries_copies hΓ
  simp only [headerSize] at h8
  exact (span_subset le_rfl (by omega)).trans hsrc

theorem Value.extent_le (h : Value Γ d m t n) :
    ∀ e ∈ extents (structWalk Γ .inMemory d m t n), 1 ≤ e.addr ∧ e.stop ≤ 2 ^ 64 := by
  intro e he
  obtain ⟨q, hq, he⟩ := mem_extents_flatMap.mp he
  refine legal_forall_extents (Q := fun e => 1 ≤ e.addr ∧ e.stop ≤ 2 ^ 64) ?_ (h.legal q hq) e he
  intro p hp hobj ht
  exact ⟨Nat.one_le_iff_ne_zero.mpr ht, hp.inside hobj ht⟩

theorem Tree.total_lt (h : Tree Γ d m t n) :
    load m t 4 + weights id Γ m n (structKids d m t) < 2 ^ 64 := by
  have hin : ∀ e ∈ ⟨t, load m t 4⟩ :: extents (structWalk Γ .inMemory d m t n), 1 ≤ e.addr ∧
      e.stop ≤ 2 ^ 64 := by
    intro e he
    rcases he with _ | ⟨_, he⟩
    · exact ⟨Nat.one_le_iff_ne_zero.mpr h.pos, h.stop⟩
    · exact h.toValue.extent_le e he
  have hsum := sum_len_le h.disjoint hin
  rw [List.map_cons, List.sum_cons] at hsum
  have hw : weights id Γ m n (structKids d m t) =
      ((extents (structWalk Γ .inMemory d m t n)).map Extent.len).sum := by
    rw [weights, List.map_id]
    rfl
  dsimp only at hsum
  omega

theorem Tree.size_eq (hΓ : Γ.WellFormed) (h : Tree Γ d m t n) :
    structComputeSerializedSize (dispatchComputeSerializedSize Γ m n) m d t =
      .ok (load m t 4 + weights id Γ m n (structKids d m t)) := by
  rw [structComputeSerializedSize_eq h.pos fun q hq => measures hΓ n q (h.legal q hq),
    wrap64_of_lt h.total_lt]

end

variable {d : TypeDescriptorStruct} {t : ℕ}

theorem Whole.room_eq (h : Whole Γ d m t n) :
    copyRoom Γ d m t n = load m t 4 + weights id Γ m n (structKids d m t) := by
  have hmap : (load m t 4 :: lens (structWalk Γ .inMemory d m t n)).map roundTo8 =
      (load m t 4 :: lens (structWalk Γ .inMemory d m t n)).map id :=
    List.map_congr_left fun k hk => roundTo8_of_dvd (h k hk)
  exact congrArg List.sum hmap

variable {st st' : CopyState}

theorem ObjectCopied.struct {out : ℕ}
    (h : ObjectCopied Γ m (pointerBytes (structWalk Γ .inMemory d m t n)) n t (structKids d m t)
      out st st') : StructCopied Γ d m st'.mem n t st.buffer.cursor where
  size := load_shift fun i hi => h.header i (by omega)
  version := by
    apply load_shift
    intro i hi
    rw [Nat.add_assoc, Nat.add_assoc]
    exact h.header (4 + i) (by omega)
  bytes := h.bytes
  copied := h.copied

theorem ObjectCopied.structWalk_extents {out : ℕ}
    (h : ObjectCopied Γ m (pointerBytes (structWalk Γ .inMemory d m t n)) n t (structKids d m t) out
      st st') :
    ⟨st.buffer.cursor, load st'.mem st.buffer.cursor 4⟩ ::
        extents (structWalk Γ .inMemory d st'.mem st.buffer.cursor n) =
      stack roundTo8 st.buffer.cursor (load m t 4 :: lens (structWalk Γ .inMemory d m t n)) := by
  rw [h.struct.size, structWalk, structKids_moved h.struct.version, h.stacked]
  rfl

/-- A copy of a value succeeds exactly when the buffer has as many bytes left as
the serialized size says. It then takes just these bytes, and everything that
the copy leads to lies in them. -/
theorem deepCopy_iff_size {Γ : Descriptors} (hΓ : Γ.WellFormed) (m : Mem) (i t out fuel : ℕ)
    (b : Buffer)
    (h : Tree Γ (Γ.struct i) m t fuel) (hwhole : Whole Γ (Γ.struct i) m t fuel) (hout : out ≠ 0)
    (hbuf : b.cursor ≠ 0) (hused : b.numBytesUsed ≤ b.bufSize) (hstop : b.buf + b.bufSize ≤ 2 ^ 64)
    (hdest : Disjoint (treeBytes Γ (Γ.struct i) m t fuel) b.free)
    (hslot : Disjoint (span out 8) (treeBytes Γ (Γ.struct i) m t fuel))
    (hslot' : Disjoint (span out 8) b.free) :
    ∃ size copied st',
      structComputeSerializedSize (dispatchComputeSerializedSize Γ m fuel) m (Γ.struct i) t =
        .ok size ∧
      structDeepCopy (dispatchDeepCopy Γ fuel) (Γ.struct i) t out ⟨m, b⟩ = .ok (copied, st') ∧
      (copied = true ↔ size ≤ b.bufSize - b.numBytesUsed) ∧
      Set.EqOn st'.mem m (treeBytes Γ (Γ.struct i) m t fuel) ∧
      (copied = true → st'.buffer = b.advance size ∧
        StructCopied Γ (Γ.struct i) m st'.mem fuel t (load st'.mem out 8) ∧
        ∀ e ∈ ⟨load st'.mem out 8, load st'.mem (load st'.mem out 8) 4⟩ ::
            extents (structWalk Γ .inMemory (Γ.struct i) st'.mem (load st'.mem out 8) fuel),
          b.cursor ≤ e.addr ∧ e.stop ≤ b.cursor + size) := by
  have hc : Copying m (treeBytes Γ (Γ.struct i) m t fuel) ⟨m, b⟩ :=
    ⟨fun _ _ => rfl, hdest, hbuf, hused, hstop⟩
  obtain ⟨st', hx, hframe, hdone⟩ := h.toValue.copies hΓ (hΓ.struct i) hout hc hslot hslot'
  rw [hwhole.room_eq] at hdone
  simp only [hwhole.room_eq] at hx
  refine ⟨_, _, st', h.size_eq hΓ, hx, ?_, ?_, ?_⟩
  · rw [decide_eq_true_eq, Buffer.Holds]
    omega
  · refine hframe.mono ?_
    rw [Set.subset_compl_iff_disjoint_right, Set.disjoint_union_right]
    exact ⟨hslot.symm, hdest⟩
  · intro hcopied
    have hd := hdone (of_decide_eq_true hcopied)
    have hptr : load st'.mem out 8 = b.cursor := hd.pointer
    rw [hptr]
    have hbuffer : st'.buffer = b.advance (copyRoom Γ (Γ.struct i) m t fuel) := hd.buffer
    rw [hwhole.room_eq] at hbuffer
    refine ⟨hbuffer, hd.struct, ?_⟩
    intro e he
    rw [hd.structWalk_extents] at he
    rw [← hwhole.room_eq]
    exact (packed_stack le_roundTo8 _ _).mem he

theorem twoNodesInMemory_tree : Tree nodeDescriptors nodeStruct twoNodesInMemory 8 3 where
  pos := by decide
  header := by decide +kernel
  stop := by decide +kernel
  slots := by decide +kernel
  legal := by decide +kernel
  disjoint := twoNodesInMemory_packed.pairwise

theorem twoNodesInMemory_treeBytes :
    treeBytes nodeDescriptors nodeStruct twoNodesInMemory 8 3 ⊆ span 8 48 := by
  intro b hb
  obtain ⟨e, he, hb⟩ := hb
  obtain ⟨h₁, h₂⟩ := twoNodesInMemory_packed.mem he
  exact span_subset h₁ h₂ hb

theorem deepCopy_iff_size_two_nodes : ∃ size copied st',
      structComputeSerializedSize (dispatchComputeSerializedSize nodeDescriptors twoNodesInMemory 3)
        twoNodesInMemory (nodeDescriptors.struct 0) 8 = .ok size ∧
      structDeepCopy (dispatchDeepCopy nodeDescriptors 3) (nodeDescriptors.struct 0) 8 200
        ⟨twoNodesInMemory, ⟨64, 48, 0⟩⟩ = .ok (copied, st') ∧
      (copied = true ↔ size ≤ 48 - 0) ∧
      Set.EqOn st'.mem twoNodesInMemory
        (treeBytes nodeDescriptors (nodeDescriptors.struct 0) twoNodesInMemory 8 3) ∧
      (copied = true → st'.buffer = (⟨64, 48, 0⟩ : Buffer).advance size ∧
        StructCopied nodeDescriptors (nodeDescriptors.struct 0) twoNodesInMemory st'.mem 3 8
        (load st'.mem 200 8) ∧ ∀ e ∈ ⟨load st'.mem 200 8, load st'.mem (load st'.mem 200 8) 4⟩ ::
            extents (structWalk nodeDescriptors .inMemory (nodeDescriptors.struct 0) st'.mem
            (load st'.mem 200 8) 3),
          (⟨64, 48, 0⟩ : Buffer).cursor ≤ e.addr ∧ e.stop ≤ (⟨64, 48, 0⟩ : Buffer).cursor + size) :=
  deepCopy_iff_size nodeDescriptors_wellFormed twoNodesInMemory 0 8 200 3 ⟨64, 48, 0⟩
    twoNodesInMemory_tree (by decide +kernel) (by decide) (by decide) (by decide) (by decide)
    ((span_disjoint_of_le (by decide)).mono_left twoNodesInMemory_treeBytes)
    ((span_disjoint_of_le (by decide)).symm.mono_right twoNodesInMemory_treeBytes)
    (span_disjoint_of_le (by decide)).symm

end Mojo.CBindings
