import Mojo.CBindings.Copy
import Mojo.CBindings.ObjectGraph
import Mathlib.Tactic.MkIffOfInductiveProp

/-!
# The serialized size is the size of the objects

`MojomStruct_ComputeSerializedSize` adds up `num_bytes` over the objects of the
walk. It skips handles by asking for pointers and unions, where copying goes
through every slot, so the two agree because a handle leads to no object.
-/

namespace Mojo.CBindings

open Mojo.Memory

variable {p : Place} {dispatch : DispatchSize} {t : ℕ} {d : TypeDescriptorArray} {Γ : Descriptors}
  {m : Mem} {n : ℕ}

def Recognised (d : TypeDescriptorUnion) (m : Mem) (u : ℕ) : Prop :=
  activeEntry d m u ≠ none ∨ load m (u + 4) 4 < d.numFields ∨ load m (u + 4) 4 = unionTagUnknown

instance (d : TypeDescriptorUnion) (m : Mem) (u : ℕ) : Decidable (Recognised d m u) :=
  inferInstanceAs (Decidable (_ ∨ _ ∨ _))

@[mk_iff]
structure Typed (Γ : Descriptors) (m : Mem) (p : Place) : Prop where
  pos : p.2 ≠ 0
  fits : Fits Γ .inMemory m p
  nonnull : p.1.IsObject → p.1.nullable ∨ target .inMemory m p.2 ≠ 0
  present : p.1.type = .union → p.1.nullable ∨ load m p.2 4 ≠ 0
  inside : p.1.IsObject → target .inMemory m p.2 ≠ 0 →
    target .inMemory m p.2 + load m (target .inMemory m p.2) 4 ≤ 2 ^ 64
  recognised : p.1.type = .union → load m p.2 4 ≠ 0 → Recognised (Γ.union p.1.desc) m p.2

instance (Γ : Descriptors) (m : Mem) : DecidablePred (Typed Γ m) := fun p =>
  decidable_of_iff _ (typed_iff Γ m p).symm

/-- The bytes that the objects below a place take, when an object of `k` bytes takes `step k`. -/
def weight (step : ℕ → ℕ) (Γ : Descriptors) (m : Mem) (n : ℕ) (p : Place) : ℕ :=
  ((lens ((scheme Γ .inMemory).walk m n p)).map step).sum

def weights (step : ℕ → ℕ) (Γ : Descriptors) (m : Mem) (n : ℕ) (qs : List Place) : ℕ :=
  ((lens (qs.flatMap ((scheme Γ .inMemory).walk m n))).map step).sum

section

variable {step : ℕ → ℕ}

@[simp] theorem weights_nil : weights step Γ m n [] = 0 := rfl

@[simp] theorem weights_cons (q : Place) (qs : List Place) :
    weights step Γ m n (q :: qs) = weight step Γ m n q + weights step Γ m n qs := by
  simp [weights, weight, lens_append]

theorem Elem.IsObject.weight_eq (hty : p.1.IsObject) (ht : target .inMemory m p.2 ≠ 0) :
    weight step Γ m (n + 1) p = step (load m (target .inMemory m p.2) 4) +
      weights step Γ m n ((scheme Γ .inMemory).kids m p) := by
  rw [weight, Scheme.walk, hty.items_eq ht, lens_append, List.map_append, List.sum_append]
  rfl

theorem Elem.IsObject.weight_null (hty : p.1.IsObject)
    (ht : target .inMemory m p.2 = 0) : weight step Γ m (n + 1) p = 0 := by
  rw [weight, hty.walk_null ht]
  rfl

theorem weight_union (hty : p.1.type = .union) :
    weight step Γ m (n + 1) p = weights step Γ m n ((scheme Γ .inMemory).kids m p) := by
  rw [weight, union_walk hty]
  rfl

theorem Elem.IsHandle.weight_eq (hty : p.1.IsHandle) : weight step Γ m (n + 1) p = 0 := by
  rw [weight, hty.walk_eq]
  rfl

theorem weights_eq_zero {qs : List Place} (h : ∀ q ∈ qs, weight step Γ m n q = 0) :
    weights step Γ m n qs = 0 := by
  induction qs with
  | nil => rfl
  | cons q qs ih =>
    rw [weights_cons, h q (.head _), ih fun r hr => h r (.tail _ hr)]

end

def Elem.IsSkipped (k : Elem) : Prop := isPointer k.type = false ∧ k.type ≠ .union

theorem Elem.IsObject.not_isSkipped {k : Elem} (h : k.IsObject) : ¬ k.IsSkipped :=
  fun hs => Bool.noConfusion (h.isPointer.symm.trans hs.1)

/-- A slot adds the size of the objects below it, or is skipped and leads to none. -/
def Measures (dispatch : DispatchSize) (w : ℕ) (q : Place) : Prop :=
  (q.1.IsSkipped → w = 0) ∧ (¬ q.1.IsSkipped → dispatch q.1.type q.1.desc q.1.nullable q.2 =
    .ok (wrap64 w))

theorem structSizeEntries_eq (entries : List TypeDescriptorStructEntry)
    (h : ∀ q ∈ entryKids m t entries, Measures dispatch (weight id Γ m n q) q) {size : ℕ}
    (hsize : size < 2 ^ 64) :
    structSizeEntries dispatch m t entries size =
      .ok (wrap64 (size + weights id Γ m n (entryKids m t entries))) := by
  induction entries generalizing size with
  | nil => simp only [structSizeEntries, entryKids, List.filter_nil, List.map_nil, weights_nil,
      Nat.add_zero, wrap64_of_lt hsize]
  | cons e es ih =>
    by_cases hact : e.minVersion ≤ load m (t + 4) 4
    · rw [entryKids_of_le hact] at h ⊢
      obtain ⟨hskip, hdo⟩ := h _ (.head _)
      have hrest := fun q hq => h q (.tail _ hq)
      simp only [structSizeEntries, Nat.not_lt.mpr hact, ↓reduceIte, weights_cons]
      by_cases hs : isPointer e.elemType = false ∧ e.elemType ≠ .union
      · rw [if_pos hs, ih hrest hsize, hskip hs, Nat.zero_add]
      · simp only [TypeDescriptorStructEntry.elem] at hdo
        rw [if_neg hs, hdo hs, ok_bind, ih hrest (wrap64_lt _)]
        congr 1
        simp only [wrap64, TypeDescriptorStructEntry.elem]
        omega
    · rw [entryKids_of_not_le hact] at h ⊢
      simp only [structSizeEntries, Nat.lt_of_not_ge hact, ↓reduceIte, ite_self]
      exact ih h hsize

theorem arraySizeElements_eq (helem : d.elemType ≠ .unionPtr ∧ d.elemType ≠ .pod)
    (hd : ¬ d.elem.IsSkipped)
    (is : List ℕ) (h : ∀ q ∈ elementKids d t is, Measures dispatch (weight id Γ m n q) q) {size : ℕ}
    (hsize : size < 2 ^ 64) :
    arraySizeElements dispatch d t is size =
      .ok (wrap64 (size + weights id Γ m n (elementKids d t is))) := by
  induction is generalizing size with
  | nil =>
    simp only [arraySizeElements, elementKids, List.map_nil, weights_nil, Nat.add_zero,
      wrap64_of_lt hsize]
  | cons i is ih =>
    rw [elementKids_cons] at h ⊢
    have hdo := (h _ (.head _)).2 hd
    simp only [TypeDescriptorArray.elem] at hdo
    simp only [arraySizeElements, arrayIndexByType_eq helem, hdo, ok_bind]
    rw [ih (fun q hq => h q (.tail _ hq)) (wrap64_lt _), weights_cons]
    congr 1
    simp only [wrap64, TypeDescriptorArray.elem]
    omega

theorem structComputeSerializedSize_eq {d : TypeDescriptorStruct} (ht : t ≠ 0)
    (h : ∀ q ∈ structKids d m t, Measures dispatch (weight id Γ m n q) q) :
    structComputeSerializedSize dispatch m d t =
      .ok (wrap64 (load m t 4 + weights id Γ m n (structKids d m t))) := by
  have hlt := load_lt m t 4
  simp only [structComputeSerializedSize, ht, ↓reduceIte]
  exact structSizeEntries_eq d.entries h (hlt.trans (by decide))

theorem arrayComputeSerializedSize_eq (hd : d.WellFormed) (ht : t ≠ 0)
    (h : ∀ q ∈ arrayKids d m t, Measures dispatch (weight id Γ m n q) q) :
    arrayComputeSerializedSize dispatch m d t =
      .ok (wrap64 (load m t 4 + weights id Γ m n (arrayKids d m t))) := by
  have hlt := load_lt m t 4
  simp only [arrayComputeSerializedSize, ht, ↓reduceIte]
  by_cases hs : isPointer d.elemType = false ∧ d.elemType ≠ .union
  · rw [if_pos hs, weights_eq_zero, Nat.add_zero, wrap64_of_lt (hlt.trans (by decide))]
    intro q hq
    obtain ⟨-, i, -, rfl⟩ := mem_arrayKids.mp hq
    exact (h _ hq).1 hs
  · have hp : d.elemType ≠ .pod := by
      intro hp
      simp [hp, isPointer] at hs
    rw [if_neg hs]
    simp only [arrayKids, hp, ↓reduceIte] at h ⊢
    exact arraySizeElements_eq ⟨hd.elem, hp⟩ hs _ h (hlt.trans (by decide))

theorem unionComputeSerializedSize_eq (dispatch : DispatchSize) (u : ℕ)
    (entries : List TypeDescriptorUnionEntry) :
    unionComputeSerializedSize dispatch m u entries = match entries.find? fun e =>
      e.tag = load m (u + 4) 4 with
      | none => .ok 0
      | some e => if isPointer e.elemType = false then .ok 0 else
          dispatch e.elemType e.elemDescriptor e.nullable (u + 8) :=
  scan_eq_find? (unionComputeSerializedSize dispatch m u) entries rfl fun _ _ => rfl

theorem unionComputeSerializedSize_kids {d : TypeDescriptorUnion} (hd : d.WellFormed) {u : ℕ}
    (h : ∀ q ∈ unionKids d m u, Measures dispatch (weight id Γ m n q) q) :
    unionComputeSerializedSize dispatch m u d.entries =
      .ok (wrap64 (weights id Γ m n (unionKids d m u))) := by
  rw [unionComputeSerializedSize_eq]
  unfold unionKids at h ⊢
  change (match activeEntry d m u with | none => _ | some e => _) = _
  cases hact : activeEntry d m u with
  | none => rfl
  | some e =>
    have hne : e.elemType ≠ .union := hd.elem e (activeEntry_mem hact)
    simp only [hact] at h ⊢
    by_cases hpod : e.elemType = .pod
    · simp only [hpod, isPointer, ↓reduceIte, weights_nil]
      rfl
    · simp only [hpod, ↓reduceIte, List.mem_singleton, forall_eq] at h ⊢
      rw [weights_cons, weights_nil, Nat.add_zero]
      by_cases hp : isPointer e.elemType = false
      · rw [if_pos hp, h.1 ⟨hp, hne⟩]
        rfl
      · rw [if_neg hp]
        exact h.2 fun hs => hp hs.1

theorem measures (hΓ : Γ.WellFormed) (n : ℕ) (p : Place)
    (hl : (scheme Γ .inMemory).Legal m (Typed Γ m) n p) :
    Measures (dispatchComputeSerializedSize Γ m n) (weight id Γ m n p) p := by
  induction n generalizing p with
  | zero => cases hl
  | succ n ih =>
    obtain ⟨hp, hkids⟩ := hl
    have hmeas := fun q hq => ih q (hkids q hq)
    have hnull : p.1.IsObject → target .inMemory m p.2 = 0 →
        ¬ (p.1.nullable = false ∨ load m p.2 8 ≠ 0) := by
      intro hobj ht
      have hn := (hp.nonnull hobj).resolve_right (not_not.mpr ht)
      rw [hn]
      exact fun h => h.elim Bool.noConfusion fun h => h ht
    cases hty : p.1.type with
    | unionPtr | pod => simpa [Fits, hty] using hp.fits
    | handle | interface =>
      have hh : p.1.IsHandle := by simp [Elem.IsHandle, hty]
      exact ⟨fun _ => hh.weight_eq, fun h => by simp [Elem.IsSkipped, hty, isPointer] at h⟩
    | structPtr | mapPtr =>
      have hs : p.1.IsStruct := by simp [Elem.IsStruct, hty]
      refine ⟨fun h => absurd h hs.isObject.not_isSkipped, fun _ => ?_⟩
      simp only [dispatchComputeSerializedSize, hty]
      by_cases ht : target .inMemory m p.2 = 0
      · rw [if_neg (hnull hs.isObject ht), hs.isObject.weight_null ht]
        rfl
      · rw [if_pos (Or.inr (show load m p.2 8 ≠ 0 from ht)), hs.isObject.weight_eq ht]
        rw [hs.kids_eq ht] at hmeas ⊢
        exact structComputeSerializedSize_eq ht hmeas
    | arrayPtr =>
      have hobj : p.1.IsObject := Or.inr (Or.inr hty)
      refine ⟨fun h => absurd h hobj.not_isSkipped, fun _ => ?_⟩
      simp only [dispatchComputeSerializedSize, hty]
      by_cases ht : target .inMemory m p.2 = 0
      · rw [if_neg (hnull hobj ht), hobj.weight_null ht]
        rfl
      · rw [if_pos (Or.inr (show load m p.2 8 ≠ 0 from ht)), hobj.weight_eq ht]
        rw [arrayPtr_kids_eq hty ht] at hmeas ⊢
        exact arrayComputeSerializedSize_eq (hΓ.array _) ht hmeas
    | union =>
      refine ⟨fun h => absurd hty h.2, fun _ => ?_⟩
      simp only [dispatchComputeSerializedSize, hty, ne_eq, hp.pos, not_false_eq_true, true_and]
      rw [weight_union hty]
      rcases union_kids (Γ := Γ) (f := .inMemory) (m := m) hty with ⟨hno, hk⟩ | ⟨hgo, hk⟩
      · rw [hk]
        simp only [hno, Bool.true_eq_false, not_true_eq_false, or_self, ↓reduceIte, weights_nil]
        rfl
      · rw [if_pos hgo]
        rw [hk] at hmeas ⊢
        exact unionComputeSerializedSize_kids (hΓ.union _) hmeas

end Mojo.CBindings
