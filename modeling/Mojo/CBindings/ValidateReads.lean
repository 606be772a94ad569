import Mojo.CBindings.ValidateGraph

/-!
# What validation reads

A run of the validator stays inside its buffer, and tells every callee the true
number of bytes left, exactly as long as every union out of line that it
follows has the bytes that the validation of a union looks at. The pointer to
such a union is checked, the room behind it is not.
-/

namespace Mojo.CBindings

open Mojo.Memory Traced

variable {addr desc s t u i : ℕ} {nullable : Bool} {dispatch : DispatchValidate}
    {d : TypeDescriptorUnion} {type : TypeDescriptorType} {c : ValidationContext}

/-- A read lies in `[base, lim)`, and the size that a callee is told ends at `lim`. -/
def EventOk (base lim : ℕ) : Event → Prop
  | .read addr len => base ≤ addr ∧ addr + len ≤ lim
  | .rest addr size => base ≤ addr ∧ addr + size = lim
  | .follow _ _ _ _ => True

def reach : TypeDescriptorType → ℕ
  | .structPtr | .mapPtr | .arrayPtr | .unionPtr => 8
  | .union => 16
  | .handle | .interface => 4
  | .pod => 0

/-- Bytes that the validation of a union at `u` looks at in the union itself. -/
def unionNeed (d : TypeDescriptorUnion) (m : Mem) (nullable : Bool) (u : ℕ) : ℕ :=
  if load m u 4 = 0 ∨ d.entries = [] then 4
  else match activeEntry d m u with
    | none => 8
    | some e =>
      if e.elemType = .pod ∨ (nullable = false ∧ load m u 4 ≠ unionLayoutSize) then 8
      else 8 + reach e.elemType

def FollowOk (Γ : Descriptors) (m : Mem) : Event → Prop
  | .follow desc nullable addr size => unionNeed (Γ.union desc) m nullable addr ≤ size
  | .read _ _ | .rest _ _ => True

instance (Γ : Descriptors) (m : Mem) : DecidablePred (FollowOk Γ m) := fun e =>
  match e with
  | .follow desc nullable addr size =>
    inferInstanceAs (Decidable (unionNeed (Γ.union desc) m nullable addr ≤ size))
  | .read _ _ | .rest _ _ => inferInstanceAs (Decidable True)

structure InBuffer (base lim : ℕ) (p : Place) : Prop where
  start : base ≤ p.2
  room : p.2 + reach p.1.type ≤ lim

theorem reach_le_slotSize (type : TypeDescriptorType) : reach type ≤ slotSize type := by
  cases type <;> decide

variable {Γ : Descriptors} {m : Mem} {base lim numHandles n : ℕ} {ctx : ValidationContext}

abbrev Inside (Γ : Descriptors) (m : Mem) (base lim : ℕ) {α : Type} (x : Traced Event α) : Prop :=
  x.Agree (EventOk base lim) (FollowOk Γ m)

abbrev InsideAt (Γ : Descriptors) (m : Mem) (base lim : ℕ) (dispatch : DispatchValidate)
    (q : Place) : Prop :=
  ∀ c, Inside Γ m base lim (dispatch q.1.type q.1.desc q.1.nullable q.2 (lim - q.2) c)

theorem agree_fetch {len : ℕ} (h₁ : base ≤ addr) (h₂ : addr + len ≤ lim) :
    Inside Γ m base lim (fetch m addr len) := by
  simp [Agree, logs_fetch, EventOk, FollowOk, h₁, h₂]

theorem agree_fetch_bind {α : Type} {len : ℕ} {k : ℕ → Traced Event α} (h₁ : base ≤ addr)
    (h₂ : addr + len ≤ lim)
    (h : Inside Γ m base lim (k (load m addr len))) :
    Inside Γ m base lim (fetch m addr len >>= k) := by
  apply agree_bind (agree_fetch h₁ h₂)
  intro v hv
  obtain rfl : load m addr len = v := by simpa using hv
  exact h

theorem agree_rest {size : ℕ} (h₁ : base ≤ addr) (h₂ : addr + size = lim) :
    Inside Γ m base lim (note (.rest addr size)) :=
  agree_note (iff_of_true ⟨h₁, h₂⟩ trivial)

theorem agree_validatePointer {max : ℕ} (h₁ : base ≤ s) (h₂ : s + 8 ≤ lim) :
    Inside Γ m base lim (validatePointer m s max nullable ctx) := by
  unfold validatePointer
  apply agree_fetch_bind h₁ h₂
  refine agree_guard fun _ => ?_
  refine agree_guard fun _ => ?_
  refine agree_guard fun _ => ?_
  exact agree_guard fun _ => agree_pure _

theorem agree_followPointer {max : ℕ}
    {k : ℕ → ValidationContext → Traced Event Verdict} (h₁ : base ≤ s) (h₂ : s + 8 ≤ lim)
    (hk : ∀ c, load m s 8 ≤ max → load m s 8 ≠ 0 → Inside Γ m base lim (k (load m s 8) c)) :
    Inside Γ m base lim (followPointer m s max nullable ctx k) := by
  unfold followPointer
  apply agree_bind (agree_validatePointer h₁ h₂)
  intro v hv
  obtain ⟨result, c⟩ := v
  refine agree_guard fun hr => ?_
  apply agree_fetch_bind h₁ h₂
  refine agree_guard fun h0 => ?_
  rw [not_not.mp hr] at hv
  exact hk c (validatePointer_none_iff.mp hv).1 h0

theorem agree_structValidateEntries (h₁ : base ≤ t)
    (h₂ : t + 8 ≤ lim) (hshort : lim - t < 2 ^ 32) (entries : List TypeDescriptorStructEntry)
    (hkids : ∀ q ∈ entryKids m t entries, q.2 ≤ lim ∧ InsideAt Γ m base lim dispatch q) :
    Inside Γ m base lim (structValidateEntries dispatch m t (lim - t) entries ctx) := by
  induction entries generalizing ctx with
  | nil => exact agree_pure _
  | cons e es ih =>
    unfold structValidateEntries
    apply agree_fetch_bind (by omega) (by omega)
    refine agree_ite (fun hv => ?_) fun hv => ?_
    · exact ih (entryKids_of_not_le (Nat.not_le.mpr hv) ▸ hkids)
    · rw [entryKids_of_le (Nat.le_of_not_lt hv)] at hkids
      obtain ⟨hle, hq⟩ := hkids _ (.head _)
      dsimp only
      rw [sub32_sub hshort (by omega) hle]
      apply agree_bind (hq ctx)
      intro v _
      refine agree_guard fun _ => ?_
      exact ih fun r hr => hkids r (.tail _ hr)

theorem agree_arrayValidateElements {d : TypeDescriptorArray} (hshort : lim - t < 2 ^ 32)
    (is : List ℕ) (hkids : ∀ q ∈ elementKids d t is, q.2 ≤ lim ∧ InsideAt Γ m base lim dispatch q) :
    Inside Γ m base lim (arrayValidateElements dispatch d t (lim - t) is ctx) := by
  induction is generalizing ctx with
  | nil => exact agree_pure _
  | cons i is ih =>
    unfold arrayValidateElements
    rw [elementKids_cons] at hkids
    by_cases helem : d.elemType ≠ .unionPtr ∧ d.elemType ≠ .pod
    · obtain ⟨hle, hq⟩ := hkids _ (.head _)
      rw [arrayIndexByType_eq helem]
      dsimp only
      rw [sub32_sub hshort (by omega) hle]
      apply agree_bind (hq ctx)
      intro v _
      refine agree_guard fun _ => ?_
      exact ih fun r hr => hkids r (.tail _ hr)
    · have hnone : arrayIndexByType t d.elemType i = none := by
        cases htype : d.elemType <;> simp_all [arrayIndexByType]
      rw [hnone]
      exact agree_stuck

theorem agree_isValidSizeForVersion {versions : List TypeDescriptorStructVersion} (h₁ : base ≤ t)
    (h₂ : t + 8 ≤ lim) :
    Inside Γ m base lim (isValidSizeForVersion m t versions) := by
  unfold isValidSizeForVersion
  apply agree_fetch_bind (by omega) (by omega)
  apply agree_fetch_bind h₁ (by omega)
  exact agree_pure _

theorem agree_structValidate {d : TypeDescriptorStruct}
    (hd : d.WellFormed) (h₁ : base ≤ t) (hle : t ≤ lim) (hshort : lim - t < 2 ^ 32)
    (hkids : ∀ q ∈ structKids d m t, InBuffer base lim q → t < q.2 →
      InsideAt Γ m base lim dispatch q) :
    Inside Γ m base lim (structValidate dispatch m d t (lim - t) ctx) := by
  unfold structValidate
  apply agree_bind (agree_rest h₁ (by omega))
  intro _ _
  refine agree_ite (fun _ => agree_stuck) fun ht => ?_
  refine agree_guard fun hsize => ?_
  have hroom : t + 8 ≤ lim := by
    simp only [headerSize] at hsize
    omega
  apply agree_fetch_bind h₁ (by omega)
  refine agree_guard fun hin => ?_
  apply agree_bind (agree_isValidSizeForVersion h₁ hroom)
  intro valid hvalid
  rw [value_isValidSizeForVersion, Option.some.injEq] at hvalid
  refine agree_guard fun hv => ?_
  refine agree_guard fun hr => ?_
  have hok : StructHeaderOk d m t (lim - t) := by
    refine ⟨Nat.le_of_not_lt hsize, by omega, ?_, not_not.mp hr⟩
    rw [← hvalid, Bool.not_eq_false] at hv
    exact of_decide_eq_true hv
  apply agree_structValidateEntries h₁ hroom hshort
  intro q hq
  have hins := structKids_inside (d := d) hq (hok.slots_inside hd).2
  have hreach := reach_le_slotSize q.1.type
  simp only [Elem.size, headerSize] at hins
  exact ⟨by omega, hkids q hq ⟨by omega, by omega⟩ (by omega)⟩

theorem agree_validateArrayHeader {d : TypeDescriptorArray} (h₁ : base ≤ t) (hle : t ≤ lim) :
    Inside Γ m base lim (validateArrayHeader m d t (lim - t)) := by
  unfold validateArrayHeader
  refine agree_guard fun hsize => ?_
  simp only [headerSize] at hsize
  apply agree_fetch_bind h₁ (by omega)
  refine agree_guard fun _ => ?_
  refine agree_guard fun _ => ?_
  apply agree_fetch_bind (by omega) (by omega)
  refine agree_guard fun _ => ?_
  exact agree_guard fun _ => agree_pure _

theorem agree_arrayValidate {d : TypeDescriptorArray}
    (hd : d.WellFormed) (h₁ : base ≤ t) (hle : t ≤ lim) (hshort : lim - t < 2 ^ 32)
    (hkids : ∀ q ∈ arrayKids d m t, InBuffer base lim q → t < q.2 →
      InsideAt Γ m base lim dispatch q) :
    Inside Γ m base lim (arrayValidate dispatch m d t (lim - t) ctx) := by
  unfold arrayValidate
  apply agree_bind (agree_rest h₁ (by omega))
  intro _ _
  refine agree_ite (fun _ => agree_stuck) fun ht => ?_
  apply agree_bind (agree_validateArrayHeader h₁ hle)
  intro result hresult
  refine agree_guard fun hr => ?_
  rw [not_not.mp hr, validateArrayHeader_none_iff] at hresult
  have hroom := hresult.room
  simp only [headerSize] at hroom
  apply agree_fetch_bind h₁ (by omega)
  refine agree_guard fun hp => ?_
  apply agree_fetch_bind (by omega) (by omega)
  apply agree_arrayValidateElements hshort
  intro q hq
  have hq' : q ∈ arrayKids d m t := by simpa [arrayKids, hp] using hq
  have hins := arrayKids_inside hq' (hresult.slots_inside hd)
  have hreach := reach_le_slotSize q.1.type
  have hinside := hresult.inside
  simp only [Elem.size, headerSize] at hins
  exact ⟨by omega, hkids q hq' ⟨by omega, by omega⟩ (by omega)⟩

theorem logs_unionValidateEntries {P : Event → Prop} (dispatch : DispatchValidate)
    (nullable : Bool) (u size : ℕ) (entries : List TypeDescriptorUnionEntry) :
    (unionValidateEntries dispatch m nullable u size entries ctx).Logs P ↔
      (entries ≠ [] → P (.read (u + 4) 4)) ∧
      ∀ e, (entries.find? fun e => e.tag = load m (u + 4) 4) = some e → e.elemType ≠ .pod →
        (nullable = false → P (.read u 4)) ∧
        (nullable ∨ load m u 4 = unionLayoutSize →
          (dispatch e.elemType e.elemDescriptor e.nullable (u + 8) (sub32 size 8) ctx).Logs P) := by
  induction entries with
  | nil => simp [unionValidateEntries]
  | cons e es ih =>
    simp only [unionValidateEntries, logs_bind, logs_fetch, value_fetch, Option.some.injEq,
      forall_eq', ne_eq, reduceCtorEq, not_false_eq_true, forall_const]
    refine and_congr_right fun hread => ?_
    by_cases he : e.tag = load m (u + 4) 4
    · by_cases hp : e.elemType = .pod
      · simp [he, hp]
      · cases nullable with
        | true => simp [he, hp]
        | false =>
          by_cases hs : load m u 4 = unionLayoutSize <;> simp [he, hp, hs]
    · simp only [Ne.symm he, not_false_eq_true, ↓reduceIte, ih, List.find?_cons, he, decide_false,
        and_iff_right_iff_imp]
      exact fun _ _ => hread

theorem unionNeed_of_active {e : TypeDescriptorUnionEntry} (h0 : load m u 4 ≠ 0)
    (he : activeEntry d m u = some e)
    (hp : e.elemType ≠ .pod) (hs : nullable ∨ load m u 4 = unionLayoutSize) :
    unionNeed d m nullable u = 8 + reach e.elemType := by
  have hne : d.entries ≠ [] := List.ne_nil_of_mem (activeEntry_mem he)
  have hs' : ¬ (nullable = false ∧ load m u 4 ≠ unionLayoutSize) := by
    rw [not_and_or, Bool.not_eq_false, not_not]
    exact hs
  simp [unionNeed, h0, hne, he, hp, hs']

theorem four_le_unionNeed (d : TypeDescriptorUnion) (nullable : Bool) (u : ℕ) :
    4 ≤ unionNeed d m nullable u ∧
      (load m u 4 ≠ 0 → d.entries ≠ [] → 8 ≤ unionNeed d m nullable u) := by
  unfold unionNeed
  split_ifs with h
  · exact ⟨le_rfl, fun h0 hne => (h.elim h0 hne).elim⟩
  · cases activeEntry d m u with
    | none =>
      dsimp only
      exact ⟨by omega, fun _ _ => le_rfl⟩
    | some e =>
      dsimp only
      split_ifs <;> exact ⟨by omega, fun _ _ => by omega⟩

theorem unionNeed_le (hd : d.WellFormed) (nullable : Bool) (u : ℕ) :
    unionNeed d m nullable u ≤ 16 := by
  unfold unionNeed
  split_ifs with h
  · omega
  · cases he : activeEntry d m u with
    | none =>
      dsimp only
      omega
    | some e =>
      have hr := (reach_le_slotSize e.elemType).trans (slotSize_le (hd.elem e (activeEntry_mem he)))
      dsimp only
      split_ifs <;> omega

theorem agree_unionDataValidate (h₁ : base ≤ u) (hle : u ≤ lim) (hshort : lim - u < 2 ^ 32)
    (hneed : unionNeed d m nullable u ≤ lim - u)
    (hkids : ∀ q ∈ unionKids d m u, InBuffer base lim q → u < q.2 →
      InsideAt Γ m base lim dispatch q) :
    Inside Γ m base lim (unionDataValidate dispatch m d nullable u (lim - u) ctx) := by
  obtain ⟨h4, h8⟩ := four_le_unionNeed (m := m) d nullable u
  unfold unionDataValidate
  apply agree_fetch_bind h₁ (by omega)
  refine agree_guard fun h0 => ?_
  unfold unionValidate
  apply agree_bind (agree_rest h₁ (by omega))
  intro _ _
  simp only [Agree, logs_unionValidateEntries]
  refine and_congr ?_ (forall_congr' fun e => imp_congr_right fun he =>
    imp_congr_right fun hp => and_congr ?_ (imp_congr_right fun hs => ?_))
  · exact iff_of_true (fun hne => ⟨by omega, by have := h8 h0 hne; omega⟩) fun _ => trivial
  · exact iff_of_true (fun _ => ⟨h₁, by omega⟩) fun _ => trivial
  · rw [unionNeed_of_active h0 he hp hs] at hneed
    have hin : InBuffer base lim (e.elem, u + 8) := by
      refine ⟨?_, ?_⟩
      · dsimp only
        omega
      · simp only [TypeDescriptorUnionEntry.elem]
        omega
    rw [sub32_eight hshort (by omega)]
    exact hkids (e.elem, u + 8) (mem_unionKids.mpr ⟨e, he, hp, rfl⟩) hin (by simp) ctx

theorem reach_le_of_logs {size : ℕ} (hs : s ≠ 0) (hty : type ≠ .union)
    (h : (dispatchValidate Γ m numHandles (n + 1) type desc nullable s size ctx).Logs
      (EventOk base lim)) : s + reach type ≤ lim := by
  have hptr : (∃ k, (followPointer m s size nullable ctx k).Logs (EventOk base lim)) →
      s + 8 ≤ lim := by
    intro h
    obtain ⟨k, h⟩ := h
    simp only [followPointer, validatePointer, logs_bind, logs_fetch] at h
    exact h.1.1.2
  cases type with
  | union => exact absurd rfl hty
  | structPtr | mapPtr | arrayPtr | unionPtr =>
    simp only [dispatchValidate, hs, ↓reduceIte, logs_bind] at h
    exact hptr ⟨_, h.2 () rfl⟩
  | handle | interface =>
    simp only [dispatchValidate, hs, ↓reduceIte, logs_bind, logs_fetch] at h
    exact (h.2 () rfl).1.2
  | pod =>
    simp only [dispatchValidate, logs_bind, logs_note] at h
    have hrest : s + size = lim := h.1.2
    simp only [reach]
    omega

theorem unionNeed_le_of_logs (hd : d.WellFormed)
    (h : (unionDataValidate (dispatchValidate Γ m numHandles (n + 1)) m d nullable u (lim - u)
      ctx).Logs (EventOk base lim)) : unionNeed d m nullable u ≤ lim - u := by
  simp only [unionDataValidate, logs_bind, logs_fetch, value_fetch, Option.some.injEq, forall_eq']
    at h
  obtain ⟨h4, h⟩ := h
  have h4' : u + 4 ≤ lim := h4.2
  by_cases h0 : load m u 4 = 0 ∨ d.entries = []
  · simp only [unionNeed, h0, ↓reduceIte]
    omega
  · obtain ⟨h0, hne⟩ := not_or.mp h0
    simp only [h0, ↓reduceIte, unionValidate, logs_bind, logs_note,
      value_note, logs_unionValidateEntries] at h
    obtain ⟨-, h⟩ := h
    obtain ⟨h8, hact⟩ := h () trivial
    have h8' : u + 4 + 4 ≤ lim := (h8 hne).2
    simp only [unionNeed, h0, hne, or_self, ↓reduceIte]
    cases he : activeEntry d m u with
    | none =>
      dsimp only
      omega
    | some e =>
      dsimp only
      split_ifs with hcase
      · omega
      · obtain ⟨hp, hs⟩ := not_or.mp hcase
        rw [not_and_or, Bool.not_eq_false, not_not] at hs
        have hlogs := (hact e he hp).2 hs
        have hreach := reach_le_of_logs (by omega) (hd.elem e (activeEntry_mem he)) hlogs
        omega

theorem count_inside {p : Place} (hΓ : Γ.WellFormed) (hty : p.1.type = .arrayPtr)
    (hlim : lim < 2 ^ 64) (hshort : lim - p.2 < 2 ^ 32) (hpos : p.2 ≠ 0) (hroom : p.2 + 8 ≤ lim)
    {c' : ValidationContext}
    (h : PassesAt (dispatchValidate Γ m numHandles n) lim p c c') :
    p.2 ≤ wrap64 (p.2 + load m p.2 8) ∧ wrap64 (p.2 + load m p.2 8) + 8 ≤ lim := by
  cases n with
  | zero => simp [PassesAt, dispatchValidate] at h
  | succ n =>
    rw [dispatchValidate_array_iff hΓ hpos (by omega) hshort (by omega) hty, PassesObject] at h
    split_ifs at h with h0
    · rw [h0, wrap64_of_lt (by omega)]
      omega
    · obtain ⟨ha, -⟩ := h
      obtain ⟨htgt, -⟩ := sub32_target (by omega) hshort (by omega) ha.near ha.ne_zero
      have hhdr : ArrayHeaderOk (Γ.array p.1.desc) m (target .onWire m p.2)
          (lim - target .onWire m p.2) := by simpa [HeaderOk, hty] using ha.header
      have h8 := hhdr.room
      have hnear := ha.near
      simp only [headerSize] at h8
      rw [wrap64_of_lt (by omega)]
      omega

theorem agree_mapValidate (hΓ : Γ.WellFormed) (hmap : (Γ.struct i).IsMap)
    (hlim : lim < 2 ^ 64) (h₁ : base ≤ t) (hle : t ≤ lim)
    (hshort : lim - t < 2 ^ 32)
    (h : (structValidate (dispatchValidate Γ m numHandles n) m (Γ.struct i) t (lim - t)
      ctx).value = some (.errorNone, c)) :
    Inside Γ m base lim (mapValidate m t (lim - t) c) := by
  obtain ⟨-, hhdr, hentries⟩ := structValidate_none_iff.mp h
  rw [structValidateEntries_of_header (hΓ.struct i) hshort hle hhdr] at hentries
  obtain ⟨keys, values, kn, vn, hes⟩ := hmap
  have hin := (hhdr.slots_inside (hΓ.struct i)).2 ⟨.arrayPtr, values, 8, 0, vn⟩ (by simp [hes])
    (Nat.zero_le _)
  have hnb := hhdr.inside
  simp only [headerSize, slotSize] at hin
  simp only [structKids, entryKids, hes, Nat.zero_le, decide_true, List.filter_cons_of_pos,
    List.filter_nil, List.map_cons, List.map_nil, Passes, headerSize, Nat.add_zero] at hentries
  obtain ⟨c₁, hkeys, c₂, hvalues, -⟩ := hentries
  have hk := count_inside hΓ (p := (⟨.arrayPtr, keys, kn⟩, t + 8)) rfl hlim
    (by dsimp only; omega) (by simp) (by dsimp only; omega) hkeys
  have hv := count_inside hΓ (p := (⟨.arrayPtr, values, vn⟩, t + 8 + 8)) rfl hlim
    (by dsimp only; omega) (by simp) (by dsimp only; omega) hvalues
  simp only [Nat.add_assoc, Nat.reduceAdd] at hk hv
  unfold mapValidate
  apply agree_bind (agree_rest h₁ (by omega))
  intro _ _
  apply agree_fetch_bind (by omega) (by omega)
  apply agree_fetch_bind (by omega) (by omega)
  simp only [Nat.add_assoc]
  apply agree_fetch_bind (by omega) (by omega)
  apply agree_fetch_bind (by omega) (by omega)
  exact agree_guard fun _ => agree_pure _

theorem agree_dispatchValidate (hΓ : Γ.WellFormed) (hbase : base ≠ 0) (hlim : lim < 2 ^ 64)
    (hshort : lim - base < 2 ^ 32) (n : ℕ) (p : Place) (ctx : ValidationContext)
    (hp : InBuffer base lim p) (hfuel : lim - p.2 < n) (huse : Γ.Uses p.1.type p.1.desc) :
    Inside Γ m base lim (dispatchValidate Γ m numHandles n p.1.type p.1.desc p.1.nullable p.2
      (lim - p.2) ctx) := by
  induction n generalizing p ctx with
  | zero => omega
  | succ n ih =>
    obtain ⟨hstart, hroom⟩ := hp
    have hpos : p.2 ≠ 0 := by omega
    have hkids : ∀ q : Place, Γ.Uses q.1.type q.1.desc → InBuffer base lim q → p.2 < q.2 →
        InsideAt Γ m base lim (dispatchValidate Γ m numHandles n) q :=
      fun q hu hq hlt c => ih q c hq (by have := hq.room; omega) hu
    -- The object behind a pointer that is not NULL lies in the buffer.
    have hreach : load m p.2 8 ≤ lim - p.2 → load m p.2 8 ≠ 0 →
        p.2 < wrap64 (p.2 + load m p.2 8) ∧ wrap64 (p.2 + load m p.2 8) ≤ lim ∧
        sub32 (lim - p.2) (load m p.2 8) = lim - wrap64 (p.2 + load m p.2 8) := by
      intro hoff h0
      rw [wrap64_of_lt (by omega), sub32_of_le hoff (by omega)]
      omega
    unfold dispatchValidate
    apply agree_bind (agree_rest hstart (by omega))
    intro _ _
    rw [if_neg hpos]
    cases hty : p.1.type with
    | structPtr | mapPtr =>
      simp only [hty, reach] at hroom
      refine agree_followPointer hstart hroom fun c hoff h0 => ?_
      obtain ⟨hlt, hle, hsub⟩ := hreach hoff h0
      rw [hsub]
      apply agree_bind
      · apply agree_structValidate (hΓ.struct _) (by omega) hle (by omega)
        intro q hq hin hgt
        exact hkids q (uses_structKids hq) hin (by omega)
      · intro v hv
        obtain ⟨result, c'⟩ := v
        dsimp only
        refine agree_ite (fun hmap => ?_) fun _ => agree_pure _
        rw [hmap.1] at hv
        rw [hty, hmap.2] at huse
        exact agree_mapValidate hΓ (hΓ.map _ huse) hlim (by omega) hle (by omega) hv
    | arrayPtr =>
      simp only [hty, reach] at hroom
      refine agree_followPointer hstart hroom fun c hoff h0 => ?_
      obtain ⟨hlt, hle, hsub⟩ := hreach hoff h0
      rw [hsub]
      apply agree_arrayValidate (hΓ.array _) (by omega) hle (by omega)
      intro q hq hin hgt
      exact hkids q (uses_arrayKids hq) hin (by omega)
    | unionPtr =>
      simp only [hty, reach] at hroom
      refine agree_followPointer hstart hroom fun c hoff h0 => ?_
      obtain ⟨hlt, hle, hsub⟩ := hreach hoff h0
      rw [hsub]
      by_cases hneed : unionNeed (Γ.union p.1.desc) m p.1.nullable
          (wrap64 (p.2 + load m p.2 8)) ≤ lim - wrap64 (p.2 + load m p.2 8)
      · refine agree_bind (agree_note (iff_of_true trivial hneed)) ?_
        intro _ _
        apply agree_unionDataValidate (by omega) hle (by omega) hneed
        intro q hq hin hgt
        exact hkids q (uses_unionKids hq) hin (by omega)
      · -- The room is missing: the run has left the buffer, and the log says where.
        obtain ⟨n, rfl⟩ : ∃ k, n = k + 1 := ⟨n - 1, by omega⟩
        simp only [Agree, logs_bind, logs_note]
        refine iff_of_false ?_ fun h => hneed h.1
        intro h
        exact hneed (unionNeed_le_of_logs (hΓ.union _) (h.2 () rfl))
    | union =>
      simp only [hty, reach] at hroom
      apply agree_unionDataValidate hstart (by omega) (by omega)
      · have := unionNeed_le (m := m) (hΓ.union p.1.desc) p.1.nullable p.2
        omega
      · intro q hq hin hgt
        exact hkids q (uses_unionKids hq) hin hgt
    | handle | interface =>
      simp only [hty, reach] at hroom
      apply agree_fetch_bind hstart hroom
      exact agree_pure _
    | pod => exact agree_pure _

/-- Validation reads only bytes of its buffer, and passes only true remaining
sizes down, exactly when every union out of line it follows has room. -/
theorem validate_inside_iff {Γ : Descriptors} (hΓ : Γ.WellFormed) (m : Mem)
    (i base size numHandles fuel : ℕ) (ctx : ValidationContext) (hbase : base ≠ 0)
    (hsize : size < 2 ^ 32) (hend : base + size < 2 ^ 64) (hfuel : size < fuel) :
    (structValidate (dispatchValidate Γ m numHandles fuel) m (Γ.struct i) base size ctx).Logs
        (EventOk base (base + size)) ↔
      (structValidate (dispatchValidate Γ m numHandles fuel) m (Γ.struct i) base size ctx).Logs
        (FollowOk Γ m) := by
  obtain ⟨lim, hlim, rfl⟩ : ∃ lim, base ≤ lim ∧ size = lim - base :=
    ⟨base + size, by omega, by omega⟩
  rw [Nat.add_sub_cancel' hlim] at hend ⊢
  apply agree_structValidate (hΓ.struct i) le_rfl hlim (by omega)
  intro q hq hin hlt c
  exact agree_dispatchValidate hΓ hbase hend (by omega) fuel q c hin (by omega) (uses_structKids hq)

/-- `struct Holder { Outer u; }`, `union Outer { Inner? i; }`, `union Inner { handle? h; }`. -/
def holderStruct : TypeDescriptorStruct := ⟨[⟨0, 24⟩], [⟨.union, 0, 0, 0, false⟩]⟩

theorem holderStruct_wellFormed : holderStruct.WellFormed :=
  .of_single rfl (by decide) (by decide) (by decide) (by decide) (by decide)

def holderDescriptors : Descriptors where
  struct _ := holderStruct
  union i := if i = 0 then ⟨1, [⟨.unionPtr, 1, 0, true⟩]⟩ else ⟨1, [⟨.handle, 0, 0, true⟩]⟩
  array _ := ⟨.pod, 0, 0, 8, false⟩

theorem holderDescriptors_uses (h : holderDescriptors.Uses type i) :
    type = .union ∨ type = .unionPtr ∨ type = .handle ∨ type = .pod := by
  cases h with
  | struct j e he =>
    obtain rfl : e = ⟨.union, 0, 0, 0, false⟩ := by
      simpa [holderDescriptors, holderStruct] using he
    exact Or.inl rfl
  | union j e he =>
    by_cases hj : j = 0
    · obtain rfl : e = ⟨.unionPtr, 1, 0, true⟩ := by simpa [holderDescriptors, hj] using he
      exact Or.inr (Or.inl rfl)
    · obtain rfl : e = ⟨.handle, 0, 0, true⟩ := by simpa [holderDescriptors, hj] using he
      exact Or.inr (Or.inr (Or.inl rfl))
  | array j => exact Or.inr (Or.inr (Or.inr rfl))

theorem holderDescriptors_wellFormed : holderDescriptors.WellFormed where
  struct _ := holderStruct_wellFormed
  union i := by
    refine ⟨fun e he => ?_⟩
    by_cases hi : i = 0 <;> simp_all [holderDescriptors]
  array _ := ⟨by simp [holderDescriptors], fun h => absurd rfl h⟩
  map _ h := by simpa using holderDescriptors_uses h

def shortBuffer : Mem := block 8 (words [24, 0, 16, 0, 8, 0])

/-- A pointer to exactly the end of the buffer is followed, and the union is
read behind the end. -/
theorem validate_reads_outside : holderDescriptors.WellFormed ∧
    ¬ (structValidate (dispatchValidate holderDescriptors shortBuffer 0 25) shortBuffer
      (holderDescriptors.struct 0) 8 24 ⟨0, 0⟩).Logs (EventOk 8 32) := by
  refine ⟨holderDescriptors_wellFormed, fun h => ?_⟩
  have hread := h (.read 32 4) (by decide +kernel)
  simp [EventOk] at hread

def holderBuffer : Mem := block 8 (words [24, 0, 16, 0, 8, 0, 16, 0, 0, 0])

theorem validate_inside_holder :
    (structValidate (dispatchValidate holderDescriptors holderBuffer 1 41) holderBuffer
      (holderDescriptors.struct 0) 8 40 ⟨0, 0⟩).Logs (EventOk 8 48) :=
  (validate_inside_iff holderDescriptors_wellFormed _ 0 8 40 1 41 ⟨0, 0⟩ (by decide) (by decide)
    (by decide) (by decide)).mpr (by decide +kernel)

end Mojo.CBindings
