import Mojo.Wire.Writer

/-!
# Values of a kind

The members of the object of a value are values of their own kinds, one level less deep.
Everything that takes a bound of the depth is the same for all bounds that the value keeps to.
-/

namespace Mojo.Wire

open Mojo.Memory Mojo.CppBindings
open List hiding Mem

variable {α β γ : Type} {R : α → β → Prop} {g : α → γ} {l : List α} {l' : List β}
    {ps : List (Slot × Value)} {t lo i : ℕ} {form : Form}

section Typed

variable {Γ : Types} {D : Domain} {depth : ℕ} {kind : Kind} {v : Value} {o : Object}

theorem hasKind_zero (h : HasKind Γ D 0 kind v) : object Γ kind v = none := by
  cases kind <;> cases v <;> first | rfl | simp [HasKind] at h

inductive Scalar (D : Domain) : Kind → Value → Prop
  | number {size n : ℕ} (h : n < 256 ^ size) : Scalar D (.number size) (.number n)
  | bool (b : Bool) : Scalar D .bool (.bool b)
  | handle (nullable : Bool) {h : ℕ} (hh : D.handle h) : Scalar D (.handle nullable) (.handle h)
  | interface (nullable : Bool) {h version : ℕ} (hh : D.handle h) (hversion : D.version version) :
    Scalar D (.interface nullable) (.interface h version)
  | null {kind : Kind} (h : kind.isNullable = true) : Scalar D kind .null

theorem HasKind.scalar (h : HasKind Γ D depth kind v) (ho : object Γ kind v = none) :
    Scalar D kind v := by
  cases v with
  | null =>
    refine .null ?_
    cases depth <;> cases kind <;> exact h
  | number n => cases depth <;> cases kind <;> first | exact .number h | cases h
  | bool b => cases depth <;> cases kind <;> first | exact .bool b | cases h
  | handle n => cases depth <;> cases kind <;> first | exact .handle _ h | cases h
  | interface n version =>
    cases depth <;> cases kind <;> first | exact .interface _ h.1 h.2 | cases h
  | string | array | map | struct =>
    cases depth <;> cases kind <;> first | cases h; done | cases ho
  | union tag field =>
    cases depth with
    | zero => cases kind <;> cases h
    | succ depth =>
      cases kind with
      | union name nullable | unionPointer name nullable =>
        simp only [HasKind] at h
        obtain ⟨kind, hactive, -⟩ := h
        simp [object, hactive] at ho
      | _ => cases h

theorem forall₂_zip (h : List.Forall₂ R l l') {p : γ × β} (hp : p ∈ (l.map g).zip l') :
    ∃ a ∈ l, p.1 = g a ∧ R a p.2 := by
  induction h with
  | nil => cases hp
  | cons hab _ ih =>
    rcases hp with _ | ⟨_, hp⟩
    · exact ⟨_, .head _, rfl, hab⟩
    · obtain ⟨a, ha, h⟩ := ih hp
      exact ⟨a, .tail _ ha, h⟩

theorem forall₂_members {P : α → γ × β → Prop} (h : List.Forall₂ R l l')
    (hP : ∀ a ∈ l, ∀ b, (g a, b) ∈ (l.map g).zip l' → R a b → P a (g a, b)) :
    List.Forall₂ P l ((l.map g).zip l') := by
  induction h with
  | nil => exact .nil
  | cons hab _ ih =>
    refine .cons (hP _ (.head _) _ (.head _) hab) (ih fun a ha b hb hr => ?_)
    exact hP a (.tail _ ha) b (.tail _ hb) hr

theorem zip_kinds (elem : Kind) (vs : List Value) :
    ((elementSlots elem 0 vs.length).zip vs).map (fun p => (p.1.kind, p.2)) = vs.map fun v =>
      (elem, v) := by
  rw [elementSlots, range_eq_range']
  have hfrom : ∀ i, (((List.range' i vs.length).map (elementSlot elem 0)).zip vs).map
      (fun p => (p.1.kind, p.2)) = vs.map fun v => (elem, v) := by
    induction vs with
    | nil => exact fun _ => rfl
    | cons v vs ih =>
      intro i
      rw [length_cons, range'_succ, map_cons, zip_cons_cons, map_cons,
        map_cons, ih (i + 1), elementSlot_kind]
  exact hfrom 0

theorem zip_fields (fields : List Field) (vs : List Value) :
    ((fields.map fun f => f.slot 0).zip vs).map (fun p => (p.1.kind, p.2)) =
      (fields.map Field.kind).zip vs := by
  induction fields generalizing vs with
  | nil => rfl
  | cons f fields ih =>
    cases vs with
    | nil => rfl
    | cons v vs =>
      simp only [map_cons, zip_cons_cons, ih]
      rfl

theorem isMojom_members (hΓ : Γ.Laid) (hk : kind.isMojom)
    (hu : ∀ name nullable, kind ≠ .union name nullable)
    (ho : object Γ kind v = some o) : ∀ p ∈ o.members, p.1.kind.isMojom := by
  intro p hp
  cases objectOf ho with
  | string | array =>
    obtain ⟨i, -, hi⟩ := mem_elementSlots (of_mem_zip hp).1
    rw [hi, elementSlot_kind]
    first | rfl | exact hk
  | map =>
    have hkey := isMojom_key (Kind.isSlot_of_isMojom hk)
    rcases mem_pair.mp hp with rfl | rfl
    · exact hkey.1
    · exact hkey.2
  | struct name =>
    obtain ⟨f, hf, hs⟩ := mem_map.mp (of_mem_zip hp).1
    rw [← hs]
    exact (hΓ.struct name).kinds f hf
  | union name nullable => exact absurd rfl (hu name nullable)
  | unionPointer => cases hk

theorem active_of_hasKind {name tag : ℕ} {nullable : Bool} {field : Value}
    (hkind : kind = .union name nullable ∨ kind = .unionPointer name nullable)
    (hv : HasKind Γ D (depth + 1) kind (.union tag field)) :
    ∃ active, (Γ.union name).active tag = some active ∧ HasKind Γ D depth active.inUnion field ∧
      object Γ kind (.union tag field) =
        some ⟨unionSize, tag, [(⟨active.inUnion, 8, 0⟩, field)]⟩ := by
  rcases hkind with rfl | rfl <;>
  · simp only [HasKind] at hv
    obtain ⟨active, hactive, hfield⟩ := hv
    refine ⟨active, hactive, hfield, ?_⟩
    simp [object, hactive]

theorem HasKind.members (h : HasKind Γ D (depth + 1) kind v) (ho : object Γ kind v = some o) :
    ∀ p ∈ o.members, HasKind Γ D depth p.1.kind p.2 := by
  intro p hp
  cases objectOf ho with
  | string nullable bytes =>
    obtain ⟨hs, hv⟩ := of_mem_zip hp
    obtain ⟨i, -, hi⟩ := mem_elementSlots hs
    obtain ⟨b, -, hb⟩ := mem_map.mp hv
    rw [hi, elementSlot_kind, ← hb]
    simp only [HasKind, pow_one]
    exact b.toNat_lt
  | array elem count nullable elems =>
    obtain ⟨hs, hv⟩ := of_mem_zip hp
    obtain ⟨i, -, hi⟩ := mem_elementSlots hs
    simp only [HasKind] at h
    rw [hi, elementSlot_kind]
    exact h.2 p.2 hv
  | map key value nullable keys values =>
    simp only [HasKind] at h
    rcases mem_pair.mp hp with rfl | rfl
    · exact h.2.2.1
    · exact h.2.2.2
  | struct name nullable fields =>
    simp only [HasKind] at h
    obtain ⟨f, -, hf, hk⟩ := forall₂_zip h hp
    rw [hf]
    exact hk
  | union name nullable tag field kind hactive
  | unionPointer name nullable tag field kind hactive =>
    obtain rfl := mem_singleton.mp hp
    simp only [HasKind] at h
    obtain ⟨kind', hactive', hk⟩ := h
    rw [hactive] at hactive'
    obtain rfl := Option.some.inj hactive'
    exact hk

theorem outSize_of_hasKind (h : HasKind Γ D depth kind v) :
    outSize Γ (depth + 1) kind v = outSize Γ depth kind v := by
  induction depth generalizing kind v with
  | zero => simp only [outSize, hasKind_zero h]
  | succ depth ih =>
    cases ho : object Γ kind v with
    | none => simp only [outSize, ho]
    | some o =>
      rw [outSize_succ ho, outSize_succ ho]
      refine congrArg _ (congrArg List.sum (map_congr_left ?_))
      intro p hp
      exact ih (h.members ho p hp)

theorem handles_of_hasKind (h : HasKind Γ D depth kind v) :
    handles Γ (depth + 1) kind v = handles Γ depth kind v := by
  induction depth generalizing kind v with
  | zero =>
    have ho := hasKind_zero h
    cases v <;> simp [handles, ho]
  | succ depth ih =>
    cases ho : object Γ kind v with
    | none => cases v <;> simp only [handles, ho]
    | some o =>
      rw [handles_succ ho, handles_succ ho]
      apply flatMap_congr
      intro p hp
      exact ih (h.members ho p hp)

theorem handlesOf_of_hasKind (h : ∀ p ∈ ps, HasKind Γ D depth p.1.kind p.2) :
    handlesOf Γ (depth + 1) ps = handlesOf Γ depth ps :=
  flatMap_congr fun p hp => handles_of_hasKind (h p hp)

theorem outSizes_of_hasKind (h : ∀ p ∈ ps, HasKind Γ D depth p.1.kind p.2) :
    outSizes Γ (depth + 1) ps = outSizes Γ depth ps :=
  congrArg List.sum (map_congr_left fun p hp => outSize_of_hasKind (h p hp))

theorem repAll_of_hasKind {R R' : Slot → Value → ℕ → ℕ → Prop}
    (h : ∀ p ∈ ps, HasKind Γ D depth p.1.kind p.2)
    (hR : ∀ p ∈ ps, ∀ lo i, R (Slot.shift p.1 t) p.2 lo i ↔ R' (Slot.shift p.1 t) p.2 lo i) :
    RepAll Γ R (depth + 1) ps t lo i ↔ RepAll Γ R' depth ps t lo i := by
  induction ps generalizing lo i with
  | nil => rfl
  | cons p ps ih =>
    have hp := h p (.head _)
    simp only [RepAll, outSize_of_hasKind hp, handles_of_hasKind hp]
    exact and_congr (hR p (.head _) lo i) (ih (fun q hq => h q (.tail p hq)) fun q hq =>
      hR q (.tail p hq))

theorem rep_of_hasKind {m : Mem} {s : Slot} (h : HasKind Γ D depth s.kind v) :
    Rep Γ form m (depth + 1) s v lo i ↔ Rep Γ form m depth s v lo i := by
  induction depth generalizing s v lo i with
  | zero => simp only [Rep, hasKind_zero h]
  | succ depth ih =>
    rw [Rep, Rep]
    refine and_congr_right fun _ => ?_
    cases ho : object Γ s.kind v with
    | none => rfl
    | some o =>
      have hmembers := h.members ho
      have hall : ∀ t lo, RepAll Γ (Rep Γ form m (depth + 1)) (depth + 1) o.members t lo i ↔
          RepAll Γ (Rep Γ form m depth) depth o.members t lo i := fun t lo =>
        repAll_of_hasKind hmembers fun p hp lo i => ih (s := Slot.shift p.1 t) (hmembers p hp)
      simp [ObjectAt, hall]

theorem Wrote.of_hasKind {a b : View}
    (h : ∀ p ∈ ps, HasKind Γ D depth p.1.kind p.2) (hw : Wrote Γ form (depth + 1) t ps a b) :
    Wrote Γ form depth t ps a b where
  rep i hi := (repAll_of_hasKind h fun p hp _ _ =>
    rep_of_hasKind (s := Slot.shift p.1 t) (h p hp)).mp (hw.rep i hi)
  keeps := hw.keeps
  next := by rw [hw.next, outSizes_of_hasKind h]
  handles hform := by
    rw [hw.handles hform]
    exact congrArg _ (handlesOf_of_hasKind h)

theorem HasKind.succ (h : HasKind Γ D depth kind v) : HasKind Γ D (depth + 1) kind v := by
  induction depth generalizing kind v with
  | zero => cases kind <;> cases v <;> first | exact h | cases h
  | succ depth ih =>
    cases kind with
    | array elem count nullable =>
      cases v with
      | array elems =>
        simp only [HasKind] at h ⊢
        exact ⟨h.1, fun v hv => ih (h.2 v hv)⟩
      | _ => exact h
    | map key value nullable =>
      cases v with
      | map keys values =>
        rw [HasKind] at h ⊢
        exact ⟨h.1, h.2.1, ih h.2.2.1, ih h.2.2.2⟩
      | _ => exact h
    | struct name nullable =>
      cases v with
      | struct fields =>
        simp only [HasKind] at h ⊢
        exact h.imp fun _ _ hf => ih hf
      | _ => exact h
    | union name nullable | unionPointer name nullable =>
      cases v with
      | union tag field =>
        simp only [HasKind] at h ⊢
        obtain ⟨kind, hactive, hk⟩ := h
        exact ⟨kind, hactive, ih hk⟩
      | _ => exact h
    | _ => cases v <;> exact h

end Typed

/-- The condition holds of a member and of all members behind it. It may refer to the kind of
the object that has the member. -/
def Always (Γ : Types) (P : Kind → Kind → Value → Prop) : ℕ → Kind → Kind → Value → Prop
  | 0, parent, kind, v => P parent kind v
  | depth + 1, parent, kind, v => P parent kind v ∧
    ∀ o, object Γ kind v = some o → ∀ p ∈ o.members, Always Γ P depth kind p.1.kind p.2

instance decidableAlways {Γ : Types} {P : Kind → Kind → Value → Prop}
    [∀ parent kind v, Decidable (P parent kind v)] :
    ∀ depth parent kind v, Decidable (Always Γ P depth parent kind v)
  | 0, parent, kind, v => inferInstanceAs (Decidable (P parent kind v))
  | depth + 1, parent, kind, v =>
    haveI := decidableAlways (Γ := Γ) (P := P) depth
    match ho : object Γ kind v with
    | none => decidable_of_iff (P parent kind v) (by simp [Always, ho])
    | some o => decidable_of_iff
        (P parent kind v ∧ ∀ p ∈ o.members, Always Γ P depth kind p.1.kind p.2)
          (by simp [Always, ho])

section Always

variable {Γ : Types} {D : Domain} {P Q : Kind → Kind → Value → Prop} {depth : ℕ}
  {parent kind : Kind} {v : Value}

theorem Always.here (h : Always Γ P depth parent kind v) : P parent kind v := by
  cases depth with
  | zero => exact h
  | succ depth => exact h.1

theorem Always.succ (hv : HasKind Γ D depth kind v) (h : Always Γ P depth parent kind v) :
    Always Γ P (depth + 1) parent kind v := by
  induction depth generalizing parent kind v with
  | zero =>
    refine ⟨h, fun o ho => ?_⟩
    rw [hasKind_zero hv] at ho
    cases ho
  | succ depth ih =>
    exact ⟨h.1, fun o ho p hp => ih (hv.members ho p hp) (h.2 o ho p hp)⟩

theorem Always.pred (h : Always Γ P (depth + 1) parent kind v) :
    Always Γ P depth parent kind v := by
  induction depth generalizing parent kind v with
  | zero => exact h.1
  | succ depth ih => exact ⟨h.1, fun o ho p hp => ih (h.2 o ho p hp)⟩

theorem Always.mp (h : Always Γ (fun parent kind v => P parent kind v → Q parent kind v) depth
    parent kind v) (hP : Always Γ P depth parent kind v) : Always Γ Q depth parent kind v := by
  induction depth generalizing parent kind v with
  | zero => exact h hP
  | succ depth ih => exact ⟨h.1 hP.1, fun o ho p hp => ih (h.2 o ho p hp) (hP.2 o ho p hp)⟩

theorem Always.mono (h : Always Γ P depth parent kind v)
    (hPQ : ∀ {parent kind v}, P parent kind v → Q parent kind v) :
    Always Γ Q depth parent kind v := by
  induction depth generalizing parent kind v with
  | zero => exact hPQ h
  | succ depth ih => exact ⟨hPQ h.1, fun o ho p hp => ih (h.2 o ho p hp)⟩

theorem Always.imp_of {I : Kind → Prop} (h : Always Γ P depth parent kind v) (hk : I kind)
    (hmembers : ∀ {kind v o}, I kind → object Γ kind v = some o → ∀ p ∈ o.members, I p.1.kind)
    (hPQ : ∀ {parent kind v}, I kind → P parent kind v → Q parent kind v) :
    Always Γ Q depth parent kind v := by
  induction depth generalizing parent kind v with
  | zero => exact hPQ hk h
  | succ depth ih =>
    exact ⟨hPQ hk h.1, fun o ho p hp => ih (h.2 o ho p hp) (hmembers hk ho p hp)⟩

end Always

theorem isUnionFree_members {Γ : Types} (hΓ : Γ.UnionFree) {kind : Kind} {v : Value} {o : Object}
    (hk : kind.isUnionFree) (ho : object Γ kind v = some o) :
    ∀ p ∈ o.members, p.1.kind.isUnionFree := by
  intro p hp
  cases objectOf ho with
  | string | array =>
    obtain ⟨i, -, hi⟩ := mem_elementSlots (of_mem_zip hp).1
    rw [hi, elementSlot_kind]
    first | rfl | exact hk
  | map =>
    simp only [Kind.isUnionFree, Bool.and_eq_true] at hk
    rcases mem_pair.mp hp with rfl | rfl
    · exact hk.1
    · exact hk.2
  | struct name =>
    obtain ⟨f, hf, hs⟩ := mem_map.mp (of_mem_zip hp).1
    rw [← hs]
    exact hΓ name f hf
  | union | unionPointer => cases hk

end Mojo.Wire
