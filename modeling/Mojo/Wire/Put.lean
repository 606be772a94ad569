import Mojo.Wire.Machine

/-!
# Where the bytes of a value go

`put` writes a member of an object at its place, and the objects behind it where the next object
goes, each before the objects of its own members. An encoder that finds the place of a member by its
offset does the same; what is left to show about it is that it computes `put`. `putAll_wrote` says
that the result holds the value.
-/

namespace Mojo.Wire

open Mojo.Memory Mojo.CppBindings

def View.scalar (a : View) (addr bit : ℕ) (kind : Kind) (v : Value) : View :=
  match kind, v with
  | .number size, .number n => { a with mem := store a.mem addr size n }
  | .bool, .bool b => { a with mem := if b then setBit a.mem addr bit else a.mem }
  | .handle _, .handle h => ⟨store a.mem addr 4 a.handles.length, a.next, a.handles ++ [h]⟩
  | .interface _, .interface h version =>
    ⟨store (store a.mem addr 4 a.handles.length) (addr + 4) 4 version, a.next, a.handles ++ [h]⟩
  | .handle _, _ => { a with mem := store a.mem addr 4 encodedInvalidHandle }
  | .interface _, _ =>
    { a with mem := store (store a.mem addr 4 encodedInvalidHandle) (addr + 4) 4 0 }
  | .union _ _, _ => { a with mem := store a.mem addr 16 0 }
  | _, _ => { a with mem := store a.mem addr 8 0 }

def put (Γ : Types) : ℕ → ℕ → Slot × Value → View → View
  | 0, t, p, a => a.scalar (t + p.1.addr) p.1.bit p.1.kind p.2
  | depth + 1, t, p, a =>
    match object Γ p.1.kind p.2 with
    | none => a.scalar (t + p.1.addr) p.1.bit p.1.kind p.2
    | some o =>
      if p.1.kind.isPointer then
        o.members.foldl (fun b q => put Γ depth a.next q b) (a.enter (t + p.1.addr) o)
      else o.members.foldl (fun b q => put Γ depth (t + p.1.addr) q b) (a.tag (t + p.1.addr) o)

def putAll (Γ : Types) (depth t : ℕ) (ps : List (Slot × Value)) (a : View) : View :=
  ps.foldl (fun a p => put Γ depth t p a) a

/-- The sizes of the objects behind a member, in the order in which they are written. -/
def objectSizes (Γ : Types) : ℕ → Kind → Value → List ℕ
  | 0, _, _ => []
  | depth + 1, kind, v =>
    match object Γ kind v with
    | none => []
    | some o =>
      (if kind.isPointer then [align8 o.size] else []) ++ o.members.flatMap fun p =>
        objectSizes Γ depth p.1.kind p.2

def Sized (Γ : Types) (_ kind : Kind) (v : Value) : Prop :=
  ∀ o, object Γ kind v = some o → o.size < 2 ^ 32 ∧ o.word < 2 ^ 32

instance decidableSized (Γ : Types) (parent kind : Kind) (v : Value) :
    Decidable (Sized Γ parent kind v) :=
  match ho : object Γ kind v with
  | none => isTrue fun o h => by rw [ho] at h; cases h
  | some o => decidable_of_iff (o.size < 2 ^ 32 ∧ o.word < 2 ^ 32) (by simp [Sized, ho])

section Put

variable {Γ : Types} {D : Domain} {w : Walk} {depth limit : ℕ} {a : View} {pen : Pen}
  {parent : Kind} {q : Slot} {v : Value} {o : Object} {ps : List (Slot × Value)}

theorem put_of_none (ho : object Γ q.kind v = none) (t : ℕ) (a : View) :
    put Γ depth t (q, v) a = a.scalar (t + q.addr) q.bit q.kind v := by
  cases depth with
  | zero => rfl
  | succ depth => simp [put, ho]

theorem put_of_pointer (ho : object Γ q.kind v = some o) (hp : q.kind.isPointer) (t : ℕ)
    (a : View) : put Γ (depth + 1) t (q, v) a =
      putAll Γ depth a.next o.members (a.enter (t + q.addr) o) := by
  simp [put, ho, hp, putAll]

theorem put_of_inline (ho : object Γ q.kind v = some o) (hp : ¬ q.kind.isPointer) (t : ℕ)
    (a : View) : put Γ (depth + 1) t (q, v) a =
      putAll Γ depth (t + q.addr) o.members (a.tag (t + q.addr) o) := by
  simp only [put, ho, hp, putAll]
  rfl

theorem put_shift {k : Kind} {s t x bit : ℕ} (a : View) :
    put Γ depth (t + s) (⟨k, x, bit⟩, v) a = put Γ depth t (⟨k, s + x, bit⟩, v) a := by
  cases depth with
  | zero => simp only [put, Nat.add_assoc]
  | succ depth => simp only [put, Nat.add_assoc]

theorem objectSizes_of_none {kind : Kind} (ho : object Γ kind v = none) :
    objectSizes Γ depth kind v = [] := by
  cases depth with
  | zero => rfl
  | succ depth => simp [objectSizes, ho]

theorem objectSizes_succ {kind : Kind} (ho : object Γ kind v = some o) :
    objectSizes Γ (depth + 1) kind v = (if kind.isPointer then [align8 o.size] else []) ++
      o.members.flatMap fun p => objectSizes Γ depth p.1.kind p.2 := by
  simp [objectSizes, ho]

theorem objectSizes_of_hasKind {kind : Kind} (h : HasKind Γ D depth kind v) :
    objectSizes Γ (depth + 1) kind v = objectSizes Γ depth kind v := by
  induction depth generalizing kind v with
  | zero =>
    have ho := hasKind_zero h
    rw [objectSizes_of_none ho, objectSizes_of_none ho]
  | succ depth ih =>
    cases ho : object Γ kind v with
    | none => rw [objectSizes_of_none ho, objectSizes_of_none ho]
    | some o =>
      rw [objectSizes_succ ho, objectSizes_succ ho]
      exact congrArg _ (List.flatMap_congr fun p hp => ih (h.members ho p hp))

theorem putAll_congr {depth' t : ℕ} (h : ∀ p ∈ ps, ∀ a, put Γ depth t p a = put Γ depth' t p a)
    (a : View) : putAll Γ depth t ps a = putAll Γ depth' t ps a := by
  induction ps generalizing a with
  | nil => rfl
  | cons p ps ih =>
    have htail := ih (fun q hq => h q (.tail p hq)) (put Γ depth t p a)
    rw [h p (.head _)] at htail
    simp only [putAll, List.foldl_cons] at htail ⊢
    rw [h p (.head _), htail]

theorem put_of_hasKind (h : HasKind Γ D depth q.kind v) (t : ℕ) (a : View) :
    put Γ (depth + 1) t (q, v) a = put Γ depth t (q, v) a := by
  induction depth generalizing q v t a with
  | zero =>
    have ho := hasKind_zero h
    rw [put_of_none ho, put_of_none ho]
  | succ depth ih =>
    cases ho : object Γ q.kind v with
    | none => rw [put_of_none ho, put_of_none ho]
    | some o =>
      have hmembers : ∀ t, ∀ p ∈ o.members, ∀ a, put Γ (depth + 1) t p a = put Γ depth t p a :=
        fun t p hp a => ih (h.members ho p hp) t a
      by_cases hp : q.kind.isPointer = true
      · rw [put_of_pointer ho hp, put_of_pointer ho hp, putAll_congr (hmembers _)]
      · rw [put_of_inline ho hp, put_of_inline ho hp, putAll_congr (hmembers _)]

theorem scalar_wrote (hD : D.Words) (hv : Scalar D q.kind v)
    (h : Open Γ w depth a limit pen [(q, v)]) :
    Wrote Γ .onWire depth pen.base [(q, v)] a (a.scalar (pen.base + q.addr) q.bit q.kind v) := by
  have hlen : a.handles.length < 2 ^ 32 := by
    have := h.handles
    omega
  obtain ⟨kind, addr, bit⟩ := q
  cases hv with
  | number hn => exact wrote_number rfl hn
  | bool b =>
    refine wrote_bool rfl (h.bits _ (.head _)) ?_
    have := h.fresh _ (.head _)
    simpa [SameAt, Slot.shift, testBit] using this
  | handle nullable hh => exact wrote_handle rfl hlen
  | interface nullable hh hversion => exact wrote_interface rfl hlen (hD _ hversion)
  | null hnull =>
    cases kind with
    | number | bool => cases hnull
    | handle nullable => exact wrote_nullHandle rfl
    | interface nullable => exact wrote_nullInterface rfl
    | union name nullable => exact wrote_nullUnion rfl
    | string | array | map | struct | unionPointer => exact wrote_nullPointer rfl

theorem putAll_wrote_of (hΓ : Γ.Laid)
    (hput : ∀ p ∈ ps, ∀ {w a pen}, Open Γ w depth a limit pen [p] →
      Wrote Γ .onWire depth pen.base [p] a (put Γ depth pen.base p a))
    (h : Open Γ w depth a limit pen ps) :
    Wrote Γ .onWire depth pen.base ps a (putAll Γ depth pen.base ps a) := by
  induction ps generalizing a pen with
  | nil => exact .nil depth _ a
  | cons p ps ih =>
    have hhead := hput p (.head _) h.head
    have htail := ih (fun q hq => hput q (.tail p hq)) (h.tail hhead)
    exact hhead.cons hΓ htail h.below

theorem put_wrote (hΓ : Γ.Laid) (hD : D.Words) (hv : HasKind Γ D depth q.kind v)
    (hsized : Always Γ (Sized Γ) depth parent q.kind v) (h : Open Γ w depth a limit pen [(q, v)]) :
    Wrote Γ .onWire depth pen.base [(q, v)] a (put Γ depth pen.base (q, v) a) := by
  induction depth generalizing w a pen parent q v with
  | zero =>
    have ho := hasKind_zero hv
    rw [put_of_none ho]
    exact scalar_wrote hD (hv.scalar ho) h
  | succ depth ih =>
    cases ho : object Γ q.kind v with
    | none =>
      rw [put_of_none ho]
      exact scalar_wrote hD (hv.scalar ho) h
    | some o =>
      obtain ⟨hsize, hword⟩ := hsized.1 o ho
      have hmembers : ∀ p ∈ o.members, ∀ {w a pen}, Open Γ w depth a limit pen [p] →
          Wrote Γ .onWire depth pen.base [p] a (put Γ depth pen.base p a) :=
        fun p hp _ _ _ hopen => ih (hv.members ho p hp) (hsized.2 o ho p hp) hopen
      by_cases hp : q.kind.isPointer = true
      · rw [put_of_pointer ho hp]
        have hopen := h.enter hΓ hp ho (flows_indexed o.members)
        exact h.wrote_object hΓ hp ho hsize hword (putAll_wrote_of hΓ hmembers hopen)
      · rw [put_of_inline ho hp]
        refine h.wrote_inline hΓ hp ho hsize hword ?_
        obtain ⟨name, nullable, tag, field, hq, rfl⟩ := union_of_inline ho hp
        have ho' := ho
        rw [hq] at ho'
        obtain ⟨kind, hactive, rfl⟩ := Option.map_eq_some_iff.mp ho'
        -- the field is the only member, and has its place in the slot of the union
        have hflows := flows_indexed [(⟨kind.inUnion, q.addr + 8, 0⟩, field)]
        have hwrote := ih (q := ⟨kind.inUnion, q.addr + 8, 0⟩) (hv.members ho _ (.head _))
          (hsized.2 _ ho _ (.head _)) (h.tag hΓ hq hactive hflows)
        rw [putAll, List.foldl_cons, List.foldl_nil, put_shift]
        exact hwrote.reshift

theorem putAll_wrote (hΓ : Γ.Laid) (hD : D.Words) (hv : ∀ p ∈ ps, HasKind Γ D depth p.1.kind p.2)
    (hsized : ∀ p ∈ ps, Always Γ (Sized Γ) depth parent p.1.kind p.2)
    (h : Open Γ w depth a limit pen ps) :
    Wrote Γ .onWire depth pen.base ps a (putAll Γ depth pen.base ps a) :=
  putAll_wrote_of hΓ (fun p hp _ _ _ hopen => put_wrote hΓ hD (hv p hp) (hsized p hp) hopen) h

def View.root (o : Object) : View where
  mem := store (store (fun _ => 0) 0 4 o.size) 4 4 o.word
  next := align8 o.size
  handles := []

theorem open_root (hlaid : o.Laid) (hroom : align8 o.size + outSizes Γ depth o.members ≤ limit)
    (hsmall : limit < 2 ^ 64) (hhandles : (handlesOf Γ depth o.members).length ≤ 2 ^ 31) :
    Open Γ (indexed (o.members.map Prod.fst)) depth (View.root o) limit (.start 0 o.size)
      o.members := by
  refine open_object hlaid rfl (Nat.zero_add _).symm (fun x hx => ?_) hroom hsmall ?_
    (flows_indexed o.members)
  · simp only [headerSize] at hx
    simp only [View.root]
    rw [store_apply_of_notMem (by simp only [mem_span]; omega), store_apply_of_notMem
      (by simp only [mem_span]; omega)]
  · simpa [View.root] using hhandles

theorem Wrote.root (hlaid : o.Laid) (hsize : o.size < 2 ^ 32) (hword : o.word < 2 ^ 32) {b : View}
    (hw : Wrote Γ .onWire depth 0 o.members (View.root o) b) :
    b.next = align8 o.size + outSizes Γ depth o.members ∧
      b.handles = (handlesOf Γ depth o.members) ∧
      ObjectAt Γ b.mem (Rep Γ .onWire b.mem depth) depth o 0 0 := by
  refine ⟨hw.next, hw.handles rfl, ?_⟩
  obtain ⟨hfirst, hsecond⟩ := hw.header hlaid (by
    simp only [View.root, Nat.zero_add]
    exact le_align8 o.size)
  obtain ⟨hone, htwo⟩ := load_words (m := fun _ => 0) (b := 0) hsize hword
  refine ⟨hfirst.trans hone, hsecond.trans htwo, ?_⟩
  have hrep := hw.rep 0 fun _ => rfl
  simpa [View.root] using hrep

theorem forEach_put {σ ε : Type} {view : σ → View} {Inv : List ℕ → σ → Prop}
    {f : Slot × Value → σ → Except ε σ} {s : σ} {L : List ℕ} {t size : ℕ} {cursor : Cursor}
    {left : Option ℕ}
    (hwrote : ∀ p ∈ ps, ∀ {w a pen}, Open Γ w depth a limit pen [p] →
      Wrote Γ .onWire depth pen.base [p] a (put Γ depth pen.base p a))
    (hf : ∀ p ∈ ps, ∀ s L cursor left, Inv L s →
      Open Γ w depth (view s) limit ⟨t, size, cursor, left⟩ [p] →
      ∃ s', f p s = .ok s' ∧ view s' = put Γ depth t p (view s) ∧
        Inv (L ++ objectSizes Γ depth p.1.kind p.2) s')
    (hs : Inv L s) (h : Open Γ w depth (view s) limit ⟨t, size, cursor, left⟩ ps) :
    ∃ s', forEach f ps s = .ok s' ∧ view s' = putAll Γ depth t ps (view s) ∧
      Inv (L ++ ps.flatMap fun p => objectSizes Γ depth p.1.kind p.2) s' := by
  induction ps generalizing s L cursor left with
  | nil => exact ⟨s, rfl, rfl, by simpa using hs⟩
  | cons p ps ih =>
    obtain ⟨s₁, hrun, hview, hs₁⟩ := hf p (.head _) s L cursor left hs h.head
    have hopen := h.tail (hwrote p (.head _) h.head)
    rw [← hview] at hopen
    obtain ⟨s₂, hrun', hview', hs₂⟩ :=
      ih (fun q hq => hwrote q (.tail p hq)) (fun q hq => hf q (.tail p hq)) hs₁ hopen
    refine ⟨s₂, ?_, ?_, ?_⟩
    · rw [forEach, hrun, ok_bind, hrun']
    · rw [hview', hview]
      rfl
    · rw [List.flatMap_cons, ← List.append_assoc]
      exact hs₂

end Put

end Mojo.Wire
