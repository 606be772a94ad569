import Mojo.Wire.Cursor
import Mojo.Wire.Typed
import Mojo.Wire.Scalars
import Mojo.Memory.Traced

/-!
# Encoders with cursors

An encoder that goes through the members of an object with a cursor keeps a `Pen` for every object
it has begun. `Open` is what it needs before members are written: the cursor comes by their places,
they lie inside the object and their bytes are still zero, and there is room for the objects behind
them. A `Machine` is such an encoder, seen through its view and its pens, and `forEach_done` puts
the members of an object together.
-/

namespace Mojo.Wire

open Mojo.Memory Mojo.CppBindings List

variable {D : Domain} {q : Slot} {v : Value} {o : Object} {c : View} {w' : Walk}

/-- An object that is being written. Some encoders count the members: `left` is how many
may still be written. -/
structure Pen where
  base : ℕ
  size : ℕ
  cursor : Cursor
  left : Option ℕ

abbrev Pen.to (pen : Pen) (a : ℕ) : Pen := { pen with cursor := ⟨a, 0⟩ }

abbrev Pen.start (base size : ℕ) : Pen := ⟨base, size, ⟨headerSize, 0⟩, none⟩

def Pen.past (w : Walk) (pen : Pen) (p : Slot × Value) : Pen :=
  { pen with cursor := w.advance p.1.kind p.2 pen.cursor, left := pen.left.map (· - 1) }

def Pen.pastAll (w : Walk) (pen : Pen) (ps : List (Slot × Value)) : Pen := ps.foldl (Pen.past w) pen

structure Open (Γ : Types) (w : Walk) (depth : ℕ) (a : View) (limit : ℕ) (pen : Pen)
    (ps : List (Slot × Value)) : Prop where
  flows : Flows w pen.cursor ps
  inside : ∀ p ∈ ps, p.1.addr + p.1.kind.size ≤ pen.size
  below : Below pen.base a.next ps
  aligned : a.next % 8 = 0
  room : a.next + outSizes Γ depth ps ≤ limit
  small : limit < 2 ^ 64
  zero : ∀ x, a.next ≤ x → a.mem x = 0
  fresh : ∀ p ∈ ps, SameAt (fun _ => 0) a.mem (Slot.shift p.1 pen.base)
  bits : ∀ p ∈ ps, p.1.bit < 8
  handles : a.handles.length + (handlesOf Γ depth ps).length ≤ 2 ^ 31

section Open

variable {Γ : Types} {w : Walk} {depth limit : ℕ} {a b : View} {pen : Pen} {p : Slot × Value}
  {ps : List (Slot × Value)}

theorem Open.head (h : Open Γ w depth a limit pen (p :: ps)) : Open Γ w depth a limit pen [p] where
  flows := ⟨h.flows.1, h.flows.2.1, trivial⟩
  inside q hq := h.inside q (mem_singleton.mp hq ▸ (.head _))
  below :=
    { kinds := fun q hq => h.below.kinds q (mem_singleton.mp hq ▸ (.head _))
      apart := pairwise_singleton _ _
      below := fun q hq => h.below.below q (mem_singleton.mp hq ▸ (.head _)) }
  aligned := h.aligned
  room := by
    have := h.room
    rw [outSizes_cons] at this
    rw [outSizes_singleton]
    omega
  small := h.small
  zero := h.zero
  fresh q hq := h.fresh q (mem_singleton.mp hq ▸ (.head _))
  bits q hq := h.bits q (mem_singleton.mp hq ▸ (.head _))
  handles := by
    have := h.handles
    rw [handlesOf_cons, length_append] at this
    rw [handlesOf_singleton]
    omega

theorem Open.tail (h : Open Γ w depth a limit pen (p :: ps))
    (hw : Wrote Γ .onWire depth pen.base [p] a b) : Open Γ w depth b limit (pen.past w p) ps := by
  have hnext : b.next = a.next + outSize Γ depth p.1.kind p.2 := by
    have := hw.next
    simpa [outSizes] using this
  have hroom := h.room
  rw [outSizes_cons] at hroom
  have hkeeps := hw.keeps
  constructor
  · exact h.flows.2.2
  · exact fun q hq => h.inside q (.tail p hq)
  · exact h.below.tail (by omega)
  · have := h.aligned
    have : outSize Γ depth p.1.kind p.2 % 8 = 0 := outSize_mod
    omega
  · omega
  · exact h.small
  · intro x hx
    have hp := h.below.below p (.head _)
    have heq : b.mem x = a.mem x := by
      refine ((hkeeps.eqOn (R := {x}) (fun w hw => ?_) ?_) rfl).symm
      · obtain rfl := mem_singleton.mp hw
        rw [Set.disjoint_singleton_right, bytes_shift, mem_span]
        omega
      · rw [Set.disjoint_singleton_left, Set.mem_Ico]
        omega
    rw [heq]
    exact h.zero x (by omega)
  · intro q hq
    refine (h.fresh q (.tail p hq)).trans (hkeeps _ (fun w hw => ?_) ?_)
    · obtain rfl := mem_singleton.mp hw
      exact ((pairwise_cons.mp h.below.apart).1 q hq).shift _
    · exact h.below.disjoint _ (.tail p hq)
  · exact fun q hq => h.bits q (.tail p hq)
  · have hhandles := h.handles
    have := hw.handles rfl
    rw [handlesOf_singleton] at this
    rw [this]
    simp only [handlesOf_cons, length_append] at hhandles ⊢
    omega

theorem Open.of_hasKind (h : Open Γ w depth a limit pen ps)
    (hv : ∀ p ∈ ps, HasKind Γ D depth p.1.kind p.2) : Open Γ w (depth + 1) a limit pen ps :=
  { h with
    room := by
      rw [outSizes_of_hasKind hv]
      exact h.room
    handles := by
      rw [handlesOf_of_hasKind hv]
      exact h.handles }

def View.enter (a : View) (slot : ℕ) (o : Object) : View where
  mem := store (store (store a.mem slot 8 (a.next - slot)) a.next 4 o.size) (a.next + 4) 4 o.word
  next := a.next + align8 o.size
  handles := a.handles

theorem Open.wrote_object (hΓ : Γ.Laid) (h : Open Γ w (depth + 1) a limit pen [(q, v)])
    (hp : q.kind.isPointer)
    (ho : object Γ q.kind v = some o) (hsize : o.size < 2 ^ 32) (hword : o.word < 2 ^ 32)
    (hw : Wrote Γ .onWire depth a.next o.members (a.enter (pen.base + q.addr) o) c) :
    Wrote Γ .onWire (depth + 1) pen.base [(q, v)] a c := by
  obtain ⟨hb, h8⟩ := size_of_isPointer hp
  have hbelow := h.below.below _ (.head _)
  simp only [h8] at hbelow
  have hroom := h.room
  have hsmall := h.small
  have hheader := (object_laid hΓ (h.below.kinds _ (.head _)) ho).header
  have hle := le_align8 o.size
  simp only [headerSize] at hheader
  have hpointer : load (a.enter (pen.base + q.addr) o).mem (pen.base + q.addr) 8 =
      a.next - (pen.base + q.addr) := by
    rw [View.enter, load_store_of_disjoint (span_disjoint_of_le (by omega)),
      load_store_of_disjoint (span_disjoint_of_le (by omega)), load_store_of_lt (by omega)]
  refine Wrote.pointer hΓ (h.below.kinds _ (.head _)) hp ho (by omega) h.aligned hpointer
    (load_words hsize hword).1 (load_words hsize hword).2 ?_ rfl rfl hw
  have hslot : Keeps a.mem (store a.mem (pen.base + q.addr) 8 (a.next - (pen.base + q.addr)))
      [Slot.shift q pen.base] a.next a.next := by
    apply keeps_store_slot (q := Slot.shift q pen.base) hb
    rw [bytes_shift, h8]
  have hfirst : Keeps (store a.mem (pen.base + q.addr) 8 (a.next - (pen.base + q.addr)))
      (store (store a.mem (pen.base + q.addr) 8 (a.next - (pen.base + q.addr))) a.next 4 o.size)
      [] a.next (a.next + 4) :=
    keeps_store fun x hx => .inr (by simpa using hx)
  have hsecond : Keeps (store (store a.mem (pen.base + q.addr) 8 (a.next - (pen.base + q.addr)))
      a.next 4 o.size)
      (a.enter (pen.base + q.addr) o).mem [] (a.next + 4) (a.next + align8 o.size) := by
    refine keeps_store fun x hx => .inr ?_
    simp only [mem_span, Set.mem_Ico] at hx ⊢
    omega
  exact (hslot.trans hfirst le_rfl (by omega)).trans hsecond (by omega)
    (by simp only [View.enter]; omega)

theorem open_object {t : ℕ} (hlaid : o.Laid) (ht : t % 8 = 0)
    (hnext : a.next = t + align8 o.size) (hzero : ∀ x, t + headerSize ≤ x → a.mem x = 0)
    (hroom : a.next + outSizes Γ depth o.members ≤ limit) (hsmall : limit < 2 ^ 64)
    (hhandles : a.handles.length + (handlesOf Γ depth o.members).length ≤ 2 ^ 31)
    (hflows : Flows w ⟨headerSize, 0⟩ o.members) :
    Open Γ w depth a limit (.start t o.size) o.members := by
  have hle := le_align8 o.size
  have hheader := hlaid.header
  constructor
  · exact hflows
  · exact fun p hp => (hlaid.inside p hp).2
  · exact hlaid.below (by simp only; omega)
  · have := align8_mod o.size
    omega
  · exact hroom
  · exact hsmall
  · exact fun x hx => hzero x (by omega)
  · intro p hp
    refine sameAt_of_eqOn fun x hx => (hzero x ?_).symm
    have hin := (hlaid.inside p hp).1
    rw [bytes_shift, mem_span] at hx
    simp only at hx
    omega
  · exact hlaid.bits
  · exact hhandles

theorem Open.zero_enter (h : Open Γ w depth a limit pen [(q, v)]) (hp : q.kind.isPointer)
    (o : Object) {x : ℕ}
    (hx : a.next + headerSize ≤ x) : (a.enter (pen.base + q.addr) o).mem x = 0 := by
  have hbelow := h.below.below _ (.head _)
  simp only [(size_of_isPointer hp).2] at hbelow
  simp only [headerSize] at hx
  simp only [View.enter]
  rw [store_apply_of_notMem (by simp only [mem_span]; omega), store_apply_of_notMem
    (by simp only [mem_span]; omega), store_apply_of_notMem (by simp only [mem_span]; omega)]
  exact h.zero x (by omega)

theorem Open.enter (hΓ : Γ.Laid) (h : Open Γ w (depth + 1) a limit pen [(q, v)])
    (hp : q.kind.isPointer)
    (ho : object Γ q.kind v = some o) (hflows : Flows w' ⟨headerSize, 0⟩ o.members) :
    Open Γ w' depth (a.enter (pen.base + q.addr) o) limit (.start a.next o.size) o.members := by
  have hlaid := object_laid hΓ (h.below.kinds _ (.head _)) ho
  have hroom := h.room
  rw [outSizes_cons, outSize_succ ho, if_pos hp] at hroom
  refine open_object hlaid h.aligned rfl (fun x hx => h.zero_enter hp o hx) ?_ h.small ?_ hflows
  · simp only [View.enter]
    omega
  · have := h.handles
    simpa [View.enter, handles_succ ho] using this

def View.tag (a : View) (slot : ℕ) (o : Object) : View where
  mem := store (store a.mem slot 4 o.size) (slot + 4) 4 o.word
  next := a.next
  handles := a.handles

theorem Open.wrote_inline (hΓ : Γ.Laid) (h : Open Γ w (depth + 1) a limit pen [(q, v)])
    (hp : ¬ q.kind.isPointer)
    (ho : object Γ q.kind v = some o) (hsize : o.size < 2 ^ 32) (hword : o.word < 2 ^ 32)
    (hw : Wrote Γ .onWire depth (pen.base + q.addr) o.members (a.tag (pen.base + q.addr) o) c) :
    Wrote Γ .onWire (depth + 1) pen.base [(q, v)] a c := by
  obtain ⟨hb, hinline⟩ := size_of_inline ho hp
  have hheader := (object_laid hΓ (h.below.kinds _ (.head _)) ho).header
  have hkeeps : Keeps a.mem (a.tag (pen.base + q.addr) o).mem [Slot.shift q pen.base] a.next
      a.next := by
    refine keeps_store_words (q := Slot.shift q pen.base) hb ?_
    simp only [Slot.shift, hinline]
    exact hheader
  obtain ⟨hfirst, hsecond⟩ := load_words (m := a.mem) (b := pen.base + q.addr) hsize hword
  exact Wrote.inline (b := a.tag (pen.base + q.addr) o) hΓ (h.below.kinds _ (.head _)) hp ho
    (h.below.below _ (.head _)) hfirst hsecond hkeeps rfl rfl hw

theorem Open.tag (hΓ : Γ.Laid) {name tag : ℕ} {nullable : Bool} {kind : Kind} {field : Value}
    (h : Open Γ w (depth + 1) a limit pen [(q, .union tag field)])
    (hq : q.kind = .union name nullable)
    (hactive : (Γ.union name).active tag = some kind) {cursor : Cursor}
    (hflows : Flows w' cursor [(⟨kind.inUnion, q.addr + 8, 0⟩, field)]) :
    Open Γ w' depth (a.tag (pen.base + q.addr) ⟨unionSize, tag, [(⟨kind.inUnion, 8, 0⟩, field)]⟩)
      limit { pen with cursor := cursor } [(⟨kind.inUnion, q.addr + 8, 0⟩, field)] := by
  have ho : object Γ q.kind (.union tag field) =
      some ⟨unionSize, tag, [(⟨kind.inUnion, 8, 0⟩, field)]⟩ := by
    simp [hq, object, hactive]
  have hmojom := isMojom_of_active hΓ hactive
  have hsize := size_inUnion hmojom
  have hbelow := h.below.below _ (.head _)
  have hinside := h.inside _ (.head _)
  simp only [hq, Kind.size] at hbelow hinside
  have hroom := h.room
  rw [outSizes_cons, outSize_succ ho, if_neg (by simp [hq, Kind.isPointer])] at hroom
  constructor
  · exact hflows
  · intro p hp
    obtain rfl := mem_singleton.mp hp
    simp only
    omega
  · constructor
    · intro p hp
      obtain rfl := mem_singleton.mp hp
      exact isSlot_inUnion hmojom
    · exact pairwise_singleton _ _
    · intro p hp
      obtain rfl := mem_singleton.mp hp
      simp only [View.tag]
      omega
  · exact h.aligned
  · simp only [outSizes, map_cons, map_nil, sum_cons, sum_nil, View.tag] at hroom ⊢
    omega
  · exact h.small
  · intro x hx
    simp only [View.tag] at hx ⊢
    rw [store_apply_of_notMem (by simp only [mem_span]; omega), store_apply_of_notMem
      (by simp only [mem_span]; omega)]
    exact h.zero x hx
  · intro p hp
    obtain rfl := mem_singleton.mp hp
    have hzero := (h.fresh _ (.head _)).eqOn (by simp [Slot.shift, hq])
    refine sameAt_of_eqOn fun x hx => ?_
    rw [bytes_shift, mem_span] at hx
    have hmem : x ∈ (Slot.shift q pen.base).bytes := by
      rw [bytes_shift, mem_span, hq]
      simp only [Kind.size]
      simp only at hx
      omega
    simp only [View.tag] at hx ⊢
    rw [store_apply_of_notMem (by simp only [mem_span]; omega), store_apply_of_notMem
      (by simp only [mem_span]; omega)]
    exact hzero hmem
  · intro p hp
    obtain rfl := mem_singleton.mp hp
    exact Nat.succ_pos 7
  · have := h.handles
    simpa [View.tag, handles_succ ho] using this

end Open

/-- An encoder. `holds e id pen` says that `pen` is the state of the object `id`, and `Frame`
what else stays as it is while members are written. -/
structure Machine (σ : Type) where
  view : σ → View
  limit : σ → ℕ
  holds : σ → ℕ → Pen → Prop
  Frame : σ → σ → Prop
  refl : ∀ e, Frame e e
  trans : ∀ {e e' e''}, Frame e e' → Frame e' e'' → Frame e e''
  limit_eq : ∀ {e e'}, Frame e e' → limit e' = limit e

namespace Machine

variable {σ : Type} (M : Machine σ) (Γ : Types) (w : Walk) (depth : ℕ)

structure Ready (e : σ) (id : ℕ) (pen : Pen) (ps : List (Slot × Value)) : Prop where
  holds : M.holds e id pen
  isOpen : Open Γ w depth (M.view e) (M.limit e) pen ps

structure Done (e e' : σ) (id : ℕ) (pen : Pen) (ps : List (Slot × Value)) : Prop where
  wrote : Wrote Γ .onWire depth pen.base ps (M.view e) (M.view e')
  holds : M.holds e' id (pen.pastAll w ps)
  others : ∀ j pen', j ≠ id → M.holds e j pen' → M.holds e' j pen'
  frame : M.Frame e e'

section Lists

variable {M Γ w depth} {id : ℕ} {e e' e'' : σ} {pen : Pen} {p : Slot × Value}
  {ps : List (Slot × Value)}

theorem Ready.head (h : M.Ready Γ w depth e id pen (p :: ps)) : M.Ready Γ w depth e id pen [p] :=
  ⟨h.holds, h.isOpen.head⟩

theorem Ready.tail (h : M.Ready Γ w depth e id pen (p :: ps))
    (hd : M.Done Γ w depth e e' id pen [p]) : M.Ready Γ w depth e' id (pen.past w p) ps := by
  refine ⟨hd.holds, ?_⟩
  rw [M.limit_eq hd.frame]
  exact h.isOpen.tail hd.wrote

theorem Done.cons (hΓ : Γ.Laid) (h : M.Ready Γ w depth e id pen (p :: ps))
    (hd : M.Done Γ w depth e e' id pen [p]) (hds : M.Done Γ w depth e' e'' id (pen.past w p) ps) :
    M.Done Γ w depth e e'' id pen (p :: ps) where
  wrote := hd.wrote.cons hΓ hds.wrote h.isOpen.below
  holds := hds.holds
  others j pen' hj hpen := hds.others j pen' hj (hd.others j pen' hj hpen)
  frame := M.trans hd.frame hds.frame

theorem Done.nil (h : M.holds e id pen) : M.Done Γ w depth e e id pen [] where
  wrote := .nil depth _ _
  holds := h
  others _ _ _ hpen := hpen
  frame := M.refl e

theorem Done.of_hasKind (hd : M.Done Γ w (depth + 1) e e' id pen ps)
    (hv : ∀ p ∈ ps, HasKind Γ D depth p.1.kind p.2) : M.Done Γ w depth e e' id pen ps :=
  { hd with wrote := hd.wrote.of_hasKind hv }

theorem forEach_done {ε : Type} (hΓ : Γ.Laid) {f : Slot × Value → σ → Except ε σ}
    (hf : ∀ p ∈ ps, ∀ e' pen, M.Frame e e' → M.Ready Γ w depth e' id pen [p] →
      ∃ e'', f p e' = .ok e'' ∧ M.Done Γ w depth e' e'' id pen [p])
    (h : M.Ready Γ w depth e id pen ps) :
    ∃ e', forEach f ps e = .ok e' ∧ M.Done Γ w depth e e' id pen ps := by
  induction ps generalizing e pen with
  | nil => exact ⟨e, rfl, .nil h.holds⟩
  | cons p ps ih =>
    obtain ⟨e₁, hrun, hd⟩ := hf p (.head _) e pen (M.refl e) h.head
    obtain ⟨e₂, hrun', hds⟩ := ih (fun q hq e' pen hframe => hf q (.tail p hq) e' pen
      (M.trans hd.frame hframe)) (h.tail hd)
    refine ⟨e₂, ?_, hd.cons hΓ h hds⟩
    simp [forEach, hrun, ok_bind, hrun']

end Lists

end Machine

end Mojo.Wire
