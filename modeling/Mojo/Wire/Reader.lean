import Mojo.Wire.Machine
import Mojo.System.Triples

/-!
# Decoders with cursors

The counterpart of `Machine`. A decoder finds the members of an object with a cursor and claims the
objects behind them, and the handles, in increasing order. `Sees` says that the members hold their
values where the decoder will look for them; `collect_done` puts the members together.
-/

namespace Mojo.Wire

open Mojo.Memory Mojo.CppBindings Mojo.System
open List hiding Mem

variable {D : Domain} {v : Value} {q : Slot} {t k : ℕ} {α β ε : Type} {o : Object} {left : Option ℕ}
    {w' : Walk} {g : Slot × Value → β} {as : List α}

/-- The members `ps` hold their values in the memory `m` of `limit` bytes with the handles `H`; the
objects behind them start at `lo`, their handles at `i`. -/
structure Sees (Γ : Types) (w : Walk) (depth : ℕ) (m : Mem) (limit : ℕ) (H : List ℕ) (pen : Pen)
    (ps : List (Slot × Value)) (lo i : ℕ) : Prop where
  flows : Flows w pen.cursor ps
  inside : ∀ p ∈ ps, p.1.addr + p.1.kind.size ≤ pen.size
  base : pen.base % 8 = 0
  rep : RepAll Γ (Rep Γ .onWire m depth) depth ps pen.base lo i
  room : lo + outSizes Γ depth ps ≤ limit
  handles : ∃ rest, H.drop i = handlesOf Γ depth ps ++ rest
  left : ∀ n, pen.left = some n → ps.length ≤ n

section Sees

variable {Γ : Types} {w : Walk} {depth limit lo i : ℕ} {m : Mem} {H : List ℕ} {pen : Pen}
  {p : Slot × Value} {ps : List (Slot × Value)}

theorem Sees.head (h : Sees Γ w depth m limit H pen (p :: ps) lo i) :
    Sees Γ w depth m limit H pen [p] lo i where
  flows := ⟨h.flows.1, h.flows.2.1, trivial⟩
  inside q hq := h.inside q (mem_singleton.mp hq ▸ (.head _))
  base := h.base
  rep := ⟨h.rep.1, trivial⟩
  room := by
    have := h.room
    rw [outSizes_cons] at this
    rw [outSizes_singleton]
    omega
  handles := by
    obtain ⟨rest, hrest⟩ := h.handles
    rw [handlesOf_cons, append_assoc] at hrest
    exact ⟨_, by simpa using hrest⟩
  left n hn := by
    have := h.left n hn
    simp only [length_cons, length_nil] at this ⊢
    omega

theorem Sees.tail (h : Sees Γ w depth m limit H pen (p :: ps) lo i) :
    Sees Γ w depth m limit H (pen.past w p) ps (lo + outSize Γ depth p.1.kind p.2)
      (i + (Wire.handles Γ depth p.1.kind p.2).length) where
  flows := h.flows.2.2
  inside q hq := h.inside q (.tail p hq)
  base := h.base
  rep := h.rep.2
  room := by
    have := h.room
    rw [outSizes_cons] at this
    omega
  handles := by
    obtain ⟨rest, hrest⟩ := h.handles
    rw [handlesOf_cons, append_assoc] at hrest
    refine ⟨rest, ?_⟩
    rw [← drop_drop, hrest, drop_left]
  left n hn := by
    obtain ⟨k, hk, rfl⟩ := Option.map_eq_some_iff.mp hn
    have := h.left k hk
    simp only [length_cons] at this
    omega

theorem Sees.of_hasKind (h : Sees Γ w depth m limit H pen ps lo i)
    (hv : ∀ p ∈ ps, HasKind Γ D depth p.1.kind p.2) :
    Sees Γ w (depth + 1) m limit H pen ps lo i :=
  { h with
    rep := (repAll_of_hasKind hv fun p hp _ _ =>
      rep_of_hasKind (s := Slot.shift p.1 pen.base) (hv p hp)).mpr h.rep
    room := by
      rw [outSizes_of_hasKind hv]
      exact h.room
    handles := by
      rw [handlesOf_of_hasKind hv]
      exact h.handles }

theorem Sees.handle {kind : Kind} {h : ℕ} (hq : q.kind = kind)
    (hsees : Sees Γ w depth m limit H pen [(q, v)] lo i)
    (hh : Wire.handles Γ depth kind v = [h]) : H[i]? = some h := by
  obtain ⟨rest, hrest⟩ := hsees.handles
  simp only [handlesOf_singleton, hq, hh, singleton_append] at hrest
  rw [← head?_drop, hrest, head?_cons]

theorem Sees.content (h : Sees Γ w depth m limit H pen [(q, v)] lo i) :
    Content .onWire m (Slot.shift q pen.base) v lo i := by
  have hrep := h.rep.1
  cases depth with
  | zero => exact hrep.1
  | succ depth => exact hrep.1

theorem RepAll.of_mem {R : Slot → Value → ℕ → ℕ → Prop} (h : RepAll Γ R depth ps t lo i)
    (hp : p ∈ ps) : ∃ lo i, R (Slot.shift p.1 t) p.2 lo i := by
  induction ps generalizing lo i with
  | nil => cases hp
  | cons q ps ih =>
    rcases hp with _ | ⟨_, hp⟩
    · exact ⟨lo, i, h.1⟩
    · exact ih h.2 hp

theorem Sees.content_of_mem (h : Sees Γ w depth m limit H pen ps lo i) (hp : p ∈ ps) :
    ∃ lo i, Content .onWire m (Slot.shift p.1 pen.base) p.2 lo i := by
  obtain ⟨lo, i, hrep⟩ := h.rep.of_mem hp
  refine ⟨lo, i, ?_⟩
  cases depth with
  | zero => exact hrep.1
  | succ depth => exact hrep.1

theorem mem_zip_map {γ : Type} {f : α → γ} {l : List β} {l' : List α} (hk : k < l.length)
    (hk' : k < l'.length) : (l[k], f l'[k]) ∈ l.zip (l'.map f) := by
  rw [mem_iff_getElem]
  refine ⟨k, by simp [hk, hk'], ?_⟩
  rw [getElem_zip, getElem_map]

theorem Sees.loads_numbers {size : ℕ} {values : List ℕ} (h : Sees Γ w depth m limit H pen
      ((elementSlots (.number size) 0 values.length).zip (values.map .number)) lo i) :
    ((List.range values.length).map fun k => load m (pen.base + headerSize + size * k) size) =
      values := by
  refine ext_getElem (by simp) fun k hk hk' => ?_
  have hmem := mem_zip_map (f := Value.number) (l := elementSlots (.number size) 0 values.length)
    (by simpa [elementSlots] using hk') hk'
  obtain ⟨lo', i', hcontent⟩ := h.content_of_mem hmem
  simpa [Content, Slot.shift, elementSlots, elementSlot, Kind.size, Nat.add_assoc] using hcontent

theorem Sees.testBit_bools {values : List Bool} (h : Sees Γ w depth m limit H pen
      ((elementSlots .bool 0 values.length).zip (values.map .bool)) lo i) (hk : k < values.length) :
    (m (pen.base + headerSize + k / 8)).toNat.testBit (k % 8) = values[k] := by
  have hmem := mem_zip_map (f := Value.bool) (l := elementSlots .bool 0 values.length)
    (by simpa [elementSlots] using hk) hk
  obtain ⟨lo', i', hcontent⟩ := h.content_of_mem hmem
  simpa [Content, Slot.shift, elementSlots, elementSlot, testBit, Nat.add_assoc] using hcontent

theorem Sees.pointer (h : Sees Γ w (depth + 1) m limit H pen [(q, v)] lo i) (hp : q.kind.isPointer)
    (ho : object Γ q.kind v = some o) :
    pen.base + q.addr < lo ∧ lo % 8 = 0 ∧ load m (pen.base + q.addr) 8 = lo - (pen.base + q.addr) ∧
      ObjectAt Γ m (Rep Γ .onWire m depth) depth o lo i ∧
      lo + align8 o.size + outSizes Γ depth o.members ≤ limit := by
  obtain ⟨hcontent, hobject⟩ := h.rep.1
  have ho' : object Γ (Slot.shift q pen.base).kind v = some o := ho
  obtain ⟨hlt, halign, hload⟩ := (content_pointer ho' hp).mp hcontent
  simp only [Slot.shift, ho, hp, ↓reduceIte] at hobject
  have hroom := h.room
  rw [outSizes_singleton, outSize_succ ho, if_pos hp] at hroom
  refine ⟨hlt, halign, hload, hobject, ?_⟩
  omega

theorem sees_members (hΓ : Γ.Laid) {kind : Kind} (hk : kind.isSlot)
    (ho : object Γ kind v = some o) (hflows : Flows w ⟨headerSize, 0⟩ o.members)
    (ht : t % 8 = 0) (hat : ObjectAt Γ m (Rep Γ .onWire m depth) depth o t i)
    (hroom : t + align8 o.size + outSizes Γ depth o.members ≤ limit)
    (hhandles : ∃ rest, H.drop i = handlesOf Γ depth o.members ++ rest)
    (hleft : ∀ n, left = some n → o.members.length ≤ n) :
    Sees Γ w depth m limit H ⟨t, o.size, ⟨headerSize, 0⟩, left⟩ o.members
      (t + align8 o.size) i where
  flows := hflows
  inside p hp := ((object_laid hΓ hk ho).inside p hp).2
  base := ht
  rep := hat.2.2
  room := hroom
  handles := hhandles
  left := hleft

theorem Sees.members (hΓ : Γ.Laid) (h : Sees Γ w (depth + 1) m limit H pen [(q, v)] lo i)
    (hk : q.kind.isSlot)
    (hp : q.kind.isPointer) (ho : object Γ q.kind v = some o)
    (hflows : Flows w' ⟨headerSize, 0⟩ o.members)
    (hleft : ∀ n, left = some n → o.members.length ≤ n) :
    Sees Γ w' depth m limit H ⟨lo, o.size, ⟨headerSize, 0⟩, left⟩ o.members
      (lo + align8 o.size) i := by
  obtain ⟨-, halign, -, hat, hroom⟩ := h.pointer hp ho
  refine sees_members hΓ hk ho hflows halign hat hroom ?_ hleft
  obtain ⟨rest, hrest⟩ := h.handles
  exact ⟨rest, by simpa [handles_succ ho] using hrest⟩

theorem Sees.field {name tag : ℕ} {nullable : Bool} {kind : Kind} {field : Value}
    (h : Sees Γ w (depth + 1) m limit H pen [(q, .union tag field)] lo i) (hΓ : Γ.Laid)
    (hq : q.kind = .union name nullable) (hactive : (Γ.union name).active tag = some kind)
    {cursor : Cursor} (hflows : Flows w' cursor [(⟨kind.inUnion, q.addr + 8, 0⟩, field)]) :
    Sees Γ w' depth m limit H { pen with cursor := cursor } [(⟨kind.inUnion, q.addr + 8, 0⟩, field)]
      lo i := by
  have ho : object Γ q.kind (.union tag field) =
      some ⟨unionSize, tag, [(⟨kind.inUnion, 8, 0⟩, field)]⟩ := by
    simp only [hq, object, hactive, Option.map_some]
  have hp : ¬ q.kind.isPointer = true := by rw [hq]; exact Bool.false_ne_true
  have hroom := h.room
  rw [outSizes_cons, outSize_succ ho, if_neg hp] at hroom
  constructor
  · exact hflows
  · intro p hp
    obtain rfl := mem_singleton.mp hp
    have hin := h.inside _ (.head _)
    have hsize := size_inUnion (isMojom_of_active hΓ hactive)
    simp only [hq, Kind.size] at hin
    simp only
    omega
  · exact h.base
  · have hrep := h.rep.1.2
    simp only [Slot.shift, ho, hp] at hrep
    have hshift : Slot.shift ⟨kind.inUnion, 8, 0⟩ (pen.base + q.addr) =
        Slot.shift ⟨kind.inUnion, q.addr + 8, 0⟩ pen.base := by
      simp only [Slot.shift, Nat.add_assoc]
    refine ⟨?_, trivial⟩
    rw [← hshift]
    exact hrep.1
  · simp only [outSizes, map_cons, map_nil, sum_cons, sum_nil] at hroom ⊢
    omega
  · obtain ⟨rest, hrest⟩ := h.handles
    exact ⟨rest, by simpa [handles_succ ho] using hrest⟩
  · exact h.left

end Sees

theorem mapM_returns {σ : Type} (claimed : ℕ → ℕ → σ → Prop) {Γ : Types} {w : Walk}
    {depth limit lo i size : ℕ} {m : Mem} {H : List ℕ} {cursor : Cursor}
    {ps : List (Slot × Value)} {f : α → EStateM ε σ β}
    (hf : List.Forall₂ (fun a p => ∀ cursor left lo i, Sees Γ w depth m limit H
      ⟨t, size, cursor, left⟩ [p] lo i →
      Returns (claimed lo i) (f a) (g p) (claimed (lo + outSize Γ depth p.1.kind p.2)
        (i + (handles Γ depth p.1.kind p.2).length))) as ps)
    (h : Sees Γ w depth m limit H ⟨t, size, cursor, left⟩ ps lo i) :
    Returns (claimed lo i) (as.mapM' f) (ps.map g) (claimed (lo + outSizes Γ depth ps)
      (i + (handlesOf Γ depth ps).length)) := by
  induction as generalizing cursor left ps lo i with
  | nil =>
    cases hf
    exact .ret [] fun s hs => by simpa [outSizes] using hs
  | cons a as ih =>
    cases hf with
    | cons ha has =>
      have hhead := ha cursor left lo i h.head
      have htail := ih has h.tail
      refine hhead.bind (htail.bind (.ret _ fun s hs => ?_))
      rw [outSizes_cons, handlesOf_cons, length_append, ← Nat.add_assoc, ← Nat.add_assoc]
      exact hs

/-- A decoder. `claimed d lo i` says that the memory from `lo` and the handles from `i` on are
not claimed yet. -/
structure Reader (δ : Type) where
  holds : δ → ℕ → Pen → Prop
  claimed : δ → ℕ → ℕ → Prop
  Frame : δ → δ → Prop
  refl : ∀ d, Frame d d
  trans : ∀ {d d' d''}, Frame d d' → Frame d' d'' → Frame d d''

namespace Reader

variable {δ : Type} (R : Reader δ) (Γ : Types) (w : Walk) (depth : ℕ) (m : Mem) (limit : ℕ)
  (H : List ℕ)

structure Ready (d : δ) (id : ℕ) (pen : Pen) (ps : List (Slot × Value)) (lo i : ℕ) : Prop where
  holds : R.holds d id pen
  claimed : R.claimed d lo i
  sees : Sees Γ w depth m limit H pen ps lo i

structure Done (d d' : δ) (id : ℕ) (pen : Pen) (ps : List (Slot × Value)) (lo i : ℕ) : Prop where
  holds : R.holds d' id (pen.pastAll w ps)
  others : ∀ j pen', j ≠ id → R.holds d j pen' → R.holds d' j pen'
  claimed : R.claimed d' (lo + outSizes Γ depth ps) (i + (handlesOf Γ depth ps).length)
  frame : R.Frame d d'

section Lists

variable {R Γ w depth m limit H} {id lo i : ℕ} {d d' d'' : δ} {pen : Pen} {p : Slot × Value}
  {ps : List (Slot × Value)}

theorem Ready.head (h : R.Ready Γ w depth m limit H d id pen (p :: ps) lo i) :
    R.Ready Γ w depth m limit H d id pen [p] lo i :=
  ⟨h.holds, h.claimed, h.sees.head⟩

theorem Ready.tail (h : R.Ready Γ w depth m limit H d id pen (p :: ps) lo i)
    (hd : R.Done Γ w depth d d' id pen [p] lo i) :
    R.Ready Γ w depth m limit H d' id (pen.past w p) ps (lo + outSize Γ depth p.1.kind p.2)
      (i + (handles Γ depth p.1.kind p.2).length) := by
  have hclaimed := hd.claimed
  rw [outSizes_singleton, handlesOf_singleton] at hclaimed
  exact ⟨hd.holds, hclaimed, h.sees.tail⟩

theorem Done.cons (hd : R.Done Γ w depth d d' id pen [p] lo i)
    (hds : R.Done Γ w depth d' d'' id (pen.past w p) ps (lo + outSize Γ depth p.1.kind p.2)
      (i + (handles Γ depth p.1.kind p.2).length)) :
    R.Done Γ w depth d d'' id pen (p :: ps) lo i where
  holds := hds.holds
  others j pen' hj hpen := hds.others j pen' hj (hd.others j pen' hj hpen)
  claimed := by
    have hclaimed := hds.claimed
    rw [outSizes_cons, handlesOf_cons, length_append, ← Nat.add_assoc, ← Nat.add_assoc]
    exact hclaimed
  frame := R.trans hd.frame hds.frame

theorem Done.of_hasKind (hd : R.Done Γ w (depth + 1) d d' id pen ps lo i)
    (hv : ∀ p ∈ ps, HasKind Γ D depth p.1.kind p.2) : R.Done Γ w depth d d' id pen ps lo i :=
  { hd with
    claimed := by
      have hclaimed := hd.claimed
      rw [outSizes_of_hasKind hv, handlesOf_of_hasKind hv] at hclaimed
      exact hclaimed }

theorem collect_done {f : α → δ → Except ε (β × δ)}
    (hf : List.Forall₂ (fun a p => ∀ d' pen lo i, R.Frame d d' →
      R.Ready Γ w depth m limit H d' id pen [p] lo i →
      ∃ d'', f a d' = .ok (g p, d'') ∧ R.Done Γ w depth d' d'' id pen [p] lo i) as ps)
    (h : R.Ready Γ w depth m limit H d id pen ps lo i) :
    ∃ d', collect f as d = .ok (ps.map g, d') ∧ R.Done Γ w depth d d' id pen ps lo i := by
  induction as generalizing d pen ps lo i with
  | nil =>
    cases hf
    refine ⟨d, rfl, h.holds, fun _ _ _ hpen => hpen, ?_, R.refl d⟩
    simpa [outSizes] using h.claimed
  | cons a as ih =>
    cases hf with
    | cons ha has =>
      obtain ⟨d₁, hrun, hd⟩ := ha d pen lo i (R.refl d) h.head
      obtain ⟨d₂, hrun', hds⟩ := ih (has.imp fun _ _ hq d' pen lo i hframe =>
        hq d' pen lo i (R.trans hd.frame hframe)) (h.tail hd)
      refine ⟨d₂, ?_, hd.cons hds⟩
      simp [collect, hrun, ok_bind, hrun']

end Lists

end Reader

end Mojo.Wire
