import Mojo.Wire.Layout

/-!
# Writing values

What an encoder has done so far, seen from outside: the memory, the address where the
next object goes and the handles it has collected. `Wrote` says that members of an object
were written in order, each together with the objects behind it. Encoders write one
member at a time and are put together by `Wrote.cons` and `Wrote.object`.
-/

namespace Mojo.Wire

open Mojo.Memory Mojo.CppBindings

variable {depth t lo i : ℕ} {s : Slot} {a b c : View} {v : Value} {p : Slot × Value}
    {ps : List (Slot × Value)} {m : Mem} {o : Object}

structure View where
  mem : Mem
  next : ℕ
  handles : List ℕ

variable {Γ : Types} {form : Form}

/-- From `a` to `b` the members `ps` of the object at `t` were written. Handles are
collected only on the wire. -/
structure Wrote (Γ : Types) (form : Form) (depth t : ℕ) (ps : List (Slot × Value)) (a b : View) :
    Prop where
  rep : ∀ i, (form = .onWire → i = a.handles.length) →
    RepAll Γ (Rep Γ form b.mem depth) depth ps t a.next i
  keeps : Keeps a.mem b.mem (ps.map fun p => Slot.shift p.1 t) a.next b.next
  next : b.next = a.next + outSizes Γ depth ps
  handles : form = .onWire → b.handles = a.handles ++ handlesOf Γ depth ps

theorem Wrote.nil (depth t : ℕ) (a : View) : Wrote Γ form depth t [] a a where
  rep _ _ := trivial
  keeps := .refl _ _ _ _
  next := rfl
  handles _ := (List.append_nil _).symm

theorem Wrote.reshift {s a bit : ℕ} {k : Kind} {x y : View}
    (h : Wrote Γ form depth t [(⟨k, s + a, bit⟩, v)] x y) :
    Wrote Γ form depth (t + s) [(⟨k, a, bit⟩, v)] x y := by
  have hshift : Slot.shift ⟨k, s + a, bit⟩ t = Slot.shift ⟨k, a, bit⟩ (t + s) := by
    simp only [Slot.shift, Nat.add_assoc]
  constructor
  · intro i hi
    have hrep := h.rep i hi
    rw [RepAll, hshift] at hrep
    exact hrep
  · have hkeeps := h.keeps
    simp only [List.map_cons, List.map_nil, hshift] at hkeeps ⊢
    exact hkeeps
  · exact h.next
  · exact h.handles

structure Below (t next : ℕ) (ps : List (Slot × Value)) : Prop where
  kinds : ∀ p ∈ ps, p.1.kind.isSlot
  apart : ps.Pairwise fun p q => Slot.Apart p.1 q.1
  below : ∀ p ∈ ps, t + p.1.addr + p.1.kind.size ≤ next

theorem Below.tail {next next' : ℕ} (h : Below t next (p :: ps)) (hle : next ≤ next') :
    Below t next' ps where
  kinds q hq := h.kinds q (.tail p hq)
  apart := (List.pairwise_cons.mp h.apart).2
  below q hq := (h.below q (.tail p hq)).trans hle

theorem Below.disjoint {next : ℕ} (h : Below t next ps) (hi : ℕ)
    {q : Slot × Value} (hq : q ∈ ps) : Disjoint (Slot.shift q.1 t).bytes (Set.Ico next hi) := by
  have := h.below q hq
  refine Set.disjoint_left.mpr fun b hb hb' => ?_
  rw [bytes_shift, mem_span] at hb
  simp only [Set.mem_Ico] at hb'
  omega

theorem Wrote.cons (hΓ : Γ.Laid) (h : Wrote Γ form depth t [p] a b)
    (h' : Wrote Γ form depth t ps b c)
    (hbelow : Below t a.next (p :: ps)) : Wrote Γ form depth t (p :: ps) a c := by
  have hnext := h.next
  have hnext' := h'.next
  rw [outSizes_singleton] at hnext
  constructor
  · intro i hi
    refine ⟨?_, ?_⟩
    · refine ((h.rep i hi).1).congr hΓ (hbelow.kinds p (.head _)) ?_ ?_
      · refine h'.keeps _ (fun w hw => ?_) ?_
        · obtain ⟨q, hq, rfl⟩ := List.mem_map.mp hw
          exact (((List.pairwise_cons.mp hbelow.apart).1 q hq).shift t).symm
        · exact (hbelow.disjoint c.next (.head _)).mono_right (Set.Ico_subset_Ico_left (by omega))
      · refine h'.keeps.eqOn (fun w hw => ?_) ?_
        · obtain ⟨q, hq, rfl⟩ := List.mem_map.mp hw
          exact hbelow.disjoint _ (.tail p hq)
        · rw [Set.disjoint_left]
          intro x hx hx'
          simp only [Set.mem_Ico, Slot.shift] at hx hx'
          omega
    · rw [← hnext]
      refine h'.rep _ fun hform => ?_
      rw [h.handles hform, hi hform]
      simp
  · have := h.keeps.trans h'.keeps (by omega) (by omega)
    simpa using this
  · rw [outSizes_cons]
    omega
  · intro hform
    rw [h'.handles hform, h.handles hform]
    simp

theorem content_pointer (ho : object Γ s.kind v = some o) (hp : s.kind.isPointer) :
    Content form m s v lo i ↔
      s.addr < lo ∧ lo % 8 = 0 ∧ load m s.addr 8 = pointerWord form s.addr lo := by
  obtain ⟨kind, addr, bit⟩ := s
  cases kind <;> cases v <;>
    first | cases hp; done | cases ho; done | simp [Content, Kind.isPointer]

theorem content_inline (ho : object Γ s.kind v = some o) (hp : ¬ s.kind.isPointer) :
    Content form m s v lo i ↔ load m s.addr 4 = o.size ∧ load m (s.addr + 4) 4 = o.word := by
  obtain ⟨kind, addr, bit⟩ := s
  cases objectOf ho with
  | union name nullable tag field kind _ => rfl
  | _ => exact absurd rfl hp

theorem handles_succ {kind : Kind} (ho : object Γ kind v = some o) :
    handles Γ (depth + 1) kind v = handlesOf Γ depth o.members := by
  cases v with
  | handle | interface => cases kind <;> cases ho
  | _ => simp [handles, ho]

theorem Object.Laid.below (h : o.Laid) {next : ℕ} (hle : t + o.size ≤ next) :
    Below t next o.members where
  kinds := h.kinds
  apart := h.apart
  below p hp := by
    have := h.inside p hp
    omega

theorem Wrote.header (ho : o.Laid) (h : Wrote Γ form depth t o.members b c)
    (hnext : t + o.size ≤ b.next) :
    load c.mem t 4 = load b.mem t 4 ∧ load c.mem (t + 4) 4 = load b.mem (t + 4) 4 := by
  have hsize := ho.header
  simp only [headerSize] at hsize
  apply loads_congr
  refine h.keeps.eqOn (fun w hw => ?_) ?_
  · obtain ⟨q, hq, rfl⟩ := List.mem_map.mp hw
    have := (ho.inside q hq).1
    simp only [headerSize] at this
    exact (span_disjoint_of_le (by simp only [Slot.shift]; omega)).symm
  · rw [Set.disjoint_left]
    intro x hx hx'
    simp only [mem_span, Set.mem_Ico] at hx hx'
    omega

theorem Wrote.pointer (hΓ : Γ.Laid) (hk : s.kind.isSlot) (hp : s.kind.isPointer)
    (ho : object Γ s.kind v = some o) (hbelow : t + s.addr + s.kind.size ≤ a.next)
    (halign : a.next % 8 = 0)
    (hpointer : load b.mem (t + s.addr) 8 = pointerWord form (t + s.addr) a.next)
    (hsize : load b.mem a.next 4 = o.size)
    (hword : load b.mem (a.next + 4) 4 = o.word)
    (hkeeps : Keeps a.mem b.mem [Slot.shift s t] a.next b.next)
    (hnext : b.next = a.next + align8 o.size) (hhandles : b.handles = a.handles)
    (h : Wrote Γ form depth a.next o.members b c) : Wrote Γ form (depth + 1) t [(s, v)] a c := by
  have hlaid := object_laid hΓ hk ho
  have hle := le_align8 o.size
  have hcnext := h.next
  have h8 := (size_of_isPointer hp).2
  obtain ⟨hsize', hword'⟩ := h.header hlaid (by omega)
  have hpointer' : load c.mem (t + s.addr) 8 = load b.mem (t + s.addr) 8 := by
    refine (load_congr (h.keeps.eqOn (fun w hw => ?_) ?_)).symm
    · obtain ⟨q, hq, rfl⟩ := List.mem_map.mp hw
      exact (span_disjoint_of_le (by simp only [Slot.shift]; omega)).symm
    · rw [Set.disjoint_left]
      intro x hx hx'
      simp only [mem_span, Set.mem_Ico] at hx hx'
      omega
  constructor
  · intro i hi
    have ho' : object Γ (Slot.shift s t).kind v = some o := ho
    refine ⟨⟨(content_pointer ho' hp).mpr ⟨?_, halign, hpointer'.trans hpointer⟩, ?_⟩, trivial⟩
    · simp only [Slot.shift]
      omega
    · simp only [Slot.shift, ho, hp, ↓reduceIte]
      refine ⟨hsize'.trans hsize, hword'.trans hword, ?_⟩
      rw [← hnext]
      exact h.rep i fun hform => by rw [hi hform, hhandles]
  · have := hkeeps.trans h.keeps (by omega) (by omega)
    refine this.mono (fun w hw => ?_) le_rfl le_rfl
    rcases List.mem_append.mp hw with hw | hw
    · exact .inl hw
    · obtain ⟨q, hq, rfl⟩ := List.mem_map.mp hw
      have hin := hlaid.inside q hq
      refine .inr fun x hx => ?_
      rw [bytes_shift, mem_span] at hx
      simp only [Set.mem_Ico]
      omega
  · rw [outSizes_singleton, outSize_succ ho, if_pos hp]
    omega
  · intro hform
    rw [h.handles hform, hhandles]
    rw [handlesOf_singleton, handles_succ ho]

theorem Wrote.inline (hΓ : Γ.Laid) (hk : s.kind.isSlot) (hp : ¬ s.kind.isPointer)
    (ho : object Γ s.kind v = some o) (hbelow : t + s.addr + s.kind.size ≤ a.next)
    (hsize : load b.mem (t + s.addr) 4 = o.size) (hword : load b.mem (t + s.addr + 4) 4 = o.word)
    (hkeeps : Keeps a.mem b.mem [Slot.shift s t] a.next b.next) (hnext : b.next = a.next)
    (hhandles : b.handles = a.handles) (h : Wrote Γ form depth (t + s.addr) o.members b c) :
    Wrote Γ form (depth + 1) t [(s, v)] a c := by
  have hlaid := object_laid hΓ hk ho
  have hcnext := h.next
  obtain ⟨hb, hinline⟩ := size_of_inline ho hp
  obtain ⟨hsize', hword'⟩ := h.header hlaid (by omega)
  constructor
  · intro i hi
    have ho' : object Γ (Slot.shift s t).kind v = some o := ho
    refine ⟨⟨(content_inline ho' hp).mpr ⟨hsize'.trans hsize, hword'.trans hword⟩, ?_⟩, trivial⟩
    simp only [Slot.shift, ho, hp]
    rw [← hnext]
    exact h.rep i fun hform => by rw [hi hform, hhandles]
  · intro w hw hout
    have hapart := hw (Slot.shift s t) (.head _)
    refine (hkeeps w hw (hout.mono_right (Set.Ico_subset_Ico_right (by omega)))).trans
      (h.keeps w (fun u hu => ?_) (hout.mono_right (Set.Ico_subset_Ico_left (by omega))))
    obtain ⟨q, hq, rfl⟩ := List.mem_map.mp hu
    have hin := hlaid.inside q hq
    rcases hapart with hdisj | ⟨hbool, -⟩
    · refine .inl (hdisj.mono_left (span_subset ?_ ?_)) <;> simp only [Slot.shift] <;> omega
    · exact absurd hbool hb
  · rw [outSizes_singleton, outSize_succ ho, if_neg hp]
    omega
  · intro hform
    rw [h.handles hform, hhandles]
    rw [handlesOf_singleton, handles_succ ho]

end Mojo.Wire
