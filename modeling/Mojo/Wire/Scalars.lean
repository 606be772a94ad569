import Mojo.Wire.Writer

/-!
# Members without an object

Numbers, bools, handles, interfaces and null values are in their own slot. For each of
them: what is to be stored there.
-/

namespace Mojo.Wire

open Mojo.Memory Mojo.CppBindings

variable {m : Mem} {lo b n x hi y h : ℕ} {nullable : Bool} {Γ : Types} {form : Form} {depth t : ℕ}
  {q : Slot} {v : Value} {a : View}

theorem rep_of_none {i : ℕ} (ho : object Γ q.kind v = none)
    (h : Content form m q v lo i) : Rep Γ form m depth q v lo i := by
  cases depth with
  | zero => exact ⟨h, ho⟩
  | succ depth => exact ⟨h, by simp [ho]⟩

theorem outSize_of_none {kind : Kind} (ho : object Γ kind v = none) :
    outSize Γ depth kind v = 0 := by
  cases depth with
  | zero => rfl
  | succ depth => simp [outSize, ho]

theorem handles_of_none {kind : Kind} (ho : object Γ kind v = none) :
    handles Γ depth kind v = match v with
      | .handle h | .interface h _ => [h]
      | _ => [] := by
  cases depth <;> cases v <;> simp [handles, ho]

theorem wrote_of_none (ho : object Γ q.kind v = none) {hs : List ℕ}
    (hcontent : ∀ i, (form = .onWire → i = a.handles.length) →
      Content form m (Slot.shift q t) v a.next i)
    (hkeeps : Keeps a.mem m [Slot.shift q t] a.next a.next)
    (hhandles : form = .onWire → hs = a.handles ++ handles Γ depth q.kind v) :
    Wrote Γ form depth t [(q, v)] a ⟨m, a.next, hs⟩ where
  rep i hi := ⟨rep_of_none ho (hcontent i hi), trivial⟩
  keeps := hkeeps
  next := by simp [outSizes, outSize_of_none ho]
  handles hform := by simp [hhandles hform]

theorem keeps_store_slot (hb : q.kind ≠ .bool) (h : span b n ⊆ q.bytes) :
    Keeps m (store m b n x) [q] lo hi :=
  keeps_store fun _ hb' => .inl ⟨q, .head _, hb, h hb'⟩

theorem keeps_store_words (hb : q.kind ≠ .bool) (h : 8 ≤ q.kind.size) :
    Keeps m (store (store m q.addr 4 x) (q.addr + 4) 4 y) [q] lo lo := by
  have hfirst : Keeps m (store m q.addr 4 x) [q] lo lo :=
    keeps_store_slot hb (span_subset le_rfl (by omega))
  have hsecond : Keeps (store m q.addr 4 x) (store (store m q.addr 4 x) (q.addr + 4) 4 y)
      [q] lo lo :=
    keeps_store_slot hb (span_subset (by omega) (by omega))
  refine (hfirst.trans hsecond le_rfl le_rfl).mono (fun w hw => .inl ?_) le_rfl le_rfl
  simpa using hw

theorem load_words (hx : x < 2 ^ 32) (hy : y < 2 ^ 32) :
    load (store (store m b 4 x) (b + 4) 4 y) b 4 = x ∧
      load (store (store m b 4 x) (b + 4) 4 y) (b + 4) 4 = y := by
  refine ⟨?_, load_store_of_lt hy⟩
  rw [load_store_of_disjoint (span_disjoint_of_le le_rfl), load_store_of_lt hx]

theorem wrote_number {size : ℕ} (hq : q.kind = .number size) (hn : n < 256 ^ size) :
    Wrote Γ form depth t [(q, .number n)] a
      ⟨store a.mem (t + q.addr) size n, a.next, a.handles⟩ := by
  have ho : object Γ q.kind (.number n) = none := by rw [hq]; rfl
  refine wrote_of_none ho (fun i _ => ?_) (keeps_store_slot (by simp [Slot.shift, hq]) ?_)
    fun _ => by simp [handles_of_none ho]
  · simp only [Content, Slot.shift, hq]
    exact load_store_of_lt hn
  · simp only [bytes_shift, hq, Kind.size]
    exact subset_rfl

theorem keeps_setBit (hq : q.kind = .bool) (hbit : q.bit < 8) :
    Keeps m (setBit m q.addr q.bit) [q] lo hi := by
  intro s hs _
  rcases hs q (.head _) with hdisj | ⟨-, hbool, hne⟩
  · refine sameAt_of_eqOn fun b hb => ?_
    have hba : b ≠ q.addr := by
      rintro rfl
      exact Set.disjoint_left.mp hdisj (by simp [Slot.bytes, hq, Kind.size]) hb
    simp [setBit, hba]
  · simp only [SameAt, hbool, ↓reduceIte, testBit, testBit_setBit hbit]
    have hno : ¬ (s.addr = q.addr ∧ s.bit = q.bit) := by
      rintro ⟨h₁, h₂⟩
      rcases hne with hne | hne
      · exact hne h₁.symm
      · exact hne h₂.symm
    simp [hno]

theorem wrote_bool {b : Bool} (hq : q.kind = .bool) (hbit : q.bit < 8)
    (hfresh : testBit a.mem (Slot.shift q t) = false) :
    Wrote Γ form depth t [(q, .bool b)] a
      ⟨if b then setBit a.mem (t + q.addr) q.bit else a.mem, a.next, a.handles⟩ := by
  have ho : object Γ q.kind (.bool b) = none := by rw [hq]; rfl
  refine wrote_of_none ho (fun i _ => ?_) ?_ fun _ => by simp [handles_of_none ho]
  · cases b with
    | true => simp [Content, Slot.shift, hq, testBit, testBit_setBit hbit]
    | false => simpa [Content, Slot.shift, hq] using hfresh
  · cases b with
    | true => exact keeps_setBit (q := Slot.shift q t) hq hbit
    | false => exact .refl _ _ _ _

theorem wrote_handle (hq : q.kind = .handle nullable) (hlen : a.handles.length < 2 ^ 32) :
    Wrote Γ .onWire depth t [(q, .handle h)] a
      ⟨store a.mem (t + q.addr) 4 a.handles.length, a.next, a.handles ++ [h]⟩ := by
  have ho : object Γ q.kind (.handle h) = none := by rw [hq]; rfl
  refine wrote_of_none ho (fun i hi => ?_) (keeps_store_slot (by simp [Slot.shift, hq]) ?_)
    fun _ => by simp [handles_of_none ho]
  · obtain rfl := hi rfl
    simp only [Content, Slot.shift, hq, handleWord]
    exact load_store_of_lt hlen
  · simp only [bytes_shift, hq, Kind.size]
    exact subset_rfl

theorem wrote_interface {version : ℕ} (hq : q.kind = .interface nullable)
    (hlen : a.handles.length < 2 ^ 32) (hversion : version < 2 ^ 32) :
    Wrote Γ .onWire depth t [(q, .interface h version)] a
      ⟨store (store a.mem (t + q.addr) 4 a.handles.length) (t + q.addr + 4) 4 version, a.next,
        a.handles ++ [h]⟩ := by
  have ho : object Γ q.kind (.interface h version) = none := by rw [hq]; rfl
  refine wrote_of_none ho (fun i hi => ?_)
    (keeps_store_words (q := Slot.shift q t) (by simp [Slot.shift, hq])
      (by simp [Slot.shift, hq, Kind.size])) fun _ => by simp [handles_of_none ho]
  obtain rfl := hi rfl
  simp only [Content, Slot.shift, hq, handleWord]
  exact load_words hlen hversion

theorem wrote_nullHandle (hq : q.kind = .handle nullable) : Wrote Γ .onWire depth t [(q, .null)] a
      ⟨store a.mem (t + q.addr) 4 encodedInvalidHandle, a.next, a.handles⟩ := by
  have ho : object Γ q.kind .null = none := by rw [hq]; rfl
  refine wrote_of_none ho (fun i hi => ?_) (keeps_store_slot (by simp [Slot.shift, hq]) ?_)
    fun _ => by simp [handles_of_none ho]
  · simp only [Content, Slot.shift, hq, nullHandle]
    exact load_store_of_lt (by decide)
  · simp only [bytes_shift, hq, Kind.size]
    exact subset_rfl

theorem wrote_nullInterface (hq : q.kind = .interface nullable) :
    Wrote Γ .onWire depth t [(q, .null)] a
      ⟨store (store a.mem (t + q.addr) 4 encodedInvalidHandle) (t + q.addr + 4) 4 0, a.next,
        a.handles⟩ := by
  have ho : object Γ q.kind .null = none := by rw [hq]; rfl
  refine wrote_of_none ho (fun i hi => ?_)
    (keeps_store_words (q := Slot.shift q t) (by simp [Slot.shift, hq])
      (by simp [Slot.shift, hq, Kind.size])) fun _ => by simp [handles_of_none ho]
  simp only [Content, Slot.shift, hq, nullHandle]
  exact load_words (by decide) (by decide)

theorem wrote_nullPointer (hq : q.kind.isPointer) :
    Wrote Γ form depth t [(q, .null)] a ⟨store a.mem (t + q.addr) 8 0, a.next, a.handles⟩ := by
  have ho : object Γ q.kind .null = none := by
    cases hk : q.kind <;> rfl
  obtain ⟨hb, h8⟩ := size_of_isPointer hq
  refine wrote_of_none ho (fun i _ => ?_) (keeps_store_slot (by simpa [Slot.shift] using hb) ?_)
    fun _ => by simp [handles_of_none ho]
  · have hload : load (store a.mem (t + q.addr) 8 0) (t + q.addr) 8 = 0 :=
      load_store_of_lt (by decide)
    cases hk : q.kind with
    | number | bool | handle | interface | union => rw [hk] at hq; cases hq
    | _ => simp [Content, Slot.shift, hk, Kind.isPointer, hload]
  · simp only [bytes_shift, h8]
    exact subset_rfl

theorem wrote_nullUnion {name : ℕ} (hq : q.kind = .union name nullable) :
    Wrote Γ form depth t [(q, .null)] a ⟨store a.mem (t + q.addr) 16 0, a.next, a.handles⟩ := by
  have ho : object Γ q.kind .null = none := by rw [hq]; rfl
  refine wrote_of_none ho (fun i _ => ?_) (keeps_store_slot (by simp [Slot.shift, hq]) ?_)
    fun _ => by simp [handles_of_none ho]
  · have hload : load (store a.mem (t + q.addr) 16 0) (t + q.addr) 16 = 0 :=
      load_store_of_lt (by decide)
    simp only [Content, Slot.shift, hq]
    exact ⟨load_eq_zero_of_subset hload (span_subset le_rfl (by omega)),
      load_eq_zero_of_subset hload (span_subset (by omega) (by omega))⟩
  · simp only [bytes_shift, hq, Kind.size]
    exact subset_rfl

end Mojo.Wire
