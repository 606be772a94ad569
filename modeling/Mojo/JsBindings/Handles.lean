import Mojo.Memory.Bytes

/-!
# Handles in the JavaScript bindings

All encoders of a message push handles to one list. `NullableHandle.encode` is `Handle.encode`, and
so an absent handle is pushed to the list like any other.
-/

namespace Mojo.JsBindings

open List

def kEncodedInvalidHandleValue : ℕ := 0xFFFFFFFF

/-- What is left to write for an encoder: numbers, headers and padding, handles, interfaces, null
pointers, and pointers to objects of a size, which have encoders of their own. -/
inductive Items
  | nil
  | data (size : ℕ) (rest : Items)
  | handle (handle : Option ℕ) (rest : Items)
  | interface (handle : Option ℕ) (rest : Items)
  | null (rest : Items)
  | pointer (size : ℕ) (object rest : Items)

structure Encoding where
  next : ℕ
  handles : List (Option ℕ)
  slots : List (ℕ × ℕ)

def Encoding.alloc (e : Encoding) (size : ℕ) : Encoding :=
  { e with next := e.next + (size + 7) / 8 * 8 }

def Encoding.encodeHandle (e : Encoding) (next : ℕ) (handle : Option ℕ) : Encoding :=
  { e with handles := e.handles ++ [handle], slots := e.slots ++ [(next, e.handles.length)] }

def Items.encode : Items → ℕ → Encoding → Encoding
  | .nil, _, e => e
  | .data size rest, next, e => rest.encode (next + size) e
  | .handle h rest, next, e => rest.encode (next + 4) (e.encodeHandle next h)
  | .interface h rest, next, e => rest.encode (next + 8) (e.encodeHandle next h)
  | .null rest, next, e => rest.encode (next + 8) e
  | .pointer size object rest, next, e =>
    rest.encode (next + 8) (object.encode e.next (e.alloc size))

def Items.handles : Items → List (Option ℕ)
  | .nil => []
  | .data _ rest | .null rest => rest.handles
  | .handle h rest | .interface h rest => h :: rest.handles
  | .pointer _ object rest => object.handles ++ rest.handles

/-- Where the slots of the handles are, and where the next object goes. -/
def Items.positions : Items → ℕ → ℕ → List ℕ × ℕ
  | .nil, _, top => ([], top)
  | .data size rest, next, top => rest.positions (next + size) top
  | .handle _ rest, next, top => (rest.positions (next + 4) top).map (next :: ·) id
  | .interface _ rest, next, top => (rest.positions (next + 8) top).map (next :: ·) id
  | .null rest, next, top => rest.positions (next + 8) top
  | .pointer size object rest, next, top =>
    let (inside, top) := object.positions top (top + (size + 7) / 8 * 8)
    (rest.positions (next + 8) top).map (inside ++ ·) id

def indices : ℕ → List (Option ℕ) → List ℕ
  | _, [] => []
  | i, none :: hs => kEncodedInvalidHandleValue :: indices i hs
  | i, some _ :: hs => i :: indices (i + 1) hs

theorem encode_eq (items : Items) (next : ℕ) (e : Encoding) :
    (items.encode next e).handles = e.handles ++ items.handles ∧
      (items.positions next e.next).1.length = items.handles.length ∧
      (items.encode next e).next = (items.positions next e.next).2 ∧
      (items.encode next e).slots = e.slots ++ (items.positions next e.next).1.zip
        (List.range' e.handles.length items.handles.length) := by
  induction items generalizing next e with
  | nil => simp [Items.encode, Items.handles, Items.positions]
  | data size rest ih => exact ih _ e
  | null rest ih => exact ih _ e
  | handle h rest ih | interface h rest ih =>
    obtain ⟨hhandles, hlength, hnext, hslots⟩ := ih (next + _) (e.encodeHandle next h)
    refine ⟨hhandles.trans (append_assoc ..), congrArg (· + 1) hlength, hnext, hslots.trans ?_⟩
    simp [Encoding.encodeHandle, Items.handles, Items.positions, range'_succ]
  | pointer size object rest ihobject ih =>
    obtain ⟨hhandles, hlength, hnext, hslots⟩ := ihobject e.next (e.alloc size)
    obtain ⟨hhandles', hlength', hnext', hslots'⟩ :=
      ih (next + 8) (object.encode e.next (e.alloc size))
    rw [hnext] at hlength' hnext' hslots'
    rw [hhandles] at hhandles' hslots'
    rw [hslots] at hslots'
    refine ⟨hhandles'.trans (append_assoc ..), ?_, hnext', hslots'.trans ?_⟩
    · exact (length_append ..).trans ((congrArg₂ _ hlength hlength').trans
        (length_append ..).symm)
    · rw [append_assoc, length_append, ← zip_append (by simpa using hlength)]
      simp [Encoding.alloc, Items.handles, Items.positions, range'_append_1]

theorem indices_of_present {hs : List (Option ℕ)} (h : none ∉ hs) (i : ℕ) :
    indices i hs = List.range' i hs.length := by
  induction hs generalizing i with
  | nil => rfl
  | cons x hs ih =>
    cases x with
    | none => exact absurd (.head _) h
    | some x => rw [indices, ih fun hmem => h (.tail _ hmem), length_cons, range'_succ]

theorem encode_handles_iff (items : Items) (next top : ℕ) :
    ((items.encode next ⟨top, [], []⟩).handles = (items.handles.filterMap id).map some ∧
      (items.encode next ⟨top, [], []⟩).slots =
        (items.positions next top).1.zip (indices 0 items.handles)) ↔ none ∉ items.handles := by
  obtain ⟨hhandles, -, -, hslots⟩ := encode_eq items next ⟨top, [], []⟩
  rw [hhandles, hslots]
  simp only [nil_append, length_nil]
  constructor
  · intro h hnone
    rw [h.1] at hnone
    simp at hnone
  · intro h
    refine ⟨?_, by rw [indices_of_present h 0]⟩
    generalize items.handles = hs at h
    induction hs with
    | nil => rfl
    | cons x hs ih =>
      cases x with
      | none => exact absurd (.head _) h
      | some x => simpa using ih fun hmem => h (.tail _ hmem)

theorem absent_handle_pushed : (Items.data 8 (.handle none (.data 4 .nil))).encode 0 ⟨16, [], []⟩ =
    ⟨16, [none], [(8, 0)]⟩ ∧ 0 ≠ kEncodedInvalidHandleValue :=
  ⟨rfl, by decide⟩

end Mojo.JsBindings
