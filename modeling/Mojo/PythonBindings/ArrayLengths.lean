import Mojo.PythonBindings.DeserializeValues

/-!
# How many elements an array has

Boolean and generic arrays have the announced number of elements. Strings and native arrays
take all the bytes of the object, so that they are longer if the size leaves room for more.
The elements of a string are the characters that its bytes encode.
-/

namespace Mojo.PythonBindings

open Mojo.Memory Mojo.Wire Mojo.CppBindings Mojo.System List

variable {root : RootContext} {α β : Type} {Q : α → Prop} {S : β → Prop}

def Yields (x : Decoding α) (Q : α → Prop) : Prop :=
  Triple (fun _ => True) x (fun a _ => Q a) fun _ _ => True

theorem Yields.bind {x : Decoding α} {f : α → Decoding β} (hx : Yields x Q)
    (hf : ∀ a, Q a → Yields (f a) S) : Yields (x >>= f) S :=
  Triple.bind hx fun a s hs => hf a hs s trivial

theorem Yields.any (x : Decoding α) : Yields x fun _ => True := fun s _ => by cases x s <;> trivial

theorem Yields.check {p : Prop} [Decidable p] {message : String} {f : Unit → Decoding β}
    (hf : ¬ p → Yields (f ()) S) : Yields (throwIf p message >>= f) S := by
  rw [throwIf]
  split
  · exact fun _ _ => trivial
  · next h => exact hf h

def target (context : ℕ) (value : Encoded) : ℕ := (context + value.toInt).toNat

variable {context size nbElements : ℕ} {P : Value → Prop}

theorem deserializePointer_yields {nullable : Bool} {value : Encoded}
    {f : ℕ → ℕ → ℕ → Decoding Value}
    (hheader : unpackHeader root (target context value) = (size, nbElements)) (hnull : P .null)
    (hf : root.HasObject (target context value) → headerSize ≤ size →
      Yields (f size nbElements (target context value)) P) :
    Yields (deserializePointer root nullable value context f) P := by
  rw [deserializePointer]
  split
  · exact .check fun _ => Triple.ret _ fun _ _ => hnull
  · refine .check fun _ => Yields.bind (Q := (· = target context value)) ?_ ?_
    · rw [getSubContext]
      refine (Yields.any _).bind fun _ _ => ?_
      split
      · exact Triple.ret _ fun _ _ => rfl
      · exact fun _ _ => trivial
    · rintro _ rfl
      rw [hheader]
      have hsize : load root.mem (target context value) 4 = size := congrArg Prod.fst hheader
      refine .check fun hlen => .check fun h => (Yields.any _).bind fun _ _ => hf ?_ (by omega)
      rw [RootContext.HasObject, hsize]
      simp only [length, headerSize] at *
      omega

theorem deserializeArray_yields {length sizeForLength : ℕ}
    {array : Decoding Value}
    (h : (length ≠ 0 → nbElements = length) → headerSize + sizeForLength ≤ size → Yields array P) :
    Yields (deserializeArray length sizeForLength size nbElements array) P :=
  .check fun hlength => .check fun hsize => h (by omega) (by omega)

theorem deserializeNativeArray_yields {elementSize : ℕ} :
    Yields (deserializeNativeArray root elementSize size context) fun items =>
      (items = (List.range ((size - headerSize) / elementSize)).map fun k =>
        load root.mem (context + headerSize + elementSize * k) elementSize) ∧
      elementSize * items.length = size - headerSize ∧ ∀ x ∈ items, x < 256 ^ elementSize := by
  rw [deserializeNativeArray]
  refine (Yields.any _).bind fun _ _ => ?_
  split_ifs with h
  · exact fun _ _ => trivial
  · refine Triple.ret _ fun _ _ => ⟨rfl, ?_, fun x hx => ?_⟩
    · rw [length_map, length_range,
        Nat.mul_div_cancel' (Nat.dvd_of_mod_eq_zero (not_not.mp h))]
    · obtain ⟨i, -, rfl⟩ := mem_map.mp hx
      exact load_lt _ _ _

theorem deserializeElements_yields (deserialize : Deserializer) (subType : FieldType) (n : ℕ)
    (values : List Entry) (context : ℕ) :
    Yields (deserializeElements deserialize subType n values context)
      fun items => items.length = n := by
  induction n generalizing values context with
  | zero => exact Triple.ret _ fun _ _ => rfl
  | succ n ih =>
    exact (Yields.any _).bind fun item _ => (ih _ _).bind fun items h =>
      Triple.ret _ fun _ _ => congrArg Nat.succ h

def FieldType.isSequence : FieldType → Bool
  | .string _ | .booleanArray _ _ | .nativeArray _ _ _ | .genericArray _ _ _ => true
  | _ => false

def FieldType.fixedLength : FieldType → ℕ
  | .booleanArray _ length | .nativeArray _ _ length | .genericArray _ _ length => length
  | _ => 0

/-- The length of the `unicode` object with this encoding in UTF-8. Where code units have
16 bits (`narrow`), a character that is encoded in four bytes takes two of them. -/
def characterCount (narrow : Bool) (bytes : List UInt8) : ℕ :=
  (bytes.map fun b => if b.toNat / 64 = 2 then 0 else if narrow ∧ 240 ≤ b then 2 else 1).sum

def elementCount (narrow : Bool) : Value → ℕ
  | .array elems => elems.length
  | .string bytes => characterCount narrow bytes
  | _ => 0

/-- The object at `a` has just the announced elements, if its type takes all of its bytes. -/
def Announced (root : RootContext) (narrow : Bool) (a size nbElements : ℕ) : FieldType → Prop
  | .string _ =>
    characterCount narrow ((root.data.drop (a + headerSize)).take (size - headerSize)) = nbElements
  | .nativeArray typecode _ _ => size = headerSize + typecode.size * nbElements
  | _ => True

theorem length_flatMap_booleans {items : List ℕ} (h : ∀ x ∈ items, x < 256 ^ 1) :
    (items.flatMap fun x => convertByteToBooleans x 8).length = 8 * items.length := by
  have height : ∀ x ∈ items, (convertByteToBooleans x 8).length = 8 := fun x hx => by
    rw [convertByteToBooleans_eight (h x hx), length_map, length_range]
  rw [length_flatMap, map_congr_left height, map_const', sum_replicate_nat,
    Nat.mul_comm]

theorem typecode_size_pos (typecode : TypeCode) : 0 < typecode.size := by cases typecode <;> decide

/-- An array or a string that is deserialized has the announced number of elements if and only
if its type counts the elements or the bytes of the object are just those of the elements. -/
theorem deserialize_length_iff {c : Classes} {depth context size nbElements : ℕ} {t : FieldType}
    {value : Encoded} {v : Value} {s s' : Claimed}
    (hrun : deserialize root c depth t value context s = .ok v s')
    (hunicode : ∀ bytes string, root.unicode bytes = some string → string = bytes)
    (ht : t.isSequence = true) (hv : v ≠ .null)
    (hheader : unpackHeader root (target context value) = (size, nbElements)) (narrow : Bool) :
    (t.fixedLength ≠ 0 → nbElements = t.fixedLength) ∧
      (elementCount narrow v = nbElements ↔
        Announced root narrow (target context value) size nbElements t) := by
  obtain ⟨d, hd⟩ : ∃ d, deserialize root c depth = deserializeType d root c := by
    cases depth <;> exact ⟨_, rfl⟩
  rw [hd] at hrun
  suffices h : Yields (deserializeType d root c t value context) fun v => v ≠ .null →
      (t.fixedLength ≠ 0 → nbElements = t.fixedLength) ∧
        (elementCount narrow v = nbElements ↔
          Announced root narrow (target context value) size nbElements t) from
    h.of_ok trivial hrun hv
  have hload : load root.mem (target context value) 4 = size := congrArg Prod.fst hheader
  cases t with
  | string nullable =>
    rw [deserializeType]
    refine deserializePointer_yields hheader (absurd rfl) fun hobject _ =>
      deserializeNativeArray_yields.bind fun items hitems => (Yields.any _).bind fun _ _ => ?_
    rw [hitems.1, Nat.div_one, ← hload, load_bytes hobject, map_map,
      show UInt8.ofNat ∘ UInt8.toNat = id from funext fun b => UInt8.ofNat_toNat, map_id]
    split
    · next string hstring =>
      refine Triple.ret _ fun _ _ _ => ⟨absurd rfl, ?_⟩
      rw [hunicode _ _ hstring, elementCount, Announced]
    · exact fun _ _ => trivial
  | booleanArray nullable length =>
    rw [deserializeType]
    refine deserializePointer_yields hheader (absurd rfl) fun _ hsize =>
      deserializeArray_yields fun hlength hroom =>
      deserializeNativeArray_yields.bind fun items hitems => Triple.ret _ fun _ _ _ => ⟨hlength, ?_⟩
    have hbools := length_flatMap_booleans hitems.2.2
    simp only [elementCount, length_map, length_take, Announced, iff_true]
    omega
  | nativeArray typecode nullable length =>
    rw [deserializeType]
    refine deserializePointer_yields hheader (absurd rfl) fun _ hsize =>
      deserializeArray_yields fun hlength hroom =>
      deserializeNativeArray_yields.bind fun items hitems => Triple.ret _ fun _ _ _ => ⟨hlength, ?_⟩
    simp only [elementCount, length_map, Announced]
    rw [← Nat.mul_right_inj (typecode_size_pos typecode).ne', hitems.2.1]
    omega
  | genericArray subType nullable length =>
    rw [deserializeType]
    refine deserializePointer_yields hheader (absurd rfl) fun _ hsize =>
      deserializeArray_yields fun hlength hroom => (Yields.any _).bind fun values _ =>
      (deserializeElements_yields d subType _ values _).bind fun items hitems =>
      Triple.ret _ fun _ _ _ => ⟨hlength, ?_⟩
    simp [elementCount, hitems, Announced]
  | _ => cases ht

def twoBytes (n b : UInt8) : RootContext :=
  ⟨[8, 0, 0, 0, 0, 0, 0, 0, 10, 0, 0, 0, n, 0, 0, 0, b, 169], [], some⟩

def decodeTwoBytes (t : FieldType) (n b : UInt8) : EStateM.Result Failure Claimed Value :=
  deserialize (twoBytes n b) ⟨fun _ => [], fun _ => []⟩ 0 t (.entry (.int 8)) 0 ⟨0, 0, [], []⟩

-- One character, encoded in two bytes.
theorem deserialize_length_one :
    decodeTwoBytes (.string false) 1 195 = .ok (.string [195, 169])
      ⟨0, 18, [(8, 10)], [.string [195, 169], .elements 1 2, .pointer 8]⟩ ∧
    elementCount false (.string [195, 169]) = 1 := by
  have hrun : decodeTwoBytes (.string false) 1 195 = .ok (.string [195, 169])
      ⟨0, 18, [(8, 10)], [.string [195, 169], .elements 1 2, .pointer 8]⟩ := by
    with_unfolding_all rfl
  have hheader : unpackHeader (twoBytes 1 195) 8 = (10, 1) := by with_unfolding_all rfl
  refine ⟨hrun, (deserialize_length_iff hrun (fun _ _ h => (Option.some.inj h).symm) rfl nofun
    hheader false).2.mpr ?_⟩
  rw [Announced]
  decide

theorem native_array_longer :
    decodeTwoBytes (.nativeArray .B false 0) 1 7 =
      .ok (.array [.number 7, .number 169]) ⟨0, 18, [(8, 10)], [.elements 1 2, .pointer 8]⟩ ∧
    unpackHeader (twoBytes 1 7) 8 = (10, 1) ∧
    elementCount false (.array [.number 7, .number 169]) ≠ 1 :=
  ⟨by with_unfolding_all rfl, by with_unfolding_all rfl, by decide⟩

end Mojo.PythonBindings
