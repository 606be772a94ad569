import Mojo.RustBindings.RoundTrip

/-!
# Unions in unions

A union in a union is behind a pointer. The bindings know this from a flag of the context, which is
set while the field of a union is encoded. A null union ignores the flag and takes 16 bytes, the
decoder does not set it for a union behind a pointer, and the size of an array of unions in a union
depends on it although the elements are not in a union. Everything else comes back as it was.
-/

namespace Mojo.RustBindings

open Mojo.Memory Mojo.CppBindings Mojo.Wire

section Encodable

variable {Γ : Types} {depth name : ℕ} {fields : List Value}

theorem deserialize_autoSerialize_of_encodable (hΓ : Γ.Laid) (hpacked : Γ.Packed)
    (hv : HasKind Γ domain (depth + 1) (.struct name false) (.struct fields))
    (ha : Always Γ (Encodable Γ
      (computeSize Γ (depth + 1) (.struct name false) (.struct fields) ⟨0, false⟩)) (depth + 1)
      (.struct name false) (.struct name false) (.struct fields))
    (hsize : computeSize Γ (depth + 1) (.struct name false) (.struct fields) ⟨0, false⟩ < 2 ^ 64)
    (hhandles : (handles Γ (depth + 1) (.struct name false) (.struct fields)).length ≤ 2 ^ 31) :
    ∃ e, autoSerialize Γ depth name fields = .ok e ∧
      e.bytes = outSize Γ (depth + 1) (.struct name false) (.struct fields) ∧ e.bytes ≤ e.size ∧
      e.handles = handles Γ (depth + 1) (.struct name false) (.struct fields) ∧
      deserialize Γ e.mem depth name e.size e.handles = .ok (.struct fields) := by
  obtain ⟨e, hrun, hesize, hbytes, hreturns⟩ :=
    autoSerialize_returns hΓ hv ha rfl hpacked rfl hsize hhandles
  refine ⟨e, hrun, hbytes, ?_, hreturns⟩
  rw [hbytes, hesize]
  exact outSize_le_computeSize hΓ hv

end Encodable

def nestedTypes : Types where
  struct _ := ⟨[⟨0, 24⟩], [⟨.union 0 false, 0, 0, 0⟩]⟩
  union _ := ⟨[.union 0 true, .number 1, .array (.union 0 false) 0 false, .map (.number 1)
    (.union 0 false) false]⟩

theorem nestedTypes_laid : nestedTypes.Laid where
  struct i := by
    constructor <;> simp [nestedTypes, Kind.isMojom, Kind.size, headerSize, StructType.last]
  union _ := by simp [nestedTypes, Kind.isMojom]
  tags _ := by simp [nestedTypes]

theorem nestedTypes_packed : nestedTypes.Packed := by
  intro i
  constructor <;> simp [nestedTypes, Flows, natural, Field.slot, Kind.alignment, alignUp,
    Cursor.toByte, headerSize]

def mapInUnion : List Value :=
  [.union 0 (.union 3 (.map [.number 7] [.union 1 (.number 5)]))]

theorem deserialize_autoSerialize_map_in_union :
    ∃ e, autoSerialize nestedTypes 6 0 mapInUnion = .ok e ∧
      e.bytes = outSize nestedTypes 7 (.struct 0 false) (.struct mapInUnion) ∧ e.bytes ≤ e.size ∧
      e.handles = handles nestedTypes 7 (.struct 0 false) (.struct mapInUnion) ∧
      deserialize nestedTypes e.mem 6 0 e.size e.handles = .ok (.struct mapInUnion) := by
  refine deserialize_autoSerialize_of_encodable nestedTypes_laid nestedTypes_packed ?_ (by decide)
    (by decide) (by decide)
  simp [HasKind, nestedTypes, mapInUnion, UnionType.active, Kind.inUnion]

/-- A null union in a union is written past the end of the object; so is an array of unions in a
union. A union in a union in a union is not found again. -/
theorem nested_unions_fail :
    (HasKind nestedTypes domain 3 (.struct 0 false) (.struct [.union 0 .null]) ∧
      autoSerialize nestedTypes 2 0 [.union 0 .null] = .error .outside) ∧
    (HasKind nestedTypes domain 5 (.struct 0 false)
      (.struct [.union 2 (.array [.union 1 (.number 5)])]) ∧
      autoSerialize nestedTypes 4 0 [.union 2 (.array [.union 1 (.number 5)])] = .error .outside) ∧
    HasKind nestedTypes domain 4 (.struct 0 false)
      (.struct [.union 0 (.union 0 (.union 1 (.number 5)))]) ∧
    ∃ e, autoSerialize nestedTypes 3 0 [.union 0 (.union 0 (.union 1 (.number 5)))] = .ok e ∧
      deserialize nestedTypes e.mem 3 0 e.size e.handles =
        .error (.invalid .unexpectedNullUnion) := by
  refine ⟨⟨?_, eq_error_of_whyFailed (by decide +kernel)⟩,
    ⟨?_, eq_error_of_whyFailed (by decide +kernel)⟩, ?_,
    bind_eq_error (by decide +kernel) (by decide +kernel)⟩
  all_goals simp [HasKind, nestedTypes, UnionType.active, Kind.inUnion, Kind.isNullable]

end Mojo.RustBindings
