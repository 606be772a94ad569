import Mojo.JavaBindings.RoundTrip
import Mojo.RustBindings.RoundTrip

/-!
# Messages from Java

Java encodes and Rust decodes the same layout, on a little-endian host: Rust reads in the order of
the host.
-/

namespace Mojo.RustBindings

open Mojo.Wire Mojo.CppBindings JavaBindings

/-- Rust reads what Java writes, for the structs of both languages without unions. -/
theorem deserialize_from_java {Γ : Types} {newString sizeHint depth name fields} (hΓ : Γ.Laid)
    (hints : Γ.IntSized) (hpacked : Γ.Packed) (hfree : Γ.UnionFree)
    (h : Serializable Γ newString depth (.struct name false) (.struct fields))
    (hshort : Always Γ (fun _ => ShortBools) (depth + 1) (.struct name false) (.struct name false)
      (.struct fields))
    (hv : HasKind Γ domain (depth + 1) (.struct name false) (.struct fields)) :
    ∃ s, serialize Γ .little sizeHint (depth + 1) name fields = .ok s ∧
      deserialize Γ s.mem depth name s.dataEnd.toNat s.handles = .ok (.struct fields) := by
  have hfits := always_fits hΓ hints rfl h.typed hshort h.size
  obtain ⟨s, hrun, hs⟩ := serialize_archived hΓ (fun _ h => h) (fun _ h => h) h.typed hfits h.size
    (.inl rfl)
  obtain ⟨msg, hmsg⟩ := hs.message hΓ rfl rfl h.typed h.size
  obtain ⟨o, ho, hat⟩ := hs.object
  -- what fits into the words of Java fits into those of Rust
  have ha : Always Γ (Encodable Γ s.dataEnd.toNat) _ _ _ _ :=
    always_encodable hΓ hpacked hfree hfits fun h o ho => by
    have := h.object o ho
    omega
  have hsize := hs.size
  have hsmall := h.size
  exact ⟨s, hrun, deserialize_done hΓ hv ha ho hpacked (by omega) (by omega) hs.handles
    (hmsg.handles ▸ msg.handles_lt.le) hat⟩

theorem deserialize_from_java_two_records :
    ∃ s, serialize recordTypes .little 8 4 0 twoRecords = .ok s ∧
    deserialize recordTypes s.mem 3 0 s.dataEnd.toNat s.handles = .ok (.struct twoRecords) := by
  refine deserialize_from_java recordTypes_laid ?_ recordTypes_packed ?_
    (h := ⟨(?_ : HasKind _ (JavaBindings.domain id) ..), by decide, by decide⟩) (by decide) ?_
  · constructor <;> simp [recordTypes, StructType.last]
  · simp [Types.UnionFree, recordTypes, Kind.isUnionFree]
  all_goals simp [HasKind, recordTypes, twoRecords, JavaBindings.domain, domain, Kind.isNullable,
    invalidHandle]

end Mojo.RustBindings
