import Mojo.PythonBindings.RoundTrip

/-!
# What malformed data can provoke

Deserialization checks the headers and claims the objects in order, but it leaves some checks to
the functions of the interpreter, which raise exceptions of their own: those are the visits of a
run. Without unions, a `DeserializationException` is raised as long as the visits are sound, and
the first one that is not ends the run with another exception.
-/

namespace Mojo.PythonBindings

open Mojo.Memory Mojo.Wire Mojo.CppBindings Mojo.System
open List hiding Mem

variable {root : RootContext} {α β : Type}

def Visit.Sound (root : RootContext) : Visit → Prop
  | .fields context size => size ≤ length root context
  | .pointer target => target < 2 ^ 63
  | .handle index => index < root.handles.length
  | .elements elementSize size => size % elementSize = 0
  | .string bytes => (root.unicode bytes).isSome
  | .nested => False

instance (v : Visit) : Decidable (v.Sound root) := by
  cases v <;> unfold Visit.Sound <;> infer_instance

structure Orderly (root : RootContext) (s : Claimed) : Prop where
  apart : s.claims.Pairwise fun later earlier => earlier.1 + earlier.2 ≤ later.1
  claims : ∀ r ∈ s.claims, r.1 + r.2 ≤ s.nextMemory
  memory : s.nextMemory ≤ root.data.length
  handle : 0 ≤ s.nextHandle
  sound : ∀ v ∈ s.visits, v.Sound root

def Surfaces (root : RootContext) (e : Failure) (s : Claimed) : Prop :=
  (∃ message, e = .deserialization message) ↔ ∀ v ∈ s.visits, v.Sound root

/-- What is claimed remains in order and the visits remain sound, up to the result or a
`DeserializationException`; at any other exception there is a visit that is not sound. -/
def Decodes (root : RootContext) (x : Decoding α) : Prop :=
  Triple (Orderly root) x (fun _ => Orderly root) (Surfaces root)

theorem Decodes.ret (a : α) : Decodes root (pure a) := Triple.ret a fun _ h => h

variable {x : Decoding α}

theorem Decodes.bind {f : α → Decoding β} (hx : Decodes root x)
    (hf : ∀ a, Decodes root (f a)) : Decodes root (x >>= f) :=
  Triple.bind hx hf

variable {message : String}

theorem Decodes.check {P : Prop} [Decidable P] {f : Unit → Decoding β}
    (hf : ¬ P → Decodes root (f ())) : Decodes root (throwIf P message >>= f) := by
  rw [throwIf]
  split
  · exact fun s hs => iff_of_true ⟨message, rfl⟩ hs.sound
  · next h => exact hf h

theorem Decodes.visit {v : Visit} {x : Decoding β} (hx : v.Sound root → Decodes root x)
    (hthrow : ¬ v.Sound root → ∃ e, x = throw e ∧ ∀ message, e ≠ .deserialization message) :
    Decodes root (do PythonBindings.visit v; x) := by
  intro s hs
  by_cases h : v.Sound root
  · exact hx h _ { hs with sound := forall_mem_cons.mpr ⟨h, hs.sound⟩ }
  · obtain ⟨e, rfl, he⟩ := hthrow h
    refine iff_of_false (fun ⟨message, hm⟩ => he message hm) fun hall => ?_
    exact h (hall v (.head _))

/-! ### What is claimed -/

variable {context : ℕ}

variable {nullable : Bool}

def Plain (groups : List FieldGroup) : Prop :=
  ∀ g ∈ groups, ∀ d ∈ g.getDescriptors, d.fieldType.kind.isUnionFree = true

theorem Plain.getGroups {groups : List FieldGroup} (h : Plain groups) (version : ℕ) :
    Plain (getGroups groups version) := by
  rw [PythonBindings.getGroups]
  split
  · exact h
  · intro g hg d hd
    obtain ⟨g', hg', rfl⟩ := mem_map.mp hg
    refine h g' (mem_filter.mp hg').1 d ?_
    cases g' with
    | single d' => exact hd
    | boolean ds => exact (mem_filter.mp hd).1

section Members

variable {c : Classes} {deserialize : Deserializer}

/-- A value of a type without unions is decoded from as many entries as the type has codes. -/
def Safe (root : RootContext) (deserialize : Deserializer) : Prop :=
  ∀ t values context, t.kind.isUnionFree = true → values.length = t.getTypeCode.length →
    Decodes root (deserialize t (valueOf values) context)

variable {groups : List FieldGroup}

end Members

end Mojo.PythonBindings
