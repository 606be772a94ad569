import Mojo.JavaBindings.DecodeClaims

/-!
# What a message can provoke in Java

Without unions, decoding reads only what it has claimed, whatever the message, and fails
only with a `DeserializationException`, unless a boolean array has so many elements that the
number of its bytes overflows. With unions it stays inside claimed memory as long as there is
room for them: the elements of an array of unions are twice as long as the check of its
header assumes, and a union in a union is not claimed at all.
-/

namespace Mojo.JavaBindings

open Mojo.Memory Mojo.Wire Mojo.CppBindings Mojo.System

variable {c : Context}

theorem holds_new (msg : Message) : Holds msg 0 [] .new where
  proper := trivial
  memory start stop h := by cases h
  lower := le_rfl
  handle index h := by cases h
  nonneg := le_rfl
  ranges r h := by cases h
  countable si h := by cases h

structure InOrder (msg : Message) (log : List Access) : Prop where
  reads : ∀ addr size, .read addr size ∈ log → Claimed log addr size
  ranges : ∀ r ∈ claims log, r.1 % 8 = 0 ∧ r.1 ≤ r.2 ∧ r.2 ≤ msg.limit
  increasing : (claims log).Pairwise fun r r' => r.2 ≤ r'.1
  handles : (taken log).Pairwise (· < ·)

theorem inOrder_of_proper {msg : Message} {log : List Access}
    (h : Proper msg.limit msg.handles.length log) : InOrder msg log where
  reads _ _ := h.read
  ranges _ hr := h.claim (mem_claims.mp hr)
  increasing := h.claims_increasing
  handles := h.taken_increasing

theorem deserialize_keeps {free : Prop} (hversioned : c.types.Versioned)
    (hfree : free → c.types.UnionFree) (depth name : ℕ) :
    Keeps c.message free (0 + 8 * (depth + 1) ≤ c.message.limit) (Holds c.message 0 [])
      (decodeStruct c (decode c depth) name 0) fun _ => Holds c.message 0 [] :=
  decodeStruct_keeps hversioned hfree (decodes hversioned hfree depth) name 0

theorem proper_of_keeps {F S : Prop} {x : Decoding Value}
    (h : Keeps c.message F S (Holds c.message 0 []) x fun _ => Holds c.message 0 [])
    (hroomy : F ∨ Roomy (finalState (x .new)).visits) :
    Proper c.message.limit c.message.handles.length (finalState (x .new)).log := by
  have hend := h .new (holds_new _)
  cases hrun : x .new with
  | ok value v =>
    rw [hrun] at hend hroomy
    exact (hend hroomy).proper
  | error e v =>
    rw [hrun] at hend hroomy
    exact (hend hroomy).1

/-- Types without unions are decoded inside claimed memory, up to the result or the exception. -/
theorem deserialize_inOrder (hversioned : c.types.Versioned) (hfree : c.types.UnionFree)
    (depth name : ℕ) : InOrder c.message (finalState (deserialize c depth name)).log :=
  inOrder_of_proper
    (proper_of_keeps (deserialize_keeps hversioned (fun _ => hfree) depth name) (.inl trivial))

/-- A struct with one field, and unions with one member each, in a message without handles. -/
def oneField (size : ℕ) (field : Kind) (members : List Kind) (bytes : List UInt8)
    (h : bytes.length < 2 ^ 31) : Context where
  types := ⟨fun _ => ⟨[⟨0, size⟩], [⟨field, 0, 0, 0⟩]⟩, fun i => ⟨members[i]?.toList⟩⟩
  message := ⟨block 0 bytes, bytes.length, [], h, noHandles_lt⟩
  default _ := .null
  newString bytes := bytes

def numbersContext : Context :=
  oneField 16 (.array (.number 4) 0 false) []
    (words [16, 0, 8, 0, 12, 1, 5]) (by decide)

theorem oneField_versioned {size : ℕ} {field : Kind} {members : List Kind} {bytes : List UInt8}
    {h : bytes.length < 2 ^ 31} (hfield : field.isMojom) (hsize : 8 + field.size ≤ size)
    (hmembers : ∀ kind ∈ members, kind.isMojom) :
    (oneField size field members bytes h).types.Versioned where
  struct _ :=
    { kinds := fun f hf => by
        obtain rfl := List.mem_singleton.mp hf
        exact hfield
      start := ⟨⟨0, size⟩, .head _, rfl⟩
      inside := by
        intro f hf version v _ hv
        obtain rfl := List.mem_singleton.mp hf
        have hv' : v ∈ [(⟨0, size⟩ : VersionInfo)] := List.mem_of_find?_eq_some hv
        rw [List.mem_singleton.mp hv']
        exact hsize }
  union i kind hkind := by
    have hmem : members[i]? = some kind := Option.mem_toList.mp hkind
    exact hmembers kind (List.mem_of_getElem? hmem)

theorem numbersContext_versioned : numbersContext.types.Versioned :=
  oneField_versioned rfl (by decide) (by simp)

theorem numbersContext_unionFree : numbersContext.types.UnionFree := by
  intro i f hf
  obtain rfl := List.mem_singleton.mp hf
  rfl

theorem deserialize_inOrder_numbers :
    claims (finalState (deserialize numbersContext 2 0)).log =
      [(0, 8), (8, 16), (16, 24), (24, 28)] ∧
      InOrder numbersContext.message (finalState (deserialize numbersContext 2 0)).log :=
  ⟨by decide +kernel, deserialize_inOrder numbersContext_versioned numbersContext_unionFree 2 0⟩

def thrown {ε σ α : Type} : EStateM.Result ε σ α → Option ε
  | .ok _ _ => none
  | .error e _ => some e

end Mojo.JavaBindings
