import Mojo.CppBindings.Kind
import Mathlib.Algebra.BigOperators.Group.List.Basic

/-!
# Values of the mojom types and the objects they need

A value is given by its members, whatever the language that holds it. A member of a
pointer type that is not null needs an object of its own: `object` says how many
bytes the object has, what stands in the second word of its header and which
members it has where. Everything else about the layout follows from it: `outSize` is the
space that the objects behind a member take, and `handles` are the handles in the order of
their members.

Values are finite trees, and the functions here take a bound of their depth. A union in a
union is behind a pointer.
-/

namespace Mojo.CppBindings

def Kind.inUnion : Kind → Kind
  | .union name nullable => .unionPointer name nullable
  | kind => kind

end Mojo.CppBindings

namespace Mojo.Wire

open Mojo.Memory Mojo.CppBindings List

/-- A number is given by its bits; a map by its keys and values in some order. -/
inductive Value
  | number (n : ℕ)
  | bool (b : Bool)
  | handle (handle : ℕ)
  | interface (handle version : ℕ)
  | null
  | string (bytes : List UInt8)
  | array (elems : List Value)
  | map (keys values : List Value)
  | struct (fields : List Value)
  | union (tag : ℕ) (field : Value)

def Value.toNat : Value → ℕ
  | .number n => n
  | _ => 0

def Value.toBool : Value → Bool
  | .bool b => b
  | _ => false

def Value.elems : Value → List Value
  | .array elems => elems
  | _ => []

def sameKey : Value → Value → Bool
  | .number a, .number b => a == b
  | .bool a, .bool b => a == b
  | .string a, .string b => a == b
  | _, _ => false

def insertEntry (key value : Value) : List (Value × Value) → List (Value × Value)
  | [] => [(key, value)]
  | e :: es => if sameKey e.1 key then (e.1, value) :: es else e :: insertEntry key value es

def insertAll (entries : List (Value × Value)) : Value :=
  let map := entries.foldl (fun map e => insertEntry e.1 e.2 map) []
  .map (map.map Prod.fst) (map.map Prod.snd)

theorem eq_of_sameKey {a b : Value} (h : sameKey a b) : a = b := by
  cases a <;> cases b <;> first | cases h | exact congrArg _ (eq_of_beq h)

theorem insertEntry_of_notMem {key value : Value} {entries : List (Value × Value)}
    (h : key ∉ entries.map Prod.fst) :
    insertEntry key value entries = entries ++ [(key, value)] := by
  induction entries with
  | nil => rfl
  | cons e es ih =>
    simp only [map_cons, mem_cons, not_or] at h
    have hne : ¬ sameKey e.1 key = true := fun hsame => h.1 (eq_of_sameKey hsame).symm
    rw [insertEntry, if_neg hne, ih h.2, cons_append]

theorem foldl_insertEntry {entries entries' : List (Value × Value)}
    (h : ((entries ++ entries').map Prod.fst).Nodup) :
    entries'.foldl (fun map e => insertEntry e.1 e.2 map) entries = entries ++ entries' := by
  induction entries' generalizing entries with
  | nil => simp
  | cons e es ih =>
    have hnew : e.1 ∉ entries.map Prod.fst := by
      intro hmem
      rw [map_append, nodup_append] at h
      exact h.2.2 e.1 hmem e.1 (by simp) rfl
    rw [foldl_cons, insertEntry_of_notMem hnew, ih (by simpa using h)]
    simp

theorem insertAll_eq {keys values : List Value} (hnodup : keys.Nodup)
    (hlen : keys.length = values.length) : insertAll (keys.zip values) = .map keys values := by
  have hfst : (keys.zip values).map Prod.fst = keys := map_fst_zip hlen.le
  have hsnd : (keys.zip values).map Prod.snd = values := map_snd_zip hlen.ge
  have hfold : (keys.zip values).foldl (fun map e => insertEntry e.1 e.2 map) [] =
      [] ++ keys.zip values := foldl_insertEntry (by rw [nil_append, hfst]; exact hnodup)
  rw [insertAll, hfold, nil_append, hfst, hsnd]

def align8 (n : ℕ) : ℕ := (n + 7) / 8 * 8

theorem le_align8 (n : ℕ) : n ≤ align8 n := by
  simp only [align8]
  omega

theorem align8_mod (n : ℕ) : align8 n % 8 = 0 := Nat.mul_mod_left _ 8

theorem align8_of_mod {n : ℕ} (h : n % 8 = 0) : align8 n = n := by
  simp only [align8]
  omega

def elementBytes (elem : Kind) (n : ℕ) : ℕ :=
  match elem with
  | .bool => (n + 7) / 8
  | _ => elem.size * n

/-- `word` is the number of elements, the version or the tag; the addresses of the members
are relative to the object. -/
structure Object where
  size : ℕ
  word : ℕ
  members : List (Slot × Value)

variable (Γ : Types)

def object : Kind → Value → Option Object
  | .string _, .string bytes => some
    { size := headerSize + bytes.length
      word := bytes.length
      members := (elementSlots (.number 1) 0 bytes.length).zip
        (bytes.map fun b => .number b.toNat) }
  | .array elem _ _, .array elems => some
    { size := headerSize + elementBytes elem elems.length
      word := elems.length
      members := (elementSlots elem 0 elems.length).zip elems }
  | .map key value _, .map keys values => some
    { size := 24
      word := 0
      members := [(⟨.array key 0 false, 8, 0⟩, .array keys),
        (⟨.array value 0 false, 16, 0⟩, .array values)] }
  | .struct name _, .struct fields => some
    { size := (Γ.struct name).last.numBytes
      word := (Γ.struct name).last.version
      members := ((Γ.struct name).fields.map fun f => f.slot 0).zip fields }
  | .union name _, .union tag field | .unionPointer name _, .union tag field =>
    ((Γ.union name).active tag).map fun kind =>
      { size := unionSize
        word := tag
        members := [(⟨kind.inUnion, 8, 0⟩, field)] }
  | _, _ => none

inductive ObjectOf : Kind → Value → Object → Prop
  | string (nullable : Bool) (bytes : List UInt8) : ObjectOf (.string nullable) (.string bytes)
      ⟨headerSize + bytes.length, bytes.length,
        (elementSlots (.number 1) 0 bytes.length).zip (bytes.map fun b => .number b.toNat)⟩
  | array (elem : Kind) (count : ℕ) (nullable : Bool) (elems : List Value) :
    ObjectOf (.array elem count nullable) (.array elems)
      ⟨headerSize + elementBytes elem elems.length, elems.length,
        (elementSlots elem 0 elems.length).zip elems⟩
  | map (key value : Kind) (nullable : Bool) (keys values : List Value) :
    ObjectOf (.map key value nullable) (.map keys values)
      ⟨24, 0, [(⟨.array key 0 false, 8, 0⟩, .array keys),
        (⟨.array value 0 false, 16, 0⟩, .array values)]⟩
  | struct (name : ℕ) (nullable : Bool) (fields : List Value) : ObjectOf (.struct name nullable)
    (.struct fields)
      ⟨(Γ.struct name).last.numBytes, (Γ.struct name).last.version,
        ((Γ.struct name).fields.map fun f => f.slot 0).zip fields⟩
  | union (name : ℕ) (nullable : Bool) (tag : ℕ) (field : Value) (active : Kind)
      (hactive : (Γ.union name).active tag = some active) :
    ObjectOf (.union name nullable) (.union tag field)
      ⟨unionSize, tag, [(⟨active.inUnion, 8, 0⟩, field)]⟩
  | unionPointer (name : ℕ) (nullable : Bool) (tag : ℕ) (field : Value) (active : Kind)
      (hactive : (Γ.union name).active tag = some active) :
    ObjectOf (.unionPointer name nullable) (.union tag field)
      ⟨unionSize, tag, [(⟨active.inUnion, 8, 0⟩, field)]⟩

theorem objectOf {Γ : Types} {kind : Kind} {v : Value} {o : Object}
    (ho : object Γ kind v = some o) :
    ObjectOf Γ kind v o := by
  cases kind <;> cases v <;> first | cases ho; done | skip
  case string.string | array.array | map.map | struct.struct =>
    cases ho
    constructor
  all_goals
    obtain ⟨active, hactive, rfl⟩ := Option.map_eq_some_iff.mp ho
    constructor
    exact hactive

def outSize : ℕ → Kind → Value → ℕ
  | 0, _, _ => 0
  | depth + 1, kind, v =>
    match object Γ kind v with
    | none => 0
    | some o =>
      (if kind.isPointer then align8 o.size else 0) +
        (o.members.map fun p => outSize depth p.1.kind p.2).sum

def handles : ℕ → Kind → Value → List ℕ
  | _, _, .handle h | _, _, .interface h _ => [h]
  | 0, _, _ => []
  | depth + 1, kind, v =>
    match object Γ kind v with
    | none => []
    | some o => o.members.flatMap fun p => handles depth p.1.kind p.2

abbrev handlesOf (depth : ℕ) (ps : List (Slot × Value)) : List ℕ :=
  ps.flatMap fun p => handles Γ depth p.1.kind p.2

theorem handlesOf_cons (depth : ℕ) (p : Slot × Value) (ps : List (Slot × Value)) :
    handlesOf Γ depth (p :: ps) = handles Γ depth p.1.kind p.2 ++ handlesOf Γ depth ps :=
  flatMap_cons

theorem handlesOf_singleton (depth : ℕ) (p : Slot × Value) :
    handlesOf Γ depth [p] = handles Γ depth p.1.kind p.2 :=
  flatMap_singleton _ _

theorem handlesOf_append (depth : ℕ) (ps qs : List (Slot × Value)) :
    handlesOf Γ depth (ps ++ qs) = handlesOf Γ depth ps ++ handlesOf Γ depth qs := flatMap_append

/-- What a language allows for the handles, interface versions and strings of a value. -/
structure Domain where
  handle : ℕ → Prop
  version : ℕ → Prop
  string : List UInt8 → Prop

abbrev Domain.Words (D : Domain) : Prop := ∀ n, D.version n → n < 2 ^ 32

abbrev Domain.Valid (D : Domain) : Prop := ∀ h, D.handle h → h ≠ invalidHandle

variable (D : Domain)

def HasKind : ℕ → Kind → Value → Prop
  | _, .number size, .number n => n < 256 ^ size
  | _, .bool, .bool _ => True
  | _, .handle _, .handle h => D.handle h
  | _, .interface _, .interface h version => D.handle h ∧ D.version version
  | _, kind, .null => kind.isNullable = true
  | _ + 1, .string _, .string bytes => D.string bytes
  | depth + 1, .array elem count _, .array elems =>
    (count ≠ 0 → elems.length = count) ∧ ∀ v ∈ elems, HasKind depth elem v
  | depth + 1, .map key value _, .map keys values =>
    keys.Nodup ∧ keys.length = values.length ∧
      HasKind depth (.array key 0 false) (.array keys) ∧
      HasKind depth (.array value 0 false) (.array values)
  | depth + 1, .struct name _, .struct fields =>
    (Γ.struct name).fields.Forall₂ (fun f v => HasKind depth f.kind v) fields
  | depth + 1, .union name _, .union tag field
  | depth + 1, .unionPointer name _, .union tag field =>
    ∃ kind, (Γ.union name).active tag = some kind ∧ HasKind depth kind.inUnion field
  | _, _, _ => False

end Mojo.Wire
