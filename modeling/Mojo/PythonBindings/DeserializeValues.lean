import Mathlib.Data.List.MinMax
import Mojo.PythonBindings.SerializeTypes

/-!
# What deserialization returns

In a message where the fields hold values, with the objects behind them in depth-first order, every
type returns its values. What the root context has claimed ends where the next object and the next
handle begin.
-/

namespace Mojo.PythonBindings

open Mojo.Memory Mojo.Wire Mojo.CppBindings Mojo.System
open List hiding Cursor Mem modify

variable {P : Claimed → Prop} {c : Classes} {h n a fuel x : ℕ} {typecode : TypeCode}
  {nullable : Bool} {o : Object}
    {f : ℕ → ℕ → ℕ → Decoding Value} {g : FieldGroup} {values : List Value}
    {groups : List FieldGroup} {w : Walk} {pen : Pen} {ds : List FieldDescriptor}

def Ready (lo i : ℕ) (s : Claimed) : Prop := s.nextMemory ≤ lo ∧ s.nextHandle ≤ i

theorem Ready.mono {lo lo' i : ℕ} (h : lo ≤ lo') (s : Claimed) (hs : Ready lo i s) :
    Ready lo' i s :=
  ⟨hs.1.trans h, hs.2⟩

/-- The sizes are those of Python: a buffer has an index for each byte. -/
structure RootContext.Bounded (root : RootContext) : Prop where
  data : root.data.length < 2 ^ 63
  handles : root.handles.length ≤ 2 ^ 31

def RootContext.HasObject (root : RootContext) (a : ℕ) : Prop :=
  headerSize ≤ load root.mem a 4 ∧ a + load root.mem a 4 ≤ root.data.length

section Steps

variable {root : RootContext} {lo i : ℕ}

theorem load_bytes (hobject : root.HasObject a) :
    ((List.range (load root.mem a 4 - headerSize)).map fun k =>
      load root.mem (a + headerSize + 1 * k) 1) =
      ((root.data.drop (a + headerSize)).take (load root.mem a 4 - headerSize)).map
        UInt8.toNat := by
  obtain ⟨hheader, hend⟩ := hobject
  refine ext_getElem ?_ fun k hk hk' => ?_
  · simp only [length_map, length_range, length_take, length_drop]
    omega
  · have hlt : a + headerSize + k < root.data.length := by
      simp only [length_map, length_range] at hk
      omega
    simp [load, RootContext.mem, block, hlt]

theorem visit_returns (v : Visit) : Returns (Ready lo i) (visit v) () (Ready lo i) :=
  .update _ fun _ hs => hs

theorem throwIf_returns {c : Prop} [Decidable c] {message : String} (h : ¬ c) :
    Returns P (throwIf c message) () P := by
  rw [throwIf, if_neg h]
  exact .ret () fun _ hs => hs

theorem claimMemory_returns (size : ℕ) :
    Returns (Ready lo i) (claimMemory lo size) () (Ready (lo + size) i) := by
  refine .with_state fun s hs => ?_
  have hchecks : Returns (· = s) (do
      throwIf (lo < s.nextMemory) "Accessing buffer out of order."
      modify fun s => { s with nextMemory := lo + size, claims := (lo, size) :: s.claims }) ()
        (Ready (lo + size) i) := by
    refine (throwIf_returns (by have := hs.1; omega)).bind (.update _ ?_)
    rintro _ rfl
    exact ⟨le_rfl, hs.2⟩
  exact hchecks s rfl

theorem claimHandle_returns (hget : root.handles[i]? = some h) :
    Returns (Ready lo i) (claimHandle root i) h (Ready lo (i + 1)) := by
  rw [claimHandle, Int.toNat_natCast, hget]
  refine .with_state fun s hs => ?_
  have hchecks : Returns (· = s) (do
      throwIf ((i : ℤ) < s.nextHandle) "Accessing handles out of order."
      modify fun s => { s with nextHandle := (i : ℤ) + 1 }
      visit (.handle i)
      pure h) h (Ready lo (i + 1)) := by
    refine (throwIf_returns (by have := hs.2; omega)).bind
      (Returns.bind (R := Ready lo (i + 1)) (.update _ ?_)
      ((visit_returns _).bind (.ret h fun _ hs => hs)))
    rintro _ rfl
    exact ⟨hs.1, by push_cast; rfl⟩
  exact hchecks s rfl

theorem getSubContext_returns (context : ℕ) (hlt : context + n < 2 ^ 63) :
    Returns (Ready lo i) (getSubContext context n) (context + n) (Ready lo i) := by
  have hnat : ((context : ℤ) + n).toNat = context + n := by omega
  rw [getSubContext, if_pos (by omega), hnat]
  exact (visit_returns _).bind (.done _)

theorem unpackFrom_returns {l : ℕ} (root : RootContext) (format : Format) (context offset : ℕ)
    (hle : context + offset + format.size ≤ root.data.length) :
    Returns (Ready l i) (unpackFrom root format context offset)
      (unpack root.mem format (context + offset)) (Ready l i) := by
  rw [unpackFrom, if_neg (by rw [length]; omega)]
  exact (visit_returns _).bind (.done _)

theorem toInt_entry (hfloat : typecode.isFloat = false) (hn : 2 * n < 256 ^ typecode.size) :
    (Encoded.entry (typecode.entry n)).toInt = n := by
  have hsmall : ¬ 256 ^ typecode.size ≤ 2 * n := by omega
  simp [TypeCode.entry, hfloat, hsmall, Encoded.toInt]

theorem toInt_pointer (n : ℕ) : (Encoded.entry (TypeCode.Q.entry n)).toInt = n := rfl

theorem toInt_byte (n : ℕ) : (Encoded.entry (TypeCode.B.entry n)).toInt = n := rfl

theorem deserializePointer_returns {v : Value} {Q : Claimed → Prop} (hroot : root.Bounded)
    (hlt : a < lo)
    (halign : lo % 8 = 0) (ha : a % 8 = 0) (hheader : headerSize ≤ o.size)
    (hend : lo + o.size ≤ root.data.length)
    (hsize : load root.mem lo 4 = o.size) (hword : load root.mem (lo + 4) 4 = o.word)
    (hf : Returns (Ready (lo + align8 o.size) i) (f o.size o.word lo) v Q) :
    Returns (Ready lo i)
      (deserializePointer root nullable (.entry (TypeCode.Q.entry (lo - a))) a f) v Q := by
  have hdata := hroot.data
  have hsub : a + (lo - a) = lo := by omega
  have hcontext : Returns (Ready lo i) (getSubContext a (lo - a : ℕ)) (a + (lo - a)) (Ready lo i) :=
    getSubContext_returns a (by omega)
  rw [hsub] at hcontext
  rw [deserializePointer, toInt_pointer, if_neg (by omega)]
  refine (throwIf_returns (by omega)).bind
    (hcontext.bind ((throwIf_returns (by rw [length]; omega)).bind ?_))
  simp only [unpackHeader, hsize, hword]
  refine (throwIf_returns (by rw [length]; omega)).bind
    ((claimMemory_returns o.size).bind (hf.pre ?_))
  exact Ready.mono (Nat.add_le_add_left (le_align8 o.size) lo)

theorem deserializePointer_null (h : nullable) :
    Returns P (deserializePointer root nullable (.entry (TypeCode.Q.entry 0)) a f) .null P := by
  rw [deserializePointer, toInt_pointer, if_pos Nat.cast_zero]
  exact (throwIf_returns (by simp [h])).bind (.done _)

theorem deserializeHandle_returns (hget : root.handles[i]? = some h) :
    Returns (Ready lo i) (deserializeHandle root nullable i) (some h) (Ready lo (i + 1)) := by
  rw [deserializeHandle, if_neg (by omega)]
  exact (claimHandle_returns hget).bind (.done _)

theorem deserializeHandle_null (h : nullable) :
    Returns P (deserializeHandle root nullable (-1)) none P := by
  rw [deserializeHandle, if_pos rfl]
  exact (throwIf_returns (by simp [h])).bind (.done _)

end Steps

/-! ### Reading values -/

section Reads

variable (root : RootContext) (Γ : Types) (deserialize : Deserializer) (depth : ℕ)

def Reads (t : FieldType) (v : Value) : Prop :=
  ∀ (w : Walk) (pen : Pen) (addr bit lo i : ℕ), (pen.base + addr) % t.getAlignment = 0 →
    Sees Γ w depth root.mem root.data.length root.handles pen [(⟨t.kind, addr, bit⟩, v)] lo i →
    Returns (Ready lo i)
      (deserialize t (valueOf (unpack root.mem (t.getTypeCode.map .code) (pen.base + addr)))
        (pen.base + addr)) v
      (Ready (lo + outSize Γ depth t.kind v) (i + (handles Γ depth t.kind v).length))

def ReadsField (v : Value) (d : FieldDescriptor) : Prop :=
  (d.fieldType = .boolean → ∃ b, v = .bool b) ∧
    (d.fieldType ≠ .boolean → Reads root Γ deserialize depth d.fieldType v)

end Reads

section Scalars

variable {root : RootContext} {Γ : Types} {deserialize : Deserializer} {depth : ℕ} {t : FieldType}
  {v : Value}

theorem reads_of_none (hnone : object Γ t.kind v = none) (h : ∀ w pen addr bit lo i,
      Sees Γ w depth root.mem root.data.length root.handles pen [(⟨t.kind, addr, bit⟩, v)] lo i →
      Returns (Ready lo i) (deserialize t
        (valueOf (unpack root.mem (t.getTypeCode.map .code) (pen.base + addr))) (pen.base + addr)) v
        (Ready lo (i + (handles Γ depth t.kind v).length))) :
    Reads root Γ deserialize depth t v := by
  intro w pen addr bit lo i _ hsees
  rw [outSize_of_none hnone, Nat.add_zero]
  exact h w pen addr bit lo i hsees

theorem bits_entry (typecode : TypeCode) (h : n < 256 ^ typecode.size) :
    (Encoded.entry (typecode.entry n)).bits typecode = n :=
  (accepts_entry h).2

theorem unpack_one (m : Mem) (typecode : TypeCode) (a : ℕ) :
    valueOf (unpack m ([typecode].map .code) a) =
      .entry (typecode.entry (load m a typecode.size)) := rfl

theorem reads_number (hkind : t.kind = .number typecode.size)
    (hcode : t.getTypeCode = [typecode]) (hn : n < 256 ^ typecode.size)
    (hrun : ∀ value context, deserialize t value context = pure (.number (value.bits typecode))) :
    Reads root Γ deserialize depth t (.number n) := by
  have hnone : object Γ t.kind (.number n) = none := by rw [hkind]; rfl
  refine reads_of_none hnone fun w pen addr bit lo i hsees => ?_
  have hcontent := hsees.content
  rw [hkind] at hcontent
  have hload : load root.mem (pen.base + addr) typecode.size = n := hcontent
  rw [hrun, hcode, handles_of_none hnone, unpack_one, hload, bits_entry typecode hn]
  exact .done _

theorem toInt_handle (hroot : root.Bounded) {i : ℕ} (hget : root.handles[i]? = some h) :
    (Encoded.entry (TypeCode.i.entry i)).toInt = i := by
  have hlt := (List.getElem?_eq_some_iff.mp hget).1
  have hle := hroot.handles
  refine toInt_entry rfl ?_
  simp only [TypeCode.size]
  omega

theorem toInt_noHandle : (Encoded.entry (TypeCode.i.entry encodedInvalidHandle)).toInt = -1 := by
  simp [TypeCode.entry, TypeCode.isFloat, TypeCode.isSigned, TypeCode.size, encodedInvalidHandle,
    maxUint32, Encoded.toInt]

theorem reads_handle (hroot : root.Bounded) (hkind : t.kind = .handle nullable)
    (hcode : t.getTypeCode = [.i])
    (hrun : ∀ value context, deserialize t value context =
      deserializeHandle root nullable value.toInt >>= fun h => match h with
        | some h => pure (.handle h)
        | none => pure .null) :
    Reads root Γ deserialize depth t (.handle n) := by
  have hnone : object Γ t.kind (.handle n) = none := by rw [hkind]; rfl
  have hhandles : handles Γ depth t.kind (.handle n) = [n] := handles_of_none hnone
  refine reads_of_none hnone fun w pen addr bit lo i hsees => ?_
  have hget := hsees.handle rfl hhandles
  have hcontent := hsees.content
  rw [hkind] at hcontent
  have hload : load root.mem (pen.base + addr) TypeCode.i.size = i := hcontent
  rw [hrun, hcode, hhandles, unpack_one, hload, toInt_handle hroot hget]
  exact (deserializeHandle_returns hget).bind (.done _)

theorem reads_nullHandle (hnull : nullable) (hkind : t.kind = .handle nullable)
    (hcode : t.getTypeCode = [.i])
    (hrun : ∀ value context, deserialize t value context =
      deserializeHandle root nullable value.toInt >>= fun h => match h with
        | some h => pure (.handle h)
        | none => pure .null) :
    Reads root Γ deserialize depth t .null := by
  have hnone : object Γ t.kind .null = none := by rw [hkind]; rfl
  refine reads_of_none hnone fun w pen addr bit lo i hsees => ?_
  have hcontent := hsees.content
  rw [hkind] at hcontent
  have hload : load root.mem (pen.base + addr) TypeCode.i.size = encodedInvalidHandle := hcontent
  rw [hrun, hcode, handles_of_none hnone, unpack_one, hload, toInt_noHandle]
  exact (deserializeHandle_null hnull).bind (.done _)

theorem unpack_interface (m : Mem) (nullable : Bool) (a : ℕ) :
    valueOf (unpack m ((FieldType.interface nullable).getTypeCode.map .code) a) =
      .tuple [.entry (TypeCode.i.entry (load m a 4)),
        .entry (TypeCode.I.entry (load m (a + 4) 4))] := rfl

theorem reads_interface (hroot : root.Bounded) {version : ℕ} (hversion : version < 2 ^ 32) :
    Reads root Γ (deserializeType deserialize root c) depth (.interface nullable)
      (.interface n version) := by
  have hnone : object Γ (FieldType.interface nullable).kind (.interface n version) = none := rfl
  have hhandles : handles Γ depth (FieldType.interface nullable).kind (.interface n version) =
      [n] :=
    handles_of_none hnone
  refine reads_of_none hnone fun w pen addr bit lo i hsees => ?_
  have hget := hsees.handle rfl hhandles
  obtain ⟨hhandle, hload⟩ :
      load root.mem (pen.base + addr) 4 = i ∧ load root.mem (pen.base + addr + 4) 4 = version :=
        hsees.content
  rw [unpack_interface, hhandle, hload, hhandles, deserializeType, toInt_handle hroot hget,
    bits_entry .I hversion]
  exact (deserializeHandle_returns hget).bind (.done _)

theorem reads_nullInterface (hnull : nullable) :
    Reads root Γ (deserializeType deserialize root c) depth (.interface nullable) .null := by
  have hnone : object Γ (FieldType.interface nullable).kind .null = none := rfl
  refine reads_of_none hnone fun w pen addr bit lo i hsees => ?_
  obtain ⟨hhandle, -⟩ : load root.mem (pen.base + addr) 4 = encodedInvalidHandle ∧
      load root.mem (pen.base + addr + 4) 4 = 0 := hsees.content
  rw [unpack_interface, hhandle, handles_of_none hnone, deserializeType, toInt_noHandle]
  exact (deserializeHandle_null hnull).bind (.done _)

theorem reads_nullPointer (hnull : nullable) (hkind : t.kind.isPointer)
    (hcode : t.getTypeCode = [.Q])
    (hrun : ∀ value context, deserialize t value context =
      deserializePointer root nullable value context f) :
    Reads root Γ deserialize depth t .null := by
  have hnone : object Γ t.kind .null = none := by cases t.kind <;> rfl
  refine reads_of_none hnone fun w pen addr bit lo i hsees => ?_
  have hload : load root.mem (pen.base + addr) TypeCode.Q.size = 0 := by
    have hcontent := hsees.content
    cases hk : t.kind <;> rw [hk] at hkind hcontent <;> first | cases hkind; done | exact hcontent.2
  rw [hrun, hcode, handles_of_none hnone, unpack_one, hload]
  exact deserializePointer_null hnull

theorem reads_object (hΓ : Γ.Laid)
    (hroot : root.Bounded) (hkind : t.kind.isPointer) (hslot : t.kind.isSlot)
    (hcode : t.getTypeCode = [.Q]) (ho : object Γ t.kind v = some o)
    (hrun : ∀ value context, deserialize t value context =
      deserializePointer root nullable value context f)
    (hf : ∀ lo i, lo % 8 = 0 → lo + o.size ≤ root.data.length → load root.mem lo 4 = o.size →
      load root.mem (lo + 4) 4 = o.word →
      Sees Γ (indexed (o.members.map Prod.fst)) depth root.mem root.data.length root.handles
        (.start lo o.size) o.members (lo + align8 o.size) i →
      Returns (Ready (lo + align8 o.size) i) (f o.size o.word lo) v
        (Ready (lo + align8 o.size + outSizes Γ depth o.members)
        (i + (handlesOf Γ depth o.members).length))) :
    Reads root Γ deserialize (depth + 1) t v := by
  intro w pen addr bit lo i haligned hsees
  obtain ⟨hlt, halign, hload, hat, hroom⟩ := hsees.pointer hkind ho
  have hmembers := hsees.members hΓ hslot hkind ho (flows_indexed o.members)
    fun n (hn : none = some n) => by cases hn
  have height : t.getAlignment = 8 := by rw [FieldType.getAlignment, hcode]; rfl
  have hle := le_align8 o.size
  have hload' : load root.mem (pen.base + addr) TypeCode.Q.size = lo - (pen.base + addr) := hload
  rw [height] at haligned
  rw [hrun, hcode, unpack_one, hload', outSize_succ ho, if_pos hkind, handles_succ ho,
    ← Nat.add_assoc]
  exact deserializePointer_returns hroot hlt halign haligned (object_laid hΓ hslot ho).header
    (by omega) hat.1 hat.2.1
    (hf lo i halign (by omega) hat.1 hat.2.1 hmembers)

end Scalars

/-! ### Bytes of bools -/

theorem getD_byteToBooleans (h : x ≤ fuel) (k : ℕ) :
    (byteToBooleans fuel x).getD k false = x.testBit k := by
  induction fuel generalizing x k with
  | zero =>
    obtain rfl : x = 0 := by omega
    simp [byteToBooleans]
  | succ fuel ih =>
    rw [byteToBooleans]
    by_cases hx : x = 0
    · simp [hx]
    · rw [if_neg hx]
      cases k with
      | zero => rw [getD_cons_zero, Nat.testBit_zero]
      | succ k => rw [getD_cons_succ, ih (by omega), Nat.testBit_succ]

theorem convertByteToBooleans_take (x n : ℕ) :
    (convertByteToBooleans x n).take n = (List.range n).map x.testBit := by
  refine ext_getElem ?_ fun k hk hk' => ?_
  · simp only [convertByteToBooleans, length_take, length_append, length_replicate, length_map,
      length_range]
    omega
  · rw [getElem_take, getElem_map, getElem_range, ← getD_byteToBooleans le_rfl k]
    simp only [convertByteToBooleans]
    by_cases hlt : k < (byteToBooleans x x).length
    · rw [getElem_append_left hlt, getD_eq_getElem _ _ hlt]
    · rw [getElem_append_right (by omega), getElem_replicate, getD_eq_default _ _ (by omega)]

theorem length_byteToBooleans {j : ℕ} (h : x < 2 ^ j) : (byteToBooleans fuel x).length ≤ j := by
  induction fuel generalizing x j with
  | zero => exact Nat.zero_le j
  | succ fuel ih =>
    rw [byteToBooleans]
    by_cases hx : x = 0
    · rw [if_pos hx]
      exact Nat.zero_le j
    · cases j with
      | zero => omega
      | succ j =>
        rw [if_neg hx, length_cons]
        rw [pow_succ] at h
        exact Nat.succ_le_succ (ih (by omega))

theorem convertByteToBooleans_eight (h : x < 256) :
    convertByteToBooleans x 8 = (List.range 8).map x.testBit := by
  have hlen : (byteToBooleans x x).length ≤ 8 := length_byteToBooleans h
  rw [← convertByteToBooleans_take, take_of_length_le]
  simp only [convertByteToBooleans, length_append, length_replicate]
  omega

theorem flatMap_bytes {β : Type} (f : ℕ → β) (n : ℕ) :
    ((List.range n).flatMap fun j => (List.range 8).map fun b => f (8 * j + b)) =
      (List.range (8 * n)).map f := by
  induction n with
  | zero => rfl
  | succ n ih =>
    have hsucc : List.range (n + 1) = List.range n ++ [n] := range_succ
    rw [hsucc, flatMap_append, ih, Nat.mul_succ, range_add, map_append, map_map,
      flatMap_singleton]
    rfl

/-! ### Groups -/

section Groups

variable {root : RootContext} {Γ : Types} {deserialize : Deserializer} {depth : ℕ}

theorem pastAll_base (w : Walk) (pen : Pen) (ps : List (Slot × Value)) :
    (pen.pastAll w ps).base = pen.base := by
  rw [Pen.pastAll]
  induction ps generalizing pen with
  | nil => rfl
  | cons p ps ih =>
    rw [foldl_cons, ih]
    rfl

theorem unpack_formatFrom (m : Mem) (hg : g.isValid) (index : ℕ) (groups : List FieldGroup)
    (a : ℕ) : unpack m (formatFrom index (g :: groups)) (a + index) =
      unpack m (g.getTypeCode.map .code) (a + alignUp index g.getAlignment) ++
        unpack m (formatFrom (alignUp index g.getAlignment + g.getByteSize) groups)
          (a + (alignUp index g.getAlignment + g.getByteSize)) := by
  have hpad := add_neededPadding hg index
  rw [formatFrom, unpack_append, unpack_append, unpack_pads, nil_append, size_append, size_pads,
    size_typeCode, ← Nat.add_assoc, Nat.add_assoc a index, hpad, ← Nat.add_assoc]

theorem deserializeGroup_returns (hg : g.isValid)
    (hfields : List.Forall₂ (ReadsField root Γ deserialize depth) values g.getDescriptors)
    {offset lo i : ℕ} (hmod : (pen.base + headerSize + offset) % g.getAlignment = 0)
    (hsees : Sees Γ w depth root.mem root.data.length root.handles pen
      (g.members offset values) lo i) :
    Returns (Ready lo i) (deserializeGroup deserialize g
        (valueOf (unpack root.mem (g.getTypeCode.map .code) (pen.base + headerSize + offset)))
        (pen.base + headerSize + offset)) values
      (Ready (lo + outSizes Γ depth (g.members offset values))
        (i + (handlesOf Γ depth (g.members offset values)).length)) := by
  cases g with
  | single d =>
    cases hfields with
    | cons hv hnil =>
      cases hnil
      rw [members_single] at hsees ⊢
      rw [outSizes_singleton, handlesOf_singleton]
      rw [Nat.add_assoc] at hmod ⊢
      exact (hv.2 (isValid_single hg).1 w pen _ 0 lo i hmod hsees).bind (.done _)
  | boolean ds =>
    obtain ⟨hbools, hlen, -⟩ := boolean_group (fun _ _ h => h.1) hg hfields
    have hinline : ∀ p ∈ (FieldGroup.boolean ds).members offset values, Inline Γ depth p :=
      inline_zip inline_bool hbools _
    rw [flatMap_handles_of_inline hinline, outSizes_of_inline hinline]
    have hbits : ((convertByteToBooleans (load root.mem (pen.base + headerSize + offset) 1)
        ds.length).take ds.length).map Value.bool = values := by
      rw [convertByteToBooleans_take, hbools]
      rw [hbools] at hsees
      refine ext_getElem (by simp [hlen]) fun k hk hk' => ?_
      have hkb : k < (values.map Value.toBool).length := by simpa using hk'
      obtain ⟨lo', i', hcontent⟩ := hsees.content_of_mem (mem_zip_map (f := Value.bool)
        (by simpa [FieldGroup.fields] using hk) hkb)
      have hbit : (root.mem (pen.base + headerSize + offset)).toNat.testBit k =
          (values.map Value.toBool)[k] := by
        simpa [FieldGroup.fields, Content, Field.slot, Slot.shift, testBit, ← Nat.add_assoc]
          using hcontent
      have hbyte : load root.mem (pen.base + headerSize + offset) 1 =
          (root.mem (pen.base + headerSize + offset)).toNat := by simp [load]
      simp [hbyte, hbit]
    have hrun : deserializeGroup deserialize (.boolean ds) (valueOf (unpack root.mem
        ((FieldGroup.boolean ds).getTypeCode.map .code) (pen.base + headerSize + offset)))
        (pen.base + headerSize + offset) = pure values := by
      rw [deserializeGroup, FieldGroup.getTypeCode, unpack_one, toInt_byte, Int.toNat_natCast]
      exact congrArg pure hbits
    rw [hrun]
    exact .done _

theorem deserializeGroups_returns (hvalid : ∀ g ∈ groups, g.isValid)
    (hfields : List.Forall₂ (ReadsField root Γ deserialize depth) values (descriptors groups))
    {index lo i : ℕ}
    (hsees : Sees Γ w depth root.mem root.data.length root.handles pen
      (membersFrom index groups values) lo i) :
    Returns (Ready lo i) (deserializeGroups deserialize pen.base groups
        (unpack root.mem (formatFrom index groups) (pen.base + headerSize + index))
        (headerSize + index)) values
      (Ready (lo + outSizes Γ depth (membersFrom index groups values))
        (i + (handlesOf Γ depth (membersFrom index groups values)).length)) := by
  induction groups generalizing values pen index lo i with
  | nil =>
    cases hfields
    exact .done _
  | cons g groups ih =>
    have hg := hvalid g (.head _)
    have hmod : (pen.base + headerSize + alignUp index g.getAlignment) % g.getAlignment = 0 := by
      have hbase := hsees.base
      rcases getAlignment_cases hg with ha | ha | ha | ha <;> rw [ha, headerSize, alignUp] <;> omega
    have hposition : headerSize + index + neededPaddingForAlignment (headerSize + index)
        g.getAlignment = headerSize + alignUp index g.getAlignment := by
      rw [neededPadding_header hg, Nat.add_assoc, add_neededPadding hg]
    rw [membersFrom_cons (length_getDescriptors_le hfields)] at hsees ⊢
    have hgroup := deserializeGroup_returns hg (forall₂_take_append values _ _ hfields) hmod
      hsees.append_left
    have hgroups := ih (fun g hg => hvalid g (.tail _ hg)) (forall₂_drop_append values _ _ hfields)
      hsees.append_right
    rw [pastAll_base, ← Nat.add_assoc headerSize, Nat.add_assoc lo, Nat.add_assoc i] at hgroups
    have hcodes := length_unpack_codes root.mem g.getTypeCode
      (pen.base + headerSize + alignUp index g.getAlignment)
    rw [deserializeGroups, unpack_formatFrom root.mem hg, hposition, ← hcodes, take_left, drop_left,
      ← Nat.add_assoc pen.base, outSizes_append, handlesOf_append, length_append]
    refine hgroup.bind (hgroups.bind ?_)
    rw [take_append_drop]
    exact .done _

theorem version_le {d : FieldDescriptor} (hd : d ∈ descriptors groups) :
    d.version ≤ getVersion groups := by
  obtain ⟨g, hg, hmem⟩ := mem_flatMap.mp hd
  have hgroup : d.version ≤ g.getMaxVersion := le_max_of_le' 0 (mem_map_of_mem hmem) le_rfl
  exact le_max_of_le' 0 (mem_map_of_mem hg) hgroup

theorem withDefaults_eq {version : ℕ} (hds : ∀ d ∈ ds, d.version ≤ version)
    (hlen : values.length = ds.length) :
    withDefaults version ds values = values := by
  induction ds generalizing values with
  | nil => rw [length_eq_zero_iff.mp hlen, withDefaults]
  | cons d ds ih =>
    cases values with
    | nil => cases hlen
    | cons v values =>
      rw [withDefaults, if_pos (hds d (.head _)), headD_cons, tail_cons,
        ih (fun d hd => hds d (.tail _ hd)) (Nat.succ.inj hlen)]

theorem deserializeStruct_returns (hvalid : ∀ g ∈ groups, g.isValid) {fields : List Value}
    (hfields : List.Forall₂ (ReadsField root Γ deserialize depth) fields (descriptors groups))
    {t limit i : ℕ} {cursor : Cursor} (isInitialContext : Bool)
    (hend : t + (headerSize + (getStruct groups).size) ≤ root.data.length)
    (hsize : load root.mem t 4 = headerSize + (getStruct groups).size)
    (hversion : load root.mem (t + 4) 4 = getVersion groups)
    (hsees : Sees Γ w depth root.mem root.data.length root.handles ⟨t, limit, cursor, none⟩
      (membersFrom 0 groups fields) (t + (headerSize + (getStruct groups).size)) i) :
    Returns (Ready (if isInitialContext then t else t + (headerSize + (getStruct groups).size)) i)
      (deserializeStruct deserialize root groups isInitialContext t) fields
      (Ready (t + (headerSize + (getStruct groups).size) +
        outSizes Γ depth (membersFrom 0 groups fields))
        (i + (handlesOf Γ depth (membersFrom 0 groups fields)).length)) := by
  have hgroups := deserializeGroups_returns hvalid hfields hsees
  have hunpack : unpack root.mem (getStruct groups) (t + headerSize) =
      unpack root.mem (formatFrom 0 groups) (t + headerSize) := by
    rw [getStruct, getStructFrom_eq hvalid, unpack_append, unpack_pads, append_nil]
  have hentities := unpackFrom_returns (l := t + (headerSize + (getStruct groups).size)) (i := i)
    root (getStruct groups) t headerSize (by omega)
  have hdefaults := withDefaults_eq (fun d hd => version_le hd) hfields.length_eq
  rw [hunpack] at hentities
  rw [Nat.add_zero, Nat.add_zero] at hgroups
  have hheader : unpackHeader root t = (headerSize + (getStruct groups).size,
      getVersion groups) := by
    rw [unpackHeader, hsize, hversion]
  have hall : getGroups groups (getVersion groups) = groups := if_pos le_rfl
  have hvalues := hgroups.bind
    (f := fun values => pure (withDefaults (min (getVersion groups) (getVersion groups))
    (descriptors groups) values)) (b := fields) (by
      rw [Nat.min_self, hdefaults]
      exact .done _)
  rw [deserializeStruct, hheader]
  simp only [hall]
  refine (throwIf_returns (by rw [length]; omega)).bind
    ((throwIf_returns (by rw [length]; omega)).bind ?_)
  cases isInitialContext with
  | true =>
    exact (claimMemory_returns _).bind
      (hentities.bind ((throwIf_returns (by rw [hall]; omega)).bind hvalues))
  | false => exact hentities.bind ((throwIf_returns (by rw [hall]; omega)).bind hvalues)

end Groups

end Mojo.PythonBindings
