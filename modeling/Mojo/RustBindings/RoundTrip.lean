import Mojo.RustBindings.ComputeSize
import Mojo.RustBindings.DecodeObjects

/-!
# Messages and back

`auto_serialize` puts the object of a struct at the start of a buffer of `compute_size` bytes and
encodes its fields; `deserialize` claims it there and decodes them.
-/

namespace Mojo.RustBindings

open Mojo.Memory Mojo.CppBindings Mojo.Wire Encoder

section Root

variable {Γ : Types} {depth limit name : ℕ} {fields : List Value} {o : Object}
  {parent : Kind} {m : Mem} {H : List ℕ}

theorem outSize_struct (ho : object Γ (.struct name false) (.struct fields) = some o) :
    outSize Γ (depth + 1) (.struct name false) (.struct fields) = align8 o.size +
      outSizes Γ depth o.members := by
  rw [outSize_succ ho]
  rfl

variable (hΓ : Γ.Laid) (hv : HasKind Γ domain (depth + 1) (.struct name false) (.struct fields))
include hΓ hv

theorem outSize_le_computeSize : outSize Γ (depth + 1) (.struct name false) (.struct fields) ≤
    computeSize Γ (depth + 1) (.struct name false) (.struct fields) ⟨0, false⟩ := by
  rw [computeSize_eq hΓ rfl (.inl rfl) hv]
  exact outSize_le_fullSize _ _ _

variable (ha : Always Γ (Encodable Γ limit) (depth + 1) parent (.struct name false)
  (.struct fields)) (ho : object Γ (.struct name false) (.struct fields) = some o)
include ha ho

theorem autoSerialize_done
    (hsmall : computeSize Γ (depth + 1) (.struct name false) (.struct fields) ⟨0, false⟩ < 2 ^ 64)
    (hhandles : (handles Γ (depth + 1) (.struct name false) (.struct fields)).length ≤ 2 ^ 31) :
    ∃ e, autoSerialize Γ depth name fields = .ok e ∧
      e.size = computeSize Γ (depth + 1) (.struct name false) (.struct fields) ⟨0, false⟩ ∧
      e.bytes = outSize Γ (depth + 1) (.struct name false) (.struct fields) ∧
      e.handles = handles Γ (depth + 1) (.struct name false) (.struct fields) ∧
      ObjectAt Γ e.mem (Rep Γ .onWire e.mem depth) depth o 0 0 := by
  set size := computeSize Γ (depth + 1) (.struct name false) (.struct fields) ⟨0, false⟩ with hsize
  have hmojom : (Kind.struct name false).isMojom = true := rfl
  have hlaid := object_laid hΓ rfl ho
  obtain ⟨hfits, hwords⟩ := ha.here.fits o ho
  have hroom := outSize_le_computeSize hΓ hv
  rw [outSize_struct ho, ← hsize] at hroom
  rw [handles_succ ho] at hhandles
  -- the header
  have hadd : (Encoder.new size).add o.size o.word =
      .ok (⟨0, false⟩, (Encoder.new size).begun o.size o.word) :=
    add_eq hfits hwords hlaid.header (by simp only [Encoder.new]; omega)
  have hready : machine.Ready Γ (walk Γ) depth ((Encoder.new size).begun o.size o.word) 0
      (.start 0 o.size) o.members := by
    refine ⟨⟨rfl, rfl⟩, open_object hlaid rfl ?_ ?_ ?_ ?_ ?_ (ha.here.walked o ho)⟩
    · rfl
    · intro x hx
      simp only [headerSize] at hx
      simp only [machine, begun, Encoder.new]
      rw [store_apply_of_notMem (by simp only [mem_span]; omega),
        store_apply_of_notMem (by simp only [mem_span]; omega)]
    · simp only [machine, begun, Encoder.new]
      omega
    · exact hsmall
    · simpa [machine, begun, Encoder.new] using hhandles
  -- the fields
  obtain ⟨e, hrun, hd⟩ := encode_members hΓ (encodes hΓ fun _ h => h) rfl
    (isMojom_members hΓ hmojom (by simp) ho) (dvd_of_flows (ha.here.packed o ho)) (hv.members ho)
    (ha.2 o ho) hready
  have hheader : serializedSize Γ ⟨0, false⟩ (.struct name false) (.struct fields) = o.size ∧
      headerData Γ (.struct name false) (.struct fields) = o.word := by
    cases ho
    exact ⟨rfl, rfl⟩
  refine ⟨e, ?_, hd.frame, ?_, ?_, ?_⟩
  · rw [autoSerialize, encodeNew, ← hsize, hheader.1, hheader.2, hadd, ok_bind]
    simp only
    rw [encodeValue_eq (by simp) rfl hmojom ho]
    exact hrun
  · have hnext := hd.wrote.next
    simp only [machine, begun, Encoder.new] at hnext
    rw [outSize_struct ho, hnext, Nat.zero_add]
  · have := hd.wrote.handles rfl
    simp only [machine, begun, Encoder.new, List.nil_append] at this
    rw [this, handles_succ ho]
  · obtain ⟨hfirst, hsecond⟩ := hd.wrote.header hlaid (by
      simp only [machine, begun, Encoder.new]
      have := le_align8 o.size
      omega)
    obtain ⟨hone, htwo⟩ := load_words (m := fun _ => 0) (b := 0) hfits hwords
    refine ⟨hfirst.trans hone, hsecond.trans htwo, ?_⟩
    have hrep := hd.wrote.rep 0 fun _ => rfl
    simpa [machine, begun, Encoder.new] using hrep

theorem deserialize_done (hpacked : Γ.Packed) (hlimit : limit < 2 ^ 64)
    (hroom : outSize Γ (depth + 1) (.struct name false) (.struct fields) ≤ limit)
    (hH : H = handles Γ (depth + 1) (.struct name false) (.struct fields))
    (hlen : H.length ≤ 2 ^ 31) (hat : ObjectAt Γ m (Rep Γ .onWire m depth) depth o 0 0) :
    deserialize Γ m depth name limit H = .ok (.struct fields) := by
  have hlaid := object_laid hΓ rfl ho
  have hmin i := (hpacked i).versions
  rw [outSize_struct ho] at hroom
  rw [handles_succ ho] at hH
  have hclaimed : (reader limit H).claimed (Decoder.new limit H) 0 0 := ⟨le_rfl, le_rfl, rfl, rfl⟩
  have hclaim := claim_eq hlaid hclaimed rfl (by omega) hat.1
  have hholds : (reader limit H).holds ((Decoder.new limit H).begun 0 o.size) 0
      ⟨0, o.size, ⟨0, 0⟩, none⟩ := rfl
  have hsees : Sees Γ natural depth m limit H (.start 0 o.size) o.members (0 + align8 o.size) 0 :=
    sees_members hΓ rfl ho (ha.here.packed o ho) rfl hat (by omega) ⟨[], by simp [hH]⟩
      (fun _ hn => by cases hn)
  obtain ⟨d, hrun, -⟩ := decode_struct hΓ (hmin name) (decodes hΓ hmin hlimit hlen) ho hv
    (ha.2 o ho)
    hholds hat.1 hat.2.1 ⟨Decoder.holds_after hholds _,
      ⟨Nat.add_le_add_left (le_align8 o.size) 0, le_rfl, rfl, rfl⟩, hsees⟩
  rw [deserialize, decodeNew, hclaim, ok_bind]
  simp only
  rw [show (Decoder.new limit H).states.length = 0 from rfl, hrun, ok_bind]

theorem autoSerialize_returns (hpacked : Γ.Packed)
    (hlimit : computeSize Γ (depth + 1) (.struct name false) (.struct fields) ⟨0, false⟩ = limit)
    (hsmall : limit < 2 ^ 64)
    (hhandles : (handles Γ (depth + 1) (.struct name false) (.struct fields)).length ≤ 2 ^ 31) :
    ∃ e, autoSerialize Γ depth name fields = .ok e ∧ e.size = limit ∧
      e.bytes = outSize Γ (depth + 1) (.struct name false) (.struct fields) ∧
      e.handles = handles Γ (depth + 1) (.struct name false) (.struct fields) ∧
      deserialize Γ e.mem depth name e.size e.handles = .ok (.struct fields) := by
  obtain ⟨e, hrun, hesize, hbytes, hehandles, hat⟩ :=
    autoSerialize_done hΓ hv ha ho (hlimit ▸ hsmall) hhandles
  rw [hlimit] at hesize
  refine ⟨e, hrun, hesize, hbytes, hehandles, ?_⟩
  rw [hesize]
  exact deserialize_done hΓ hv ha ho hpacked hsmall (hlimit ▸ outSize_le_computeSize hΓ hv)
    hehandles (hehandles ▸ hhandles) hat

end Root

/-- The header of the object of a member holds the object's size and its number of elements. -/
def Fits (Γ : Types) (kind : Kind) (v : Value) : Prop :=
  ∀ o, object Γ kind v = some o → o.size < 2 ^ 32 ∧ o.word < 2 ^ 32

instance decidableFits (Γ : Types) (kind : Kind) (v : Value) : Decidable (Fits Γ kind v) :=
  match ho : object Γ kind v with
  | none => isTrue (by simp [Fits, ho])
  | some o => decidable_of_iff (o.size < 2 ^ 32 ∧ o.word < 2 ^ 32) (by simp [Fits, ho])

section UnionFree

variable {Γ : Types} {depth limit name : ℕ} {kind parent : Kind} {v : Value} {fields : List Value}

theorem walk_of_isUnionFree {kind : Kind} (h : kind.isUnionFree) (v : Value) (c : Cursor) :
    NaturalAt Γ kind v c := by
  cases kind <;> first | exact ⟨rfl, rfl⟩ | cases h

theorem flows_walk {c : Cursor} {ps : List (Slot × Value)}
    (hfree : ∀ p ∈ ps, p.1.kind.isUnionFree) (h : Flows natural c ps) : Flows (walk Γ) c ps := by
  induction ps generalizing c with
  | nil => trivial
  | cons p ps ih =>
    obtain ⟨hplace, hadvance⟩ := walk_of_isUnionFree (Γ := Γ) (hfree p (.head _)) p.2 c
    rw [Flows, hplace, hadvance]
    exact ⟨h.1, h.2.1, ih (fun q hq => hfree q (.tail p hq)) h.2.2⟩

theorem encodable_of_unionFree (hΓ : Γ.Laid) (hpacked : Γ.Packed) (hfree : Γ.UnionFree)
    (hk : kind.isMojom) (hu : kind.isUnionFree) (h : Fits Γ kind v) :
    Encodable Γ limit parent kind v where
  fits := h
  walked o ho := flows_walk (isUnionFree_members hfree hu ho)
    (flows_members hpacked hΓ (Kind.isSlot_of_isMojom hk) ho)
  packed o ho := flows_members hpacked hΓ (Kind.isSlot_of_isMojom hk) ho
  supported := by
    cases kind with
    | unionPointer => cases hu
    | array elem =>
      cases elem with
      | union => cases hu
      | _ => trivial
    | _ => trivial
  near name hkind := by
    rw [hkind] at hu
    cases hu

theorem always_encodable {P : Kind → Kind → Value → Prop} (hΓ : Γ.Laid) (hpacked : Γ.Packed)
    (hfree : Γ.UnionFree) (h : Always Γ P depth parent (.struct name false) v)
    (hP : ∀ {parent kind v}, P parent kind v → Fits Γ kind v) :
    Always Γ (Encodable Γ limit) depth parent (.struct name false) v :=
  h.imp_of (I := fun kind => kind.isMojom = true ∧ kind.isUnionFree = true) ⟨rfl, rfl⟩
    (fun hk ho p hp => ⟨isMojom_members hΓ hk.1 (fun _ _ hkind => by
      rw [hkind] at hk; cases hk.2) ho p hp, isUnionFree_members hfree hk.2 ho p hp⟩)
    fun hk h => encodable_of_unionFree hΓ hpacked hfree hk.1 hk.2 (hP h)

/-- Decoding undoes encoding for values without unions whose objects have sizes and numbers of
elements that fit into their headers, with no more handles than there are indices. -/
theorem deserialize_autoSerialize (hΓ : Γ.Laid) (hpacked : Γ.Packed) (hfree : Γ.UnionFree)
    (hv : HasKind Γ domain (depth + 1) (.struct name false) (.struct fields))
    (hfits : Always Γ (fun _ => Fits Γ) (depth + 1) (.struct name false) (.struct name false)
      (.struct fields))
    (hsize : computeSize Γ (depth + 1) (.struct name false) (.struct fields) ⟨0, false⟩ < 2 ^ 64)
    (hhandles : (handles Γ (depth + 1) (.struct name false) (.struct fields)).length ≤ 2 ^ 31) :
    ∃ e, autoSerialize Γ depth name fields = .ok e ∧
      e.size = computeSize Γ (depth + 1) (.struct name false) (.struct fields) ⟨0, false⟩ ∧
      e.bytes = e.size ∧
      e.handles = handles Γ (depth + 1) (.struct name false) (.struct fields) ∧
      deserialize Γ e.mem depth name e.size e.handles = .ok (.struct fields) := by
  obtain ⟨e, hrun, hesize, hbytes, hreturns⟩ := autoSerialize_returns hΓ hv
    (always_encodable hΓ hpacked hfree hfits id) rfl hpacked rfl hsize hhandles
  have hexact : outSize Γ (depth + 1) (.struct name false) (.struct fields) =
      computeSize Γ (depth + 1) (.struct name false) (.struct fields) ⟨0, false⟩ := by
    rw [computeSize_eq hΓ rfl (.inl rfl) hv]
    refine outSize_eq_fullSize (hfits.imp_of (I := fun kind => kind.isUnionFree = true) rfl
      (fun hk ho => isUnionFree_members hfree hk ho) fun hk _ name nullable hkind => ?_)
    rw [hkind] at hk
    cases hk
  exact ⟨e, hrun, hesize, by rw [hbytes, hesize, hexact], hreturns⟩

end UnionFree

def recordTypes : Types where
  struct _ := ⟨[⟨0, 40⟩], [⟨.array .bool 0 false, 0, 0, 0⟩, ⟨.struct 0 true, 8, 0, 0⟩,
    ⟨.map (.number 1) (.number 2) false, 16, 0, 0⟩, ⟨.handle true, 24, 0, 0⟩, ⟨.bool, 28, 0, 0⟩]⟩
  union _ := ⟨[]⟩

def twoRecords : List Value :=
  [.array [.bool true, .bool false], .struct [.array [], .null, .map [] [], .null, .bool false],
    .map [.number 1] [.number 500], .handle 7, .bool true]

theorem recordTypes_laid : recordTypes.Laid where
  struct _ :=
    { kinds := by simp [recordTypes, Kind.isMojom]
      inside := by simp [recordTypes, Kind.size, headerSize, StructType.last]
      apart := by simp [recordTypes, Kind.size]
      bits := by simp [recordTypes]
      header := by simp [recordTypes, headerSize, StructType.last]
      aligned := by simp [recordTypes, StructType.last]
      size := by simp [recordTypes, StructType.last]
      version := by simp [recordTypes, StructType.last] }
  union _ := by simp [recordTypes]
  tags _ := by simp [recordTypes]

theorem recordTypes_packed : recordTypes.Packed := fun _ =>
  { flows := by
      simp [recordTypes, Flows, natural, Field.slot, Kind.alignment, Kind.size, alignUp,
        Cursor.toByte, headerSize]
    versions := by simp [recordTypes] }

theorem deserialize_autoSerialize_two_records :
    ∃ e, autoSerialize recordTypes 3 0 twoRecords = .ok e ∧
      e.size = computeSize recordTypes 4 (.struct 0 false) (.struct twoRecords) ⟨0, false⟩ ∧
      e.bytes = e.size ∧ e.handles = handles recordTypes 4 (.struct 0 false) (.struct twoRecords) ∧
      deserialize recordTypes e.mem 3 0 e.size e.handles = .ok (.struct twoRecords) := by
  refine deserialize_autoSerialize recordTypes_laid recordTypes_packed ?_ ?_ (by decide) (by decide)
    (by decide)
  · simp [Types.UnionFree, recordTypes, Kind.isUnionFree]
  · simp [HasKind, recordTypes, twoRecords, domain, Kind.isNullable]

def bytesTypes : Types where
  struct _ := ⟨[⟨0, 16⟩], [⟨.array (.number 1) 0 false, 0, 0, 0⟩]⟩
  union _ := ⟨[]⟩

theorem Encoder.add_mod {e : Encoder} {size word : ℕ} :
    e.add size word = e.add (size % 2 ^ 32) (word % 2 ^ 32) := by
  simp [add]

theorem autoSerialize_of_overflow {n : ℕ} {vs : List Value}
    (h : (Value.number n :: vs).length = 2 ^ 32) :
    autoSerialize bytesTypes 1 0 [.array (.number n :: vs)] = .error .outside := by
  set size := computeSize bytesTypes 2 (.struct 0 false) (.struct [.array (.number n :: vs)])
    ⟨0, false⟩ with hsize
  have hserialized : serializedSize bytesTypes ⟨0, false⟩ (.array (.number 1) 0 false)
      (.array (.number n :: vs)) = 8 + 2 ^ 32 := by
    rw [serializedSize, h]
    rfl
  have hle : 24 ≤ size := by
    have hsum : size = alignDefault 16 + (alignDefault (8 + 2 ^ 32) +
        ((Value.number n :: vs).map fun v => computeSize bytesTypes 0 (.number 1) v ⟨0, false⟩).sum
          + 0) := by
      rw [hsize, ← hserialized]
      rfl
    simp only [alignDefault, alignBytes] at hsum
    omega
  -- the struct
  have hroot : (Encoder.new size).add 16 0 = .ok (⟨0, false⟩, (Encoder.new size).begun 16 0) :=
    add_eq (by decide) (by decide) (by decide) (by simp only [Encoder.new, align8]; omega)
  set e := (Encoder.new size).begun 16 0 with he
  -- the pointer and the header of the vector
  have hpointer : e.update ⟨0, false⟩ (EncodingState.encodePointer 16) =
      .ok (e.after 0 ⟨0, 16, ⟨16, 0⟩, none⟩ (store e.mem 8 8 8) e.handles) := by
    have hholds : machine.holds e (Context.id ⟨0, false⟩) ⟨0, 16, ⟨8, 0⟩, none⟩ := ⟨rfl, rfl⟩
    have hact : EncodingState.encodePointer 16 (.of ⟨0, 16, ⟨8, 0⟩, none⟩) e.mem =
        .ok (.of ⟨0, 16, ⟨16, 0⟩, none⟩, store e.mem 8 8 8) :=
      EncodingState.encodePointer_of (a := 8) (by decide) (by decide) (by decide)
    exact update_of hholds e.handles hact
  set e₁ := e.after 0 ⟨0, 16, ⟨16, 0⟩, none⟩ (store e.mem 8 8 8) e.handles with he₁
  have hadd : e₁.add (8 + 2 ^ 32) (2 ^ 32) = .ok (⟨1, false⟩, e₁.begun 8 0) := by
    rw [add_mod]
    exact add_eq (by decide) (by decide) (by decide)
      (by simp only [he₁, he, after, begun, Encoder.new, align8]; omega)
  -- the first byte
  have hwrite : (e₁.begun 8 0).update ⟨1, false⟩ (EncodingState.encode 1 n) = .error .outside := by
    simp only [update, he₁, he, after, begun, Encoder.new]
    rfl
  rw [autoSerialize, encodeNew, ← hsize]
  change ((Encoder.new size).add 16 0 >>= _) = _
  rw [hroot, ok_bind]
  simp only [encodeValue, bytesTypes, List.map_cons, List.map_nil, List.zip_cons_cons, forEach,
    encode, encodeNew]
  change ((e.update ⟨0, false⟩ (EncodingState.encodePointer 16) >>= _) >>= _) = _
  rw [hpointer, ok_bind]
  change ((e₁.add (serializedSize bytesTypes ⟨0, false⟩ (.array (.number 1) 0 false)
    (.array (.number n :: vs))) (List.length (Value.number n :: vs)) >>= _) >>= _) = _
  rw [hserialized, h, hadd, ok_bind, hwrite]
  rfl

theorem autoSerialize_outside : bytesTypes.Laid ∧ bytesTypes.Packed ∧ bytesTypes.UnionFree ∧
      HasKind bytesTypes domain 2 (.struct 0 false)
        (.struct [.array (List.replicate (2 ^ 32) (.number 0))]) ∧
      autoSerialize bytesTypes 1 0 [.array (List.replicate (2 ^ 32) (.number 0))] =
        .error .outside := by
  refine ⟨?_, ?_, ?_, ?_, ?_⟩
  · constructor
    · intro _
      constructor <;> simp [bytesTypes, Kind.isMojom, Kind.size, headerSize, StructType.last]
    · simp [bytesTypes]
    · simp [bytesTypes]
  · intro _
    constructor <;> simp [bytesTypes, Flows, natural, Field.slot, Kind.alignment, alignUp,
      Cursor.toByte, headerSize]
  · simp [Types.UnionFree, bytesTypes, Kind.isUnionFree]
  · simp only [HasKind, bytesTypes, List.forall₂_cons, List.forall₂_nil_left_iff, and_true]
    refine ⟨fun hcount => absurd rfl hcount, fun v hv => ?_⟩
    obtain rfl := List.eq_of_mem_replicate hv
    simp [HasKind]
  · rw [show (2 : ℕ) ^ 32 = 2 ^ 32 - 1 + 1 from rfl, List.replicate_succ]
    exact autoSerialize_of_overflow (by rw [List.length_cons, List.length_replicate]; rfl)

end Mojo.RustBindings
