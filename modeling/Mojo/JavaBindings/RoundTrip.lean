import Mojo.JavaBindings.DecodeValues
import Mojo.JavaBindings.DecodeSafety
import Mojo.Wire.HandleCount
import Mathlib.Algebra.Order.BigOperators.Group.List

/-!
# Messages and back, in Java

`serialize` writes a struct or a union into a buffer that grows, and `deserialize` reads it again.
On a little-endian host, or if the first buffer is large enough, the value that is read is the one
that was written, as long as 7 can be added to the length of every `boolean[]`.
-/

namespace Mojo.CppBindings

/-- Versions and tags are literals of type `int`, and the newest version has all fields. -/
structure Types.IntSized (Γ : Types) : Prop where
  version : ∀ i, (Γ.struct i).last.version < 2 ^ 31
  tags : ∀ i, (Γ.union i).fields.length ≤ 2 ^ 31
  fields : ∀ i, ∀ f ∈ (Γ.struct i).fields, f.minVersion ≤ (Γ.struct i).last.version

end Mojo.CppBindings

namespace Mojo.JavaBindings

open Mojo.Memory Mojo.Wire Mojo.CppBindings Mojo.System List

variable {D : Domain}

section Fits

variable {Γ : Types} {depth : ℕ} {parent kind : Kind} {v : Value} {o : Object}

theorem word_lt (hints : Γ.IntSized) (hk : kind.isSlot) (hshort : ShortBools kind v)
    (ho : object Γ kind v = some o) (hsize : o.size < 2 ^ 30) : o.word < 2 ^ 31 := by
  cases objectOf ho with
  | string nullable bytes =>
    simp only at hsize ⊢
    omega
  | array elem count nullable elems =>
    simp only at hsize ⊢
    by_cases helem : elem = .bool
    · subst helem
      simp only [ShortBools, boolCount] at hshort
      omega
    · rw [elementBytes_of_ne helem] at hsize
      have hpos : 0 < elem.size := size_pos (Kind.isSlot_of_isMojom hk)
      have hle : elems.length ≤ elem.size * elems.length := Nat.le_mul_of_pos_left _ hpos
      omega
  | map key value nullable keys values => exact Nat.two_pow_pos 31
  | struct name nullable fields => exact hints.version name
  | union name nullable tag field active hactive
  | unionPointer name nullable tag field active hactive =>
    have hlt : tag < (Γ.union name).fields.length := (List.getElem?_eq_some_iff.mp hactive).1
    have := hints.tags name
    simp only
    omega

theorem always_fits (hΓ : Γ.Laid) (hints : Γ.IntSized) (hk : kind.isSlot)
    (hv : HasKind Γ D depth kind v) (hshort : Always Γ (fun _ => ShortBools) depth parent kind v)
    (hsize : outSize Γ depth kind v < 2 ^ 30) : Always Γ (Fits Γ) depth parent kind v := by
  induction depth generalizing parent kind v with
  | zero =>
    refine ⟨fun o ho => ?_, hshort⟩
    rw [hasKind_zero hv] at ho
    cases ho
  | succ depth ih =>
    refine ⟨⟨fun o ho => ?_, hshort.1⟩, fun o ho p hp => ?_⟩
    · have hsmall : o.size < 2 ^ 30 := by
        by_cases hp : kind.isPointer = true
        · rw [outSize_succ ho, if_pos hp] at hsize
          have := le_align8 o.size
          omega
        · obtain ⟨name, nullable, tag, field, hkind, rfl⟩ := union_of_inline ho hp
          rw [hkind] at ho
          obtain ⟨active, -, rfl⟩ := Option.map_eq_some_iff.mp ho
          simp only [unionSize]
          omega
      exact ⟨hsmall, word_lt hints hk hshort.1 ho hsmall⟩
    · have hmember : outSize Γ depth p.1.kind p.2 ≤ outSizes Γ depth o.members :=
        single_le_sum (fun _ _ => Nat.zero_le _) _ (mem_map_of_mem hp)
      rw [outSize_succ ho] at hsize
      exact ih ((object_laid hΓ hk ho).kinds p hp) (hv.members ho p hp) (hshort.2 o ho p hp)
        (by omega)

end Fits

section Root

variable {Γ : Types} {native : ByteOrder} {sizeHint : ℤ} {depth name total : ℕ}

theorem inv_new (hnative : native = .little ∨ total ≤ (EncoderState.new native sizeHint).capacity) :
    Inv total [] (EncoderState.new native sizeHint) where
  order := rfl
  native := hnative
  start := le_rfl
  fits := Int.natCast_nonneg _
  pos := by
    simp only [EncoderState.new]
    split <;> omega
  beyond _ _ := rfl
  sizes := rfl
  tiles := rfl

variable {kind : Kind} {v : Value}

theorem objectSizes_mod {n : ℕ} (h : n ∈ objectSizes Γ depth kind v) : n % 8 = 0 := by
  induction depth generalizing kind v with
  | zero => cases h
  | succ depth ih =>
    cases ho : object Γ kind v with
    | none =>
      rw [objectSizes_of_none ho] at h
      cases h
    | some o =>
      rw [objectSizes_succ ho, mem_append, mem_flatMap] at h
      rcases h with h | ⟨p, -, hn⟩
      · split at h
        · rw [mem_singleton.mp h]
          exact align8_mod _
        · cases h
      · exact ih hn

theorem Tiles.regions {lo hi : ℤ} {cs : List (ℤ × ℤ)} (h : Tiles lo cs hi) (hlo : lo % 8 = 0)
    (hsizes : ∀ c ∈ cs, 0 ≤ c.2 ∧ c.2 % 8 = 0) :
    lo ≤ hi ∧ (∀ c ∈ cs, lo ≤ c.1 ∧ c.1 % 8 = 0 ∧ c.2 % 8 = 0 ∧ c.1 + c.2 ≤ hi) ∧
      cs.Pairwise fun c d => c.1 + c.2 ≤ d.1 := by
  induction cs generalizing lo with
  | nil =>
    obtain rfl : lo = hi := h
    exact ⟨le_rfl, fun c hc => absurd hc not_mem_nil, List.Pairwise.nil⟩
  | cons c cs ih =>
    obtain ⟨rfl, htail⟩ := h
    obtain ⟨hpos, hmod⟩ := hsizes c (.head _)
    obtain ⟨hle, hall, hpairs⟩ := ih htail (by omega) fun d hd => hsizes d (.tail c hd)
    refine ⟨by omega, fun d hd => ?_, pairwise_cons.mpr ⟨fun d hd => (hall d hd).1, hpairs⟩⟩
    rcases hd with _ | ⟨_, hd⟩
    · exact ⟨le_rfl, hlo, hmod, hle⟩
    · obtain ⟨hstart, hrest⟩ := hall d hd
      exact ⟨by omega, hrest⟩

/-- What a state holds when a message has been written. Every object has a claim of its own. -/
structure Archived (Γ : Types) (depth : ℕ) (kind : Kind) (v : Value) (s : EncoderState) : Prop where
  size : s.dataEnd = (outSize Γ (depth + 1) kind v : ℕ)
  handles : s.handles = handles Γ (depth + 1) kind v
  sizes : s.claims.map Prod.snd = (objectSizes Γ (depth + 1) kind v).map fun n : ℕ => (n : ℤ)
  aligned : ∀ c ∈ s.claims, c.1 % 8 = 0 ∧ c.2 % 8 = 0 ∧ c.1 + c.2 ≤ s.dataEnd
  apart : s.claims.Pairwise fun c d => c.1 + c.2 ≤ d.1
  tiles : Tiles 0 s.claims s.dataEnd
  object : ∃ o, object Γ kind v = some o ∧ ObjectAt Γ s.mem (Rep Γ .onWire s.mem depth) depth o 0 0

theorem archived_of_put {o : Object} {s : EncoderState} {L : List ℕ}
    (hΓ : Γ.Laid) (hD : D.Words) (hp : kind.isPointer) (hk : kind.isSlot)
    (ho : Wire.object Γ kind v = some o) (hv : HasKind Γ D (depth + 1) kind v)
    (ha : Always Γ (Fits Γ) (depth + 1) kind kind v) (hs : Inv total L s)
    (hL : L = objectSizes Γ (depth + 1) kind v)
    (hopen : Open Γ (indexed (o.members.map Prod.fst)) depth (View.root o) total (.start 0 o.size)
      o.members)
    (hview : s.view = putAll Γ depth 0 o.members (View.root o)) : Archived Γ depth kind v s := by
  obtain ⟨hsize, hword⟩ := ha.here.object o ho
  have hsized : ∀ p ∈ o.members, Always Γ (Sized Γ) depth kind p.1.kind p.2 :=
    fun p hp => (ha.2 o ho p hp).mono fun hfits => hfits.sized
  have hwrote := putAll_wrote hΓ hD (hv.members ho) hsized hopen
  rw [← hview] at hwrote
  obtain ⟨hnext, hhandles, hat⟩ := hwrote.root (object_laid hΓ hk ho) (by omega) (by omega)
  have hregions := hs.tiles.regions rfl fun c hc => by
    have hmem : c.2 ∈ s.claims.map Prod.snd := mem_map_of_mem hc
    rw [hs.sizes, hL] at hmem
    obtain ⟨n, hn, hcast⟩ := mem_map.mp hmem
    have := objectSizes_mod hn
    omega
  constructor
  · rw [← hs.next, hnext, outSize_succ ho, if_pos hp]
  · rw [handles_succ ho]
    exact hhandles
  · rw [← hL]
    exact hs.sizes
  · exact fun c hc => (hregions.2.1 c hc).2
  · exact hregions.2.2
  · exact hs.tiles
  · exact ⟨o, ho, hat⟩

theorem open_of_hasKind {o : Object} (hΓ : Γ.Laid)
    (hk : kind.isSlot) (hp : kind.isPointer) (ho : object Γ kind v = some o)
    (hv : HasKind Γ D (depth + 1) kind v) (hsize : outSize Γ (depth + 1) kind v < 2 ^ 30) :
    Open Γ (indexed (o.members.map Prod.fst)) depth (View.root o) (outSize Γ (depth + 1) kind v)
      (.start 0 o.size) o.members := by
  have hlaid := object_laid hΓ hk ho
  have hhandles := length_flatMap_handles_le hlaid.apart hlaid.inside
    fun p hp => length_handles_le hΓ (hlaid.kinds p hp) (hv.members ho p hp)
  have hle := le_align8 o.size
  rw [outSize_succ ho, if_pos hp] at hsize ⊢
  exact open_root hlaid le_rfl (by omega) (by omega)

theorem serialize_archived {fields : List Value} (hΓ : Γ.Laid) (hD : D.Words) (hD' : D.Valid)
    (hv : HasKind Γ D (depth + 1) (.struct name false) (.struct fields))
    (ha : Always Γ (Fits Γ) (depth + 1) (.struct name false) (.struct name false) (.struct fields))
    (hsize : outSize Γ (depth + 1) (.struct name false) (.struct fields) < 2 ^ 30)
    (hnative : native = .little ∨ outSize Γ (depth + 1) (.struct name false) (.struct fields) ≤
      (EncoderState.new native sizeHint).capacity) :
    ∃ s, serialize Γ native sizeHint (depth + 1) name fields = .ok s ∧
      Archived Γ depth (.struct name false) (.struct fields) s := by
  have ho : object Γ (.struct name false) (.struct fields) = some ⟨(Γ.struct name).last.numBytes,
    (Γ.struct name).last.version, ((Γ.struct name).fields.map fun f => f.slot 0).zip fields⟩ := rfl
  have hopen := open_of_hasKind hΓ rfl rfl ho hv hsize
  have hroom := hopen.room
  have hword := (ha.here.object _ ho).2
  obtain ⟨s₁, hinv, hview, hbegin⟩ := getEncoderAtDataOffset_eq (inv_new hnative) hsize
    (hΓ.struct name).header hword (by
      simp only [EncoderState.view, EncoderState.new, Int.toNat_zero, View.root] at hroom ⊢
      omega)
  have hroot : s₁.view = View.root ⟨(Γ.struct name).last.numBytes, (Γ.struct name).last.version,
      ((Γ.struct name).fields.map fun f => f.slot 0).zip fields⟩ := by
    rw [hview]
    simp [EncoderState.view, EncoderState.new, View.root]
  rw [← hroot] at hopen
  obtain ⟨s, hrun, hput, hs⟩ := members_put (t := 0)
    (f := fun p => encode Γ (depth + 1) p.1.kind p.2 (0 : ℕ) p.1.addr p.1.bit) hΓ hD (hv.members ho)
      (ha.2 _ ho)
    (fun p hp s L cursor left hs hopen =>
      encode_writes hΓ hD hD' hsize depth (hv.members ho p hp) (ha.2 _ ho p hp) hs hopen) hinv hopen
  rw [hroot] at hput hopen
  refine ⟨s, ?_, archived_of_put hΓ hD rfl rfl ho hv ha hs ?_ hopen hput⟩
  · rw [zip_map_left, forEach_map] at hrun
    rw [serialize, encodeStruct]
    exact (hbegin _).trans hrun
  · rw [objectSizes_succ ho]
    rfl

theorem serializeUnion_archived {tag : ℕ} {field : Value} (hΓ : Γ.Laid) (hD : D.Words)
    (hD' : D.Valid) (hv : HasKind Γ D (depth + 1) (.unionPointer name false) (.union tag field))
    (ha : Always Γ (Fits Γ) (depth + 1) (.unionPointer name false) (.unionPointer name false)
      (.union tag field))
    (hsize : outSize Γ (depth + 1) (.unionPointer name false) (.union tag field) < 2 ^ 30)
    (hnative : native = .little ∨
      outSize Γ (depth + 1) (.unionPointer name false) (.union tag field) ≤
      (EncoderState.new native sizeHint).capacity) :
    ∃ s, serializeUnion Γ native sizeHint (depth + 1) name tag field = .ok s ∧
      Archived Γ depth (.unionPointer name false) (.union tag field) s := by
  obtain ⟨kind, hactive, hkind, ho⟩ := active_of_hasKind (.inr rfl) hv
  have hopen := open_of_hasKind hΓ rfl rfl ho hv hsize
  have hroom := hopen.room
  simp only [View.root] at hroom
  obtain ⟨hview, hclaim⟩ := claimMemory_eq (inv_new hnative) (align8 unionSize)
    (by simp only [EncoderState.view, EncoderState.new, Int.toNat_zero]; omega) hsize
  set s₀ := (EncoderState.new native sizeHint).claimMemory (align8 unionSize : ℕ) with hs₀
  have hnext : s₀.view.next = 16 := by
    rw [hview]
    rfl
  obtain ⟨hrun, hinv⟩ := encodeUnion_eq (encode Γ (depth + 1)) field 0 0 hactive hclaim (by omega)
    (by omega)
  have hroot : (s₀.put (store (store s₀.view.mem (0 + 0) 4 unionSize) (0 + 0 + 4) 4 tag)
      s₀.view.handles).view = View.root ⟨unionSize, tag, [(⟨kind.inUnion, 8, 0⟩, field)]⟩ := by
    rw [EncoderState.view_put, hview]
    simp [EncoderState.view, EncoderState.new, View.root]
  rw [← hroot] at hopen
  obtain ⟨s, hrun', hput, hs⟩ :=
    encode_writes hΓ hD hD' hsize depth (q := ⟨kind.inUnion, 8, 0⟩) hkind
    (ha.2 _ ho _ (.head _)) hinv hopen
  rw [hroot] at hput hopen
  refine ⟨s, hrun.trans hrun', archived_of_put hΓ hD rfl rfl ho hv ha hs ?_ hopen hput⟩
  rw [objectSizes_succ ho]
  simp [Kind.isPointer]

end Root

structure IsMessage (s : EncoderState) (msg : Message) : Prop where
  data : msg.data = s.mem
  limit : msg.limit = s.dataEnd
  handles : msg.handles = s.handles

section Back

variable {c : Context} {depth name : ℕ} {s : EncoderState}

theorem Archived.target {kind : Kind} {v : Value} {size word : ℕ} {members : List (Slot × Value)}
    (h : Archived c.types depth kind v s) (hmsg : IsMessage s c.message) (hΓ : c.types.Laid)
    (hk : kind.isSlot)
    (hp : kind.isPointer) (ho : Wire.object c.types kind v = some ⟨size, word, members⟩)
    (hsmall : word < 2 ^ 31) : Target c depth 0 0 size word members := by
  obtain ⟨o, ho', hat⟩ := h.object
  obtain rfl := Option.some.inj (ho.symm.trans ho')
  have hsize := h.size
  rw [outSize_succ ho, if_pos hp] at hsize
  have hlimit := hmsg.limit
  rw [← hmsg.data] at hat
  have hroom : 0 + align8 size + outSizes c.types depth members ≤ c.message.limit := by
    simp only at hsize
    omega
  refine ⟨rfl, (object_laid hΓ hk ho).header, hat.1, hat.2.1, hroom, hsmall, ?_⟩
  refine sees_members hΓ hk ho (flows_indexed members) rfl hat hroom ⟨[], ?_⟩
    fun n (hn : none = some n) => by cases hn
  rw [hmsg.handles, h.handles, handles_succ ho, drop_zero, append_nil]

theorem decode_reads_domain (hΓ : c.types.Laid) (hints : c.types.IntSized) (depth : ℕ) :
    Reads c (domain c.newString) depth (decode c (depth + 1)) :=
  decode_reads hΓ hints.fields (fun _ h => h) (fun _ h => h) depth

theorem ready_new : Ready 0 0 Validator.new := ⟨le_rfl, le_rfl⟩

theorem deserialize_archived {fields : List Value} (hΓ : c.types.Laid) (hints : c.types.IntSized)
    (hv : HasKind c.types (domain c.newString) (depth + 1) (.struct name false) (.struct fields))
    (ha : Always c.types (Fits c.types) (depth + 1) (.struct name false) (.struct name false)
      (.struct fields))
    (h : Archived c.types depth (.struct name false) (.struct fields) s)
    (hmsg : IsMessage s c.message) :
    ∃ validator, deserialize c (depth + 1) name = .ok (.struct fields) validator := by
  have ht := h.target hmsg hΓ rfl rfl rfl (ha.here.object _ rfl).2
  obtain ⟨validator, hrun, -⟩ :=
    decodeStruct_returns hΓ hints.fields (decode_reads_domain hΓ hints depth)
    hv ha ht .new ready_new
  exact ⟨validator, hrun⟩

theorem deserializeUnion_archived {tag : ℕ} {field : Value} (hΓ : c.types.Laid)
    (hints : c.types.IntSized)
    (hv : HasKind c.types (domain c.newString) (depth + 1) (.unionPointer name false)
      (.union tag field))
    (ha : Always c.types (Fits c.types) (depth + 1) (.unionPointer name false)
      (.unionPointer name false) (.union tag field))
    (h : Archived c.types depth (.unionPointer name false) (.union tag field) s)
    (hmsg : IsMessage s c.message) :
    ∃ validator, deserializeUnion c (depth + 1) name = .ok (.union tag field) validator := by
  obtain ⟨kind, hactive, hkind, ho⟩ := active_of_hasKind (.inr rfl) hv
  have hsmall := (ha.here.object _ ho).2
  have ht := h.target hmsg hΓ rfl rfl ho hsmall
  have hinside := ht.inside
  simp only [unionSize] at hinside
  have hgives := decode_reads_domain hΓ hints depth ⟨hkind, ha.2 _ ho _ (.head _),
    isSlot_inUnion (isMojom_of_active hΓ hactive), ht.inside, ht.sees⟩
  have hclaim : Returns (Ready 0 0) (claimMemory c.message (0 : ℕ) (unionSize : ℕ)) ()
      (Ready (align8 unionSize) 0) :=
        claimMemory_returns rfl (by decide) (by simp only [unionSize]; omega)
  have hunion := decodeUnion_returns (t := 0) (k := 0) (by omega) ht.first ht.second hsmall
    hactive hgives
  have hread : Returns (Ready 0 0) (do
      claimMemory c.message (0 : ℕ) (unionSize : ℕ)
      decodeUnion c (decode c (depth + 1)) name (0 : ℕ) (0 : ℕ)) (.union tag field) _ :=
    hclaim.bind (hunion.pre (Ready.mono (Nat.le_add_left _ 0) le_rfl))
  obtain ⟨validator, hrun, -⟩ := hread .new ready_new
  exact ⟨validator, hrun⟩

end Back

section Accepted

variable {Γ : Types} {depth : ℕ} {parent kind elem : Kind} {v : Value} {elems : List Value}

/-- An encoder that comes to its end, from some state. -/
def Accepted (e : Encoding) : Prop := ∃ s s', e s = .ok s'

theorem Accepted.of_bind {e e' : Encoding} (h : Accepted fun s => e s >>= e') :
    Accepted e ∧ Accepted e' := by
  obtain ⟨s, s', h⟩ := h
  obtain ⟨s₁, hfirst, hsecond⟩ := bind_eq_ok.mp h
  exact ⟨⟨s, s₁, hfirst⟩, s₁, s', hsecond⟩

theorem Accepted.of_forEach {α : Type} {f : α → Encoding} {xs : List α}
    (h : Accepted (forEach f xs)) : ∀ x ∈ xs, Accepted (f x) := by
  induction xs with
  | nil => exact fun x hx => absurd hx not_mem_nil
  | cons x xs ih =>
    obtain ⟨hhead, htail⟩ := Accepted.of_bind h
    exact forall_mem_cons.mpr ⟨hhead, ih htail⟩

variable {body : ℤ → Encoding}

theorem Accepted.of_header {header : DataHeader}
    (h : Accepted (getEncoderAtDataOffset header body)) : ∃ base, Accepted (body base) := by
  obtain ⟨s, s', h⟩ := h
  obtain ⟨s₁, -, hbody⟩ := bind_eq_ok.mp h
  exact ⟨s.dataEnd, s₁, s', hbody⟩

variable {base offset expectedLength : ℤ}

theorem Accepted.of_array {size length : ℤ}
    (h : Accepted (encoderForArray base size length offset expectedLength body)) :
    ∃ base, Accepted (body base) :=
  Accepted.of_header (Accepted.of_bind (Accepted.of_bind h).2).2

theorem tdiv_neg_of_overflow {n : ℕ} (h : 2 ^ 31 ≤ n + 7) (hint : n < 2 ^ 31) :
    (int ((n : ℤ) + 7)).tdiv 8 < 0 := by
  rw [int_of_large (by omega) (by omega),
    show (n : ℤ) + 7 - 2 ^ 32 = -(2 ^ 32 - 7 - n) by omega, Int.neg_tdiv,
    Int.tdiv_eq_ediv_of_nonneg (by omega)]
  omega

theorem Accepted.short {bits : List Bool}
    (h : Accepted (encodeBooleans base bits offset expectedLength)) (hint : bits.length < 2 ^ 31) :
    bits.length + 7 < 2 ^ 31 := by
  obtain ⟨s, s', hrun⟩ := (Accepted.of_bind h).2
  by_contra hlarge
  simp only at hrun
  rw [if_pos (tdiv_neg_of_overflow (by omega) hint)] at hrun
  cases hrun

/-- If the length of a `boolean[]` is an `int`, so is its sum with 7. -/
def Counted (_ kind : Kind) (v : Value) : Prop := boolCount kind v < 2 ^ 31 → ShortBools kind v

theorem counted_of_zero (h : boolCount kind v = 0) : Counted parent kind v := by
  intro _
  rw [ShortBools, h]
  decide

theorem always_counted_of_none (h : object Γ kind v = none) :
    Always Γ Counted depth parent kind v := by
  have hcount : Counted parent kind v := by
    refine counted_of_zero ?_
    unfold boolCount
    split
    · cases h
    · rfl
  cases depth with
  | zero => exact hcount
  | succ depth => exact ⟨hcount, fun o ho => by rw [h] at ho; cases ho⟩

variable {nullable : Bool}

theorem encodeArray_counted {count : ℕ}
    (ih : ∀ {kind v base offset bit}, Accepted (encode Γ depth kind v base offset bit) →
      ∀ parent, Always Γ Counted depth parent kind v)
    (h : Accepted (encodeArray (encode Γ depth) elem elems expectedLength base offset)) :
    Always Γ Counted (depth + 1) parent (.array elem count nullable) (.array elems) := by
  have hmembers (hall : ∀ v ∈ elems, Always Γ Counted depth (.array elem count nullable) elem v) :
      ∀ o, object Γ (.array elem count nullable) (.array elems) = some o → ∀ p ∈ o.members,
        Always Γ Counted depth (.array elem count nullable) p.1.kind p.2 := by
    intro o ho p hp
    obtain rfl := Option.some.inj ho
    obtain ⟨i, -, hslot⟩ := mem_elementSlots (of_mem_zip hp).1
    rw [hslot, elementSlot_kind]
    exact hall _ (of_mem_zip hp).2
  cases elem with
  | bool =>
    refine ⟨fun hint => ?_, hmembers fun v _ => always_counted_of_none rfl⟩
    have hshort := h.short (by rw [length_map]; exact hint)
    rw [length_map] at hshort
    exact hshort
  | number | handle | interface =>
    exact ⟨counted_of_zero rfl, hmembers fun v _ => always_counted_of_none rfl⟩
  | string | array | map | struct | union | unionPointer =>
    refine ⟨counted_of_zero rfl, hmembers fun v hv => ?_⟩
    obtain ⟨base', hbody⟩ := Accepted.of_array h
    obtain ⟨i, hi⟩ := mem_iff_getElem?.mp hv
    exact ih (hbody.of_forEach (v, i) (mk_mem_zipIdx_iff_getElem?.mpr hi)) _

theorem encodeStruct_counted {name : ℕ} {fields : List Value}
    (ih : ∀ {kind v base offset bit}, Accepted (encode Γ depth kind v base offset bit) →
      ∀ parent, Always Γ Counted depth parent kind v)
    (h : Accepted (encodeStruct Γ (encode Γ depth) name fields)) :
    Always Γ Counted (depth + 1) parent (.struct name nullable) (.struct fields) := by
  refine ⟨counted_of_zero rfl, fun o ho p hp => ?_⟩
  obtain rfl := Option.some.inj ho
  rw [encodeStruct] at h
  obtain ⟨base, hbody⟩ := h.of_header
  rw [zip_map_left] at hp
  obtain ⟨x, hx, rfl⟩ := mem_map.mp hp
  exact ih (hbody.of_forEach x hx) _

theorem Accepted.of_union {name tag : ℕ} {field : Value}
    {write : Kind → Value → ℤ → ℤ → ℕ → Encoding} (hactive : (Γ.union name).active tag = some kind)
    (h : Accepted (encodeUnion Γ write name tag field base offset)) :
    Accepted (write kind.inUnion field base (int (offset + 8)) 0) := by
  have hwrite := (Accepted.of_bind (Accepted.of_bind h).2).2
  simp only [hactive] at hwrite
  exact hwrite

theorem encode_counted (depth : ℕ) : ∀ {kind v base offset bit},
    Accepted (encode Γ depth kind v base offset bit) →
      ∀ parent, Always Γ Counted depth parent kind v := by
  induction depth with
  | zero =>
    rintro kind v base offset bit ⟨s, s', h⟩
    cases h
  | succ depth ih =>
    intro kind v base offset bit h parent
    cases ho : object Γ kind v with
    | none => exact always_counted_of_none ho
    | some o =>
      cases objectOf ho with
      | string nullable bytes =>
        refine ⟨counted_of_zero rfl, fun o ho p hp => ?_⟩
        obtain rfl := Option.some.inj ho
        obtain ⟨i, -, hslot⟩ := mem_elementSlots (of_mem_zip hp).1
        rw [hslot, elementSlot_kind]
        exact always_counted_of_none rfl
      | array elem count nullable elems => exact encodeArray_counted ih h
      | map key value nullable keys values =>
        refine ⟨counted_of_zero rfl, fun o ho p hp => ?_⟩
        obtain rfl := Option.some.inj ho
        obtain ⟨base, hbody⟩ := (Accepted.of_bind h).2.of_header
        obtain ⟨hkeys, hvalues⟩ := Accepted.of_bind hbody
        rcases mem_pair.mp hp with rfl | rfl
        · exact (encodeArray_counted ih hkeys).pred
        · exact (encodeArray_counted ih hvalues).pred
      | struct name nullable fields => exact encodeStruct_counted ih (Accepted.of_bind h).2
      | union name nullable tag field active hactive =>
        refine ⟨counted_of_zero rfl, fun o ho' p hp => ?_⟩
        obtain rfl := Option.some.inj (ho.symm.trans ho')
        obtain rfl := mem_singleton.mp hp
        exact ih (Accepted.of_union hactive h) _
      | unionPointer name nullable tag field active hactive =>
        refine ⟨counted_of_zero rfl, fun o ho' p hp => ?_⟩
        obtain rfl := Option.some.inj (ho.symm.trans ho')
        obtain rfl := mem_singleton.mp hp
        obtain ⟨s, s', hunion⟩ := (Accepted.of_bind h).2
        exact ih (Accepted.of_union hactive ⟨s.claimMemory 16, s', hunion⟩) _

end Accepted

/-- A value that Java has: strings are well-formed, tags are known, the length of an array is an
`int`, and the message is smaller than 2³⁰ bytes. -/
structure Serializable (Γ : Types) (newString : List UInt8 → List UInt8) (depth : ℕ) (kind : Kind)
    (v : Value) : Prop where
  typed : HasKind Γ (domain newString) (depth + 1) kind v
  size : outSize Γ (depth + 1) kind v < 2 ^ 30
  lengths : Always Γ (fun _ kind v => boolCount kind v < 2 ^ 31) (depth + 1) kind kind v

/-- No byte order but little-endian is used: the host has it, or the first buffer is large enough.
-/
def OneOrder (Γ : Types) (native : ByteOrder) (sizeHint : ℤ) (depth : ℕ) (kind : Kind) (v : Value) :
    Prop :=
  native = .little ∨ outSize Γ (depth + 1) kind v ≤ (EncoderState.new native sizeHint).capacity

theorem Archived.message {Γ : Types} {depth : ℕ} {kind : Kind} {v : Value} {s : EncoderState}
    (h : Archived Γ depth kind v s) (hΓ : Γ.Laid) (hk : kind.isSlot) (hp : kind.isPointer)
    (hv : HasKind Γ D (depth + 1) kind v) (hsize : outSize Γ (depth + 1) kind v < 2 ^ 30) :
    ∃ msg, IsMessage s msg := by
  have hlength : s.handles.length < 2 ^ 31 := by
    have hle := length_handles_le (q := ⟨kind, 0, 0⟩) hΓ hk hv
    obtain ⟨hb, h8⟩ := size_of_isPointer hp
    rw [card_ownBytes, if_neg hb] at hle
    simp only [h8] at hle
    rw [h.handles]
    omega
  have hdata := h.size
  refine ⟨⟨s.mem, s.dataEnd.toNat, s.handles, by omega, hlength⟩, rfl, ?_, rfl⟩
  simp only
  omega

section Returned

variable (Γ : Types) (native : ByteOrder) (sizeHint : ℤ) (default : Field → Value)
  (newString : List UInt8 → List UInt8) (depth name : ℕ)

/-- A struct is written, with a region for each object, and read again. -/
def StructReturns (fields : List Value) : Prop :=
  ∃ s msg validator, serialize Γ native sizeHint (depth + 1) name fields = .ok s ∧
    Archived Γ depth (.struct name false) (.struct fields) s ∧ IsMessage s msg ∧
    deserialize ⟨Γ, msg, default, newString⟩ (depth + 1) name = .ok (.struct fields) validator

def UnionReturns (tag : ℕ) (field : Value) : Prop :=
  ∃ s msg validator, serializeUnion Γ native sizeHint (depth + 1) name tag field = .ok s ∧
    Archived Γ depth (.unionPointer name false) (.union tag field) s ∧ IsMessage s msg ∧
    deserializeUnion ⟨Γ, msg, default, newString⟩ (depth + 1) name =
      .ok (.union tag field) validator

variable {Γ native sizeHint newString depth name}

variable {fields : List Value}

theorem structReturns (hΓ : Γ.Laid) (hints : Γ.IntSized)
    (h : Serializable Γ newString depth (.struct name false) (.struct fields))
    (hshort : Always Γ (fun _ => ShortBools) (depth + 1) (.struct name false) (.struct name false)
      (.struct fields))
    (horder : OneOrder Γ native sizeHint depth (.struct name false) (.struct fields)) :
    StructReturns Γ native sizeHint default newString depth name fields := by
  have ha := always_fits hΓ hints rfl h.typed hshort h.size
  obtain ⟨s, hrun, hs⟩ := serialize_archived hΓ (fun _ h => h) (fun _ h => h) h.typed ha
    h.size horder
  obtain ⟨msg, hmsg⟩ := hs.message hΓ rfl rfl h.typed h.size
  obtain ⟨validator, hback⟩ := deserialize_archived (c := ⟨Γ, msg, default, newString⟩) hΓ hints
    h.typed ha hs hmsg
  exact ⟨s, msg, validator, hrun, hs, hmsg, hback⟩

variable {field : Value}

theorem unionReturns {tag : ℕ} (hΓ : Γ.Laid) (hints : Γ.IntSized)
    (h : Serializable Γ newString depth (.unionPointer name false) (.union tag field))
    (hshort : Always Γ (fun _ => ShortBools) (depth + 1) (.unionPointer name false)
      (.unionPointer name false) (.union tag field))
    (horder : OneOrder Γ native sizeHint depth (.unionPointer name false) (.union tag field)) :
    UnionReturns Γ native sizeHint default newString depth name tag field := by
  have ha := always_fits hΓ hints rfl h.typed hshort h.size
  obtain ⟨s, hrun, hs⟩ := serializeUnion_archived hΓ (fun _ h => h) (fun _ h => h) h.typed ha h.size
    horder
  obtain ⟨msg, hmsg⟩ := hs.message hΓ rfl rfl h.typed h.size
  obtain ⟨validator, hback⟩ :=
    deserializeUnion_archived (c := ⟨Γ, msg, default, newString⟩) hΓ hints
    h.typed ha hs hmsg
  exact ⟨s, msg, validator, hrun, hs, hmsg, hback⟩

theorem shortBools_of_structReturns
    (h : Serializable Γ newString depth (.struct name false) (.struct fields))
    (hreturns : StructReturns Γ native sizeHint default newString depth name fields) :
    Always Γ (fun _ => ShortBools) (depth + 1) (.struct name false) (.struct name false)
      (.struct fields) := by
  obtain ⟨s, msg, validator, hrun, -⟩ := hreturns
  have hcounted : Always Γ Counted _ (.struct name false) (.struct name false) _ :=
    encodeStruct_counted (encode_counted (depth + 1)) ⟨_, s, hrun⟩
  exact hcounted.pred.mp h.lengths

theorem shortBools_of_unionReturns {tag : ℕ}
    (h : Serializable Γ newString depth (.unionPointer name false) (.union tag field))
    (hreturns : UnionReturns Γ native sizeHint default newString depth name tag field) :
    Always Γ (fun _ => ShortBools) (depth + 1) (.unionPointer name false)
      (.unionPointer name false) (.union tag field) := by
  obtain ⟨s, msg, validator, hrun, -⟩ := hreturns
  obtain ⟨kind, hactive, -, ho⟩ := active_of_hasKind (.inr rfl) h.typed
  have hfield := encode_counted (depth + 1) (Accepted.of_union hactive ⟨_, s, hrun⟩)
    (.unionPointer name false)
  have hcounted : Always Γ Counted (depth + 1) (.unionPointer name false) (.unionPointer name false)
      (.union tag field) := by
    refine ⟨counted_of_zero rfl, fun o ho' p hp => ?_⟩
    obtain rfl := Option.some.inj (ho.symm.trans ho')
    obtain rfl := mem_singleton.mp hp
    exact hfield.pred
  exact hcounted.mp h.lengths

end Returned

theorem deserialize_serialize_iff {Γ : Types} (hΓ : Γ.Laid) (hints : Γ.IntSized)
    (native : ByteOrder)
    (sizeHint : ℤ) (default : Field → Value) (newString : List UInt8 → List UInt8)
    (depth name : ℕ) :
    (∀ fields, Serializable Γ newString depth (.struct name false) (.struct fields) →
      (StructReturns Γ native sizeHint default newString depth name fields →
        Always Γ (fun _ => ShortBools) (depth + 1) (.struct name false) (.struct name false)
          (.struct fields)) ∧
      (OneOrder Γ native sizeHint depth (.struct name false) (.struct fields) →
        Always Γ (fun _ => ShortBools) (depth + 1) (.struct name false) (.struct name false)
          (.struct fields) →
        StructReturns Γ native sizeHint default newString depth name fields)) ∧
    ∀ tag field, Serializable Γ newString depth (.unionPointer name false) (.union tag field) →
      (UnionReturns Γ native sizeHint default newString depth name tag field →
        Always Γ (fun _ => ShortBools) (depth + 1) (.unionPointer name false)
          (.unionPointer name false) (.union tag field)) ∧
      (OneOrder Γ native sizeHint depth (.unionPointer name false) (.union tag field) →
        Always Γ (fun _ => ShortBools) (depth + 1) (.unionPointer name false)
          (.unionPointer name false) (.union tag field) →
        UnionReturns Γ native sizeHint default newString depth name tag field) :=
  ⟨fun _ h => ⟨shortBools_of_structReturns default h,
      fun horder hshort => structReturns default hΓ hints h hshort horder⟩,
    fun _ _ h => ⟨shortBools_of_unionReturns default h,
      fun horder hshort => unionReturns default hΓ hints h hshort horder⟩⟩

/-- Bools, a union, a map, a handle and a bool; the union has a number, a string or a union. -/
def sampleTypes : Types where
  struct _ := ⟨[⟨0, 48⟩], [⟨.array .bool 0 false, 0, 0, 0⟩, ⟨.union 0 true, 8, 0, 0⟩,
    ⟨.map (.number 1) (.string true) false, 24, 0, 0⟩, ⟨.handle true, 32, 0, 0⟩, ⟨.bool, 36, 0, 0⟩]⟩
  union _ := ⟨[.number 4, .string false, .union 0 true]⟩

theorem sampleTypes_laid : sampleTypes.Laid where
  struct _ := by
    constructor <;> simp [sampleTypes, Kind.isMojom, Kind.size, headerSize, StructType.last]
  union _ := by simp [sampleTypes, Kind.isMojom]
  tags _ := by simp [sampleTypes]

theorem sampleTypes_intSized : sampleTypes.IntSized where
  version _ := by simp [sampleTypes, StructType.last]
  tags _ := by simp [sampleTypes]
  fields _ := by simp [sampleTypes]

def sampleFields : List Value :=
  [.array [.bool true, .bool false], .union 2 (.union 0 (.number 5)), .map [.number 1] [.null],
    .handle 7, .bool true]

theorem deserialize_serialize_sample :
    StructReturns sampleTypes .big 1024 (fun _ => .null) id 3 0 sampleFields ∧
    UnionReturns sampleTypes .little 8 (fun _ => .null) id 3 0 1 (.string [104, 105]) := by
  refine ⟨((deserialize_serialize_iff sampleTypes_laid sampleTypes_intSized .big 1024 _ id 3 0).1 _
      ⟨?_, ?_, ?_⟩).2 (.inr ?_) ?_,
    ((deserialize_serialize_iff sampleTypes_laid sampleTypes_intSized .little 8 _ id 3 0).2 _ _
      ⟨?_, ?_, ?_⟩).2 (.inl rfl) ?_⟩
  · simp [HasKind, sampleTypes, sampleFields, domain, invalidHandle, Kind.isNullable, Kind.inUnion,
      UnionType.active]
  · decide
  · decide
  · decide
  · decide
  · simp [HasKind, sampleTypes, domain, Kind.inUnion, UnionType.active]
  · decide
  · decide
  · decide

def arrayTypes (elem : Kind) : Types where
  struct _ := ⟨[⟨0, 16⟩], [⟨.array elem 0 false, 0, 0, 0⟩]⟩
  union _ := ⟨[]⟩

theorem arrayTypes_laid {elem : Kind} (h : elem.isMojom) : (arrayTypes elem).Laid where
  struct _ := by
    constructor <;> simp [arrayTypes, Kind.isMojom, Kind.size, headerSize, StructType.last, h]
  union _ := by simp [arrayTypes]
  tags _ := by simp [arrayTypes]

theorem arrayTypes_intSized (elem : Kind) : (arrayTypes elem).IntSized where
  version _ := by simp [arrayTypes, StructType.last]
  tags _ := by simp [arrayTypes]
  fields _ := by simp [arrayTypes]

theorem serialize_of_overflow {elems : List Value} (h : 2 ^ 31 ≤ elems.length + 7)
    (hint : elems.length < 2 ^ 31) :
    serialize (arrayTypes .bool) .little 1024 2 0 [.array elems] = .error .negativeArraySize := by
  have hlength : (int (((elems.map Value.toBool).length : ℤ) + 7)).tdiv 8 < 0 := by
    rw [length_map]
    exact tdiv_neg_of_overflow h hint
  have hbools : ∀ (base offset : ℤ) (s : EncoderState), encodeBooleans base (elems.map Value.toBool)
      offset (-1) s = .error .negativeArraySize := by
    intro base offset s
    rw [encodeBooleans, show checkFixedLength (-1) _ s = .ok s from rfl, ok_bind]
    simp only
    rw [if_pos hlength]
  have hnew : Inv 16 [] (EncoderState.new .little 1024) := inv_new (.inl rfl)
  obtain ⟨s₁, -, -, hbegin⟩ : ∃ s₁, Inv 16 [align8 16] s₁ ∧ _ ∧
      ∀ body, getEncoderAtDataOffset ⟨(16 : ℕ), (0 : ℕ)⟩ body (.new .little 1024) = body _ s₁ :=
    getEncoderAtDataOffset_eq hnew (by decide) (by decide) (by decide) (by decide)
  rw [serialize, encodeStruct]
  refine (hbegin _).trans ?_
  exact congrArg (· >>= _) (hbools _ _ s₁)

theorem outSize_arrayTypes_bool (elems : List Value) :
    outSize (arrayTypes .bool) 2 (.struct 0 false) (.struct [.array elems]) =
      16 + align8 (headerSize + (elems.length + 7) / 8) := by
  have hzero : outSizes (arrayTypes .bool) 0 ((elementSlots .bool 0 elems.length).zip elems) =
      0 := by
    simp [outSizes, outSize]
  have harray : outSize (arrayTypes .bool) 1 (.array .bool 0 false) (.array elems) =
      align8 (headerSize + (elems.length + 7) / 8) + 0 := by
    rw [← hzero]
    rfl
  change align8 16 + (outSize (arrayTypes .bool) 1 (.array .bool 0 false) (.array elems) + 0) = _
  rw [harray]
  rfl

theorem replicate_fails {n : ℕ} (h : 2 ^ 31 ≤ n + 7) (hint : n < 2 ^ 31) :
    HasKind (arrayTypes .bool) (domain id) 2 (.struct 0 false)
      (.struct [.array (List.replicate n (.bool true))]) ∧
      outSize (arrayTypes .bool) 2 (.struct 0 false)
        (.struct [.array (List.replicate n (.bool true))]) < 2 ^ 30 ∧
      serialize (arrayTypes .bool) .little 1024 2 0 [.array (List.replicate n (.bool true))] =
        .error .negativeArraySize := by
  refine ⟨?_, ?_, ?_⟩
  · simp only [HasKind, arrayTypes, forall₂_cons, forall₂_nil_left_iff, and_true]
    refine ⟨fun hcount => absurd rfl hcount, fun v hv => ?_⟩
    obtain rfl := eq_of_mem_replicate hv
    simp [HasKind]
  · rw [outSize_arrayTypes_bool, length_replicate]
    simp only [align8, headerSize]
    omega
  · exact serialize_of_overflow (by rw [length_replicate]; exact h)
      (by rw [length_replicate]; exact hint)

def bigEndian : Except Exception EncoderState :=
  serialize (arrayTypes (.number 1)) .big 16 2 0 [.array [.number 1]]

def bigEndianContext (s : EncoderState) : Context :=
  ⟨arrayTypes (.number 1), ⟨s.mem, 32, [], by decide, noHandles_lt⟩, fun _ => .null, id⟩

theorem bigEndian_run : ∃ s, bigEndian = .ok s ∧ s.dataEnd = 32 ∧ s.handles = [] ∧
    thrown (deserialize (bigEndianContext s) 2 0) =
      some (.deserialization "Trying to access out of range memory.") := by
  have hrun : (match bigEndian with
    | .error _ => false
    | .ok s => s.dataEnd = 32 ∧ s.handles = [] ∧ thrown (deserialize (bigEndianContext s) 2 0) =
        some (.deserialization "Trying to access out of range memory.")) = true := by decide +kernel
  cases hs : bigEndian with
  | error e =>
    rw [hs] at hrun
    cases hrun
  | ok s =>
    rw [hs] at hrun
    exact ⟨s, rfl, of_decide_eq_true hrun⟩

/-- A `boolean[]` with 2³¹ - 7 elements is not serialized. A byte array is serialized on a
big-endian host with a buffer of 16 bytes first, and not deserialized. -/
theorem serialize_fails : ((arrayTypes .bool).Laid ∧ (arrayTypes .bool).IntSized ∧
      HasKind (arrayTypes .bool) (domain id) 2 (.struct 0 false)
        (.struct [.array (List.replicate (2 ^ 31 - 7) (.bool true))]) ∧
      outSize (arrayTypes .bool) 2 (.struct 0 false)
        (.struct [.array (List.replicate (2 ^ 31 - 7) (.bool true))]) < 2 ^ 30 ∧
      serialize (arrayTypes .bool) .little 1024 2 0
        [.array (List.replicate (2 ^ 31 - 7) (.bool true))] = .error .negativeArraySize) ∧
    (arrayTypes (.number 1)).Laid ∧ (arrayTypes (.number 1)).IntSized ∧
      HasKind (arrayTypes (.number 1)) (domain id) 2 (.struct 0 false)
        (.struct [.array [.number 1]]) ∧
      ∃ s msg, serialize (arrayTypes (.number 1)) .big 16 2 0 [.array [.number 1]] = .ok s ∧
        IsMessage s msg ∧
        thrown (deserialize ⟨arrayTypes (.number 1), msg, fun _ => .null, id⟩ 2 0) =
          some (.deserialization "Trying to access out of range memory.") := by
  refine ⟨⟨arrayTypes_laid rfl, arrayTypes_intSized _, replicate_fails (by decide) (by decide)⟩,
    arrayTypes_laid rfl, arrayTypes_intSized _, by simp [HasKind, arrayTypes], ?_⟩
  obtain ⟨s, hrun, hend, hhandles, hback⟩ := bigEndian_run
  exact ⟨s, _, hrun, ⟨rfl, hend.symm, hhandles.symm⟩, hback⟩

end Mojo.JavaBindings
