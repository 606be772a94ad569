import Mojo.JavaBindings.Decoder
import Mojo.Wire.Layout

/-!
# Decoding in Java stays inside claimed memory

`Holds` is the invariant of the validator with its log: the log is proper, and everything
claimed is below what may be claimed next. Each function of the decoder keeps it. One that
reads needs the range it reads from among the ranges `R` that were claimed; one that claims
adds to them, and `lo` is a lower bound for what is claimed later. So a member lies behind
`lo`, objects behind it start eight bytes further on, and the stack is at most as deep as
the message is long. With unions the invariant is kept as long as there is room for them.
-/

namespace Mojo.JavaBindings

open Mojo.Memory Mojo.Wire Mojo.CppBindings Mojo.System

/-- The bytes of every boolean array that was visited can be counted in an `int`. -/
def Countable (visits : List Visit) : Prop :=
  ∀ si, .booleans si ∈ visits → si.elementsOrVersion < 2 ^ 31 - 7

structure Holds (msg : Message) (lo : ℕ) (R : List (ℕ × ℕ)) (v : Validator) : Prop where
  proper : Proper msg.limit msg.handles.length v.log
  memory : ∀ start stop, .claim start stop ∈ v.log → (roundUp8 stop : ℤ) ≤ v.minNextMemory
  lower : (lo : ℤ) ≤ v.minNextMemory
  handle : ∀ index : ℕ, .handle index ∈ v.log → (index : ℤ) < v.minNextClaimedHandle
  nonneg : 0 ≤ v.minNextClaimedHandle
  ranges : ∀ r ∈ R, .claim r.1 r.2 ∈ v.log
  countable : Countable v.visits

/-- The exceptions that surface: `DeserializationException`, the size of a boolean array
just if it cannot be counted, and an overflow of the stack only if it is `short`. -/
def Raises (short : Prop) (v : Validator) : Exception → Prop
  | .deserialization _ => Countable v.visits
  | .negativeArraySize => ¬ Countable v.visits
  | .stackOverflow => short
  | .serialization _ | .indexOutOfBounds | .illegalArgument | .bufferUnderflow
  | .bufferOverflow => False

def Fails (msg : Message) (short : Prop) (e : Exception) (v : Validator) : Prop :=
  Proper msg.limit msg.handles.length v.log ∧ Raises short v e

abbrev Yields {α : Type} (msg : Message) (lo : ℕ) (R : List (ℕ × ℕ)) (short : Prop)
    (x : Decoding α) (S : α → Validator → Prop) : Prop :=
  Triple (Holds msg lo R) x S (Fails msg short)

abbrev Stays {α : Type} (msg : Message) (lo : ℕ) (R : List (ℕ × ℕ)) (short : Prop)
    (x : Decoding α) : Prop :=
  Yields msg lo R short x fun _ => Holds msg lo R

variable {P : Validator → Prop}

section Basic

variable {msg : Message} {lo lo' addr size : ℕ} {R R' : List (ℕ × ℕ)} {r : ℕ × ℕ}
  {short : Prop} {v : Validator}

theorem Holds.mono (h : Holds msg lo R v) (hlo : lo' ≤ lo) (hR : ∀ r ∈ R', r ∈ R) :
    Holds msg lo' R' v :=
  { h with
    lower := (Int.ofNat_le.mpr hlo).trans h.lower
    ranges := fun r hr => h.ranges r (hR r hr) }

theorem Fails.mono {short' : Prop} {e : Exception} (h : Fails msg short e v)
    (hshort : short → short') : Fails msg short' e v := by
  refine ⟨h.1, ?_⟩
  have he := h.2
  cases e with
  | stackOverflow => exact hshort he
  | _ => exact he

theorem Holds.inside (h : Holds msg lo R v) {r : ℕ × ℕ} (hr : r ∈ R) : r.2 ≤ msg.limit :=
  (h.proper.claim (h.ranges r hr)).2.2

theorem throwIf_bind {β : Type} {c : Prop} [Decidable c] {message : String}
    {f : Unit → Decoding β} {S : β → Validator → Prop} (hP : ∀ v, P v → Holds msg lo R v)
    (h : ¬ c → Triple P (f ()) S (Fails msg short)) :
    Triple P (throwIf c message >>= f) S (Fails msg short) := by
  refine .bind (Q := fun _ v => ¬ c ∧ P v) ?_ fun _ => .given h
  exact .cond (fun _ => .raise _ fun v hv => ⟨(hP v hv).proper, (hP v hv).countable⟩) fun hc =>
    .ret _ fun v hv => ⟨hc, hv⟩

theorem Holds.cons (h : Holds msg lo R v) {e : Access}
    (he : MayFollow msg.limit msg.handles.length v.log e)
    (hclaim : ∀ start stop, e ≠ .claim start stop) (hhandle : ∀ index, e ≠ .handle index) :
    Holds msg lo R { v with log := e :: v.log } where
  proper := ⟨he, h.proper⟩
  memory start stop hmem := by
    rcases List.mem_cons.mp hmem with heq | hmem
    · exact absurd heq.symm (hclaim start stop)
    · exact h.memory start stop hmem
  lower := h.lower
  handle index hmem := by
    rcases List.mem_cons.mp hmem with heq | hmem
    · exact absurd heq.symm (hhandle index)
    · exact h.handle index hmem
  nonneg := h.nonneg
  ranges r hr := .tail e (h.ranges r hr)
  countable := h.countable

theorem claimMemory_triple (start stop : ℤ) : Yields msg lo R short (claimMemory msg start stop)
      (fun _ v => ∃ s t : ℕ, (start = s ∧ stop = t ∧ s % 8 = 0 ∧ lo ≤ s ∧ s ≤ t ∧ t ≤ msg.limit) ∧
        Holds msg t ((s, t) :: R) v) := by
  refine .bind (Q := fun w v => w = v ∧ Holds msg lo R v) (.read fun v h => ⟨rfl, h⟩) fun w => ?_
  refine throwIf_bind (fun v h => h.2) fun halign => ?_
  refine throwIf_bind (fun v h => h.2) fun horder => ?_
  refine throwIf_bind (fun v h => h.2) fun hrange => ?_
  refine throwIf_bind (fun v h => h.2) fun hmax => .update _ ?_
  rintro v ⟨rfl, h⟩
  have hlower := h.lower
  lift start to ℕ using by omega with s
  lift stop to ℕ using by omega with t
  rw [not_not, Int.tmod_eq_emod_of_nonneg (by omega)] at halign
  refine ⟨s, t, ⟨rfl, rfl, by omega, by omega, by omega, by omega⟩, ?_⟩
  have hproper : ∀ start' stop', .claim start' stop' ∈ w.log → roundUp8 stop' ≤ s := by
    intro start' stop' hmem
    have := h.memory start' stop' hmem
    omega
  constructor
  · exact ⟨⟨by omega, by omega, by omega, hproper⟩, h.proper⟩
  · intro start' stop' hmem
    simp only [align]
    rcases List.mem_cons.mp hmem with heq | hmem
    · simp only [Access.claim.injEq, Int.toNat_natCast] at heq
      simp only [roundUp8, heq.2]
      omega
    · have := hproper start' stop' hmem
      omega
  · simp only [align]
    omega
  · intro index hmem
    rcases List.mem_cons.mp hmem with heq | hmem
    · cases heq
    · exact h.handle index hmem
  · exact h.nonneg
  · intro r hr
    rcases hr with _ | ⟨_, hr⟩
    · exact .head _
    · exact .tail _ (h.ranges r hr)
  · exact h.countable

theorem claimHandle_triple (handle : ℤ) : Stays msg lo R short (claimHandle msg handle) := by
  refine .bind (Q := fun w v => w = v ∧ Holds msg lo R v) (.read fun v h => ⟨rfl, h⟩) fun w => ?_
  refine throwIf_bind (fun v h => h.2) fun horder => ?_
  refine throwIf_bind (fun v h => h.2) fun hpresent => .update _ ?_
  rintro v ⟨rfl, h⟩
  have hnonneg := h.nonneg
  have hlt := msg.handles_lt
  lift handle to ℕ using by omega with i
  have hnext : int (i + 1) = i + 1 := int_eq (by omega) (by omega)
  have hproper : ∀ index : ℕ, .handle index ∈ w.log → index < i := by
    intro index hmem
    have := h.handle index hmem
    omega
  constructor
  · exact ⟨⟨by simp only [Int.toNat_natCast]; omega, hproper⟩, h.proper⟩
  · intro start stop hmem
    rcases List.mem_cons.mp hmem with heq | hmem
    · cases heq
    · exact h.memory start stop hmem
  · exact h.lower
  · intro index hmem
    simp only [hnext]
    rcases List.mem_cons.mp hmem with heq | hmem
    · simp only [Access.handle.injEq, Int.toNat_natCast] at heq
      omega
    · have := hproper index hmem
      omega
  · simp only [hnext]
    omega
  · exact fun r hr => .tail _ (h.ranges r hr)
  · exact h.countable

theorem visit_triple {e : Visit} (he : ∀ si, e = .booleans si → si.elementsOrVersion < 2 ^ 31 - 7) :
    Stays msg lo R short (visit e) := by
  refine .update _ fun v hv => { hv with countable := fun si hmem => ?_ }
  rcases List.mem_cons.mp hmem with heq | hmem
  · exact he si heq.symm
  · exact hv.countable si hmem

structure Within (R : List (ℕ × ℕ)) (addr size : ℕ) (r : ℕ × ℕ) : Prop where
  mem : r ∈ R
  start : r.1 ≤ addr
  stop : addr + size ≤ r.2

theorem Within.claimed (h : Within R addr size r) (hv : Holds msg lo R v) :
    Claimed v.log addr size :=
  ⟨r.1, r.2, hv.ranges r h.mem, h.start, h.stop⟩

theorem getBits_triple (h : Within R addr size r) : Yields msg lo R short (getBits msg addr size)
      (fun n v => n = load msg.data addr size ∧ Holds msg lo R v) := by
  intro v hv
  have hin := hv.inside h.mem
  have hstop := h.stop
  have hindex : (0 : ℤ) ≤ addr ∧ (addr : ℤ) + size ≤ msg.limit := by omega
  rw [getBits, if_pos hindex]
  exact ⟨rfl, hv.cons (h.claimed hv) (by simp) (by simp)⟩

theorem getAll_triple {count : ℕ} (hsize : 0 < size) (h : Within R addr (size * count) r) :
    Yields msg lo R short (getAll msg addr count size)
      (fun ns v => ns = (List.range count).map (fun i => load msg.data (addr + size * i) size) ∧
        Holds msg lo R v) := by
  intro v hv
  have hin := hv.inside h.mem
  have hstop := h.stop
  have hposition : ¬ ((addr : ℤ) < 0 ∨ (addr : ℤ) > msg.limit) := by omega
  have hremaining : ¬ (msg.limit - (addr : ℤ).toNat) / size < count := by
    rw [not_lt, Nat.le_div_iff_mul_le hsize, Int.toNat_natCast, Nat.mul_comm]
    omega
  rw [getAll, if_neg hposition, if_neg hremaining]
  exact ⟨rfl, hv.cons (h.claimed hv) (by simp) (by simp)⟩

theorem newArray_triple {length bits : ℕ} (h : length * bits ≤ 8 * msg.limit) :
    Yields msg lo R short (newArray length bits) (fun n v => n = length ∧ Holds msg lo R v) := by
  intro v hv
  have hlength : ¬ (length : ℤ) < 0 := by omega
  rw [newArray, if_neg hlength]
  exact ⟨rfl, hv.cons h (by simp) (by simp)⟩

end Basic

section Numbers

variable {msg : Message} {lo base offset size : ℕ} {R : List (ℕ × ℕ)} {r : ℕ × ℕ} {short : Prop}

theorem readBits_triple (h : Within R (base + offset) size r) :
    Yields msg lo R short (readBits msg base offset size)
      (fun n v => n = load msg.data (base + offset) size ∧ Holds msg lo R v) := by
  refine .knowing (fun v hv => hv.inside h.mem) fun hin => ?_
  have hstop := h.stop
  have hlt := msg.limit_lt
  have hindex : int ((base : ℤ) + offset) = (base + offset : ℕ) := int_add (by omega)
  rw [readBits, validateBufferSize, hindex]
  exact throwIf_bind (fun v hv => hv) fun _ => getBits_triple h

theorem readInt_triple (h : Within R (base + offset) 4 r) :
    Yields msg lo R short (readInt msg base offset)
      (fun n v => n = int (load msg.data (base + offset) 4) ∧ Holds msg lo R v) := by
  rw [readInt]
  exact (readBits_triple h).bind fun _ => .ret _ fun _ hv =>
    ⟨congrArg (fun n : ℕ => int n) hv.1, hv.2⟩

theorem readBoolean_triple {bit : ℕ} (h : Within R (base + offset) 1 r) :
    Stays msg lo R short (readBoolean msg base offset bit) := by
  rw [readBoolean, validateBufferSize, readByte]
  exact throwIf_bind (fun _ hv => hv) fun _ => (readBits_triple h).bind fun _ =>
    .ret _ fun _ hv => hv.2

variable {nullable : Bool}

theorem readPointer_triple (h : Within R (base + offset) 8 r) :
    Stays msg lo R short (readPointer msg base offset nullable) := by
  rw [readPointer, readLong]
  refine .bind (Q := fun _ => Holds msg lo R) ((readBits_triple h).bind fun _ => .ret _ fun _ hv =>
    hv.2) fun p => ?_
  refine .cond (fun _ => ?_) fun _ => .done _
  exact throwIf_bind (fun _ hv => hv) fun _ => .done _

theorem readTarget_triple {read : ℤ → Decoding Value} (h : Within R (base + offset) 8 r)
    (hread : ∀ d, Stays msg lo R short (read d)) :
    Stays msg lo R short (readTarget msg base offset nullable read) := by
  rw [readTarget]
  refine (readPointer_triple h).bind fun d => ?_
  cases d with
  | none => exact .done _
  | some d => exact hread d

theorem readHandle_triple (h : Within R (base + offset) 4 r) :
    Stays msg lo R short (readHandle msg base offset nullable) := by
  rw [readHandle]
  refine .bind (Q := fun _ => Holds msg lo R) ((readInt_triple h).post fun _ _ hv => hv.2)
    fun index => ?_
  refine .cond (fun _ => ?_) fun _ => ?_
  · exact throwIf_bind (fun _ hv => hv) fun _ => .done _
  · exact (claimHandle_triple index).bind fun _ => .done _

end Numbers

variable {header : DataHeader}

section Headers

variable {msg : Message} {lo base offset : ℕ} {R : List (ℕ × ℕ)} {r : ℕ × ℕ} {short : Prop}

theorem Within.mono {addr size addr' size' : ℕ} (h : Within R addr size r) (hstart : addr ≤ addr')
    (hstop : addr' + size' ≤ addr + size) : Within R addr' size' r :=
  ⟨h.mem, h.start.trans hstart, hstop.trans h.stop⟩

theorem readDataHeaderAtOffset_triple {isUnion : Bool} (h : Within R (base + offset) 8 r) :
    Yields msg lo R short (readDataHeaderAtOffset msg base offset isUnion)
      (fun header v => (0 ≤ header.size ∧ header.size = int (load msg.data (base + offset) 4) ∧
          (isUnion = false → 0 ≤ header.elementsOrVersion) ∧
          header.elementsOrVersion = int (load msg.data (base + offset + 4) 4)) ∧
        Holds msg lo R v) := by
  refine .knowing (fun v hv => hv.inside h.mem) fun hin => ?_
  have hstop := h.stop
  have hlt := msg.limit_lt
  have hindex : int ((offset : ℤ) + 4) = (offset + 4 : ℕ) := int_add (n := 4) (by omega)
  rw [readDataHeaderAtOffset, hindex]
  refine (readInt_triple (h.mono le_rfl (by omega))).bind fun size => .given fun hsize => ?_
  refine (readInt_triple (h.mono (by omega) (by omega))).bind fun elementsOrVersion =>
    .given fun helements => ?_
  refine throwIf_bind (fun _ hv => hv) fun hnegative => ?_
  refine throwIf_bind (fun _ hv => hv) fun hnegative' => .ret _ fun v hv => ⟨?_, hv⟩
  refine ⟨not_lt.mp hnegative, hsize, fun hunion => ?_, helements⟩
  simp only [hunion, true_or, and_true, not_lt] at hnegative'
  exact hnegative'

structure Entered (msg : Message) (lo : ℕ) (base : ℤ) (header : DataHeader) (b n k : ℕ) :
    Prop where
  base : base = b
  header : header = ⟨n, k⟩
  aligned : b % 8 = 0
  behind : lo ≤ b
  size : 8 ≤ n
  inside : b + n ≤ msg.limit
  word : k < 2 ^ 31
  sized : load msg.data b 4 = n
  loaded : load msg.data (b + 4) 4 = k

/-- The header of an object is read, the object is claimed, and `P` holds of the two words. -/
def Enters (msg : Message) (lo : ℕ) (R : List (ℕ × ℕ)) (short : Prop) (base : ℤ)
    (x : Decoding DataHeader) (P : ℕ → ℕ → Prop) : Prop :=
  Yields msg lo R short x fun header v =>
    ∃ b n k, (Entered msg lo base header b n k ∧ P n k) ∧ Holds msg (b + 8) ((b + 8, b + n) :: R) v

theorem Enters.bind {β : Type} {base : ℤ} {x : Decoding DataHeader} {P : ℕ → ℕ → Prop}
    {f : DataHeader → Decoding β} {S : β → Validator → Prop} {E : Exception → Validator → Prop}
    (h : Enters msg lo R short base x P) (hE : ∀ e v, Fails msg short e v → E e v)
    (hf : ∀ b n k : ℕ, Entered msg lo base ⟨n, k⟩ b n k → P n k →
      Triple (Holds msg (b + 8) ((b + 8, b + n) :: R)) (f ⟨n, k⟩) S E) :
    Triple (Holds msg lo R) (x >>= f) S E := by
  refine (h.conseq (fun _ hv => hv) (fun _ _ hv => hv) hE).bind fun header =>
    .ex fun b => .ex fun n => .ex fun k => .given fun hx => ?_
  obtain ⟨hentered, hP⟩ := hx
  have hheader := hentered.header
  subst hheader
  exact hf b n k hentered hP

theorem int_load_of_nonneg {m : Mem} {a : ℕ} (h : 0 ≤ int (load m a 4)) :
    int (load m a 4) = load m a 4 := by
  have := load_lt m a 4
  exact int_of_nonneg (by omega) (by omega) h

theorem readDataHeader_triple (base : ℤ) :
    Enters msg lo R short base (readDataHeader msg base) fun _ _ => True := by
  have hlt := msg.limit_lt
  refine (claimMemory_triple base _).bind fun _ => .ex fun b => .ex fun t => .given fun hclaim => ?_
  obtain ⟨rfl, ht, haligned, hlo, hbt, hlimit⟩ := hclaim
  have hbase : int ((b : ℤ) + 8) = (b + 8 : ℕ) := by
    rw [int_of_nonneg (by omega) (by omega) (by omega), Int.natCast_add]
    rfl
  obtain rfl : t = b + 8 := by omega
  have hheader : Within ((b, b + 8) :: R) (b + 0) 8 (b, b + 8) := ⟨.head _, le_rfl, le_rfl⟩
  rw [hbase]
  refine (readDataHeaderAtOffset_triple hheader).bind fun header => .given fun hwords => ?_
  obtain ⟨hpos, hsize, hpos', hword⟩ := hwords
  have hsize' := hsize.trans (int_load_of_nonneg (hsize ▸ hpos))
  have hword' := hword.trans (int_load_of_nonneg (hword ▸ hpos' rfl))
  have hsmall := hsize ▸ int_lt (load msg.data (b + 0) 4)
  have hsmall' := hword ▸ int_lt (load msg.data (b + 0 + 4) 4)
  refine (claimMemory_triple _ _).bind fun _ => .ex fun s => .ex fun t => .given fun hclaim =>
    .ret _ fun v hv => ?_
  obtain ⟨hs, ht, -, -, hst, hlimit'⟩ := hclaim
  have hend : int ((b : ℤ) + header.size) = b + header.size :=
    int_of_nonneg (by omega) (by omega) (by omega)
  refine ⟨b, load msg.data b 4, load msg.data (b + 4) 4, ⟨⟨rfl, ?_, haligned, hlo, ?_, ?_, ?_, rfl,
    rfl⟩, trivial⟩, ?_⟩
  · cases header
    exact congrArg₂ DataHeader.mk hsize' hword'
  all_goals simp only [Nat.add_zero] at hsize' hword'
  · omega
  · omega
  · omega
  · obtain rfl : s = b + 8 := by omega
    obtain rfl : t = b + load msg.data b 4 := by omega
    refine hv.mono (by omega) fun r hr => ?_
    rcases hr with _ | ⟨_, hr⟩
    · exact .head _
    · exact .tail _ (.tail _ hr)

theorem checkLength_bind {β : Type} {expectedLength : ℤ} {f : Unit → Decoding β}
    {S : β → Validator → Prop} (h : Yields msg lo R short (f ()) S) :
    Yields msg lo R short (checkLength header expectedLength >>= f) S := by
  rw [checkLength]
  exact throwIf_bind (fun _ hv => hv) fun _ => h

theorem readDataHeaderForArray_triple (base : ℤ) {elementSize : ℕ} (hsize : elementSize ≤ 16)
    (expectedLength : ℤ) :
    Enters msg lo R short base (readDataHeaderForArray msg base elementSize expectedLength)
      fun n k => 8 + elementSize * k ≤ n := by
  rw [readDataHeaderForArray]
  refine (readDataHeader_triple base).bind (fun _ _ => id) fun b n k hentered _ => ?_
  refine throwIf_bind (fun _ hv => hv) fun hfits => checkLength_bind (.ret _ fun v hv => ?_)
  have hword := hentered.word
  have hmul : elementSize * k ≤ 16 * k := Nat.mul_le_mul_right k hsize
  have hcast : ((elementSize : ℤ) * k) = (elementSize * k : ℕ) := (Int.natCast_mul ..).symm
  rw [hcast, long_eq (x := (elementSize * k : ℕ)) (by omega) (by omega),
    long_eq (by omega) (by omega)] at hfits
  exact ⟨b, n, k, ⟨hentered, by simp only at hfits; omega⟩, hv⟩

theorem readDataHeaderForBooleanArray_triple (base : ℤ) (expectedLength : ℤ) :
    Enters msg lo R short base (readDataHeaderForBooleanArray msg base expectedLength)
      fun n k => k + 7 < 2 ^ 31 → 8 + (k + 7) / 8 ≤ n := by
  rw [readDataHeaderForBooleanArray]
  refine (readDataHeader_triple base).bind (fun _ _ => id) fun b n k hentered _ => ?_
  refine throwIf_bind (fun _ hv => hv) fun hfits => checkLength_bind (.ret _ fun v hv => ?_)
  refine ⟨b, n, k, ⟨hentered, fun hk => ?_⟩, hv⟩
  rw [int_eq (x := (k : ℤ) + 7) (by omega) (by omega),
    Int.tdiv_eq_ediv_of_nonneg (by omega), int_eq (by omega) (by omega)] at hfits
  dsimp only at hfits
  omega

theorem readDataHeaderForMap_triple (base : ℤ) :
    Yields msg lo R short (readDataHeaderForMap msg base)
      (fun _ v => ∃ b : ℕ, (base = b ∧ lo ≤ b) ∧ Holds msg (b + 8) ((b + 8, b + 24) :: R) v) := by
  rw [readDataHeaderForMap]
  refine (readDataHeader_triple base).bind (fun _ _ => id) fun b n k hentered _ => ?_
  refine throwIf_bind (fun _ hv => hv) fun hsize => ?_
  obtain rfl : n = 24 := by simp only at hsize; omega
  refine .cond (fun _ => .raise _ fun v hv => ⟨hv.proper, hv.countable⟩) fun _ =>
    .ret _ fun v hv => ?_
  exact ⟨b, ⟨hentered.base, hentered.behind⟩, hv⟩

theorem readAndValidateDataHeader_triple (base : ℤ) {d : StructType} (hd : d.Versioned) :
    Enters msg lo R short base (readAndValidateDataHeader msg base d)
      fun n k => ∀ f ∈ d.fields, f.minVersion ≤ k → 8 + f.offset + f.kind.size ≤ n := by
  rw [readAndValidateDataHeader]
  refine (readDataHeader_triple base).bind (fun _ _ => id) fun b n k hentered _ => ?_
  obtain ⟨w, hmem, hnewest⟩ := StructType.newest_isSome hd.start k
  have hfields (hle : w.numBytes ≤ n) :
      ∀ f ∈ d.fields, f.minVersion ≤ k → 8 + f.offset + f.kind.size ≤ n :=
    fun f hf hk => (hd.inside f hf k w hk hnewest).trans hle
  have hscan : (d.versions.reverse.find? fun v => (k : ℤ) ≥ v.version) = some w := by
    rw [← hnewest, StructType.newest]
    simp
  refine .cond (fun _ => ?_) fun hnewer => ?_
  · refine throwIf_bind (fun _ hv => hv) fun hsize => .ret _ fun v hv => ?_
    rw [hscan] at hsize
    dsimp only at hsize
    simp only [Option.all_some, decide_eq_true_eq, not_not] at hsize
    exact ⟨b, n, k, ⟨hentered, hfields (by omega)⟩, hv⟩
  · refine throwIf_bind (fun _ hv => hv) fun hsize => .ret _ fun v hv => ?_
    dsimp only at hnewer hsize
    have hlast := StructType.newest_last (List.ne_nil_of_mem hmem) (by omega : d.last.version ≤ k)
    obtain rfl : w = d.last := Option.some.inj (hnewest.symm.trans hlast)
    exact ⟨b, n, k, ⟨hentered, hfields (by omega)⟩, hv⟩

end Headers

section Arrays

variable {msg : Message} {lo base offset : ℕ} {R : List (ℕ × ℕ)} {r : ℕ × ℕ} {nullable : Bool}
  {short : Prop}

theorem readServiceInterface_triple (h : Within R (base + offset) 8 r) :
    Stays msg lo R short (readServiceInterface msg base offset nullable) := by
  refine .knowing (fun v hv => hv.inside h.mem) fun hin => ?_
  have hstop := h.stop
  have hlt := msg.limit_lt
  have hindex : int ((offset : ℤ) + 4) = (offset + 4 : ℕ) := int_add (n := 4) (by omega)
  rw [readServiceInterface, hindex]
  refine (readHandle_triple (h.mono le_rfl (by omega))).bind fun handle => ?_
  cases handle with
  | handle h' =>
    refine .cond (fun _ => .done _) fun _ => ?_
    exact (readBits_triple (h.mono (by omega) (by omega))).bind fun _ => .ret _ fun _ hv => hv.2
  | _ => exact .done _

theorem Holds.leave {lo' : ℕ} {v : Validator} (h : Holds msg lo' (r :: R) v) (hlo : lo ≤ lo') :
    Holds msg lo R v :=
  h.mono hlo fun _ hr => .tail _ hr

theorem Entered.data {d : ℤ} {b n k : ℕ} (h : Entered msg lo d header b n k) :
    int (d + 8) = (b + 8 : ℕ) := by
  have hinside := h.inside
  have hsize := h.size
  have hlt := msg.limit_lt
  rw [h.base, int_eq (by omega) (by omega), Int.natCast_add]
  rfl

theorem readBooleans_triple (h : Within R (base + offset) 8 r) (expectedLength : ℤ) :
    Stays msg lo R short (readBooleans msg base offset nullable expectedLength) := by
  rw [readBooleans]
  refine readTarget_triple h fun d => ?_
  refine (readDataHeaderForBooleanArray_triple d expectedLength).bind (fun _ _ => id)
    fun b n k hentered hfits => ?_
  have hinside := hentered.inside
  have hbehind := hentered.behind
  have hword := hentered.word
  rw [hentered.data]
  by_cases hk : k + 7 < 2 ^ 31
  · have hbytes : (int ((k : ℤ) + 7)).tdiv 8 = ((k + 7) / 8 : ℕ) := int_tdiv_eight (by omega)
    have hmem : Within ((b + 8, b + n) :: R) (b + 8) (1 * ((k + 7) / 8)) (b + 8, b + n) :=
      ⟨.head _, le_rfl, by have := hfits hk; simp only; omega⟩
    have := hfits hk
    rw [hbytes]
    refine (visit_triple fun si heq => ?_).bind fun _ => ?_
    · obtain rfl := Visit.booleans.inj heq
      simp only
      omega
    refine (newArray_triple (by omega)).bind fun length => .given fun hlength => ?_
    subst hlength
    refine (getAll_triple (by decide) hmem).bind fun result => .given fun _ => ?_
    exact (newArray_triple (by omega)).bind fun length =>
      .ret _ fun v hv => hv.2.leave (by omega)
  · -- the number of bytes is negative
    have hbytes : (int ((k : ℤ) + 7)).tdiv 8 < 0 := by
      rw [int_of_large (by omega) (by omega)]
      have hneg : (k : ℤ) + 7 - 2 ^ 32 = -(2 ^ 32 - 7 - k) := by ring
      rw [hneg, Int.neg_tdiv, Int.tdiv_eq_ediv_of_nonneg (by omega)]
      omega
    refine Triple.bind (Q := fun _ => Fails msg short .negativeArraySize)
      (.update _ fun v hv => ⟨hv.proper, fun hcount => ?_⟩) fun _ => ?_
    · have := hcount ⟨n, k⟩ (.head _)
      simp only at this
      omega
    · rw [newArray, if_pos hbytes]
      exact (Triple.raise (Q := fun _ _ => False) _ fun v hv => hv).bind fun _ _ hv => hv.elim

theorem readNumbers_triple {size : ℕ} (hsize : 0 < size) (hsize' : size ≤ 16)
    (h : Within R (base + offset) 8 r) (expectedLength : ℤ) :
    Stays msg lo R short (readNumbers msg base size offset nullable expectedLength) := by
  rw [readNumbers]
  refine readTarget_triple h fun d => ?_
  refine (readDataHeaderForArray_triple d hsize' expectedLength).bind (fun _ _ => id)
    fun b n k hentered hfits => ?_
  have hinside := hentered.inside
  have hbehind := hentered.behind
  have hmem : Within ((b + 8, b + n) :: R) (b + 8) (size * k) (b + 8, b + n) :=
    ⟨.head _, le_rfl, by simp only; omega⟩
  have halloc : k * (8 * size) ≤ 8 * msg.limit := by
    have : k * (8 * size) = 8 * (size * k) := by ring
    omega
  rw [hentered.data]
  refine (newArray_triple halloc).bind fun length => .given fun hlength => ?_
  subst hlength
  exact (getAll_triple hsize hmem).bind fun result => .ret _ fun v hv => hv.2.leave (by omega)

theorem readString_triple {newString : List UInt8 → List UInt8} (h : Within R (base + offset) 8 r) :
    Stays msg lo R short (readString msg base newString offset nullable) := by
  rw [readString]
  refine (readNumbers_triple (by decide) (by decide) h (-1)).bind fun bytes => ?_
  cases bytes <;> exact .done _

end Arrays

/-! ### What is visited -/

/-- A computation that only adds to what was visited. -/
def Grows {α : Type} (x : Decoding α) : Prop :=
  ∀ visits, Triple (fun v => visits ⊆ v.visits) x (fun _ v => visits ⊆ v.visits)
    fun _ v => visits ⊆ v.visits

section Grows

variable {α β : Type} {x y : Decoding α} {f : α → Decoding β}

@[grind ←] theorem Grows.bind (hx : Grows x) (hf : ∀ a, Grows (f a)) : Grows (x >>= f) :=
  fun visits => (hx visits).bind fun a => hf a visits

@[grind ←] theorem Grows.ret (a : α) : Grows (pure a : Decoding α) := fun _ => .done a

@[grind ←] theorem Grows.raise (e : Exception) : Grows (throw e : Decoding α) :=
  fun _ => .raise e fun _ h => h

@[grind ←] theorem Grows.read : Grows (get : Decoding Validator) := fun _ => .read fun _ h => h

@[grind ←] theorem Grows.update {g : Validator → Validator} (h : ∀ v, (g v).visits = v.visits) :
    Grows (modify g : Decoding Unit) :=
  fun _ => .update _ fun v hv => by rwa [h v]

@[grind ←] theorem Grows.each {l : List α} (hf : ∀ a, Grows (f a)) : Grows (l.mapM' f) :=
  fun visits => .each fun a _ => hf a visits

@[grind ←] theorem note_grows (e : Access) : Grows (note e) := fun _ => .update _ fun _ h => h

@[grind ←] theorem visit_grows (e : Visit) : Grows (visit e) :=
  fun _ => .update _ fun _ h => List.subset_cons_of_subset e h

@[grind ←] theorem throwIf_grows (c : Prop) [Decidable c] (message : String) :
    Grows (throwIf c message) := by
  unfold throwIf
  grind

end Grows

section Growing

variable (msg : Message) (base offset expected : ℤ) (size : ℕ) (nullable : Bool)

@[grind ←] theorem claimMemory_grows (start stop : ℤ) : Grows (claimMemory msg start stop) := by
  unfold claimMemory
  grind

@[grind ←] theorem claimHandle_grows (handle : ℤ) : Grows (claimHandle msg handle) := by
  unfold claimHandle
  grind

@[grind ←] theorem getAll_grows (position : ℤ) (count : ℕ) :
    Grows (getAll msg position count size) := by
  unfold getAll
  grind

@[grind ←] theorem newArray_grows (length : ℤ) (bits : ℕ) : Grows (newArray length bits) := by
  unfold newArray
  grind

@[grind ←] theorem readBits_grows : Grows (readBits msg base offset size) := by
  unfold readBits validateBufferSize getBits
  grind

@[grind ←] theorem readInt_grows : Grows (readInt msg base offset) := by
  unfold readInt
  grind

@[grind ←] theorem readBoolean_grows (bit : ℕ) : Grows (readBoolean msg base offset bit) :=
  (throwIf_grows _ _).bind fun _ => (readBits_grows msg base offset 1).bind fun _ => .ret _

@[grind ←] theorem readDataHeaderAtOffset_grows (isUnion : Bool) :
    Grows (readDataHeaderAtOffset msg base offset isUnion) := by
  unfold readDataHeaderAtOffset
  grind

@[grind ←] theorem readDataHeader_grows : Grows (readDataHeader msg base) := by
  unfold readDataHeader
  grind

@[grind ←] theorem readDataHeaderForUnion_grows :
    Grows (readDataHeaderForUnion msg base offset) := by
  refine (readDataHeaderAtOffset_grows msg base offset true).bind fun header => ?_
  dsimp only
  split <;> exact (throwIf_grows _ _).bind fun _ => .ret _

@[grind ←] theorem readAndValidateDataHeader_grows (d : StructType) :
    Grows (readAndValidateDataHeader msg base d) := by
  refine (readDataHeader_grows msg base).bind fun header => ?_
  dsimp only
  split <;> exact (throwIf_grows _ _).bind fun _ => .ret _

@[grind ←] theorem readDataHeaderForArray_grows (elementSize : ℤ) :
    Grows (readDataHeaderForArray msg base elementSize expected) := by
  unfold readDataHeaderForArray checkLength
  grind

@[grind ←] theorem readHandle_grows : Grows (readHandle msg base offset nullable) := by
  unfold readHandle
  grind

@[grind ←] theorem readServiceInterface_grows :
    Grows (readServiceInterface msg base offset nullable) := by
  refine (readHandle_grows msg base offset nullable).bind fun v => ?_
  cases v <;> grind

@[grind ←] theorem readTarget_grows {read : ℤ → Decoding Value} (h : ∀ d, Grows (read d)) :
    Grows (readTarget msg base offset nullable read) := by
  have hpointer : Grows (readPointer msg base offset nullable) := by
    unfold readPointer readLong
    grind
  refine hpointer.bind fun d => ?_
  cases d <;> grind

@[grind ←] theorem readNumbers_grows :
    Grows (readNumbers msg base size offset nullable expected) := by
  unfold readNumbers
  grind

@[grind ←] theorem readElements_grows (si : DataHeader) {read : ℤ → Decoding Value}
    (h : ∀ d, Grows (read d)) : Grows (readElements si size read) := by
  unfold readElements
  grind

variable (c : Context) {read : Kind → ℤ → ℤ → ℕ → Decoding Value}

@[grind ←] theorem decodeArray_grows (h : ∀ kind base offset bit, Grows (read kind base offset bit))
    (elem : Kind) : Grows (decodeArray c read elem nullable expected base offset) := by
  unfold decodeArray readBooleans readDataHeaderForBooleanArray checkLength readHandles
    readServiceInterfaces readDataHeaderForPointerArray
  cases elem <;> grind

@[grind ←] theorem decodeUnion_grows (h : ∀ kind base offset bit, Grows (read kind base offset bit))
    (name : ℕ) : Grows (decodeUnion c read name base offset) := by
  unfold decodeUnion
  grind

@[grind ←] theorem decodeStruct_grows
    (h : ∀ kind base offset bit, Grows (read kind base offset bit))
    (name : ℕ) : Grows (decodeStruct c read name base) := by
  unfold decodeStruct
  grind

@[grind ←] theorem decode_grows (depth : ℕ) (kind : Kind) (base offset : ℤ) (bit : ℕ) :
    Grows (decode c depth kind base offset bit) := by
  induction depth generalizing kind base offset bit with
  | zero => exact Grows.raise _
  | succ depth ih =>
    unfold decode readString readDataHeaderForMap
    cases kind <;> grind

end Growing

/-- Unions have room: none is behind a pointer, and the elements of an array lie in the memory
that was claimed for it. -/
def Roomy (visits : List Visit) : Prop :=
  .nestedUnion ∉ visits ∧
    ∀ si (size : ℕ), .elements si size ∈ visits →
      8 + (size : ℤ) * si.elementsOrVersion ≤ si.size

theorem Roomy.mono {visits visits' : List Visit} (h : Roomy visits') (hsub : visits ⊆ visits') :
    Roomy visits :=
  ⟨fun hmem => h.1 (hsub hmem), fun si size hmem => h.2 si size (hsub hmem)⟩

/-- A computation of which something is known if there are no unions, or in the end all that
were visited have room. -/
abbrev Keeps {α : Type} (msg : Message) (free short : Prop) (P : Validator → Prop)
    (x : Decoding α) (Q : α → Validator → Prop) : Prop :=
  Triple P x (fun a v => free ∨ Roomy v.visits → Q a v)
    fun e v => free ∨ Roomy v.visits → Fails msg short e v

section Keeps

variable {msg : Message} {free short short' : Prop} {α β : Type} {x : Decoding α}
  {f : α → Decoding β} {Q Q' : α → Validator → Prop} {S : β → Validator → Prop}

theorem Keeps.of_triple (h : Triple P x Q (Fails msg short)) : Keeps msg free short P x Q :=
  h.conseq (fun _ hv => hv) (fun _ _ hv _ => hv) fun _ _ hv _ => hv

theorem Keeps.conseq (h : Keeps msg free short P x Q) {P' : Validator → Prop}
    (hP : ∀ v, P' v → P v) (hQ : ∀ a v, Q a v → Q' a v) (hshort : short → short') :
    Keeps msg free short' P' x Q' :=
  Triple.conseq h hP (fun a v hv hgood => hQ a v (hv hgood)) fun _ _ hv hgood =>
    (hv hgood).mono hshort

theorem Keeps.after (hx : Triple P x Q (Fails msg short))
    (hf : ∀ a, Keeps msg free short (Q a) (f a) S) : Keeps msg free short P (x >>= f) S :=
  Triple.bind (hx.conseq (fun _ hv => hv) (fun _ _ hv => hv) fun _ _ hv _ => hv) hf

-- What was visited in the first part has room if this is so in the end.
theorem Keeps.bind (hx : Keeps msg free short P x Q)
    (hf : ∀ a, Keeps msg free short (Q a) (f a) S) (hgrows : ∀ a, Grows (f a)) :
    Keeps msg free short P (x >>= f) S := by
  refine Triple.bind hx fun a v hv => ?_
  by_cases hgood : free ∨ Roomy v.visits
  · exact hf a v (hv hgood)
  · have hgrow := hgrows a v.visits v (List.Subset.refl _)
    cases hrun : f a v with
    | ok b v' =>
      rw [hrun] at hgrow
      exact fun h => absurd (h.imp_right (·.mono hgrow)) hgood
    | error e v' =>
      rw [hrun] at hgrow
      exact fun h => absurd (h.imp_right (·.mono hgrow)) hgood

theorem Keeps.each {l : List α} (h : ∀ a ∈ l, Keeps msg free short P (f a) fun _ => P)
    (hgrows : ∀ a, Grows (f a)) : Keeps msg free short P (l.mapM' f) fun _ => P := by
  induction l with
  | nil => exact .of_triple (.done _)
  | cons a l ih =>
    refine Keeps.bind (h a (.head _)) (fun b => ?_) fun b => by grind
    exact Keeps.bind (ih fun a ha => h a (.tail _ ha)) (fun _ => .of_triple (.done _))
      fun _ => .ret _

theorem Keeps.of_crowded {e : Visit} (hnot : ¬ free) (he : ∀ visits, e ∈ visits → ¬ Roomy visits)
    (hx : Grows x) : Keeps msg free short P (visit e >>= fun _ => x) Q := by
  refine Triple.bind (Q := fun _ v => [e] ⊆ v.visits) (.update _ fun v _ => by simp)
    fun _ => Triple.conseq (hx [e]) (fun _ hv => hv) ?_ ?_
  all_goals
    intro _ v hv hgood
    exact absurd (hgood.resolve_left hnot) (he v.visits (hv (.head _)))

end Keeps

section Elements

variable {msg : Message} {lo base offset : ℕ} {R : List (ℕ × ℕ)} {r : ℕ × ℕ} {nullable : Bool}
  {free short : Prop}

theorem readTarget_keeps {read : ℤ → Decoding Value} (h : Within R (base + offset) 8 r)
    (hread : ∀ d, Keeps msg free short (Holds msg lo R) (read d) fun _ => Holds msg lo R) :
    Keeps msg free short (Holds msg lo R) (readTarget msg base offset nullable read)
      fun _ => Holds msg lo R := by
  rw [readTarget]
  refine Keeps.after (readPointer_triple h) fun d => ?_
  cases d with
  | none => exact Keeps.of_triple (.done _)
  | some d => exact hread d

/-- The check of the header is for elements of `size` bytes, and they are read `size'` apart. -/
theorem readArray_keeps (size size' : ℕ) {expectedLength : ℤ} {read : ℤ → ℤ → Decoding Value}
    (hsize : size ≤ 16) (hfree : free → size' = size) (h : Within R (base + offset) 8 r)
    (hgrows : ∀ d offset, Grows (read d offset))
    (hread : ∀ b n i, lo ≤ b →
      Within ((b + 8, b + n) :: R) (b + (8 + size' * i)) size' (b + 8, b + n) →
      Keeps msg free short (Holds msg (b + 8) ((b + 8, b + n) :: R)) (read b (8 + size' * i : ℕ))
        fun _ => Holds msg (b + 8) ((b + 8, b + n) :: R)) :
    Keeps msg free short (Holds msg lo R) (readTarget msg base offset nullable fun d => do
        let si ← readDataHeaderForArray msg d size expectedLength
        readElements si size' (read d)) fun _ => Holds msg lo R := by
  refine readTarget_keeps h fun d => ?_
  refine (readDataHeaderForArray_triple d hsize expectedLength).bind (fun _ _ hv _ => hv)
    fun b n k hentered hfits => ?_
  have hbase := hentered.base
  subst hbase
  have hbehind := hentered.behind
  have hinside := hentered.inside
  by_cases hroom : 8 + size' * k ≤ n
  · have halloc : k * (8 * size') ≤ 8 * msg.limit := by
      have : k * (8 * size') = 8 * (size' * k) := by ring
      omega
    rw [readElements]
    refine Keeps.after (visit_triple fun _ heq => by cases heq) fun _ => ?_
    refine Keeps.after (newArray_triple halloc) fun length => .given fun hlength => ?_
    subst hlength
    refine Keeps.bind (Keeps.each (fun i hi => ?_) fun _ => hgrows _ _)
      (fun _ => Keeps.of_triple (.ret _ fun v hv => hv.leave (by omega))) fun _ => .ret _
    have hlast : size' * (i + 1) ≤ size' * length :=
      Nat.mul_le_mul_left size' (List.mem_range.mp hi)
    rw [Nat.mul_succ] at hlast
    have hstart : b + 8 ≤ b + (8 + size' * i) := by omega
    have hstop : b + (8 + size' * i) + size' ≤ b + n := by omega
    have hcast : (size' : ℤ) * i = (size' * i : ℕ) := (Int.natCast_mul ..).symm
    have hindex : int (8 + int ((size' : ℤ) * i)) = (8 + size' * i : ℕ) := by
      have hlt := msg.limit_lt
      rw [hcast, int_eq (x := (size' * i : ℕ)) (by omega) (by omega), int_eq (by omega) (by omega),
        Int.natCast_add]
      rfl
    rw [hindex]
    exact hread b n i hbehind ⟨.head _, hstart, hstop⟩
  · -- The visit of the array remains, and it has no room.
    have hnotfree : ¬ free := fun hf => hroom (hfree hf ▸ hfits)
    rw [readElements]
    refine Keeps.of_crowded hnotfree (fun visits hmem hroomy => hroom ?_) (by grind)
    have hle : 8 + (size' : ℤ) * (k : ℤ) ≤ n := hroomy.2 ⟨n, k⟩ size' hmem
    exact_mod_cast hle

end Elements

section Generated

variable {c : Context} {free : Prop} {depth lo base offset : ℕ} {R : List (ℕ × ℕ)} {r : ℕ × ℕ}

/-- Members are decoded inside what was claimed, and the stack overflows only if `depth` is
too small for the message. -/
def Decodes (c : Context) (free : Prop) (depth : ℕ) : Prop :=
  ∀ ⦃kind : Kind⦄ ⦃lo base offset : ℕ⦄ ⦃R : List (ℕ × ℕ)⦄ ⦃r : ℕ × ℕ⦄ (bit : ℕ),
    kind.isSlot = true → (free → kind.isUnionFree = true) →
    Within R (base + offset) kind.size r → lo ≤ base + offset →
    Keeps c.message free (lo + 8 * depth ≤ c.message.limit) (Holds c.message lo R)
      (decode c depth kind base offset bit) fun _ => Holds c.message lo R

theorem decodeArray_keeps (ih : Decodes c free depth) {elem : Kind} {nullable : Bool}
    (hmojom : elem.isMojom) (hfree : free → elem.isUnionFree)
    (h : Within R (base + offset) 8 r) (expectedLength : ℤ) :
    Keeps c.message free (lo + 8 * (depth + 1) ≤ c.message.limit) (Holds c.message lo R)
      (decodeArray c (decode c depth) elem nullable expectedLength base offset)
      fun _ => Holds c.message lo R := by
  have hgrows (d offset : ℤ) : Grows (decode c depth elem d offset 0) := decode_grows _ _ _ _ _ _
  have hslot := Kind.isSlot_of_isMojom hmojom
  cases elem with
  | bool =>
    rw [decodeArray]
    exact Keeps.of_triple (readBooleans_triple h expectedLength)
  | number size =>
    have hsize : 0 < size ∧ size ≤ 16 := by
      simp only [Kind.isMojom, List.mem_cons, List.not_mem_nil, or_false, decide_eq_true_eq]
        at hmojom
      omega
    rw [decodeArray]
    exact Keeps.of_triple (readNumbers_triple hsize.1 hsize.2 h expectedLength)
  | handle elementNullable =>
    rw [decodeArray, readHandles]
    exact readArray_keeps _ _ (by decide) (fun _ => rfl) h (fun d o => readHandle_grows _ d o _)
      fun b n i _ hin => Keeps.of_triple (readHandle_triple hin)
  | interface elementNullable =>
    rw [decodeArray, readServiceInterfaces]
    exact readArray_keeps _ _ (by decide) (fun _ => rfl) h
      (fun d o => readServiceInterface_grows _ d o _)
      fun b n i _ hin => Keeps.of_triple (readServiceInterface_triple hin)
  | union name nullable =>
    rw [decodeArray]
    refine readArray_keeps 8 16 (by decide) (fun hf => ?_) h hgrows fun b n i hlo hin => ?_
    · cases hfree hf
    · exact (ih 0 hslot hfree hin (by omega)).conseq (fun _ hv => hv) (fun _ _ hv => hv) (by omega)
  | unionPointer name nullable => cases hmojom
  | string | array | map | struct =>
    rw [decodeArray]
    refine readArray_keeps 8 8 (by decide) (fun _ => rfl) h hgrows fun b n i hlo hin => ?_
    exact (ih 0 hslot hfree hin (by omega)).conseq (fun _ hv => hv) (fun _ _ hv => hv) (by omega)

theorem decodeStruct_keeps (hversioned : c.types.Versioned) (hfree : free → c.types.UnionFree)
    (ih : Decodes c free depth) (name : ℕ) (base : ℤ) :
    Keeps c.message free (lo + 8 * (depth + 1) ≤ c.message.limit) (Holds c.message lo R)
      (decodeStruct c (decode c depth) name base) fun _ => Holds c.message lo R := by
  rw [decodeStruct]
  refine (readAndValidateDataHeader_triple base (hversioned.struct name)).bind
    (fun _ _ hv _ => hv) fun b n k hentered hfits => ?_
  have hbase := hentered.base
  subst hbase
  have hbehind := hentered.behind
  refine Keeps.bind (Keeps.each (fun f hf => ?_) fun f => by grind)
    (fun _ => Keeps.of_triple (.ret _ fun v hv => hv.leave (by omega))) fun _ => .ret _
  refine .cond (fun hversion => ?_) fun _ => Keeps.of_triple (.done _)
  have hin := hfits f hf (by dsimp only at hversion; omega)
  exact (ih (r := (b + 8, b + n)) f.bit
    (Kind.isSlot_of_isMojom ((hversioned.struct name).kinds f hf)) (fun h => hfree h name f hf)
    ⟨.head _, by simp only; omega, by simp only; omega⟩ (by omega)).conseq
    (fun _ hv => hv) (fun _ _ hv => hv) (by omega)

theorem Holds.raise {msg : Message} {v : Validator} (h : Holds msg lo R v) {lo' : ℕ} (hr : r ∈ R)
    (hle : lo' ≤ r.2) : Holds msg lo' R v :=
  { h with
    lower := by
      have := h.memory r.1 r.2 (h.ranges r hr)
      simp only [roundUp8] at this
      omega }

theorem decodeUnion_keeps (hversioned : c.types.Versioned) (hunion : ¬ free)
    (ih : Decodes c free depth) (name : ℕ) (h : Within R (base + offset) 16 r)
    (hlo : lo ≤ base + offset) :
    Keeps c.message free (lo + 8 * (depth + 1) ≤ c.message.limit) (Holds c.message lo R)
      (decodeUnion c (decode c depth) name base offset) fun _ => Holds c.message lo R := by
  refine .knowing (fun v hv => hv.inside h.mem) fun hin => ?_
  have hstop := h.stop
  have hlt := c.message.limit_lt
  have hindex : int ((offset : ℤ) + 8) = (offset + 8 : ℕ) := int_add (n := 8) (by omega)
  rw [decodeUnion, hindex]
  refine Keeps.after (Q := fun _ => Holds c.message lo R) ?_ fun header => ?_
  · rw [readDataHeaderForUnion]
    refine (readDataHeaderAtOffset_triple (h.mono le_rfl (by omega))).bind fun header =>
      .given fun _ => ?_
    refine .cond (fun _ => ?_) fun _ => ?_
    · exact throwIf_bind (fun _ hv => hv) fun _ => .done _
    · exact throwIf_bind (fun _ hv => hv) fun _ => .done _
  · refine .cond (fun _ => Keeps.of_triple (.done _)) fun _ => ?_
    cases hactive : activeMember c name header.elementsOrVersion with
    | none => exact Keeps.of_triple (.done _)
    | some kind =>
      have hkind : kind.isMojom = true := by
        rw [activeMember] at hactive
        split_ifs at hactive
        exact hversioned.union name kind (List.mem_of_getElem? hactive)
      have hsize := size_inUnion hkind
      -- the field is behind the header of the union, which is as good as claimed
      have hin : Within R (base + (offset + 8)) kind.inUnion.size r := h.mono (by omega) (by omega)
      have hfield := ih 0 (isSlot_inUnion hkind) (absurd · hunion) hin
        (by omega : base + offset + 8 ≤ _)
      refine Keeps.bind (hfield.conseq (fun _ hv => hv.raise h.mem (by omega))
        (fun _ _ hv => hv.mono (by omega) fun _ hr => hr) (by omega))
        (fun _ => Keeps.of_triple (.done _)) fun _ => .ret _

theorem decodes (hversioned : c.types.Versioned) (hfree : free → c.types.UnionFree) (depth : ℕ) :
    Decodes c free depth := by
  induction depth with
  | zero =>
    -- the member is inside the message, which ends before `lo`
    intro kind lo base offset R r bit hslot hunion h hlo
    refine .knowing (fun v hv => hv.inside h.mem) fun hin =>
      Keeps.of_triple (.raise _ fun v hv => ⟨hv.proper, ?_⟩)
    have := h.stop
    simp only [Raises]
    omega
  | succ depth ih =>
    intro kind lo base offset R r bit hslot hunion h hlo
    cases kind with
    | number size =>
      rw [decode]
      exact Keeps.of_triple ((readBits_triple h).bind fun _ => .ret _ fun _ hv => hv.2)
    | bool =>
      rw [decode]
      exact Keeps.of_triple ((readBoolean_triple h).bind fun _ => .done _)
    | handle nullable =>
      rw [decode]
      exact Keeps.of_triple (readHandle_triple h)
    | interface nullable =>
      rw [decode]
      exact Keeps.of_triple (readServiceInterface_triple h)
    | string nullable =>
      rw [decode]
      exact Keeps.of_triple (readString_triple h)
    | array elem count nullable =>
      rw [decode]
      have hmojom : elem.isMojom := hslot
      exact decodeArray_keeps ih hmojom hunion h _
    | map key value nullable =>
      obtain ⟨hkey, hvalue⟩ := isMojom_key hslot
      simp only [Kind.isUnionFree, Bool.and_eq_true] at hunion
      rw [decode]
      refine readTarget_keeps h fun d => ?_
      refine Keeps.after (readDataHeaderForMap_triple d) fun _ => .ex fun b =>
        .given fun hentered => ?_
      obtain ⟨rfl, hbehind⟩ := hentered
      have hkeysIn : Within ((b + 8, b + 24) :: R) (b + 8) 8 (b + 8, b + 24) :=
        ⟨.head _, by simp only; omega, by simp only; omega⟩
      have hvaluesIn : Within ((b + 8, b + 24) :: R) (b + 16) 8 (b + 8, b + 24) :=
        ⟨.head _, by simp only; omega, by simp only; omega⟩
      refine Keeps.conseq (Q := fun _ => Holds c.message (b + 8) ((b + 8, b + 24) :: R)) ?_
        (fun _ hv => hv) (fun _ _ hv => hv.leave (by omega))
        fun hle : b + 8 + 8 * (depth + 1) ≤ c.message.limit => by omega
      refine Keeps.bind (decodeArray_keeps ih hkey (fun hf => (hunion hf).1) hkeysIn (-1))
        (fun keys => ?_) fun keys => by grind
      refine Keeps.bind (decodeArray_keeps ih hvalue (fun hf => (hunion hf).2) hvaluesIn _)
        (fun values => Keeps.of_triple (.done _)) fun _ => .ret _
    | struct name nullable =>
      rw [decode]
      exact readTarget_keeps h fun d => decodeStruct_keeps hversioned hfree ih name d
    | union name nullable =>
      rw [decode]
      have hnot : ¬ free := fun hf => by cases hunion hf
      refine Keeps.bind (decodeUnion_keeps hversioned hnot ih name h hlo) (fun result => ?_)
        fun result => by grind
      cases result with
      | null => exact Keeps.of_triple (throwIf_bind (fun _ hv => hv) fun _ => .done _)
      | _ => exact Keeps.of_triple (.done _)
    | unionPointer name nullable =>
      rw [decode]
      have hnot : ¬ free := fun hf => by cases hunion hf
      exact readTarget_keeps h fun d =>
        Keeps.of_crowded hnot (fun _ hmem hroomy => hroomy.1 hmem)
          (decodeUnion_grows d 0 c (decode_grows c depth) name)

end Generated

end Mojo.JavaBindings
