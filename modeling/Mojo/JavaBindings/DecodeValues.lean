import Mojo.JavaBindings.EncodePut
import Mojo.Wire.Reader

/-!
# What the Java decoder returns

In a message where members hold values, with the objects behind them and the handles in order, the
decoder returns the values. It never notices that an object or a handle is out of order: what it has
claimed ends where the next object and the next handle begin.
-/

namespace Mojo.JavaBindings

open Mojo.Memory Mojo.Wire Mojo.CppBindings Mojo.System
open List hiding modify

def Ready (lo i : ℕ) (v : Validator) : Prop := v.minNextMemory ≤ lo ∧ v.minNextClaimedHandle ≤ i

theorem Ready.mono {lo lo' i i' : ℕ} (h : lo ≤ lo') (hi : i ≤ i') (v : Validator)
    (hv : Ready lo i v) :
    Ready lo' i' v :=
  ⟨hv.1.trans (by exact_mod_cast h), hv.2.trans (by exact_mod_cast hi)⟩

abbrev Peeks {α : Type} (lo i : ℕ) (x : Decoding α) (a : α) : Prop :=
  Returns (Ready lo i) x a (Ready lo i)

variable {P : Validator → Prop} {t k n : ℕ}

section Steps

variable {msg : Message} {lo i : ℕ}

theorem throwIf_returns {c : Prop} [Decidable c] {message : String} (h : ¬ c) :
    Returns P (throwIf c message) () P := by
  rw [throwIf, if_neg h]
  exact .ret () fun _ hs => hs

theorem note_returns (e : Access) : Peeks lo i (note e) () :=
  .update _ fun _ hs => hs

theorem visit_returns (e : Visit) : Peeks lo i (visit e) () :=
  .update _ fun _ hs => hs

theorem getBits_returns {a : ℕ} (h : a + n ≤ msg.limit) :
    Peeks lo i (getBits msg a n) (load msg.data a n) := by
  rw [getBits, if_pos (by omega)]
  exact (note_returns _).bind (.done _)

variable {size : ℕ}

theorem getAll_returns {a count : ℕ} (hsize : 0 < size) (h : a + size * count ≤ msg.limit) :
    Peeks lo i (getAll msg a count size)
      ((List.range count).map fun k => load msg.data (a + size * k) size) := by
  have hfull : ¬ (msg.limit - (a : ℤ).toNat) / size < count := by
    rw [not_lt, Nat.le_div_iff_mul_le hsize, Nat.mul_comm, Int.toNat_natCast]
    omega
  rw [getAll, if_neg (by omega), if_neg hfull]
  exact (note_returns _).bind (.done _)

theorem newArray_returns (n bits : ℕ) : Peeks lo i (newArray n bits) n := by
  rw [newArray, if_neg (by omega)]
  exact (note_returns _).bind (.done _)

theorem readBits_returns (h : t + k + n ≤ msg.limit) :
    Peeks lo i (readBits msg t k n) (load msg.data (t + k) n) := by
  have hlimit := msg.limit_lt
  have hindex : int ((t : ℤ) + k) = (t + k : ℕ) := int_add (by omega)
  rw [readBits, hindex]
  refine (throwIf_returns ?_).bind (getBits_returns h)
  rw [int_eq (by omega) (by omega)]
  omega

theorem readInt_returns {x : ℕ} (h : t + k + 4 ≤ msg.limit) (hload : load msg.data (t + k) 4 = x) :
    Peeks lo i (readInt msg t k) (int x) := by
  subst hload
  exact (readBits_returns h).bind (.done _)

theorem readLong_returns {x : ℕ} (h : t + k + 8 ≤ msg.limit) (hload : load msg.data (t + k) 8 = x) :
    Peeks lo i (readLong msg t k) (long x) := by
  subst hload
  exact (readBits_returns h).bind (.done _)

theorem claimMemory_returns {start stop : ℕ} (halign : start % 8 = 0) (hle : start ≤ stop)
    (hstop : stop ≤ msg.limit) :
    Returns (Ready start i) (claimMemory msg start stop) () (Ready (align8 stop) i) := by
  have htmod : ((start : ℤ).tmod 8) = 0 := by
    rw [Int.tmod_eq_emod_of_nonneg (by omega)]
    omega
  have hend : align (stop : ℤ) = (align8 stop : ℕ) := by
    simp only [align, align8]
    omega
  refine .with_state fun v hv => ?_
  have hchecks : Returns (· = v) (do
      throwIf ((start : ℤ).tmod 8 ≠ 0) ("Incorrect starting alignment: " ++ toString (start : ℤ) ++
        ".")
      throwIf ((start : ℤ) < v.minNextMemory) "Trying to access memory out of order."
      throwIf ((stop : ℤ) < start) "Incorrect memory range."
      throwIf ((stop : ℤ) > msg.limit) "Trying to access out of range memory."
      modify fun v => { v with
        minNextMemory := align stop
        log := .claim (start : ℤ).toNat (stop : ℤ).toNat :: v.log }) ()
          (Ready (align8 stop) i) := by
    refine (throwIf_returns (by omega)).bind ((throwIf_returns (by have := hv.1; omega)).bind
      ((throwIf_returns (by omega)).bind ((throwIf_returns (by omega)).bind (.update _ ?_))))
    rintro _ rfl
    exact ⟨hend.le, hv.2⟩
  exact hchecks v rfl

theorem claimHandle_returns (h : i < msg.handles.length) :
    Returns (Ready lo i) (claimHandle msg i) () (Ready lo (i + 1)) := by
  have hlen := msg.handles_lt
  have hnext : int ((i : ℤ) + 1) = (i + 1 : ℕ) := int_add (n := 1) (by omega)
  refine .with_state fun v hv => ?_
  have hchecks : Returns (· = v) (do
      throwIf ((i : ℤ) < v.minNextClaimedHandle) "Trying to access handle out of order."
      throwIf ((i : ℤ) ≥ msg.handles.length) "Trying to access non present handle."
      modify fun v => { v with
        minNextClaimedHandle := int ((i : ℤ) + 1)
        log := .handle (i : ℤ).toNat :: v.log }) () (Ready lo (i + 1)) := by
    refine (throwIf_returns (by have := hv.2; omega)).bind
      ((throwIf_returns (by omega)).bind (.update _ ?_))
    rintro _ rfl
    exact ⟨hv.1, hnext.le⟩
  exact hchecks v rfl

theorem readDataHeaderAtOffset_returns {word : ℕ} (hend : t + k + 8 ≤ msg.limit)
    (hsize : load msg.data (t + k) 4 = size) (hword : load msg.data (t + k + 4) 4 = word)
    (hs : size < 2 ^ 31)
    (hw : word < 2 ^ 31) (isUnion : Bool) :
    Peeks lo i (readDataHeaderAtOffset msg t k isUnion) ⟨size, word⟩ := by
  have hlimit := msg.limit_lt
  have hoffset : int ((k : ℤ) + 4) = (k + 4 : ℕ) := int_add (n := 4) (by omega)
  rw [Nat.add_assoc] at hword
  have hfirst : Peeks lo i (readInt msg t k) (int size) := readInt_returns (by omega) hsize
  have hsecond : Peeks lo i (readInt msg t (k + 4 : ℕ)) (int word) :=
    readInt_returns (by omega) hword
  rw [int_of_lt hs] at hfirst
  rw [int_of_lt hw] at hsecond
  rw [readDataHeaderAtOffset, hoffset]
  exact hfirst.bind (hsecond.bind
    ((throwIf_returns (by omega)).bind ((throwIf_returns (by omega)).bind (.done _))))

theorem readDataHeader_returns {word : ℕ} (halign : lo % 8 = 0) (hheader : headerSize ≤ size)
    (hend : lo + size ≤ msg.limit) (hsize : load msg.data lo 4 = size)
    (hword : load msg.data (lo + 4) 4 = word)
    (hw : word < 2 ^ 31) : Returns (Ready lo i) (readDataHeader msg lo) ⟨size, word⟩
      (Ready (lo + align8 size) i) := by
  have hlimit := msg.limit_lt
  simp only [headerSize] at hheader
  have hbody : int ((lo : ℤ) + 8) = (lo + 8 : ℕ) := int_add (n := 8) (by omega)
  have hstop : int ((lo : ℤ) + size) = (lo + size : ℕ) := int_add (by omega)
  have haligned : align8 (lo + size) = lo + align8 size := by
    simp only [align8]
    omega
  rw [readDataHeader, hbody]
  have hfirst : Returns (Ready lo i) (claimMemory msg lo (lo + 8 : ℕ)) ()
      (Ready (align8 (lo + 8)) i) :=
    claimMemory_returns halign (Nat.le_add_right lo 8) (by omega)
  rw [align8_of_mod (by omega)] at hfirst
  have hwords : Returns (Ready (lo + 8) i) (readDataHeaderAtOffset msg lo 0 false) ⟨size, word⟩
      (Ready (lo + 8) i) :=
    readDataHeaderAtOffset_returns (t := lo) (k := 0) (by omega) hsize hword (by omega) hw false
  refine hfirst.bind (hwords.bind ?_)
  simp only
  rw [hstop]
  have hrest : Returns (Ready (lo + 8) i) (claimMemory msg (lo + 8 : ℕ) (lo + size : ℕ)) ()
      (Ready (align8 (lo + size)) i) := claimMemory_returns (by omega) (by omega) hend
  rw [haligned] at hrest
  exact hrest.bind (.done _)

end Steps

abbrev Context.Sees (c : Context) (w : Walk) (depth : ℕ) :
    Pen → List (Slot × Value) → ℕ → ℕ → Prop :=
  Wire.Sees c.types w depth c.message.data c.message.limit c.message.handles

/-- Claimed are `size` bytes from `lo` on, with the objects behind the members and their handles. -/
abbrev Past (c : Context) (depth size lo i : ℕ) (ps : List (Slot × Value)) : Validator → Prop :=
  Ready (lo + align8 size + outSizes c.types depth ps) (i + (handlesOf c.types depth ps).length)

structure Readable (c : Context) (D : Domain) (w : Walk) (depth : ℕ) (parent : Kind) (pen : Pen)
    (q : Slot) (v : Value) (lo i : ℕ) : Prop where
  kind : HasKind c.types D depth q.kind v
  fits : Always c.types (Fits c.types) depth parent q.kind v
  slot : q.kind.isSlot
  inside : pen.base + pen.size ≤ c.message.limit
  sees : c.Sees w depth pen [(q, v)] lo i

/-- A read of the member gives the value, and claims the objects behind it and its handles. -/
def Gives (c : Context) (depth : ℕ) (kind : Kind) (v : Value) (lo i : ℕ) (x : Decoding Value) :
    Prop :=
  Returns (Ready lo i) x v (Ready (lo + outSize c.types depth kind v)
    (i + (handles c.types depth kind v).length))

def Reads (c : Context) (D : Domain) (depth : ℕ) (read : Kind → ℤ → ℤ → ℕ → Decoding Value) :
    Prop :=
  ∀ {w parent pen q v lo i}, Readable c D w depth parent pen q v lo i →
    Gives c depth q.kind v lo i (read q.kind pen.base q.addr q.bit)

section Scalars

variable {c : Context} {D : Domain} {w : Walk} {depth lo i addr bit : ℕ} {parent : Kind} {pen : Pen}
  {q : Slot} {v : Value}

theorem Readable.place (h : Readable c D w depth parent pen q v lo i) :
    pen.base + q.addr + q.kind.size ≤ c.message.limit := by
  have hin := h.sees.inside _ (.head _)
  have := h.inside
  simp only at hin
  omega

theorem gives_of_none {kind : Kind} {x : Decoding Value} (ho : object c.types kind v = none)
    (hh : handles c.types 0 kind v = []) (h : Peeks lo i x v) : Gives c depth kind v lo i x := by
  rw [handles_of_none ho] at hh
  rw [Gives, outSize_of_none ho, handles_of_none ho, hh]
  exact h

theorem readBits_gives {size : ℕ}
    (h : Readable c D w depth parent pen ⟨.number size, addr, bit⟩ (.number n) lo i) :
    Gives c depth (.number size) (.number n) lo i
      (do return .number (← readBits c.message pen.base addr size)) := by
  have hcontent : load c.message.data (pen.base + addr) size = n := h.sees.content
  have hread : Peeks lo i (readBits c.message pen.base addr size) _ := readBits_returns h.place
  rw [hcontent] at hread
  exact gives_of_none rfl rfl (hread.bind (.done _))

theorem readBoolean_gives {b : Bool}
    (h : Readable c D w depth parent pen ⟨.bool, addr, bit⟩ (.bool b) lo i) :
    Gives c depth .bool (.bool b) lo i
      (do return .bool (← readBoolean c.message pen.base addr bit)) := by
  have hcontent : (c.message.data (pen.base + addr)).toNat.testBit bit = b := h.sees.content
  have hbyte : load c.message.data (pen.base + addr) 1 =
      (c.message.data (pen.base + addr)).toNat := by
    simp [load]
  have hlimit := c.message.limit_lt
  have hplace : pen.base + addr + 1 ≤ c.message.limit := h.place
  have hread : Peeks lo i (readByte c.message pen.base addr) _ := readBits_returns hplace
  rw [hbyte] at hread
  have hbool : Peeks lo i (readBoolean c.message pen.base addr bit) b := by
    refine (throwIf_returns ?_).bind (hread.bind ?_)
    · rw [int_eq (by omega) (by omega)]
      omega
    · rw [hcontent]
      exact .done _
  exact gives_of_none rfl rfl (hbool.bind (.done _))

variable {nullable : Bool}

theorem readHandle_handle (hend : t + k + 4 ≤ c.message.limit)
    (hload : load c.message.data (t + k) 4 = i) (hget : c.message.handles[i]? = some n) :
    Returns (Ready lo i) (readHandle c.message t k nullable) (.handle n) (Ready lo (i + 1)) := by
  obtain ⟨hlt, hvalue⟩ := List.getElem?_eq_some_iff.mp hget
  have hlen := c.message.handles_lt
  have hindex : Peeks lo i (readInt c.message t k) (int i) := readInt_returns hend hload
  rw [int_of_lt (by omega)] at hindex
  refine hindex.bind ?_
  rw [if_neg (by omega), Int.toNat_natCast, getD_eq_getElem?_getD, hget]
  exact (claimHandle_returns hlt).bind (.done _)

theorem readHandle_null (hend : t + k + 4 ≤ c.message.limit)
    (hload : load c.message.data (t + k) 4 = encodedInvalidHandle) (hnull : nullable) :
    Peeks lo i (readHandle c.message t k nullable) .null := by
  have hindex : Peeks lo i (readInt c.message t k) (int encodedInvalidHandle) :=
    readInt_returns hend hload
  have hminus : int (encodedInvalidHandle : ℕ) = -1 := by
    rw [int_of_large (by decide) (by decide)]
    rfl
  rw [hminus] at hindex
  refine hindex.bind ?_
  rw [if_pos rfl]
  exact (throwIf_returns (by simp [hnull])).bind (.done _)

theorem readHandle_gives (h : Readable c D w depth parent pen ⟨.handle nullable, addr, bit⟩
    v lo i) :
    Gives c depth (.handle nullable) v lo i (readHandle c.message pen.base addr nullable) := by
  have hscalar : Scalar D (.handle nullable) v := h.kind.scalar (by cases v <;> rfl)
  have hcontent := h.sees.content
  have hplace : pen.base + addr + 4 ≤ c.message.limit := h.place
  cases hscalar with
  | handle _ hh =>
    rename_i n
    have hhandles : handles c.types depth (.handle nullable) (.handle n) = [n] :=
      handles_of_none rfl
    have hget := h.sees.handle rfl hhandles
    rw [Gives, outSize_of_none rfl, hhandles]
    exact readHandle_handle hplace hcontent hget
  | null hnull =>
    exact gives_of_none rfl rfl (readHandle_null hplace hcontent hnull)

theorem readServiceInterface_gives (hD : D.Valid)
    (h : Readable c D w depth parent pen ⟨.interface nullable, addr, bit⟩ v lo i) :
    Gives c depth (.interface nullable) v lo i
      (readServiceInterface c.message pen.base addr nullable) := by
  have hscalar : Scalar D (.interface nullable) v := h.kind.scalar (by cases v <;> rfl)
  have hcontent := h.sees.content
  have hplace : pen.base + addr + 8 ≤ c.message.limit := h.place
  have hlimit := c.message.limit_lt
  cases hscalar with
  | interface _ hh hversion =>
    rename_i n version
    have hhandles : handles c.types depth (.interface nullable) (.interface n version) = [n] :=
      handles_of_none rfl
    have hget := h.sees.handle rfl hhandles
    rw [Gives, outSize_of_none rfl, hhandles]
    have hoffset : int ((addr : ℤ) + 4) = (addr + 4 : ℕ) := int_add (n := 4) (by omega)
    have hversion : load c.message.data (pen.base + (addr + 4)) 4 = version := hcontent.2
    have hread : Returns (Ready lo (i + 1)) (readBits c.message pen.base (addr + 4 : ℕ) 4) _
        (Ready lo (i + 1)) := readBits_returns (by omega)
    rw [hversion] at hread
    have hhandle : Returns (Ready lo i) (readHandle c.message pen.base addr nullable) (.handle n)
        (Ready lo (i + 1)) := readHandle_handle (by omega) hcontent.1 hget
    refine hhandle.bind ?_
    simp only
    rw [if_neg (hD n hh), hoffset]
    exact hread.bind (.done _)
  | null hnull =>
    have hread : Peeks lo i (readHandle c.message pen.base addr nullable) .null :=
      readHandle_null (by omega) hcontent.1 hnull
    exact gives_of_none rfl rfl (hread.bind (.done _))

theorem readPointer_null (hend : t + k + 8 ≤ c.message.limit)
    (hload : load c.message.data (t + k) 8 = 0) (hnull : nullable) (read : ℤ → Decoding Value) :
    Peeks lo i (readTarget c.message t k nullable read) .null := by
  have hread : Peeks lo i (readLong c.message t k) (long (0 : ℕ)) := readLong_returns hend hload
  have hzero : long ((0 : ℕ) : ℤ) = 0 := long_eq (by omega) (by omega)
  rw [hzero] at hread
  have hpointer : Peeks lo i (readPointer c.message t k nullable) none := by
    refine hread.bind ?_
    rw [if_pos rfl]
    exact (throwIf_returns (by simp [hnull])).bind (.done _)
  exact hpointer.bind (.done _)

theorem readTarget_returns {x : ℕ} (hend : t + k + 8 ≤ c.message.limit)
    (hx : t + k < x) (hlimit : x ≤ c.message.limit)
    (hload : load c.message.data (t + k) 8 = x - (t + k))
    {read : ℤ → Decoding Value} (hread : Returns (Ready lo i) (read x) v P) :
    Returns (Ready lo i) (readTarget c.message t k nullable read) v P := by
  have hbound := c.message.limit_lt
  have hlong : Peeks lo i (readLong c.message t k) (long (x - (t + k) : ℕ)) :=
    readLong_returns hend hload
  rw [long_eq (by omega) (by omega)] at hlong
  have htarget : int (long (int ((t : ℤ) + k) + (x - (t + k) : ℕ))) = x := by
    rw [int_eq (x := (t : ℤ) + k) (by omega) (by omega), long_eq (by omega) (by omega),
      int_eq (by omega) (by omega)]
    omega
  have hpointer : Peeks lo i (readPointer c.message t k nullable) (some (x : ℤ)) := by
    refine hlong.bind ?_
    rw [if_neg (by omega), htarget]
    exact .done _
  exact hpointer.bind hread

end Scalars

variable {size' : ℕ}

section Objects

variable {c : Context} {D : Domain} {w : Walk} {depth lo i addr bit size word : ℕ} {parent : Kind}
  {pen : Pen} {q : Slot} {v : Value} {members : List (Slot × Value)}

structure Target (c : Context) (depth : ℕ) (lo i size word : ℕ) (members : List (Slot × Value)) :
    Prop where
  aligned : lo % 8 = 0
  header : headerSize ≤ size
  first : load c.message.data lo 4 = size
  second : load c.message.data (lo + 4) 4 = word
  room : lo + align8 size + outSizes c.types depth members ≤ c.message.limit
  small : word < 2 ^ 31
  sees : c.Sees (indexed (members.map Prod.fst)) depth (.start lo size) members (lo + align8 size) i

theorem Target.inside (h : Target c depth lo i size word members) :
    lo + size ≤ c.message.limit := by
  have := le_align8 size
  have := h.room
  omega

variable {nullable : Bool}

theorem readTarget_object (hΓ : c.types.Laid) (hp : q.kind.isPointer)
    (ho : object c.types q.kind v = some ⟨size, word, members⟩)
    (h : Readable c D w (depth + 1) parent pen q v lo i) {read : ℤ → Decoding Value}
    {x : Value} (hread : Target c depth lo i size word members →
      Returns (Ready lo i) (read lo) x (Past c depth size lo i members)) :
    Returns (Ready lo i) (readTarget c.message pen.base q.addr nullable read) x
      (Ready (lo + outSize c.types (depth + 1) q.kind v)
        (i + (handles c.types (depth + 1) q.kind v).length)) := by
  obtain ⟨hlt, halign, hload, ⟨hsize, hword, -⟩, hroom⟩ := h.sees.pointer hp ho
  have hplace := h.place
  rw [(size_of_isPointer hp).2] at hplace
  have htarget : Target c depth lo i size word members :=
    { aligned := halign
      header := (object_laid hΓ h.slot ho).header
      first := hsize
      second := hword
      room := hroom
      small := (h.fits.here.object _ ho).2
      sees := h.sees.members hΓ h.slot hp ho (flows_indexed members)
        fun n (hn : none = some n) => by cases hn }
  rw [outSize_succ ho, if_pos hp, handles_succ ho, ← Nat.add_assoc]
  refine readTarget_returns hplace hlt ?_ hload (hread htarget)
  simp only at hroom
  omega

theorem readDataHeader_target (h : Target c depth lo i size word members) :
    Returns (Ready lo i) (readDataHeader c.message lo) ⟨size, word⟩ (Ready (lo + align8 size) i) :=
  readDataHeader_returns h.aligned h.header h.inside h.first h.second h.small

variable {expected : ℤ}

theorem checkLength_returns (h : expected = -1 ∨ expected = word) :
    Returns P (checkLength ⟨size, word⟩ expected) () P := by
  refine throwIf_returns ?_
  rintro ⟨hne, hword⟩
  exact h.elim hne fun heq => hword heq.symm

theorem readDataHeaderForArray_target (h : Target c depth lo i size word members) {elementSize : ℕ}
    (hsize : headerSize + elementSize * word ≤ size) (he : expected = -1 ∨ expected = word) :
    Returns (Ready lo i) (readDataHeaderForArray c.message lo elementSize expected) ⟨size, word⟩
      (Ready (lo + align8 size) i) := by
  have hbound := c.message.limit_lt
  have hinside := h.inside
  simp only [headerSize] at hsize
  refine (readDataHeader_target h).bind
    ((throwIf_returns ?_).bind ((checkLength_returns he).bind (.done _)))
  simp only
  rw [← Nat.cast_mul, long_eq (x := ((elementSize * word : ℕ) : ℤ)) (by omega) (by omega),
    long_eq (by omega) (by omega)]
  omega

theorem readDataHeaderForBooleanArray_target (h : Target c depth lo i size word members)
    (hsize : headerSize + (word + 7) / 8 ≤ size) (hshort : word + 7 < 2 ^ 31)
    (he : expected = -1 ∨ expected = word) :
    Returns (Ready lo i) (readDataHeaderForBooleanArray c.message lo expected) ⟨size, word⟩
      (Ready (lo + align8 size) i) := by
  have hbound := c.message.limit_lt
  have hinside := h.inside
  simp only [headerSize] at hsize
  refine (readDataHeader_target h).bind
    ((throwIf_returns ?_).bind ((checkLength_returns he).bind (.done _)))
  have hbytes : (int ((word : ℤ) + 7)).tdiv 8 = ((word + 7) / 8 : ℕ) := int_tdiv_eight (by omega)
  simp only
  rw [hbytes, int_eq (by omega) (by omega)]
  omega

theorem expectedLength_cases {count : ℕ} (h : count ≠ 0 → n = count) :
    expectedLength count = -1 ∨ expectedLength count = n := by
  rw [expectedLength]
  split
  · exact .inl rfl
  · rename_i hcount
    rw [h hcount]
    exact .inr rfl

theorem int_body (h : Target c depth lo i size word members) :
    int ((lo : ℤ) + 8) = (lo + 8 : ℕ) := by
  have hbound := c.message.limit_lt
  have hinside := h.inside
  have hheader := h.header
  simp only [headerSize] at hheader
  rw [int_eq (by omega) (by omega), Nat.cast_add]
  rfl

theorem loads_numbers {values : List ℕ} (hpen : pen.base = lo)
    (h : c.Sees w depth pen ((elementSlots (.number size') 0 values.length).zip
      (values.map .number)) (lo + align8 size) i) :
    ((List.range values.length).map fun k => load c.message.data (lo + 8 + size' * k) size') =
      values := by
  subst hpen
  exact h.loads_numbers

theorem readNumbers_returns (hΓ : c.types.Laid) (values : List ℕ) (nullable : Bool)
    (hp : q.kind.isPointer)
    (ho : object c.types q.kind v = some ⟨headerSize + size' * values.length, values.length,
      (elementSlots (.number size') 0 values.length).zip (values.map .number)⟩)
    (hpos : 0 < size') (he : expected = -1 ∨ expected = values.length)
    (h : Readable c D w (depth + 1) parent pen q v lo i) :
    Returns (Ready lo i) (readNumbers c.message pen.base size' q.addr nullable expected)
      (.array (values.map .number)) (Ready (lo + outSize c.types (depth + 1) q.kind v)
        (i + (handles c.types (depth + 1) q.kind v).length)) := by
  refine readTarget_object hΓ hp ho h fun ht => ?_
  have hinside := ht.inside
  simp only [headerSize] at hinside
  rw [int_body ht]
  have hall : Returns (Ready (lo + align8 (headerSize + size' * values.length)) i)
      (getAll c.message (lo + 8 : ℕ) values.length size') _ (Ready _ i) :=
        getAll_returns hpos (by omega)
  rw [loads_numbers rfl ht.sees] at hall
  refine (readDataHeaderForArray_target ht le_rfl he).bind
    ((newArray_returns _ _).bind (hall.bind ?_))
  exact .ret _ (Ready.mono (Nat.le_add_right _ _) (Nat.le_add_right _ _))

theorem readString_gives (hΓ : c.types.Laid) {bytes : List UInt8}
    (hbytes : c.newString bytes = bytes)
    (h : Readable c D w (depth + 1) parent pen ⟨.string nullable, addr, bit⟩ (.string bytes) lo i) :
    Gives c (depth + 1) (.string nullable) (.string bytes) lo i
      (readString c.message pen.base c.newString addr nullable) := by
  have ho : object c.types (.string nullable) (.string bytes) =
      some ⟨headerSize + 1 * (bytes.map UInt8.toNat).length, (bytes.map UInt8.toNat).length,
        (elementSlots (.number 1) 0 (bytes.map UInt8.toNat).length).zip
          ((bytes.map UInt8.toNat).map .number)⟩ := by
    simp only [object, length_map, map_map, Nat.one_mul]
    rfl
  have hread := readNumbers_returns hΓ _ nullable rfl ho (by decide) (.inl rfl) h
  refine hread.bind ?_
  simp only [map_map]
  have hback : bytes.map ((fun v : Value => UInt8.ofNat v.toNat) ∘ Value.number ∘ UInt8.toNat) =
      bytes := by
    refine (map_congr_left fun b _ => ?_).trans (map_id bytes)
    exact UInt8.ofNat_toNat
  rw [hback, hbytes]
  exact .done _

theorem loads_bools {values : List Bool} (hpen : pen.base = lo)
    (h : c.Sees w depth pen ((elementSlots .bool 0 values.length).zip (values.map .bool))
      (lo + align8 size) i) :
    ((List.range values.length).map fun k =>
      Value.bool ((((List.range ((values.length + 7) / 8)).map
      fun k => load c.message.data (lo + 8 + 1 * k) 1).getD (k / 8) 0).testBit (k % 8))) =
      values.map .bool := by
  refine ext_getElem (by simp) fun k hk hk' => ?_
  simp only [length_map, length_range] at hk
  have hcontent := h.testBit_bools (k := k) (by simpa using hk')
  rw [hpen, headerSize, Nat.add_assoc] at hcontent
  have hbyte : ((List.range ((values.length + 7) / 8)).map
      fun k => load c.message.data (lo + 8 + 1 * k) 1).getD (k / 8) 0 =
      (c.message.data (lo + (8 + k / 8))).toNat := by
    have hlt : k / 8 < (values.length + 7) / 8 := by omega
    simp [hlt, load, Nat.add_assoc]
  rw [getElem_map, getElem_map, getElem_range, hbyte, hcontent]

theorem readBooleans_returns (hΓ : c.types.Laid) (values : List Bool) (nullable : Bool)
    (hp : q.kind.isPointer)
    (ho : object c.types q.kind v = some ⟨headerSize + (values.length + 7) / 8, values.length,
      (elementSlots .bool 0 values.length).zip (values.map .bool)⟩)
    (hshort : values.length + 7 < 2 ^ 31) (he : expected = -1 ∨ expected = values.length)
    (h : Readable c D w (depth + 1) parent pen q v lo i) :
    Returns (Ready lo i) (readBooleans c.message pen.base q.addr nullable expected)
      (.array (values.map .bool)) (Ready (lo + outSize c.types (depth + 1) q.kind v)
        (i + (handles c.types (depth + 1) q.kind v).length)) := by
  refine readTarget_object hΓ hp ho h fun ht => ?_
  have hinside := ht.inside
  simp only [headerSize] at hinside
  have hlength : (int ((values.length : ℤ) + 7)).tdiv 8 = ((values.length + 7) / 8 : ℕ) :=
    int_tdiv_eight (by omega)
  rw [int_body ht]
  refine (readDataHeaderForBooleanArray_target ht le_rfl hshort he).bind ((visit_returns _).bind ?_)
  simp only [hlength]
  refine (newArray_returns _ _).bind
    ((getAll_returns (by decide) (by omega)).bind ((newArray_returns _ _).bind ?_))
  rw [loads_bools rfl ht.sees]
  exact .ret _ (Ready.mono (Nat.le_add_right _ _) (Nat.le_add_right _ _))

end Objects

section Arrays

variable {c : Context} {D : Domain} {w : Walk} {depth lo i addr bit count : ℕ} {parent elem : Kind}
  {pen : Pen} {nullable : Bool} {elems : List Value} {expected : ℤ}

theorem forall₂_range {R : ℕ → Value → Prop} (vs : List Value)
    (h : ∀ k v, vs[k]? = some v → R k v) :
    List.Forall₂ R (List.range vs.length) vs := by
  rw [forall₂_iff_get]
  refine ⟨length_range, fun k hk hk' => ?_⟩
  simp only [get_eq_getElem, getElem_range]
  exact h k _ (getElem?_eq_getElem hk')

theorem readElements_returns {size : ℕ} {read : ℤ → Decoding Value}
    (hsize' : elem.size = size') (helem : elem ≠ .bool)
    (hsize : size = headerSize + size' * elems.length)
    (ht : Target c depth lo i size elems.length ((elementSlots elem 0 elems.length).zip elems))
    (hread : ∀ {pen : Pen} {v : Value} {addr lo' i'}, pen.base = lo → pen.size = size → v ∈ elems →
      c.Sees (indexed (((elementSlots elem 0 elems.length).zip elems).map Prod.fst)) depth pen
        [(⟨elem, addr, 0⟩, v)] lo' i' → Gives c depth elem v lo' i' (read addr)) :
    Returns (Ready (lo + align8 size) i) (readElements ⟨size, elems.length⟩ size' read)
      (.array elems) (Past c depth size lo i ((elementSlots elem 0 elems.length).zip elems)) := by
  have hbound := c.message.limit_lt
  have hinside := ht.inside
  have hmembers : List.Forall₂ (fun (k : ℕ) p => ∀ cursor left lo' i',
      c.Sees (indexed (((elementSlots elem 0 elems.length).zip elems).map Prod.fst)) depth
        ⟨lo, size, cursor, left⟩ [p] lo' i' →
      Gives c depth p.1.kind p.2 lo' i' (read (int (8 + int ((size' : ℤ) * k)))))
      (List.range elems.length) ((elementSlots elem 0 elems.length).zip elems) := by
    refine forall₂_members (forall₂_range (R := fun k v => elems[k]? = some v) elems
      fun k v hv => hv) ?_
    intro k hk v hmem hv cursor left lo' i' hsees
    have hlt := mem_range.mp hk
    have hmul : size' * k ≤ size' * elems.length := Nat.mul_le_mul_left _ hlt.le
    simp only [headerSize] at hsize
    have hindex : int ((size' : ℤ) * k) = (size' * k : ℕ) := int_mul (by omega)
    have haddr : int (8 + ((size' * k : ℕ) : ℤ)) = (8 + size' * k : ℕ) :=
      int_add (m := 8) (by omega)
    rw [hindex, haddr]
    rw [elementSlot_of_ne helem, hsize'] at hsees ⊢
    simp only [headerSize, Nat.zero_add] at hsees ⊢
    exact hread rfl rfl (mem_of_getElem? hv) hsees
  have hall := mapM_returns Ready hmembers ht.sees
  have hsnd : ((elementSlots elem 0 elems.length).zip elems).map (fun p => p.2) = elems :=
    map_snd_zip (by simp [elementSlots])
  rw [hsnd] at hall
  exact (visit_returns _).bind ((newArray_returns _ _).bind (hall.bind (.done _)))

theorem readElements_gives (hΓ : c.types.Laid) {read : ℤ → ℤ → Decoding Value}
    (hsize' : elem.size = size') (helem : elem ≠ .bool)
    (he : expected = -1 ∨ expected = elems.length) {elementSize : ℕ} (hle : elementSize ≤ size')
    (h : Readable c D w (depth + 1) parent pen ⟨.array elem count nullable, addr, bit⟩
      (.array elems) lo i)
    (hread : ∀ {w : Walk} {pen : Pen} {v : Value} {addr lo' i'},
      Readable c D w depth (.array elem count nullable) pen ⟨elem, addr, 0⟩ v lo' i' →
      Gives c depth elem v lo' i' (read pen.base addr)) :
    Gives c (depth + 1) (.array elem count nullable) (.array elems) lo i
      (readTarget c.message pen.base addr nullable fun d => do
        let si ← readDataHeaderForArray c.message d elementSize expected
        readElements si size' (read d)) := by
  have ho : object c.types (.array elem count nullable) (.array elems) =
      some ⟨headerSize + size' * elems.length, elems.length, (elementSlots elem 0 elems.length).zip
        elems⟩ := by
    simp [object, elementBytes_of_ne helem, hsize']
  refine readTarget_object hΓ rfl ho h fun ht => ?_
  have hbytes : headerSize + elementSize * elems.length ≤ headerSize + size' * elems.length :=
    Nat.add_le_add_left (Nat.mul_le_mul_right _ hle) _
  refine (readDataHeaderForArray_target ht hbytes he).bind
    (readElements_returns hsize' helem rfl ht ?_)
  intro pen v addr lo' i' hbase hpen hmem hsees
  have hkinds : (elem, v) ∈ ((elementSlots elem 0 elems.length).zip elems).map fun p =>
      (p.1.kind, p.2) := by
    rw [zip_kinds]
    exact mem_map_of_mem hmem
  obtain ⟨p, hp, hpv⟩ := mem_map.mp hkinds
  obtain ⟨hkind, rfl⟩ := Prod.mk.inj hpv
  have hhas := h.kind.members ho p hp
  have hfits := h.fits.2 _ ho p hp
  rw [hkind] at hhas hfits
  rw [← hbase]
  refine hread ⟨hhas, hfits, Kind.isSlot_of_isMojom h.slot, ?_, hsees⟩
  rw [hbase, hpen]
  exact ht.inside

theorem decodeArray_gives (hΓ : c.types.Laid) (hD : D.Valid)
    {read : Kind → ℤ → ℤ → ℕ → Decoding Value} (hread : Reads c D depth read) (expected : ℤ)
    (he : expected = -1 ∨ expected = elems.length)
    (h : Readable c D w (depth + 1) parent pen ⟨.array elem count nullable, addr, bit⟩
      (.array elems) lo i) :
    Gives c (depth + 1) (.array elem count nullable) (.array elems) lo i
      (decodeArray c read elem nullable expected pen.base addr) := by
  have hcount := h.kind
  simp only [HasKind] at hcount
  cases elem with
  | number size =>
    have hkind : (Kind.number size).isSlot = true := h.slot
    have hvalues := numbers_of_hasKind hcount.2
    have hnumbers := readNumbers_returns hΓ (elems.map Value.toNat) nullable rfl (by
      rw [← hvalues, length_map]
      rfl) (size_pos hkind) (by rw [length_map]; exact he) h
    rw [← hvalues] at hnumbers
    exact hnumbers
  | bool =>
    have hvalues := bools_of_hasKind hcount.2
    have hbools := readBooleans_returns hΓ (elems.map Value.toBool) nullable rfl (by
      rw [← hvalues, length_map]
      rfl) (by rw [length_map]; exact h.fits.here.bools) (by rw [length_map]; exact he) h
    rw [← hvalues] at hbools
    exact hbools
  | handle elementNullable =>
    exact readElements_gives hΓ rfl (by simp) he le_rfl h fun hmember => readHandle_gives hmember
  | interface elementNullable =>
    exact readElements_gives hΓ rfl (by simp) he le_rfl h fun hmember => readServiceInterface_gives
      hD hmember
  | string | array | map | struct | union | unionPointer =>
    exact readElements_gives hΓ rfl (by simp) he (by simp [Kind.size]) h
      fun hmember => hread hmember

end Arrays

section Members

variable {c : Context} {D : Domain} {w : Walk} {depth lo i addr bit name : ℕ} {parent : Kind}
  {pen : Pen} {nullable : Bool} {read : Kind → ℤ → ℤ → ℕ → Decoding Value}

theorem Reads.of_succ (h : Reads c D (depth + 1) read) : Reads c D depth read := by
  intro w parent pen q v lo i hr
  have hv : ∀ p ∈ [(q, v)], HasKind c.types D depth p.1.kind p.2 := fun p hp => by
    obtain rfl := mem_singleton.mp hp
    exact hr.kind
  have hgives := h ⟨hr.kind.succ, hr.fits.succ hr.kind, hr.slot, hr.inside, hr.sees.of_hasKind hv⟩
  rw [Gives, outSize_of_hasKind hr.kind, handles_of_hasKind hr.kind] at hgives
  exact hgives

theorem decodeMap_gives (hΓ : c.types.Laid) (hD : D.Valid) {key value : Kind}
    {keys values : List Value} (hread : Reads c D depth read)
    (h : Readable c D w (depth + 1) parent pen ⟨.map key value nullable, addr, bit⟩
      (.map keys values) lo i) :
    Gives c (depth + 1) (.map key value nullable) (.map keys values) lo i
      (readTarget c.message pen.base addr nullable fun d => do
        readDataHeaderForMap c.message d
        let keys ← decodeArray c read key false (-1) d 8
        let values ← decodeArray c read value false keys.elems.length d 16
        pure (insertAll (keys.elems.zip values.elems))) := by
  have hv := h.kind
  simp only [HasKind] at hv
  obtain ⟨hnodup, hlen, hkeys, hvalues⟩ := hv
  have hslots := isMojom_key h.slot
  cases depth with
  | zero =>
    have := hasKind_zero hkeys
    cases this
  | succ depth =>
    refine readTarget_object hΓ rfl rfl h fun ht => ?_
    have hheader : Returns (Ready lo i) (readDataHeaderForMap c.message lo) ()
        (Ready (lo + align8 24) i) :=
      (readDataHeader_target ht).bind ((throwIf_returns (by simp)).bind (throwIf_returns (by simp)))
    have hall := h.fits.2 _ rfl
    have hfirst := decodeArray_gives hΓ hD hread.of_succ (-1) (.inl rfl)
      ⟨hkeys, hall _ (.head _), Kind.isSlot_of_isMojom hslots.1, ht.inside, ht.sees.head⟩
    have hsecond := decodeArray_gives hΓ hD hread.of_succ keys.length (.inr (by rw [hlen]))
      ⟨hvalues, hall _ (.tail _ (.head _)), Kind.isSlot_of_isMojom hslots.2, ht.inside,
        ht.sees.tail⟩
    have hmap : insertAll (keys.zip values) = .map keys values := insertAll_eq hnodup hlen
    refine hheader.bind (hfirst.bind (hsecond.bind ?_))
    simp only [Value.elems, hmap]
    refine .ret _ fun s hs => ?_
    simpa [Past, outSizes, Nat.add_assoc] using hs

theorem readAndValidateDataHeader_target {d : StructType} {members : List (Slot × Value)}
    (h : Target c depth lo i d.last.numBytes d.last.version members) :
    Returns (Ready lo i) (readAndValidateDataHeader c.message lo d)
      ⟨d.last.numBytes, d.last.version⟩ (Ready (lo + align8 d.last.numBytes) i) := by
  have hreference : d.versions.reverse.find? (fun v => ((d.last.version : ℤ) ≥ v.version : Bool)) =
      some d.last := by
    have hne : d.versions ≠ [] := by
      intro hnil
      have := h.header
      simp [StructType.last, hnil, headerSize] at this
    obtain ⟨vs, v, hvs⟩ : ∃ vs v, d.versions = vs ++ [v] :=
      ⟨_, _, (dropLast_append_getLast hne).symm⟩
    have hlast : d.last = v := by simp [StructType.last, hvs]
    rw [hlast]
    simp [hvs]
  refine (readDataHeader_target h).bind ?_
  rw [if_pos le_rfl]
  simp only
  rw [hreference]
  exact (throwIf_returns (by simp)).bind (.done _)

theorem decodeStruct_returns (hΓ : c.types.Laid)
    (hmin : ∀ name, ∀ f ∈ (c.types.struct name).fields, f.minVersion ≤
      (c.types.struct name).last.version)
    (hread : Reads c D depth read) {fields : List Value}
    (hv : HasKind c.types D (depth + 1) (.struct name nullable) (.struct fields))
    (ha : Always c.types (Fits c.types) (depth + 1) parent (.struct name nullable) (.struct fields))
    (ht : Target c depth lo i (c.types.struct name).last.numBytes (c.types.struct name).last.version
      (((c.types.struct name).fields.map fun f => f.slot 0).zip fields)) :
    Returns (Ready lo i) (decodeStruct c read name lo) (.struct fields)
      (Past c depth (c.types.struct name).last.numBytes lo i
        (((c.types.struct name).fields.map fun f => f.slot 0).zip fields)) := by
  have hfields := hv
  simp only [HasKind] at hfields
  have hmembers : List.Forall₂ (fun (f : Field) p => ∀ cursor left lo' i',
      c.Sees (indexed ((((c.types.struct name).fields.map fun f => f.slot 0).zip fields).map
        Prod.fst)) depth
        ⟨lo, (c.types.struct name).last.numBytes, cursor, left⟩ [p] lo' i' →
      Gives c depth p.1.kind p.2 lo' i'
        (if ((c.types.struct name).last.version : ℤ) ≥ f.minVersion then
        read f.kind lo (8 + f.offset : ℕ) f.bit else pure (c.default f)))
      (c.types.struct name).fields (((c.types.struct name).fields.map fun f => f.slot 0).zip
        fields) := by
    refine forall₂_members hfields fun f hf v hmem hv cursor left lo' i' hsees => ?_
    rw [if_pos (by exact_mod_cast hmin name f hf)]
    have hgives := hread ⟨hv, ha.2 _ rfl _ hmem, Kind.isSlot_of_isMojom
      ((hΓ.struct name).kinds f hf), ht.inside, hsees⟩
    simp only [Field.slot, headerSize, Nat.zero_add] at hgives
    exact hgives
  have hall := mapM_returns Ready hmembers ht.sees
  have hsnd : (((c.types.struct name).fields.map fun f => f.slot 0).zip fields).map (fun p => p.2) =
      fields :=
    map_snd_zip (by simp [hfields.length_eq])
  rw [hsnd] at hall
  exact (readAndValidateDataHeader_target ht).bind (hall.bind (.done _))

variable {tag : ℕ} {field : Value}

theorem decodeUnion_returns {kind : Kind}
    (hend : t + k + 8 ≤ c.message.limit) (hsize : load c.message.data (t + k) 4 = unionSize)
    (htag : load c.message.data (t + k + 4) 4 = tag) (hsmall : tag < 2 ^ 31)
    (hactive : (c.types.union name).active tag = some kind)
    (hfield : Returns (Ready lo i) (read kind.inUnion t (k + 8 : ℕ) 0) field P) :
    Returns (Ready lo i) (decodeUnion c read name t k) (.union tag field) P := by
  have hbound := c.message.limit_lt
  have hoffset : int ((k : ℤ) + 8) = (k + 8 : ℕ) := int_add (n := 8) (by omega)
  have hne : ¬ ((unionSize : ℕ) : ℤ) = 0 := by decide
  have hheader : Peeks lo i (readDataHeaderForUnion c.message t k) ⟨unionSize, tag⟩ := by
    refine (readDataHeaderAtOffset_returns hend hsize htag (by decide) hsmall true).bind ?_
    rw [if_neg hne]
    exact (throwIf_returns (by simp)).bind (.done _)
  refine hheader.bind ?_
  have hmember : activeMember c name tag = some kind := by
    rw [activeMember, if_neg (by simp), Int.toNat_natCast, hactive]
  rw [if_neg hne]
  simp only [Int.toNat_natCast, hmember, hoffset]
  exact hfield.bind (.done _)

theorem decodeInlineUnion_gives (hΓ : c.types.Laid) (hread : Reads c D depth read)
    (h : Readable c D w (depth + 1) parent pen ⟨.union name nullable, addr, bit⟩
      (.union tag field) lo i) :
    Gives c (depth + 1) (.union name nullable) (.union tag field) lo i
      (decodeUnion c read name pen.base addr) := by
  obtain ⟨kind, hactive, hkind, ho⟩ := active_of_hasKind (.inl rfl) h.kind
  have hplace : pen.base + addr + 16 ≤ c.message.limit := h.place
  obtain ⟨hsize, htag⟩ := h.sees.content
  have hp : ¬ (Kind.union name nullable).isPointer = true := by simp [Kind.isPointer]
  have hfield := h.sees.field hΓ rfl hactive (flows_indexed [(⟨kind.inUnion, addr + 8, 0⟩, field)])
  have hmember : Readable c D _ depth (.union name nullable) (pen.to headerSize)
      ⟨kind.inUnion, addr + 8, 0⟩ field lo i := ⟨hkind, h.fits.2 _ ho _ (.head _),
    isSlot_inUnion (isMojom_of_active hΓ hactive), h.inside, hfield⟩
  have hgives := hread hmember
  rw [Gives, outSize_succ ho, if_neg hp, handles_succ ho]
  simp only [outSizes_singleton, handlesOf_singleton, Nat.zero_add]
  exact decodeUnion_returns (by omega) hsize htag (h.fits.here.object _ ho).2 hactive hgives

theorem decodeUnionPointer_gives (hΓ : c.types.Laid) (hread : Reads c D depth read)
    (h : Readable c D w (depth + 1) parent pen ⟨.unionPointer name nullable, addr, bit⟩
      (.union tag field) lo i) :
    Gives c (depth + 1) (.unionPointer name nullable) (.union tag field) lo i
      (readTarget c.message pen.base addr nullable fun d => do
        visit .nestedUnion
        decodeUnion c read name d 0) := by
  obtain ⟨kind, hactive, hkind, ho⟩ := active_of_hasKind (.inr rfl) h.kind
  refine readTarget_object hΓ rfl ho h fun ht => ?_
  have hgives := hread ⟨hkind, h.fits.2 _ ho _ (.head _),
    isSlot_inUnion (isMojom_of_active hΓ hactive), ht.inside, ht.sees⟩
  have hinside := ht.inside
  simp only [unionSize] at hinside
  -- the object of the union is not claimed
  refine (visit_returns _).bind
    ((decodeUnion_returns (t := lo) (k := 0) (by omega) ht.first ht.second
    ht.small hactive hgives).pre (Ready.mono (Nat.le_add_right _ _) le_rfl) |>.post fun s hs => ?_)
  simpa [Past, outSizes] using hs

theorem decodeUnion_null (hend : t + k + 8 ≤ c.message.limit)
    (hload : load c.message.data (t + k) 8 = 0) :
    Peeks lo i (decodeUnion c read name t k) .null := by
  have hsize : load c.message.data (t + k) 4 = 0 :=
    load_eq_zero_of_subset hload (span_subset le_rfl (by omega))
  have hword : load c.message.data (t + k + 4) 4 = 0 :=
    load_eq_zero_of_subset hload (span_subset (by omega) (by omega))
  have hzero : ((0 : ℕ) : ℤ) = 0 := rfl
  have hheader : Peeks lo i (readDataHeaderForUnion c.message t k) ⟨(0 : ℕ), (0 : ℕ)⟩ := by
    refine (readDataHeaderAtOffset_returns hend hsize hword (by decide) (by decide) true).bind ?_
    rw [if_pos hzero]
    exact (throwIf_returns (by simp)).bind (.done _)
  refine hheader.bind ?_
  rw [if_pos hzero]
  exact .done _

theorem decode_scalar_gives {q : Slot} {v : Value} (hD : D.Valid) (n : ℕ)
    (ho : object c.types q.kind v = none) (h : Readable c D w depth parent pen q v lo i) :
    Gives c depth q.kind v lo i (decode c (n + 1) q.kind pen.base q.addr q.bit) := by
  have hscalar := h.kind.scalar ho
  have hcontent := h.sees.content
  have hplace := h.place
  obtain ⟨kind, addr, bit⟩ := q
  cases kind with
  | number size =>
    cases hscalar with
    | number hn => exact readBits_gives h
    | null hnull => cases hnull
  | bool =>
    cases hscalar with
    | bool b => exact readBoolean_gives h
    | null hnull => cases hnull
  | handle nullable => exact readHandle_gives h
  | interface nullable => exact readServiceInterface_gives hD h
  | union name nullable =>
    cases hscalar with
    | null hnull =>
      have hnull : nullable = true := hnull
      have hend : pen.base + addr + 8 ≤ c.message.limit := by
        simp only [Kind.size] at hplace
        omega
      refine gives_of_none rfl rfl ((decodeUnion_null hend hcontent.1).bind ?_)
      exact (throwIf_returns (by simp [hnull])).bind (.done _)
  | string nullable =>
    cases hscalar with
    | null hnull =>
      refine gives_of_none rfl rfl ((readPointer_null hplace hcontent.2 hnull _).bind ?_)
      exact .done _
  | array elem count nullable =>
    cases hscalar with
    | null hnull =>
      refine gives_of_none rfl rfl ?_
      cases elem <;> exact readPointer_null hplace hcontent.2 hnull _
  | map | struct | unionPointer =>
    cases hscalar with
    | null hnull => exact gives_of_none rfl rfl (readPointer_null hplace hcontent.2 hnull _)

theorem decode_reads (hΓ : c.types.Laid)
    (hmin : ∀ name, ∀ f ∈ (c.types.struct name).fields, f.minVersion ≤
      (c.types.struct name).last.version)
    (hD : D.Valid) (hstring : ∀ bytes, D.string bytes → c.newString bytes = bytes)
    (depth : ℕ) : Reads c D depth (decode c (depth + 1)) := by
  induction depth with
  | zero => exact fun h => decode_scalar_gives hD 0 (hasKind_zero h.kind) h
  | succ depth ih =>
    intro w parent pen q v lo i h
    cases ho : object c.types q.kind v with
    | none => exact decode_scalar_gives hD _ ho h
    | some o =>
      obtain ⟨kind, addr, bit⟩ := q
      cases objectOf ho with
      | string nullable bytes => exact readString_gives hΓ (hstring bytes h.kind) h
      | array elem count nullable elems =>
        have hcount := h.kind
        simp only [HasKind] at hcount
        exact decodeArray_gives hΓ hD ih _ (expectedLength_cases hcount.1) h
      | map key value nullable keys values => exact decodeMap_gives hΓ hD ih h
      | struct name nullable fields =>
        exact readTarget_object hΓ rfl rfl h fun ht =>
          decodeStruct_returns hΓ hmin ih h.kind h.fits ht
      | union name nullable tag field active hactive =>
        exact (decodeInlineUnion_gives hΓ ih h).bind (.done _)
      | unionPointer name nullable tag field active hactive =>
        exact decodeUnionPointer_gives hΓ ih h

end Members

end Mojo.JavaBindings
