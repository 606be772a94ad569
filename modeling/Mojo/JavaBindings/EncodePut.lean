import Mojo.JavaBindings.Encoder

/-!
# What the Java encoder writes

The encoders of a message have one state, whose view is the memory up to the end of the data and the
handles. As long as the message fits into the first buffer, or the host is little-endian, every
member is written as `put` writes it: claims are made one after another, and a larger buffer has the
same bytes.
-/

namespace Mojo.JavaBindings

open Mojo.Memory Mojo.Wire Mojo.CppBindings
open List hiding Cursor Mem

variable {a n x t i y addr bit base offset word count : ℕ} {nullable : Bool} {body : ℤ → Encoding}
    {ps : List (Slot × Value)}

def EncoderState.view (s : EncoderState) : View := ⟨s.mem, s.dataEnd.toNat, s.handles⟩

def EncoderState.put (s : EncoderState) (m : Mem) (hs : List ℕ) : EncoderState :=
  { s with mem := m, handles := hs }

@[simp] theorem EncoderState.view_put (s : EncoderState) (m : Mem) (hs : List ℕ) :
    (s.put m hs).view = ⟨m, s.view.next, hs⟩ := rfl

def Tiles : ℤ → List (ℤ × ℤ) → ℤ → Prop
  | lo, [], hi => lo = hi
  | lo, c :: cs, hi => c.1 = lo ∧ Tiles (lo + c.2) cs hi

theorem Tiles.append {lo hi size : ℤ} {cs : List (ℤ × ℤ)} (h : Tiles lo cs hi) :
    Tiles lo (cs ++ [(hi, size)]) (hi + size) := by
  induction cs generalizing lo with
  | nil =>
    obtain rfl : lo = hi := h
    exact ⟨rfl, rfl⟩
  | cons c cs ih => exact ⟨h.1, ih h.2⟩

/-- What holds of the state while a message of `total` bytes is written, after objects of the sizes
`L`. -/
structure Inv (total : ℕ) (L : List ℕ) (s : EncoderState) : Prop where
  order : s.order = .little
  native : s.native = .little ∨ total ≤ s.capacity
  start : 0 ≤ s.dataEnd
  fits : s.dataEnd ≤ s.capacity
  pos : 0 < s.capacity
  beyond : ∀ b, s.capacity ≤ b → s.mem b = 0
  sizes : s.claims.map Prod.snd = L.map fun n : ℕ => (n : ℤ)
  tiles : Tiles 0 s.claims s.dataEnd

section Steps

variable {total : ℕ} {L : List ℕ} {s : EncoderState}

theorem Inv.next (h : Inv total L s) : (s.view.next : ℤ) = s.dataEnd := Int.toNat_of_nonneg h.start

theorem Inv.write (h : Inv total L s) {m : Mem} (hm : ∀ b, s.view.next ≤ b → m b = s.mem b)
    (hs : List ℕ) : Inv total L (s.put m hs) where
  order := h.order
  native := h.native
  start := h.start
  fits := h.fits
  pos := h.pos
  beyond b hb := by
    have hnext := h.next
    have hfits := h.fits
    have hsame : m b = s.mem b := hm b (by simp only [EncoderState.put] at hb; omega)
    exact hsame.trans (h.beyond b hb)
  sizes := h.sizes
  tiles := h.tiles

theorem Inv.store (h : Inv total L s) (ha : a + n ≤ s.view.next) (hs : List ℕ) :
    Inv total L (s.put (store s.mem a n x) hs) :=
  h.write (fun b hb => store_apply_of_notMem (by rw [mem_span]; omega)) hs

theorem putBits_eq (h : Inv total L s) (ha : a + n ≤ s.view.next) :
    putBits a n x s = .ok (s.put (Memory.store s.mem a n x) s.handles) := by
  have hnext := h.next
  have hfits := h.fits
  have horder : s.order.store = Memory.store := by
    rw [h.order]
    rfl
  rw [putBits, if_pos (by omega), horder]
  rfl

theorem encodeBits_eq (h : Inv total L s) (hsmall : s.view.next < 2 ^ 31)
    (ha : t + i + n ≤ s.view.next) :
    encodeBits t x i n s = .ok (s.put (store s.mem (t + i) n x) s.handles) := by
  rw [encodeBits, int_eq (by omega) (by omega), ← Nat.cast_add]
  exact putBits_eq h ha

theorem encodeBits_next (h : Inv total L s) (hsmall : s.view.next < 2 ^ 31) {k : ℕ}
    (ha : t + i + n + k ≤ s.view.next) (hs : List ℕ) :
    encodeBits t y (int (i + n)) k (s.put (store s.mem (t + i) n x) hs) =
      .ok (s.put (store (store s.mem (t + i) n x) (t + i + n) k y) hs) ∧
    Inv total L (s.put (store (store s.mem (t + i) n x) (t + i + n) k y) hs) := by
  have hfirst := h.store (a := t + i) (n := n) (x := x) (by omega) hs
  have hoffset : int ((i : ℤ) + n) = (i + n : ℕ) := int_add (by omega)
  have hplace : t + (i + n) + k ≤ (s.put (store s.mem (t + i) n x) hs).view.next := by
    change _ ≤ s.view.next
    omega
  rw [hoffset, encodeBits_eq hfirst hsmall hplace, Nat.add_assoc t i n]
  exact ⟨rfl, hfirst.store hplace hs⟩

theorem targetSize_eq (n : ℕ) (target dataEnd : ℤ) (hpos : 0 < target) (hle : dataEnd < 2 ^ 30)
    (hn : dataEnd ≤ target * 2 ^ n) (htarget : target < 2 ^ 31) :
    dataEnd ≤ targetSize n target dataEnd ∧ target ≤ targetSize n target dataEnd := by
  induction n generalizing target with
  | zero => simpa [targetSize] using hn
  | succ n ih =>
    rw [targetSize]
    split
    · rename_i hlt
      rw [int_eq (by omega) (by omega)]
      have hn' : dataEnd ≤ target * 2 * 2 ^ n := by
        rw [Int.mul_assoc, Int.mul_comm 2, ← Int.pow_succ]
        exact hn
      obtain ⟨hdata, htwice⟩ := ih (target * 2) (by omega) hn' (by omega)
      exact ⟨hdata, by omega⟩
    · rename_i hge
      exact ⟨by omega, le_rfl⟩

theorem claimMemory_eq (h : Inv total L s) (size : ℕ) (hroom : s.view.next + size ≤ total)
    (htotal : total < 2 ^ 30) :
    (s.claimMemory size).view = { s.view with next := s.view.next + size } ∧
      Inv total (L ++ [size]) (s.claimMemory size) := by
  have hnext := h.next
  have hfits := h.fits
  have hstart := h.start
  have hpos := h.pos
  have hint : int (s.dataEnd + size) = s.dataEnd + size := int_eq (by omega) (by omega)
  have hsizes : (s.claims ++ [(s.dataEnd, (size : ℤ))]).map Prod.snd =
      (L ++ [size]).map fun n : ℕ => (n : ℤ) := by
    rw [map_append, map_append, h.sizes]
    rfl
  have hview : (s.dataEnd + size).toNat = s.view.next + size := by omega
  rw [EncoderState.claimMemory, hint, EncoderState.growIfNeeded]
  by_cases hcap : (s.capacity : ℤ) ≥ s.dataEnd + size
  · rw [if_pos hcap]
    refine ⟨by simp only [EncoderState.view]; rw [hview]; rfl, ?_⟩
    exact ⟨h.order, h.native, by simp only; omega, hcap, h.pos, h.beyond, hsizes, h.tiles.append⟩
  · rw [if_neg hcap]
    obtain ⟨htarget, hlarger⟩ := targetSize_eq 32 (int (s.capacity * 2)) (s.dataEnd + size)
      (by rw [int_eq (by omega) (by omega)]; omega) (by omega)
      (by rw [int_eq (by omega) (by omega)]; omega) (int_lt _)
    have hcapacity : (s.capacity : ℤ) ≤ int (s.capacity * 2) := by
      rw [int_eq (by omega) (by omega)]
      omega
    have hnative : s.native = .little := h.native.resolve_right (by omega)
    have hmem : (fun b => if b < s.capacity then s.mem b else 0) = s.mem := by
      funext b
      split
      · rfl
      · exact (h.beyond b (by omega)).symm
    simp only [hmem]
    refine ⟨by simp only [EncoderState.view]; rw [hview]; rfl, ?_⟩
    refine ⟨hnative, .inl hnative, ?_, ?_, ?_, fun b hb => h.beyond b ?_, hsizes, h.tiles.append⟩
    · simp only
      omega
    · simp only
      omega
    · simp only
      omega
    · simp only at hb
      omega

end Steps

/-- The strings, handles and interface versions that there are in Java: a string that is made from
its bytes is the same, and an absent handle is null. -/
def domain (newString : List UInt8 → List UInt8) : Domain where
  handle h := h ≠ invalidHandle
  version n := n < 2 ^ 32
  string bytes := newString bytes = bytes

def boolCount : Kind → Value → ℕ
  | .array .bool _ _, .array elems => elems.length
  | _, _ => 0

def ShortBools (kind : Kind) (v : Value) : Prop := boolCount kind v + 7 < 2 ^ 31

instance decidableShortBools (kind : Kind) (v : Value) : Decidable (ShortBools kind v) :=
  inferInstanceAs (Decidable (boolCount kind v + 7 < 2 ^ 31))

structure Fits (Γ : Types) (_ kind : Kind) (v : Value) : Prop where
  object : ∀ o, object Γ kind v = some o → o.size < 2 ^ 30 ∧ o.word < 2 ^ 31
  bools : ShortBools kind v

theorem Fits.sized {Γ : Types} {parent kind : Kind} {v : Value} (h : Fits Γ parent kind v) :
    Sized Γ parent kind v := by
  intro o ho
  obtain ⟨hsize, hword⟩ := h.object o ho
  omega

def Written (Γ : Types) (total depth t : ℕ) (p : Slot × Value) (L : List ℕ) (s : EncoderState)
    (x : Except Exception EncoderState) : Prop :=
  ∃ s', x = .ok s' ∧ s'.view = put Γ depth t p s.view ∧
    Inv total (L ++ objectSizes Γ depth p.1.kind p.2) s'

def Writes (Γ : Types) (D : Domain) (total depth : ℕ)
    (write : Kind → Value → ℤ → ℤ → ℕ → Encoding) : Prop :=
  ∀ {w pen q v parent s L}, HasKind Γ D depth q.kind v → Always Γ (Fits Γ) depth parent q.kind v →
    Inv total L s → Open Γ w depth s.view total pen [(q, v)] →
    Written Γ total depth pen.base (q, v) L s (write q.kind v pen.base q.addr q.bit s)

/-- Every encoder that has room for the slot writes the value there as `put` does. -/
def Puts (Γ : Types) (total depth : ℕ) (q : Slot) (v : Value) (write : ℤ → Encoding) : Prop :=
  ∀ {w pen s L}, total < 2 ^ 30 → Inv total L s → Open Γ w depth s.view total pen [(q, v)] →
    Written Γ total depth pen.base (q, v) L s (write pen.base s)

variable {size name : ℕ}

section Scalars

variable {Γ : Types} {D : Domain} {w : Walk} {depth total : ℕ} {L : List ℕ} {s : EncoderState}
  {pen : Pen} {q : Slot} {v : Value}

theorem written_of_none (ho : object Γ q.kind v = none) {x : Except Exception EncoderState}
    {s' : EncoderState}
    (hx : x = .ok s') (hview : s'.view = s.view.scalar (t + q.addr) q.bit q.kind v)
    (hs : Inv total L s') :
    Written Γ total depth t (q, v) L s x := by
  refine ⟨s', hx, ?_, ?_⟩
  · rw [put_of_none ho, hview]
  · rw [objectSizes_of_none ho, append_nil]
    exact hs

theorem place_of_open (h : Open Γ w depth s.view total pen [(q, v)]) (htotal : total < 2 ^ 30) :
    pen.base + q.addr + q.kind.size ≤ s.view.next ∧ s.view.next < 2 ^ 31 := by
  have hbelow := h.below.below _ (.head _)
  have hroom := h.room
  exact ⟨hbelow, by omega⟩

theorem intBits_eq (h : n < 2 ^ 32) : intBits n = n := by
  rw [intBits]
  omega

theorem encodeBits_put : Puts Γ total depth ⟨.number size, addr, bit⟩ (.number n)
    (encodeBits · n addr size) := by
  intro w pen s L htotal hs h
  obtain ⟨hplace, hnext⟩ := place_of_open h htotal
  exact written_of_none rfl (encodeBits_eq hs hnext hplace) rfl (hs.store hplace s.handles)

theorem encodeBoolean_put {b : Bool} :
    Puts Γ total depth ⟨.bool, addr, bit⟩ (.bool b) (encodeBoolean · b addr bit) := by
  intro w pen s L htotal hs h
  obtain ⟨hplace, hnext⟩ := place_of_open h htotal
  simp only [Kind.size] at hplace
  cases b with
  | false => exact written_of_none rfl rfl rfl hs
  | true =>
    have hdata := hs.next
    have hfits := hs.fits
    have hindex : int ((pen.base : ℤ) + addr) = (pen.base + addr : ℕ) := int_add (by omega)
    refine written_of_none rfl ?_ ?_ (hs.write (m := setBit s.mem (pen.base + addr) bit)
      (fun x hx => if_neg (by omega)) s.handles)
    · beta_reduce
      rw [encodeBoolean, if_pos rfl, hindex]
      simp only [Int.toNat_natCast]
      rw [if_pos (by omega)]
      rfl
    · rfl

theorem encodeHandle_eq (hn : n ≠ invalidHandle) (hlen : s.handles.length ≤ 2 ^ 31)
    (hs : Inv total L s)
    (hsmall : s.view.next < 2 ^ 31) (hplace : base + offset + 4 ≤ s.view.next) :
    encodeHandle base (.handle n) offset nullable s =
      .ok (s.put (store s.mem (base + offset) 4 s.handles.length) (s.handles ++ [n])) := by
  rw [encodeHandle, if_neg hn, intBits_eq (by omega), encodeBits_eq hs hsmall hplace, ok_bind]
  rfl

theorem encodeInvalidHandle_eq (hnull : nullable)
    (hs : Inv total L s) (hsmall : s.view.next < 2 ^ 31)
    (hplace : base + offset + 4 ≤ s.view.next) :
    encodeInvalidHandle base offset nullable s =
      .ok (s.put (store s.mem (base + offset) 4 encodedInvalidHandle) s.handles) := by
  rw [encodeInvalidHandle, if_pos hnull, encodeBits_eq hs hsmall hplace]
  rfl

theorem encodeHandle_put (hD : D.Valid) (hv : Scalar D (.handle nullable) v) :
    Puts Γ total depth ⟨.handle nullable, addr, bit⟩ v (encodeHandle · v addr nullable) := by
  intro w pen s L htotal hs h
  obtain ⟨hplace, hnext⟩ := place_of_open h htotal
  have hlen : s.handles.length ≤ 2 ^ 31 := le_trans (Nat.le_add_right _ _) h.handles
  cases hv with
  | handle _ hh =>
    exact written_of_none rfl (encodeHandle_eq (hD _ hh) hlen hs hnext hplace) rfl
      (hs.store hplace _)
  | null hnull =>
    exact written_of_none rfl (encodeInvalidHandle_eq hnull hs hnext hplace) rfl (hs.store hplace _)

theorem encodeInterface_put (hD : D.Valid) (hv : Scalar D (.interface nullable) v) :
    Puts Γ total depth ⟨.interface nullable, addr, bit⟩ v (encodeInterface · v addr nullable) := by
  intro w pen s L htotal hs h
  obtain ⟨hplace, hnext⟩ := place_of_open h htotal
  simp only [Kind.size] at hplace
  have hlen : s.handles.length ≤ 2 ^ 31 := le_trans (Nat.le_add_right _ _) h.handles
  cases hv with
  | interface _ hh hversion =>
    rename_i n version
    obtain ⟨hrun, hinv⟩ := encodeBits_next (k := 4) (n := 4) (x := s.handles.length)
      (y := version) hs hnext
      (by omega) (s.handles ++ [n])
    refine written_of_none rfl ?_ rfl hinv
    beta_reduce
    rw [encodeInterface, encodeHandle_eq (hD n hh) hlen hs hnext (by omega), ok_bind]
    exact hrun
  | null hnull =>
    obtain ⟨hrun, hinv⟩ := encodeBits_next (k := 4) (n := 4) (x := encodedInvalidHandle)
      (y := 0) hs hnext
      (by omega) s.handles
    refine written_of_none rfl ?_ rfl hinv
    have hnull : nullable = true := hnull
    simp only [encodeInterface]
    rw [encodeInvalidHandle_eq hnull hs hnext (by omega), ok_bind]
    exact hrun

theorem encodeNullPointer_put (hp : q.kind.isPointer) (hnull : q.kind.isNullable) :
    Puts Γ total depth q .null (encodeNullPointer · q.addr q.kind.isNullable) := by
  intro w pen s L htotal hs h
  obtain ⟨hplace, hnext⟩ := place_of_open h htotal
  rw [(size_of_isPointer hp).2] at hplace
  have ho : object Γ q.kind .null = none := by cases q.kind <;> rfl
  refine written_of_none ho ?_ ?_ (hs.store (x := 0) hplace s.handles)
  · beta_reduce
    rw [encodeNullPointer, if_pos hnull, encodeBits_eq hs hnext hplace]
  · obtain ⟨kind, addr, bit⟩ := q
    cases kind <;> first | rfl | cases hp

theorem encodeNullUnion_put : Puts Γ total depth ⟨.union name nullable, addr, bit⟩ .null
      fun base s => encodeBits base 0 addr 8 s >>= encodeBits base 0 (int (addr + 8)) 8 := by
  intro w pen s L htotal hs h
  obtain ⟨hplace, hnext⟩ := place_of_open h htotal
  simp only [Kind.size] at hplace
  obtain ⟨hrun, hinv⟩ := encodeBits_next (k := 8) (n := 8) (x := 0) (y := 0) hs hnext (by omega)
    s.handles
  refine written_of_none rfl ?_ ?_ hinv
  · beta_reduce
    rw [encodeBits_eq hs hnext (by omega), ok_bind]
    exact hrun
  · rw [EncoderState.view_put, store_zero_append]
    rfl

end Scalars

section Objects

variable {Γ : Types} {D : Domain} {w : Walk} {depth total : ℕ} {L : List ℕ} {s : EncoderState}
  {pen : Pen} {q : Slot} {v : Value} {o : Object}

theorem encodePointer_eq (hs : Inv total L s) (hsmall : s.view.next < 2 ^ 31)
    (hplace : t + i + 8 ≤ s.view.next) :
    encodePointerToNextUnclaimedData t i s =
      .ok (s.put (store s.mem (t + i) 8 (s.view.next - (t + i))) s.handles) := by
  have hnext := hs.next
  have hbits : longBits (s.dataEnd - int (t + i)) = s.view.next - (t + i) := by
    rw [int_eq (by omega) (by omega), longBits]
    omega
  rw [encodePointerToNextUnclaimedData, hbits]
  exact encodeBits_eq hs (by omega) hplace

theorem words_eq (hs : Inv total L s) (hend : t + 8 ≤ s.view.next) (hsmall : s.view.next < 2 ^ 31) :
    (encodeBits t x 0 4 s >>= encodeBits t y 4 4) =
      .ok (s.put (store (store s.mem t 4 x) (t + 4) 4 y) s.handles) ∧
      Inv total L (s.put (store (store s.mem t 4 x) (t + 4) 4 y) s.handles) := by
  obtain ⟨hrun, hinv⟩ := encodeBits_next (k := 4) (n := 4) (x := x) (y := y) (i := 0) (t := t) hs
    hsmall (by omega) s.handles
  have hfirst : encodeBits t x 0 4 s = _ := encodeBits_eq (i := 0) hs hsmall (by omega)
  have hoffset : int ((0 : ℕ) + (4 : ℕ)) = 4 := int_eq (by omega) (by omega)
  rw [hoffset] at hrun
  rw [hfirst, ok_bind]
  exact ⟨hrun, hinv⟩

theorem int_align (h : n < 2 ^ 30) : int (align n) = (align8 n : ℕ) := by
  have halign : align n = (align8 n : ℕ) := by
    simp only [align, align8]
    omega
  have hle : align8 n < 2 ^ 31 := by
    simp only [align8]
    omega
  rw [halign, int_eq (by omega) (by omega)]

theorem getEncoderAtDataOffset_eq (hs : Inv total L s) (htotal : total < 2 ^ 30)
    (hheader : headerSize ≤ size) (hword : word < 2 ^ 31)
    (hroom : s.view.next + align8 size ≤ total) :
    ∃ s₁, Inv total (L ++ [align8 size]) s₁ ∧
      s₁.view = ⟨store (store s.mem s.view.next 4 size) (s.view.next + 4) 4 word,
        s.view.next + align8 size, s.handles⟩ ∧
      ∀ body, getEncoderAtDataOffset ⟨size, word⟩ body s = body s.view.next s₁ := by
  have hnext := hs.next
  have hle := le_align8 size
  simp only [headerSize] at hheader
  obtain ⟨hview, hclaim⟩ := claimMemory_eq hs _ hroom htotal
  obtain ⟨hwords, hinv⟩ := words_eq (t := s.view.next) (x := size) (y := word) hclaim
    (by rw [hview]; simp only; omega) (by rw [hview]; simp only; omega)
  refine ⟨_, hinv, ?_, fun body => ?_⟩
  · have hmem : (s.claimMemory (align8 size : ℕ)).mem = s.mem := congrArg View.mem hview
    have hhandles : (s.claimMemory (align8 size : ℕ)).handles = s.handles :=
      congrArg View.handles hview
    rw [EncoderState.view_put, hview, hmem, hhandles]
  · simp only [getEncoderAtDataOffset, encodeHeader, ← hnext]
    rw [int_align (by omega), intBits_eq (by omega), intBits_eq (by omega)]
    exact congrArg (· >>= _) hwords

theorem object_put {members : List (Slot × Value)} (hΓ : Γ.Laid)
    (hp : q.kind.isPointer) (ho : object Γ q.kind v = some ⟨size, word, members⟩)
    (hword : word < 2 ^ 31) (htotal : total < 2 ^ 30) (hs : Inv total L s)
    (h : Open Γ w (depth + 1) s.view total pen [(q, v)]) (hbody : ∀ {s₁ L₁}, Inv total L₁ s₁ →
      s₁.view = s.view.enter (pen.base + q.addr) ⟨size, word, members⟩ →
      Open Γ (indexed (members.map Prod.fst)) depth s₁.view total (.start s.view.next size)
        members →
      ∃ s', body s.view.next s₁ = .ok s' ∧ s'.view = putAll Γ depth s.view.next members s₁.view ∧
        Inv total (L₁ ++ members.flatMap fun p => objectSizes Γ depth p.1.kind p.2) s') :
    Written Γ total (depth + 1) pen.base (q, v) L s
      (encodePointerToNextUnclaimedData pen.base q.addr s >>= getEncoderAtDataOffset ⟨size, word⟩
        body) := by
  obtain ⟨hplace, hsmall⟩ := place_of_open h htotal
  rw [(size_of_isPointer hp).2] at hplace
  have hheader := (object_laid hΓ (h.below.kinds _ (.head _)) ho).header
  have hroom := h.room
  rw [outSizes_cons, outSize_succ ho, if_pos hp] at hroom
  obtain ⟨s₁, hinv, hview, hbegin⟩ := getEncoderAtDataOffset_eq
    (hs.store (x := s.view.next - (pen.base + q.addr)) hplace s.handles) htotal hheader hword
    (by simp only [EncoderState.view_put] at hroom ⊢; omega)
  have hopen := h.enter hΓ hp ho (flows_indexed members)
  obtain ⟨s', hrun, hview', hinv'⟩ := hbody hinv hview (by
    rw [hview]
    exact hopen)
  refine ⟨s', ?_, ?_, ?_⟩
  · rw [encodePointer_eq hs hsmall hplace, ok_bind, hbegin]
    exact hrun
  · rw [hview', put_of_pointer ho hp, hview]
    rfl
  · rw [objectSizes_succ ho, if_pos hp, ← append_assoc]
    exact hinv'

theorem members_put (hΓ : Γ.Laid) (hD : D.Words) {parent : Kind} {f : Slot × Value → Encoding}
    (hv : ∀ p ∈ ps, HasKind Γ D depth p.1.kind p.2)
    (ha : ∀ p ∈ ps, Always Γ (Fits Γ) depth parent p.1.kind p.2)
    (hf : ∀ p ∈ ps, ∀ s L cursor left, Inv total L s →
      Open Γ w depth s.view total ⟨t, size, cursor, left⟩ [p] →
        Written Γ total depth t p L s (f p s))
    (hs : Inv total L s) {cursor : Cursor} {left : Option ℕ}
    (h : Open Γ w depth s.view total ⟨t, size, cursor, left⟩ ps) :
    ∃ s', forEach f ps s = .ok s' ∧ s'.view = putAll Γ depth t ps s.view ∧
      Inv total (L ++ ps.flatMap fun p => objectSizes Γ depth p.1.kind p.2) s' := by
  have hsized : ∀ p ∈ ps, Always Γ (Sized Γ) depth parent p.1.kind p.2 := fun p hp =>
    (ha p hp).mono fun hfits => hfits.sized
  exact forEach_put (fun p hp _ _ _ hopen => put_wrote hΓ hD (hv p hp) (hsized p hp) hopen) hf hs h

end Objects

section Arrays

variable {Γ : Types} {D : Domain} {w : Walk} {depth total : ℕ} {L : List ℕ} {s : EncoderState}
  {pen : Pen} {elem : Kind} {elems : List Value}

theorem checkFixedLength_eq (h : count ≠ 0 → n = count) :
    checkFixedLength (expectedLength count) n s = .ok s := by
  rw [checkFixedLength, if_neg]
  rintro ⟨hfixed, hne⟩
  rw [expectedLength] at hfixed hne
  split at hfixed
  · exact hfixed rfl
  · rename_i hcount
    rw [if_neg hcount, h hcount] at hne
    exact hne rfl

theorem encoderForArray_eq {base offset : ℤ} (h : count ≠ 0 → n = count)
    (hsize : headerSize + size * n < 2 ^ 30) :
    encoderForArray base size n offset (expectedLength count) body s =
      encodePointerToNextUnclaimedData base offset s >>=
        getEncoderAtDataOffset ⟨(headerSize + size * n : ℕ), n⟩ body := by
  have hbytes : int ((n : ℤ) * size) = (size * n : ℕ) := by
    rw [Int.mul_comm, ← Nat.cast_mul]
    exact int_eq (by omega) (by omega)
  have htotal : int (8 + ((size * n : ℕ) : ℤ)) = (headerSize + size * n : ℕ) := by
    simp only [headerSize] at hsize ⊢
    exact int_add (m := 8) (by omega)
  rw [encoderForArray, checkFixedLength_eq h, ok_bind, encoderForArrayByTotalSize, hbytes, htotal]

theorem append_eq (hs : Inv total L s) (hsmall : s.view.next < 2 ^ 31) (t size : ℕ)
    (values : List ℕ)
    (hpos : 0 < size) (hend : t + headerSize + size * values.length ≤ s.view.next) :
    append t size values s = .ok (s.put (storeAll s.mem (t + headerSize) size values) s.handles) ∧
      Inv total L (s.put (storeAll s.mem (t + headerSize) size values) s.handles) := by
  have hnext := hs.next
  have hfits := hs.fits
  simp only [headerSize] at hend ⊢
  have hposition : int ((t : ℤ) + 8) = (t + 8 : ℕ) := int_add (n := 8) (by omega)
  have horder : s.order.store = Memory.store := by
    rw [hs.order]
    rfl
  have hfull : ¬ (s.capacity - (t + 8)) / size < values.length := by
    rw [not_lt, Nat.le_div_iff_mul_le hpos, Nat.mul_comm]
    omega
  refine ⟨?_, hs.write (fun b hb => storeAll_apply_of_le (by omega)) s.handles⟩
  simp only [append, hposition, horder, Int.toNat_natCast]
  rw [if_neg (by omega), if_neg hfull]
  rfl

theorem encodeElements_eq {write : Value → ℤ → Encoding} (hsize : elem.size = size)
    (helem : elem ≠ .bool) (hend : headerSize + size * elems.length < 2 ^ 30) (s : EncoderState) :
    encodeElements size write elems s = forEach (fun p : Slot × Value => write p.2 (p.1.addr : ℕ))
        ((elementSlots elem 0 elems.length).zip elems) s := by
  rw [zip_elementSlots, forEach_map, encodeElements]
  refine forEach_congr (fun x hx => ?_) s
  have hlt : x.2 < elems.length := by
    have := snd_lt_of_mem_zipIdx hx
    omega
  have hmul : size * x.2 ≤ size * elems.length := Nat.mul_le_mul_left _ hlt.le
  rw [elementSlot_of_ne helem, hsize]
  simp only [headerSize, Nat.zero_add] at hend ⊢
  have hindex : int ((size : ℤ) * x.2) = (size * x.2 : ℕ) := int_mul (by omega)
  have haddr : int (8 + ((size * x.2 : ℕ) : ℤ)) = (8 + size * x.2 : ℕ) :=
    int_add (m := 8) (by omega)
  rw [hindex, haddr]

theorem elements_objectSizes (h : ∀ v, object Γ elem v = none) :
    (((elementSlots elem 0 n).zip elems).flatMap fun p => objectSizes Γ depth p.1.kind p.2) =
      [] := by
  refine flatMap_eq_nil_iff.mpr fun p hp => objectSizes_of_none ?_
  obtain ⟨i, -, hi⟩ := mem_elementSlots (of_mem_zip hp).1
  rw [hi, elementSlot_kind, h]

theorem encodeNumbers_put (hΓ : Γ.Laid) {q : Slot} {v : Value} {values : List ℕ}
    (hp : q.kind.isPointer)
    (ho : object Γ q.kind v = some ⟨headerSize + size * values.length, values.length,
      (elementSlots (.number size) 0 values.length).zip (values.map .number)⟩)
    (hpos : 0 < size) (hcount : n ≠ 0 → values.length = n)
    (hfits : headerSize + size * values.length < 2 ^ 30 ∧ values.length < 2 ^ 31) :
    Puts Γ total (depth + 1) q v (encodeNumbers · size values q.addr (expectedLength n)) := by
  intro w pen s L htotal hs h
  beta_reduce
  rw [encodeNumbers, encoderForArray_eq hcount hfits.1]
  refine object_put hΓ hp ho hfits.2 htotal hs h fun {s₁ L₁} hinv hview hopen => ?_
  have hle := le_align8 (headerSize + size * values.length)
  have hroom := hopen.room
  have hnext : s₁.view.next = s.view.next + align8 (headerSize + size * values.length) := by
    rw [hview]
    rfl
  obtain ⟨hrun, hinv'⟩ := append_eq hinv (by omega) s.view.next size values hpos (by omega)
  refine ⟨_, hrun, ?_, ?_⟩
  · rw [putAll_numbers]
    rfl
  · rw [elements_objectSizes fun _ => rfl, append_nil]
    exact hinv'

theorem encodeBooleans_put (hΓ : Γ.Laid) {q : Slot} {v : Value} {values : List Bool}
    (hp : q.kind.isPointer)
    (ho : object Γ q.kind v = some ⟨headerSize + (values.length + 7) / 8, values.length,
      (elementSlots .bool 0 values.length).zip (values.map .bool)⟩)
    (hcount : count ≠ 0 → values.length = count) (hshort : values.length + 7 < 2 ^ 31)
    (hfits : headerSize + (values.length + 7) / 8 < 2 ^ 30) :
    Puts Γ total (depth + 1) q v (encodeBooleans · values q.addr (expectedLength count)) := by
  intro w pen s L htotal hs h
  have hlength : (int ((values.length : ℤ) + 7)).tdiv 8 = ((values.length + 7) / 8 : ℕ) :=
    int_tdiv_eight (by omega)
  have hbytes : int (8 + (((values.length + 7) / 8 : ℕ) : ℤ)) =
      (headerSize + (values.length + 7) / 8 : ℕ) := by
    simp only [headerSize] at hfits ⊢
    exact int_add (m := 8) (by omega)
  beta_reduce
  rw [encodeBooleans, checkFixedLength_eq hcount, ok_bind]
  simp only [hlength, Int.toNat_natCast, length_map, length_range]
  rw [if_neg (by omega), encoderForArrayByTotalSize, hbytes]
  refine object_put hΓ hp ho (by omega) htotal hs h fun {s₁ L₁} hinv hview hopen => ?_
  have hle := le_align8 (headerSize + (values.length + 7) / 8)
  have hroom := hopen.room
  have hnext : s₁.view.next = s.view.next + align8 (headerSize + (values.length + 7) / 8) := by
    rw [hview]
    rfl
  obtain ⟨hrun, hinv'⟩ := append_eq hinv (by omega) s.view.next 1
    ((List.range ((values.length + 7) / 8)).map (packByte values)) (by decide)
    (by rw [length_map, length_range]; omega)
  refine ⟨_, hrun, ?_, ?_⟩
  · -- the bytes are zero before
    rw [putAll_bools, EncoderState.view_put, storeAll_one, setBits_eq_storeBytes]
    · rfl
    · intro x hx
      rw [hview]
      exact h.zero_enter hp _ hx.1
  · rw [elements_objectSizes fun _ => rfl, append_nil]
    exact hinv'

variable {parent : Kind}

theorem encodeElements_put (hΓ : Γ.Laid) (hD : D.Words) {write : ℤ → Value → ℤ → Encoding}
    (hv : HasKind Γ D (depth + 1) (.array elem count nullable) (.array elems))
    (ha : Always Γ (Fits Γ) (depth + 1) parent (.array elem count nullable) (.array elems))
    (hsize : elem.size = size) (helem : elem ≠ .bool)
    (hwrite : ∀ v ∈ elems, ∀ addr : ℕ, Puts Γ total depth ⟨elem, addr, 0⟩ v (write · v addr)) :
    Puts Γ total (depth + 1) ⟨.array elem count nullable, addr, bit⟩ (.array elems) fun base =>
      encoderForArray base size elems.length addr (expectedLength count)
        fun base => encodeElements size (write base) elems := by
  intro w pen s L htotal hs h
  have ho : object Γ (.array elem count nullable) (.array elems) =
      some ⟨headerSize + elementBytes elem elems.length, elems.length,
        (elementSlots elem 0 elems.length).zip elems⟩ := rfl
  obtain ⟨hfits, hword⟩ := ha.here.object _ ho
  simp only at hfits hword
  have hbytes : elementBytes elem elems.length = size * elems.length := by
    rw [elementBytes_of_ne helem, hsize]
  have hcount := hv
  simp only [HasKind] at hcount
  rw [hbytes] at ho hfits
  beta_reduce
  rw [encoderForArray_eq hcount.1 hfits]
  refine object_put hΓ rfl ho hword htotal hs h fun {s₁ L₁} hinv hview hopen => ?_
  rw [encodeElements_eq hsize helem hfits]
  refine members_put hΓ hD (hv.members ho) (ha.2 _ ho) (fun p hp s L cursor left hs hopen => ?_)
    hinv hopen
  obtain ⟨hslot, hval⟩ := of_mem_zip hp
  obtain ⟨i, -, hi⟩ := mem_elementSlots hslot
  rw [elementSlot_of_ne helem] at hi
  obtain ⟨q, v⟩ := p
  simp only at hi hval
  subst hi
  exact hwrite _ hval _ htotal hs hopen

theorem encodeArray_put (hΓ : Γ.Laid) (hD : D.Words) (hD' : D.Valid)
    {write : Kind → Value → ℤ → ℤ → ℕ → Encoding} (hwrite : Writes Γ D total depth write)
    (hv : HasKind Γ D (depth + 1) (.array elem count nullable) (.array elems))
    (ha : Always Γ (Fits Γ) (depth + 1) parent (.array elem count nullable) (.array elems)) :
    Puts Γ total (depth + 1) ⟨.array elem count nullable, addr, bit⟩ (.array elems)
      (encodeArray write elem elems (expectedLength count) · addr) := by
  intro w pen s L htotal hs h
  have hobject := ha.here.object _ rfl
  have hcount := hv
  simp only [HasKind] at hcount
  have hmember : ∀ v ∈ elems, HasKind Γ D depth elem v ∧
      Always Γ (Fits Γ) depth (.array elem count nullable) elem v := by
    intro v hmem
    refine ⟨hcount.2 v hmem, ?_⟩
    have hkinds := zip_kinds elem elems
    obtain ⟨p, hp, hpv⟩ : ∃ p ∈ (elementSlots elem 0 elems.length).zip elems, (p.1.kind, p.2) =
        (elem, v) := by
      rw [← mem_map, hkinds]
      exact mem_map_of_mem hmem
    obtain ⟨hkind, rfl⟩ := Prod.mk.inj hpv
    have hhere := ha.2 _ rfl p hp
    rw [hkind] at hhere
    exact hhere
  cases elem with
  | number size =>
    have hkind : (Kind.number size).isSlot = true := h.below.kinds _ (.head _)
    have hpos : 0 < size := size_pos hkind
    have hvalues := numbers_of_hasKind hcount.2
    refine encodeNumbers_put hΓ rfl ?_ hpos (by rw [length_map]; exact hcount.1) ?_ htotal hs h
    · rw [← hvalues, length_map]
      rfl
    · rw [length_map]
      exact hobject
  | bool =>
    have hvalues := bools_of_hasKind hcount.2
    refine encodeBooleans_put hΓ rfl ?_ (by rw [length_map]; exact hcount.1) ?_ ?_ htotal hs h
    · rw [← hvalues, length_map]
      rfl
    · rw [length_map]
      exact ha.here.bools
    · rw [length_map]
      exact hobject.1
  | handle elementNullable =>
    refine encodeElements_put hΓ hD hv ha rfl (by simp) (fun v hmem addr => ?_) htotal hs h
    exact encodeHandle_put hD' ((hmember v hmem).1.scalar (by cases v <;> rfl))
  | interface elementNullable =>
    refine encodeElements_put hΓ hD hv ha rfl (by simp) (fun v hmem addr => ?_) htotal hs h
    exact encodeInterface_put hD' ((hmember v hmem).1.scalar (by cases v <;> rfl))
  | string | array | map | struct | union | unionPointer =>
    refine encodeElements_put hΓ hD hv ha rfl (by simp) (fun v hmem addr w pen s L _ hs hopen => ?_)
      htotal hs h
    exact hwrite (hmember v hmem).1 (hmember v hmem).2 hs hopen

end Arrays

section Members

variable {Γ : Types} {D : Domain} {w : Walk} {depth total : ℕ} {L : List ℕ} {s : EncoderState}
  {pen : Pen} {parent : Kind} {write : Kind → Value → ℤ → ℤ → ℕ → Encoding}

theorem Writes.of_succ (h : Writes Γ D total (depth + 1) write) : Writes Γ D total depth write := by
  intro w pen q v parent s L hv ha hs hopen
  obtain ⟨s', hrun, hview, hinv⟩ := h hv.succ (ha.succ hv) hs (hopen.of_hasKind fun p hp => by
    obtain rfl := mem_singleton.mp hp
    exact hv)
  refine ⟨s', hrun, ?_, ?_⟩
  · rw [hview, put_of_hasKind hv]
  · simp only [objectSizes_of_hasKind hv] at hinv
    exact hinv

theorem encodeMap_put (hΓ : Γ.Laid) (hD : D.Words) (hD' : D.Valid)
    {key value : Kind} {keys values : List Value} (hwrite : Writes Γ D total depth write)
    (hv : HasKind Γ D (depth + 1) (.map key value nullable) (.map keys values))
    (ha : Always Γ (Fits Γ) (depth + 1) parent (.map key value nullable) (.map keys values)) :
    Puts Γ total (depth + 1) ⟨.map key value nullable, addr, bit⟩ (.map keys values) fun base s =>
      encodePointerToNextUnclaimedData base addr s >>= getEncoderAtDataOffset ⟨(24 : ℕ), (0 : ℕ)⟩
        fun base s =>
        encodeArray write key keys (-1) base 8 s >>= encodeArray write value values (-1)
        base 16 := by
  intro w pen s L htotal hs h
  refine object_put hΓ rfl rfl (by decide) htotal hs h fun {s₁ L₁} hinv hview hopen => ?_
  have hmembers := hv.members rfl
  have hall := ha.2 _ rfl
  cases depth with
  | zero =>
    -- an array has a depth
    have := hasKind_zero (hmembers _ (.head _))
    cases this
  | succ depth =>
    obtain ⟨s₂, hrun, hview₂, hinv₂⟩ := encodeArray_put hΓ hD hD' hwrite.of_succ
      (hmembers _ (.head _)) (hall _ (.head _)) htotal hinv hopen.head
    have hsized : Always Γ (Sized Γ) (depth + 1) (.map key value nullable) (.array key 0 false)
        (.array keys) :=
      (hall _ (.head _)).mono fun hfits => hfits.sized
    have htail := hopen.tail (put_wrote hΓ hD (hmembers _ (.head _)) hsized hopen.head)
    rw [← hview₂] at htail
    obtain ⟨s₃, hrun', hview₃, hinv₃⟩ :=
      encodeArray_put hΓ hD hD' hwrite.of_succ (hmembers _ (.tail _ (.head _)))
      (hall _ (.tail _ (.head _))) htotal hinv₂ htail
    refine ⟨s₃, ?_, ?_, ?_⟩
    · exact (congrArg (· >>= _) hrun).trans hrun'
    · rw [hview₃, hview₂]
      rfl
    · simpa using hinv₃

theorem encodeStruct_put (hΓ : Γ.Laid) (hD : D.Words) {fields : List Value}
    (hwrite : Writes Γ D total depth write)
    (hv : HasKind Γ D (depth + 1) (.struct name nullable) (.struct fields))
    (ha : Always Γ (Fits Γ) (depth + 1) parent (.struct name nullable) (.struct fields)) :
    Puts Γ total (depth + 1) ⟨.struct name nullable, addr, bit⟩ (.struct fields) fun base s =>
      encodePointerToNextUnclaimedData base addr s >>= encodeStruct Γ write name fields := by
  intro w pen s L htotal hs h
  have ho : object Γ (.struct name nullable) (.struct fields) = some ⟨(Γ.struct name).last.numBytes,
    (Γ.struct name).last.version, ((Γ.struct name).fields.map fun f => f.slot 0).zip fields⟩ := rfl
  have hword := (ha.here.object _ ho).2
  unfold encodeStruct
  refine object_put hΓ rfl ho hword htotal hs h fun {s₁ L₁} hinv hview hopen => ?_
  obtain ⟨s', hrun, hput⟩ := members_put (t := s.view.next)
    (f := fun p => write p.1.kind p.2 s.view.next p.1.addr p.1.bit) hΓ hD (hv.members ho)
      (ha.2 _ ho)
    (fun p hp s L cursor left hs hopen => hwrite (hv.members ho p hp) (ha.2 _ ho p hp) hs hopen)
      hinv hopen
  refine ⟨s', ?_, hput⟩
  rw [zip_map_left, forEach_map] at hrun
  exact hrun

variable {tag : ℕ}

theorem encodeUnion_eq (write : Kind → Value → ℤ → ℤ → ℕ → Encoding) {kind : Kind}
    (field : Value) (t i : ℕ) (hactive : (Γ.union name).active tag = some kind) (hs : Inv total L s)
    (hend : t + i + 8 ≤ s.view.next) (hsmall : s.view.next < 2 ^ 31) :
    encodeUnion Γ write name tag field t i s =
        write kind.inUnion field t (i + 8 : ℕ) 0
          (s.put (store (store s.view.mem (t + i) 4 unionSize) (t + i + 4) 4 tag) s.view.handles) ∧
          Inv total L
        (s.put (store (store s.view.mem (t + i) 4 unionSize) (t + i + 4) 4 tag)
        s.view.handles) := by
  obtain ⟨hrun, hinv⟩ := encodeBits_next (k := 4) (n := 4) (x := unionSize) (y := tag)
    (i := i) (t := t)
    hs hsmall (by omega) s.handles
  have hoffset : int ((i : ℤ) + 8) = (i + 8 : ℕ) := int_add (n := 8) (by omega)
  refine ⟨?_, hinv⟩
  rw [encodeUnion, encodeBits_eq hs hsmall (by omega), ok_bind]
  refine (congrArg (· >>= _) hrun).trans ?_
  rw [ok_bind, hactive]
  simp only [hoffset]
  rfl

variable {field : Value}

theorem encodeInlineUnion_put (hΓ : Γ.Laid) (hwrite : Writes Γ D total depth write)
    (hv : HasKind Γ D (depth + 1) (.union name nullable) (.union tag field))
    (ha : Always Γ (Fits Γ) (depth + 1) parent (.union name nullable) (.union tag field)) :
    Puts Γ total (depth + 1) ⟨.union name nullable, addr, bit⟩ (.union tag field)
      (encodeUnion Γ write name tag field · addr) := by
  intro w pen s L htotal hs h
  obtain ⟨hplace, hsmall⟩ := place_of_open h htotal
  simp only [Kind.size] at hplace
  obtain ⟨kind, hactive, hkind, ho⟩ := active_of_hasKind (.inl rfl) hv
  obtain ⟨hrun, hinv⟩ := encodeUnion_eq write field pen.base addr hactive hs (by omega) hsmall
  have hopen := h.tag hΓ rfl hactive (flows_indexed [(⟨kind.inUnion, addr + 8, 0⟩, field)])
  obtain ⟨s', hrun', hview, hinv'⟩ := hwrite (q := ⟨kind.inUnion, addr + 8, 0⟩) hkind
    (ha.2 _ ho _ (.head _)) hinv hopen
  refine ⟨s', hrun.trans hrun', ?_, ?_⟩
  · rw [hview, put_of_inline ho (by simp [Kind.isPointer]), putAll, foldl_cons, foldl_nil,
      put_shift]
    rfl
  · rw [objectSizes_succ ho, if_neg (by simp [Kind.isPointer])]
    simpa using hinv'

theorem encodeUnionPointer_put (hΓ : Γ.Laid) (hwrite : Writes Γ D total depth write)
    (hv : HasKind Γ D (depth + 1) (.unionPointer name nullable) (.union tag field))
    (ha : Always Γ (Fits Γ) (depth + 1) parent (.unionPointer name nullable) (.union tag field)) :
    Puts Γ total (depth + 1) ⟨.unionPointer name nullable, addr, bit⟩ (.union tag field)
      fun base s => encodePointerToNextUnclaimedData base addr s >>= fun s =>
        encodeUnion Γ write name tag field s.dataEnd 0 (s.claimMemory 16) := by
  intro w pen s L htotal hs h
  have hnext := hs.next
  obtain ⟨hplace, hsmall⟩ := place_of_open h htotal
  simp only [Kind.size] at hplace
  obtain ⟨kind, hactive, hkind, ho⟩ := active_of_hasKind (.inr rfl) hv
  have hp : (Kind.unionPointer name nullable).isPointer = true := rfl
  have hroom := h.room
  rw [outSizes_cons, outSize_succ ho, if_pos hp] at hroom
  simp only [unionSize, align8] at hroom
  set s₀ := s.put (store s.mem (pen.base + addr) 8 (s.view.next - (pen.base + addr)))
    s.handles with hs₀
  obtain ⟨hview, hclaim⟩ := claimMemory_eq
    (hs.store (x := s.view.next - (pen.base + addr)) hplace s.handles) (align8 unionSize)
    (by simp only [EncoderState.view_put, unionSize, align8]; omega) htotal
  rw [← hs₀] at hview hclaim
  set s₁ := s₀.claimMemory (align8 unionSize : ℕ) with hs₁
  have hnext₁ : s₁.view.next = s.view.next + 16 := by
    rw [hview]
    rfl
  obtain ⟨hrun, hinv⟩ := encodeUnion_eq write field s.view.next 0 hactive hclaim (by omega)
    (by omega)
  have hentered : (s₁.put (store (store s₁.view.mem (s.view.next + 0) 4 unionSize)
      (s.view.next + 0 + 4) 4 tag) s₁.view.handles).view =
      s.view.enter (pen.base + addr) ⟨unionSize, tag, [(⟨kind.inUnion, 8, 0⟩, field)]⟩ := by
    rw [EncoderState.view_put, hview]
    rfl
  have hopen := h.enter hΓ hp ho (flows_indexed [(⟨kind.inUnion, 8, 0⟩, field)])
  rw [← hentered] at hopen
  obtain ⟨s', hrun', hview', hinv'⟩ :=
    hwrite (q := ⟨kind.inUnion, 8, 0⟩) hkind (ha.2 _ ho _ (.head _)) hinv hopen
  refine ⟨s', ?_, ?_, ?_⟩
  · have hbase : s₀.dataEnd = s.view.next := hnext.symm
    beta_reduce
    rw [encodePointer_eq hs hsmall hplace, ok_bind, ← hs₀, hbase]
    exact hrun.trans hrun'
  · rw [hview', put_of_pointer ho hp, hentered]
    rfl
  · rw [objectSizes_succ ho, if_pos hp, ← append_assoc]
    simpa using hinv'

theorem encode_scalar_put {q : Slot} {v : Value} (hD' : D.Valid) (n : ℕ) (hv : Scalar D q.kind v) :
    Puts Γ total depth q v (encode Γ (n + 1) q.kind v · q.addr q.bit) := by
  obtain ⟨kind, addr, bit⟩ := q
  cases kind with
  | number size =>
    cases hv with
    | number hn => exact encodeBits_put
    | null hnull => cases hnull
  | bool =>
    cases hv with
    | bool b => exact encodeBoolean_put
    | null hnull => cases hnull
  | handle nullable => exact encodeHandle_put hD' hv
  | interface nullable => exact encodeInterface_put hD' hv
  | union name nullable =>
    cases hv with
    | null hnull =>
      intro w pen s L htotal hs h
      have hencode : encode Γ (n + 1) (.union name nullable) .null pen.base addr bit s =
          (encodeBits pen.base 0 addr 8 s >>= encodeBits pen.base 0 (int (addr + 8)) 8) :=
            if_pos hnull
      simp only [hencode]
      exact encodeNullUnion_put htotal hs h
  | string | array | map | struct | unionPointer =>
    cases hv with
    | null hnull => exact encodeNullPointer_put rfl hnull

theorem encode_writes (hΓ : Γ.Laid) (hD : D.Words) (hD' : D.Valid)
    (htotal : total < 2 ^ 30) (depth : ℕ) : Writes Γ D total depth (encode Γ (depth + 1)) := by
  induction depth with
  | zero =>
    intro w pen q v parent s L hv ha hs h
    exact encode_scalar_put hD' 0 (hv.scalar (hasKind_zero hv)) htotal hs h
  | succ depth ih =>
    intro w pen q v parent s L hv ha hs h
    cases ho : object Γ q.kind v with
    | none => exact encode_scalar_put hD' _ (hv.scalar ho) htotal hs h
    | some o =>
      obtain ⟨kind, addr, bit⟩ := q
      cases objectOf ho with
      | string nullable bytes =>
        have hobject := ha.here.object _ rfl
        refine encodeNumbers_put (n := 0) hΓ rfl ?_ (by decide) (fun h => absurd rfl h) ?_
          htotal hs h
        · simp only [object, length_map, map_map, Nat.one_mul]
          rfl
        · simp only [length_map, Nat.one_mul]
          exact hobject
      | array elem count nullable elems => exact encodeArray_put hΓ hD hD' ih hv ha htotal hs h
      | map key value nullable keys values => exact encodeMap_put hΓ hD hD' ih hv ha htotal hs h
      | struct name nullable fields => exact encodeStruct_put hΓ hD ih hv ha htotal hs h
      | union name nullable tag field active hactive =>
        exact encodeInlineUnion_put hΓ ih hv ha htotal hs h
      | unionPointer name nullable tag field active hactive =>
          exact encodeUnionPointer_put hΓ ih hv ha htotal hs h

end Members

end Mojo.JavaBindings
