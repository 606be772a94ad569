import Mojo.JavaBindings.DecodeClaims
import Mojo.JavaBindings.DecodeValues

/-!
# Following a pointer in Java

The sum of a position and a pointer is formed in `long` arithmetic and narrowed to `int`;
what is claimed is the header at the narrowed position. Of a pointer that is not null only
the lower half matters.
-/

namespace Mojo.JavaBindings

open Mojo.Memory Mojo.Wire Mojo.CppBindings Mojo.System

def followPointer (msg : Message) (base offset : ℤ) (nullable : Bool) :
    Decoding (Option (ℤ × DataHeader)) := do
  let d ← readPointer msg base offset nullable
  match d with
  | none => pure none
  | some d => do
    let header ← readDataHeader msg d
    pure (some (d, header))

def FollowedExactly (msg : Message) (base offset : ℕ) :
    EStateM.Result Exception Validator (Option (ℤ × DataHeader)) → Prop
  | .ok none _ => load msg.data (base + offset) 8 = 0
  | .ok (some (d, _)) _ => d = (base + offset + load msg.data (base + offset) 8 : ℕ)
  | .error (.deserialization _) _ => True
  | .error _ _ => False

/-- Where decoding continues. -/
def position : EStateM.Result Exception Validator (Option (ℤ × DataHeader)) → Option ℤ
  | .ok (some (d, _)) _ => some d
  | _ => none

def Message.withPointer (msg : Message) (a p : ℕ) : Message :=
  { msg with data := store msg.data a 8 p }

/-- A header that can be claimed lies at `b`, when the next claim begins at `next` or later. -/
structure Claimable (msg : Message) (next : ℤ) (b : ℕ) : Prop where
  behind : next ≤ b
  aligned : b % 8 = 0
  size : 8 ≤ load msg.data b 4
  inside : b + load msg.data b 4 ≤ msg.limit
  word : load msg.data (b + 4) 4 < 2 ^ 31

theorem int_add_long (x y : ℤ) : int (long (x + long y)) = int (x + y) := by
  rw [int, int, long, long, Int.bmod_bmod_of_dvd (by decide), ← Int.add_bmod_bmod,
    Int.bmod_bmod_of_dvd (by decide), Int.add_bmod_bmod]

theorem long_eq_zero {n : ℕ} (h : n < 2 ^ 64) : long n = 0 ↔ n = 0 := by
  rw [long, Int.bmod_def]
  split <;> omega

theorem int_eq_self_iff (n : ℕ) : int n = n ↔ n < 2 ^ 31 := by
  refine ⟨fun h => ?_, int_of_lt⟩
  have hlt := int_lt n
  omega

section

variable {msg : Message} {base offset : ℕ} {nullable : Bool} {v : Validator}

theorem readPointer_eq (hin : base + offset + 8 ≤ msg.limit) :
    readPointer msg base offset nullable v =
    (if load msg.data (base + offset) 8 = 0 then do
      throwIf (nullable = false) "Trying to decode null pointer for a non-nullable type."
      pure none
    else pure (some (int (base + offset + load msg.data (base + offset) 8 : ℕ))))
      { v with log := .read (base + offset) 8 :: v.log } := by
  have hlt := msg.limit_lt
  have hpos : int ((base : ℤ) + offset) = (base + offset : ℕ) := int_add (by omega)
  have hread : readLong msg base offset v = .ok (long (load msg.data (base + offset) 8))
      { v with log := .read (base + offset) 8 :: v.log } := by
    have hsize : int ((offset : ℤ) + (8 : ℕ)) = (offset + 8 : ℕ) := int_add (by omega)
    have hthrow : ¬ (msg.limit : ℤ) < (offset + 8 : ℕ) := by omega
    have hindex : (0 : ℤ) ≤ (base + offset : ℕ) ∧
        ((base + offset : ℕ) : ℤ) + (8 : ℕ) ≤ msg.limit := by omega
    rw [readLong, readBits, validateBufferSize, hsize, hpos, throwIf, if_neg hthrow, getBits,
      if_pos hindex]
    rfl
  rw [readPointer, bind_of_ok hread, hpos, int_add_long]
  simp [long_eq_zero (load_lt msg.data (base + offset) 8)]

theorem followPointer_triple {lo : ℕ} {R : List (ℕ × ℕ)} {r : ℕ × ℕ}
    (h : Within R (base + offset) 8 r) (nullable : Bool) :
    Triple (Holds msg lo R) (followPointer msg base offset nullable) (fun _ _ => True)
      (Fails msg False) := by
  refine (readPointer_triple h).bind fun d => ?_
  cases d with
  | none => exact .ret _ fun _ _ => trivial
  | some d =>
    exact (readDataHeader_triple d).bind (fun _ _ => id) fun _ _ _ _ _ => .ret _ fun _ _ => trivial

abbrev Mild {α : Type} (x : Decoding α) : Prop :=
  Triple (fun _ => True) x (fun _ _ => True) fun e _ => e ≠ .negativeArraySize

theorem throwIf_mild (c : Prop) [Decidable c] (message : String) : Mild (throwIf c message) :=
  .cond (fun _ => .raise _ fun _ _ => by simp) fun _ => .ret _ fun _ _ => trivial

theorem claimMemory_mild (start stop : ℤ) : Mild (claimMemory msg start stop) := by
  refine .bind (Q := fun _ _ => True) (.read fun _ _ => trivial) fun v => ?_
  refine (throwIf_mild _ _).bind fun _ => (throwIf_mild _ _).bind fun _ => ?_
  exact (throwIf_mild _ _).bind fun _ => (throwIf_mild _ _).bind fun _ =>
    .update _ fun _ _ => trivial

theorem readInt_mild (base offset : ℤ) : Mild (readInt msg base offset) := by
  refine .bind (Q := fun _ _ => True) ((throwIf_mild _ _).bind fun _ => ?_) fun _ =>
    .ret _ fun _ _ => trivial
  refine .cond (fun _ => ?_) fun _ => .raise _ fun _ _ => by simp
  exact .bind (Q := fun _ _ => True) (.update _ fun _ _ => trivial) fun _ =>
    .ret _ fun _ _ => trivial

theorem readDataHeader_mild (base : ℤ) : Mild (readDataHeader msg base) := by
  refine (claimMemory_mild _ _).bind fun _ => .bind (Q := fun _ _ => True) ?_ fun header =>
    (claimMemory_mild _ _).bind fun _ => .ret _ fun _ _ => trivial
  refine (readInt_mild _ _).bind fun size => (readInt_mild _ _).bind fun word => ?_
  exact (throwIf_mild _ _).bind fun _ => (throwIf_mild _ _).bind fun _ => .ret _ fun _ _ => trivial

theorem followPointer_null (hin : base + offset + 8 ≤ msg.limit)
    (h : load msg.data (base + offset) 8 = 0) :
    FollowedExactly msg base offset (followPointer msg base offset nullable v) ∧
      position (followPointer msg base offset nullable v) = none := by
  have hpointer : readPointer msg base offset nullable v = _ :=
    (readPointer_eq hin).trans (by rw [if_pos h])
  cases nullable with
  | true =>
    have hrun : followPointer msg base offset true v = _ := bind_of_ok hpointer
    rw [hrun]
    exact ⟨h, rfl⟩
  | false =>
    have hrun : followPointer msg base offset false v = _ := bind_of_error hpointer
    rw [hrun]
    exact ⟨trivial, rfl⟩

end

section

variable {msg : Message} {base offset lo : ℕ} {R : List (ℕ × ℕ)} {r : ℕ × ℕ} {v : Validator}

theorem Holds.at_next (hv : Holds msg lo R v) : Holds msg v.minNextMemory.toNat R v :=
  { hv with lower := by have := hv.lower; omega }

theorem Within.behind (h : Within R (base + offset) 8 r) (hv : Holds msg lo R v) :
    ((base + offset + 8 : ℕ) : ℤ) ≤ v.minNextMemory := by
  have hstop := h.stop
  have hclaim := hv.memory r.1 r.2 (hv.ranges r h.mem)
  simp only [roundUp8] at hclaim
  omega

/-- A pointer that is not null is followed to the narrowed position exactly if there is a
header that can be claimed. -/
theorem followPointer_position (hv : Holds msg lo R v) (h : Within R (base + offset) 8 r)
    (nullable : Bool) (hne : load msg.data (base + offset) 8 ≠ 0) {b : ℤ}
    (hb : b = int (base + offset + load msg.data (base + offset) 8 : ℕ)) :
    position (followPointer msg base offset nullable v) = some b ∧
        Claimable msg v.minNextMemory b.toNat ∨
      position (followPointer msg base offset nullable v) = none ∧
        FollowedExactly msg base offset (followPointer msg base offset nullable v) ∧
        ¬ Claimable msg v.minNextMemory b.toNat := by
  have hin : base + offset + 8 ≤ msg.limit := h.stop.trans (hv.inside h.mem)
  have hfollow : followPointer msg base offset nullable v = _ :=
    bind_of_ok ((readPointer_eq hin).trans (by rw [if_neg hne, ← hb]; rfl))
  have hspec := followPointer_triple h nullable v hv
  have hv' : Holds msg v.minNextMemory.toNat R { v with log := .read (base + offset) 8 :: v.log } :=
    hv.at_next.cons (h.claimed hv) (by simp) (by simp)
  cases hrun : readDataHeader msg b { v with log := .read (base + offset) 8 :: v.log } with
  | ok header v' =>
    have hresult := hfollow.trans (bind_of_ok hrun)
    have henters : Enters msg v.minNextMemory.toNat R False b _ _ := readDataHeader_triple b
    obtain ⟨b', n, k, ⟨hentered, -⟩, -⟩ := henters.of_ok hv' hrun
    have hlower := hv.lower
    have hbehind := hentered.behind
    rw [hresult]
    refine .inl ⟨rfl, ?_⟩
    rw [hentered.base, Int.toNat_natCast]
    exact ⟨by omega, hentered.aligned, hentered.sized ▸ hentered.size,
      hentered.sized ▸ hentered.inside, hentered.loaded ▸ hentered.word⟩
  | error e v' =>
    have hresult := hfollow.trans (bind_of_error hrun)
    rw [hresult] at hspec ⊢
    refine .inr ⟨rfl, ?_, fun hclaim => ?_⟩
    · have hraises := hspec.2
      have hmild := (readDataHeader_mild b).of_error trivial hrun
      cases e with
      | deserialization message => trivial
      | negativeArraySize => exact absurd rfl hmild
      | _ => exact hraises
    · have hlast := h.behind hv
      have hbehind := hclaim.behind
      lift b to ℕ using by omega
      have hready := readDataHeader_returns (i := v.minNextClaimedHandle.toNat) hclaim.aligned
        hclaim.size hclaim.inside rfl rfl hclaim.word
      rw [Int.toNat_natCast] at hready hbehind
      obtain ⟨v'', hok, -⟩ := hready { v with log := .read (base + offset) 8 :: v.log }
        ⟨hbehind, Int.self_le_toNat _⟩
      rw [hrun] at hok
      cases hok

theorem claimable_withPointer {b p : ℕ}
    (hbehind : ((base + offset + 8 : ℕ) : ℤ) ≤ v.minNextMemory) :
    Claimable (msg.withPointer (base + offset) p) v.minNextMemory b ↔
      Claimable msg v.minNextMemory b := by
  have hload {a : ℕ} (ha : v.minNextMemory ≤ a) :
      load (msg.withPointer (base + offset) p).data a 4 = load msg.data a 4 :=
    load_store_of_disjoint (span_disjoint_of_le (by omega)).symm
  constructor
  · rintro ⟨hb, haligned, hsize, hinside, hword⟩
    rw [hload hb] at hsize hinside
    rw [hload (by omega)] at hword
    exact ⟨hb, haligned, hsize, hinside, hword⟩
  · rintro ⟨hb, haligned, hsize, hinside, hword⟩
    rw [← hload hb] at hsize hinside
    rw [← hload (by omega)] at hword
    exact ⟨hb, haligned, hsize, hinside, hword⟩

end

theorem followedExactly_of_position {msg : Message} {base offset : ℕ} {d : ℤ}
    {result : EStateM.Result Exception Validator (Option (ℤ × DataHeader))}
    (h : position result = some d) : FollowedExactly msg base offset result ↔
      d = (base + offset + load msg.data (base + offset) 8 : ℕ) := by
  cases result with
  | error e v => cases h
  | ok target v =>
    cases target with
    | none => cases h
    | some target =>
      obtain rfl := Option.some.inj h
      rfl

theorem int_add_of_mod {a p p' : ℕ} (h : p' % 2 ^ 32 = p % 2 ^ 32) :
    int (a + p' : ℕ) = int (a + p : ℕ) := by
  rw [int, int, Int.bmod_def, Int.bmod_def]
  omega

/-- The position that a pointer leads to is exact, or there is a `DeserializationException`,
unless the sum is not an `int` value and there is a header at the narrowed position that can be
claimed. If there is one, another pointer with the same lower half leads there as well. -/
theorem followPointer_exact_iff {msg : Message} {base offset lo : ℕ} {R : List (ℕ × ℕ)}
    {r : ℕ × ℕ} {v : Validator} (hv : Holds msg lo R v) (h : Within R (base + offset) 8 r)
    (nullable : Bool) :
    let p := load msg.data (base + offset) 8
    let b := (int (base + offset + p : ℕ)).toNat
    let follow := fun msg : Message => followPointer msg base offset nullable v
    (FollowedExactly msg base offset (follow msg) ↔
      base + offset + p < 2 ^ 31 ∨ ¬ Claimable msg v.minNextMemory b) ∧
    (FollowedExactly msg base offset (follow msg) ∧
      (∀ p' < 2 ^ 64, p' ≠ p → p' % 2 ^ 32 = p % 2 ^ 32 → ∀ d,
        position (follow (msg.withPointer (base + offset) p')) = some d →
          position (follow msg) ≠ some d) ↔
      p = 0 ∨ ¬ Claimable msg v.minNextMemory b) := by
  intro p b follow
  have hin : base + offset + 8 ≤ msg.limit := h.stop.trans (hv.inside h.mem)
  have hlt := msg.limit_lt
  by_cases hnull : p = 0
  · obtain ⟨hexact, hnone⟩ : FollowedExactly msg base offset (follow msg) ∧
        position (follow msg) = none := followPointer_null hin hnull
    refine ⟨iff_of_true hexact (.inl (by omega)), iff_of_true ⟨hexact, fun _ _ _ _ d _ => ?_⟩
      (.inl hnull)⟩
    simp only [follow, hnone, ne_eq, reduceCtorEq, not_false_eq_true]
  · rcases followPointer_position hv h nullable hnull rfl with ⟨hpos, hclaim⟩ | ⟨hnone, hexact, hno⟩
    · have hbehind := h.behind hv
      refine ⟨?_, iff_of_false (fun hall => ?_) (not_or.mpr ⟨hnull, not_not.mpr hclaim⟩)⟩
      · rw [followedExactly_of_position hpos, int_eq_self_iff]
        exact ⟨.inl, fun hor => hor.resolve_right (not_not.mpr hclaim)⟩
      · have hlow : p % 2 ^ 32 ≠ 0 := fun hzero => by
          have hb : int (base + offset + p : ℕ) = (base + offset : ℕ) :=
            (int_add_of_mod (p := 0) (by omega)).trans (int_of_lt (by omega))
          have hfirst := hclaim.behind
          rw [hb, Int.toNat_natCast] at hfirst
          omega
        have hp : p < 2 ^ 64 := load_lt msg.data (base + offset) 8
        obtain ⟨p', hp', hne, hmod⟩ : ∃ p' < 2 ^ 64, p' ≠ p ∧ p' % 2 ^ 32 = p % 2 ^ 32 := by
          by_cases hsmall : p < 2 ^ 32
          · exact ⟨p + 2 ^ 32, by omega, by omega, by omega⟩
          · exact ⟨p % 2 ^ 32, by omega, by omega, by omega⟩
        have hload : load (msg.withPointer (base + offset) p').data (base + offset) 8 = p' :=
          load_store_of_lt hp'
        have hv' : Holds (msg.withPointer (base + offset) p') lo R v :=
          ⟨hv.proper, hv.memory, hv.lower, hv.handle, hv.nonneg, hv.ranges, hv.countable⟩
        have hsame := int_add_of_mod (a := base + offset) hmod
        rcases followPointer_position hv' h nullable (by omega) (by rw [hload, hsame]) with
          ⟨hpos', -⟩ | ⟨-, -, hno⟩
        · exact hall.2 p' hp' hne hmod _ hpos' hpos
        · exact hno ((claimable_withPointer hbehind).mpr hclaim)
    · refine ⟨iff_of_true hexact (.inr hno), iff_of_true ⟨hexact, fun _ _ _ _ d _ => ?_⟩ (.inr hno)⟩
      simp only [follow, hnone, ne_eq, reduceCtorEq, not_false_eq_true]

/-- The pointer at 8 has the given bytes; there is a header of eight bytes at 16. -/
def pointerMessage (low high : UInt8) : Message where
  data := block 0 [16, 0, 0, 0, 0, 0, 0, 0, low, 0, 0, 0, high, 0, 0, 0, 8, 0, 0, 0, 0, 0, 0, 0]
  limit := 24
  handles := []
  limit_lt := by decide
  handles_lt := noHandles_lt

def firstClaimed : Validator := ⟨0, 16, [.claim 0 16], []⟩

theorem firstClaimed_holds (low high : UInt8) :
    Holds (pointerMessage low high) 16 [(0, 16)] firstClaimed := by
  constructor <;> simp [firstClaimed, Proper, MayFollow, pointerMessage, roundUp8, Countable]

-- The pointer leads into the object that has been claimed.
theorem followPointer_exact_back : FollowedExactly (pointerMessage 0 1) 0 8
    (followPointer (pointerMessage 0 1) (0 : ℕ) (8 : ℕ) false firstClaimed) := by
  have hint : (int (0 + 8 + load (pointerMessage 0 1).data (0 + 8) 8 : ℕ)).toNat = 8 := by
    rw [int]
    decide +kernel
  have hin : Within [(0, 16)] (0 + 8) 8 (0, 16) := ⟨.head _, by decide, by decide⟩
  refine ((followPointer_exact_iff (firstClaimed_holds 0 1) hin false).2.mpr (.inr ?_)).1
  rw [hint]
  exact fun hclaim => absurd hclaim.behind (by decide)

theorem followPointer_narrowed : ¬ FollowedExactly (pointerMessage 8 1) 0 8
    (followPointer (pointerMessage 8 1) (0 : ℕ) (8 : ℕ) false firstClaimed) := by
  have hint : int (0 + 8 + load (pointerMessage 8 1).data (0 + 8) 8 : ℕ) = (16 : ℕ) := by
    rw [int]
    decide +kernel
  have hclaim : Claimable (pointerMessage 8 1) 16 16 :=
    ⟨by decide, by decide, by decide +kernel, by decide +kernel, by decide +kernel⟩
  have hin : Within [(0, 16)] (0 + 8) 8 (0, 16) := ⟨.head _, by decide, by decide⟩
  rcases followPointer_position (firstClaimed_holds 8 1) hin false (by decide +kernel)
      hint.symm with
    ⟨hpos, -⟩ | ⟨-, -, hno⟩
  · rw [followedExactly_of_position hpos]
    decide +kernel
  · exact absurd hclaim hno

end Mojo.JavaBindings
