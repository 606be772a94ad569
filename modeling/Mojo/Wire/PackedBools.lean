import Mojo.Wire.Put

/-!
# Arrays of numbers and of bools as blocks of bytes

Many encoders write the elements of an array of numbers at once, and pack bools into bytes before
they write them. `putAll_numbers` and `putAll_bools` say that this is the same as one element after
another.
-/

namespace Mojo.Wire

open Mojo.Memory Mojo.CppBindings
open List hiding Mem span

def packByte (v : List Bool) (i : ℕ) : ℕ :=
  (List.range 8).foldl (fun byte j => if v.getD (8 * i + j) false then byte ||| 2 ^ j else byte) 0

theorem testBit_packByte (v : List Bool) (i j : ℕ) :
    (packByte v i).testBit j = (decide (j < 8) && v.getD (8 * i + j) false) := by
  have hfrom : ∀ n, ((List.range n).foldl
      (fun byte k => if v.getD (8 * i + k) false then byte ||| 2 ^ k else byte) 0).testBit j =
      (decide (j < n) && v.getD (8 * i + j) false) := by
    intro n
    induction n with
    | zero => simp
    | succ n ih =>
      rw [range_succ, foldl_append, foldl_cons, foldl_nil]
      by_cases hn : v.getD (8 * i + n) false = true
      · rw [if_pos hn, Nat.testBit_or, ih, Nat.testBit_two_pow]
        by_cases hj : n = j
        · subst hj
          rw [hn]
          simp
        · have : (j < n + 1) ↔ (j < n) := by omega
          simp [hj, this]
      · rw [if_neg hn, ih]
        by_cases hj : n = j
        · subst hj
          rw [Bool.not_eq_true] at hn
          rw [hn]
          simp
        · have : (j < n + 1) ↔ (j < n) := by omega
          simp [this]
  exact hfrom 8

theorem packByte_lt (v : List Bool) (i : ℕ) : packByte v i < 256 := by
  refine Nat.lt_pow_two_of_testBit (n := 8) _ fun j hj => ?_
  rw [testBit_packByte]
  simp only [Bool.and_eq_false_imp, decide_eq_true_eq]
  omega

theorem zip_elementSlots (elem : Kind) (t : ℕ) (vs : List Value) :
    (elementSlots elem t vs.length).zip vs = vs.zipIdx.map fun x =>
      (elementSlot elem t x.2, x.1) := by
  have hfrom : ∀ k, ((List.range' k vs.length).map (elementSlot elem t)).zip vs =
      (vs.zipIdx k).map fun x => (elementSlot elem t x.2, x.1) := by
    induction vs with
    | nil => intro k; rfl
    | cons v vs ih =>
      intro k
      rw [length_cons, range'_succ, map_cons, zip_cons_cons, zipIdx_cons,
        map_cons, ih (k + 1)]
  rw [elementSlots, range_eq_range']
  exact hfrom 0

section Blocks

variable {Γ : Types} {depth t : ℕ} {a : View}

def storeAll (m : Mem) (addr size : ℕ) (values : List ℕ) : Mem :=
  values.zipIdx.foldl (fun m x => store m (addr + size * x.2) size x.1) m

variable {m : Mem} {addr : ℕ}

theorem storeAll_apply_of_le {size x : ℕ} {values : List ℕ}
    (h : addr + size * values.length ≤ x) : storeAll m addr size values x = m x := by
  have hfrom : ∀ (k : ℕ) (m : Mem), addr + size * (k + values.length) ≤ x →
      (values.zipIdx k).foldl (fun m x => store m (addr + size * x.2) size x.1) m x = m x := by
    clear h
    induction values with
    | nil => exact fun _ _ _ => rfl
    | cons n values ih =>
      intro k m hx
      rw [length_cons] at hx
      have hle : addr + size * k + size ≤ addr + size * (k + (values.length + 1)) := by
        rw [Nat.add_assoc, ← Nat.mul_succ]
        exact Nat.add_le_add_left (Nat.mul_le_mul_left _ (by omega)) _
      rw [zipIdx_cons, foldl_cons,
        ih (k + 1) _ (by rw [Nat.add_right_comm, Nat.add_assoc]; exact hx)]
      exact store_apply_of_notMem (by rw [mem_span]; simp only; omega)
  exact hfrom 0 m (by simpa using h)

variable {D : Domain} {elems : List Value}

theorem numbers_of_hasKind {size : ℕ}
    (h : ∀ v ∈ elems, HasKind Γ D depth (.number size) v) :
    elems = (elems.map Value.toNat).map .number := by
  rw [map_map]
  refine (map_id elems).symm.trans (map_congr_left fun v hv => ?_)
  have := h v hv
  cases v <;> cases depth <;> first | rfl | cases this

theorem bool_of_hasKind {v : Value} (h : HasKind Γ D depth .bool v) : ∃ b, v = .bool b := by
  cases v with
  | bool b => exact ⟨b, rfl⟩
  | _ => cases depth <;> cases h

theorem bools_of_hasKind (h : ∀ v ∈ elems, HasKind Γ D depth .bool v) :
    elems = (elems.map Value.toBool).map .bool := by
  rw [map_map]
  refine (map_id elems).symm.trans (map_congr_left fun v hv => ?_)
  have := h v hv
  cases v <;> cases depth <;> first | rfl | cases this

theorem putAll_numbers (size : ℕ) (values : List ℕ) :
    putAll Γ depth t ((elementSlots (.number size) 0 values.length).zip (values.map .number)) a =
      { a with mem := storeAll a.mem (t + headerSize) size values } := by
  have hfrom : ∀ (k : ℕ) (a : View), ((values.map Value.number).zipIdx k).foldl
        (fun a x => put Γ depth t (elementSlot (.number size) 0 x.2, x.1) a) a =
      { a with
        mem := List.foldl (fun m x => store m (t + headerSize + size * x.2) size x.1) a.mem
          (values.zipIdx k) } := by
    induction values with
    | nil => intro k a; rfl
    | cons n values ih =>
      intro k a
      have hput : put Γ depth t (elementSlot (.number size) 0 k, .number n) a =
          { a with mem := store a.mem (t + headerSize + size * k) size n } := by
        rw [put_of_none rfl]
        simp only [elementSlot, View.scalar, Kind.size, Nat.zero_add, Nat.add_assoc]
      rw [map_cons, zipIdx_cons, foldl_cons, hput, ih, zipIdx_cons, foldl_cons]
  have hzip := zip_elementSlots (.number size) 0 (values.map Value.number)
  rw [length_map] at hzip
  rw [hzip, putAll, foldl_map, storeAll]
  exact hfrom 0 a

def storeBytes (m : Mem) (addr : ℕ) (bytes : List ℕ) : Mem :=
  fun x => if addr ≤ x ∧ x < addr + bytes.length then UInt8.ofNat (bytes.getD (x - addr) 0) else m x

theorem storeAll_one (m : Mem) (addr : ℕ) (bytes : List ℕ) :
    storeAll m addr 1 bytes = storeBytes m addr bytes := by
  have hfrom : ∀ (k : ℕ) (m : Mem),
      (bytes.zipIdx k).foldl (fun m x => store m (addr + 1 * x.2) 1 x.1) m =
        storeBytes m (addr + k) bytes := by
    induction bytes with
    | nil =>
      intro k m
      funext x
      simp [storeBytes]
    | cons byte bytes ih =>
      intro k m
      rw [zipIdx_cons, foldl_cons, ih]
      funext x
      simp only [storeBytes, store, length_cons]
      rcases lt_trichotomy x (addr + k) with hx | hx | hx
      · rw [if_neg (by omega), if_neg (by omega), if_neg (by omega)]
      · rw [if_neg (by omega), if_pos (by omega), if_pos (by omega)]
        simp [hx]
      · have hsub : x - (addr + k) = x - (addr + (k + 1)) + 1 := by omega
        by_cases hend : x < addr + k + (bytes.length + 1)
        · rw [if_pos (by omega), if_pos (by omega), hsub, getD_cons_succ]
        · rw [if_neg (by omega), if_neg (by omega), if_neg (by omega)]
  exact hfrom 0 m

def setBits (m : Mem) (addr : ℕ) (v : List Bool) : Mem :=
  v.zipIdx.foldl (fun m x => if x.1 then setBit m (addr + x.2 / 8) (x.2 % 8) else m) m

variable {v : List Bool}

theorem setBits_apply_of_lt {x : ℕ} (hx : x < addr) : setBits m addr v x = m x := by
  rw [setBits]
  induction v.zipIdx generalizing m with
  | nil => rfl
  | cons e es ih =>
    rw [foldl_cons, ih]
    split
    · exact if_neg (by omega)
    · rfl

theorem testBit_setBits (m : Mem) (addr : ℕ) (v : List Bool) (x j : ℕ) (hx : addr ≤ x)
    (hj : j < 8) :
    (setBits m addr v x).toNat.testBit j =
      ((m x).toNat.testBit j || v.getD (8 * (x - addr) + j) false) := by
  have hfrom : ∀ (k : ℕ) (m : Mem),
      ((v.zipIdx k).foldl (fun m x => if x.1 then setBit m (addr + x.2 / 8) (x.2 % 8) else m) m
        x).toNat.testBit j =
      ((m x).toNat.testBit j ||
        (decide (k ≤ 8 * (x - addr) + j) && v.getD (8 * (x - addr) + j - k) false)) := by
    induction v with
    | nil => intro k m; simp
    | cons b v ih =>
      intro k m
      rw [zipIdx_cons, foldl_cons, ih]
      have hbit : (k % 8 : ℕ) < 8 := Nat.mod_lt k (by decide)
      have hhere : (x = addr + k / 8 ∧ j = k % 8) ↔ 8 * (x - addr) + j = k := by omega
      rcases lt_trichotomy (8 * (x - addr) + j) k with hk | hk | hk
      · cases b with
        | false =>
          simp [show ¬ k + 1 ≤ 8 * (x - addr) + j by omega, show ¬ k ≤ 8 * (x - addr) + j by omega]
        | true =>
          rw [if_pos rfl, testBit_setBit hbit]
          simp [hhere, show ¬ k + 1 ≤ 8 * (x - addr) + j by omega,
            show ¬ k ≤ 8 * (x - addr) + j by omega, show 8 * (x - addr) + j ≠ k by omega]
      · cases b with
        | false => simp [hk]
        | true =>
          rw [if_pos rfl, testBit_setBit hbit]
          simp [hhere, hk]
      · have hsub : 8 * (x - addr) + j - k = 8 * (x - addr) + j - (k + 1) + 1 := by omega
        rw [hsub, getD_cons_succ]
        cases b with
        | false =>
          simp [show k + 1 ≤ 8 * (x - addr) + j by omega, show k ≤ 8 * (x - addr) + j by omega]
        | true =>
          rw [if_pos rfl, testBit_setBit hbit]
          simp [hhere, show k + 1 ≤ 8 * (x - addr) + j by omega,
            show k ≤ 8 * (x - addr) + j by omega, show 8 * (x - addr) + j ≠ k by omega]
  rw [setBits, hfrom 0 m]
  simp

theorem setBits_eq_storeBytes (hm : ∀ x ∈ span addr ((v.length + 7) / 8), m x = 0)
    : setBits m addr v = storeBytes m addr ((List.range ((v.length + 7) / 8)).map
      (packByte v)) := by
  funext x
  rw [storeBytes, length_map, length_range]
  by_cases hx : addr ≤ x
  · refine UInt8.toNat_inj.mp (Nat.eq_of_testBit_eq fun j => ?_)
    by_cases hj : j < 8
    · rw [testBit_setBits m addr v x j hx hj]
      by_cases hend : x < addr + (v.length + 7) / 8
      · have hbyte : ((List.range ((v.length + 7) / 8)).map (packByte v)).getD (x - addr) 0 =
            packByte v (x - addr) := by
          have hlt : x - addr < (v.length + 7) / 8 := by omega
          simp [hlt]
        rw [if_pos ⟨hx, hend⟩, hm x ⟨hx, hend⟩, hbyte, UInt8.toNat_ofNat',
          Nat.mod_eq_of_lt (packByte_lt v _), testBit_packByte]
        simp [hj]
      · rw [if_neg (fun h => hend h.2), getD_eq_default]
        · simp
        · omega
    · rw [Nat.testBit_lt_two_pow
        (lt_of_lt_of_le (UInt8.toNat_lt _) (Nat.pow_le_pow_right (by decide) (by omega))),
        Nat.testBit_lt_two_pow
          (lt_of_lt_of_le (UInt8.toNat_lt _) (Nat.pow_le_pow_right (by decide) (by omega)))]
  · rw [if_neg (fun h => hx h.1), setBits_apply_of_lt (by omega)]

theorem putAll_bools (v : List Bool) :
    putAll Γ depth t ((elementSlots .bool 0 v.length).zip (v.map .bool)) a =
      { a with mem := setBits a.mem (t + headerSize) v } := by
  have hfrom : ∀ (k : ℕ) (a : View), ((v.map Value.bool).zipIdx k).foldl
        (fun a x => put Γ depth t (elementSlot .bool 0 x.2, x.1) a) a =
      { a with
        mem := List.foldl (fun m x => if x.1 then setBit m (t + headerSize + x.2 / 8)
          (x.2 % 8) else m)
          a.mem (v.zipIdx k) } := by
    induction v with
    | nil => intro k a; rfl
    | cons b v ih =>
      intro k a
      have hput : put Γ depth t (elementSlot .bool 0 k, .bool b) a =
          { a with mem := if b then setBit a.mem (t + headerSize + k / 8) (k % 8) else a.mem } := by
        rw [put_of_none rfl]
        simp only [elementSlot, View.scalar, Nat.zero_add, Nat.add_assoc]
      rw [map_cons, zipIdx_cons, foldl_cons, hput, ih, zipIdx_cons, foldl_cons]
  have hzip := zip_elementSlots .bool 0 (v.map Value.bool)
  rw [length_map] at hzip
  rw [hzip, putAll, foldl_map, setBits]
  exact hfrom 0 a

end Blocks

end Mojo.Wire
