import Mojo.RustBindings.EncodeObjects
import Mathlib.Data.List.Zip
import Mathlib.Algebra.Order.BigOperators.Group.List

/-!
# The size of a value

`compute_size` adds up the objects of a value before any of them is written. It counts the unions
that lie in their slots as well, although these have no object of their own: the buffer is exactly
as long as what is written to it if there are no such unions, and longer otherwise.
-/

namespace Mojo.RustBindings

open Mojo.Memory Mojo.CppBindings Mojo.Wire List

/-- The space of all objects of a value, the unions in their slots included. -/
def fullSize (Γ : Types) : ℕ → Kind → Value → ℕ
  | 0, _, _ => 0
  | depth + 1, kind, v =>
    match object Γ kind v with
    | none => 0
    | some o => align8 o.size + (o.members.map fun p => fullSize Γ depth p.1.kind p.2).sum

section Sizes

variable {Γ : Types} {D : Domain} {depth : ℕ} {kind parent : Kind} {v : Value} {o : Object}

theorem fullSize_succ (ho : object Γ kind v = some o) :
    fullSize Γ (depth + 1) kind v = align8 o.size +
      (o.members.map fun p => fullSize Γ depth p.1.kind p.2).sum := by
  simp [fullSize, ho]

theorem fullSize_of_none (ho : object Γ kind v = none) : fullSize Γ depth kind v = 0 := by
  cases depth with
  | zero => rfl
  | succ depth => simp [fullSize, ho]

theorem fullSize_of_hasKind (h : HasKind Γ D depth kind v) :
    fullSize Γ (depth + 1) kind v = fullSize Γ depth kind v := by
  induction depth generalizing kind v with
  | zero => exact fullSize_of_none (hasKind_zero h)
  | succ depth ih =>
    cases ho : object Γ kind v with
    | none => rw [fullSize_of_none ho, fullSize_of_none ho]
    | some o =>
      rw [fullSize_succ ho, fullSize_succ ho]
      exact congrArg (align8 o.size + List.sum ·)
        (map_congr_left fun p hp => ih (h.members ho p hp))

theorem fullSize_mod (depth : ℕ) (kind : Kind) (v : Value) : fullSize Γ depth kind v % 8 = 0 := by
  induction depth generalizing kind v with
  | zero => rfl
  | succ depth ih =>
    cases ho : object Γ kind v with
    | none => rw [fullSize_of_none ho]
    | some o =>
      have hsum := sum_mod (fun p => ih (Slot.kind p.1) p.2) o.members
      have := align8_mod o.size
      rw [fullSize_succ ho]
      omega

theorem outSize_le_fullSize (depth : ℕ) (kind : Kind) (v : Value) :
    outSize Γ depth kind v ≤ fullSize Γ depth kind v := by
  induction depth generalizing kind v with
  | zero => rfl
  | succ depth ih =>
    cases ho : object Γ kind v with
    | none => simp only [outSize, ho, Nat.zero_le]
    | some o =>
      rw [outSize_succ ho, fullSize_succ ho]
      refine Nat.add_le_add ?_ (sum_le_sum fun p _ => ih p.1.kind p.2)
      split
      · exact le_rfl
      · exact Nat.zero_le _

theorem outSize_eq_fullSize (h : Always Γ
    (fun _ kind _ => ∀ name nullable, kind ≠ .union name nullable)
    depth parent kind v) : outSize Γ depth kind v = fullSize Γ depth kind v := by
  induction depth generalizing parent kind v with
  | zero => rfl
  | succ depth ih =>
    cases ho : object Γ kind v with
    | none => simp only [outSize, fullSize, ho]
    | some o =>
      have hp : kind.isPointer = true := by
        by_contra hp
        obtain ⟨name, nullable, -, -, hkind, -⟩ := union_of_inline ho hp
        exact h.1 name nullable hkind
      rw [outSize_succ ho, fullSize_succ ho, if_pos hp, outSizes]
      exact congrArg (align8 o.size + List.sum ·)
        (map_congr_left fun p hmem => ih (h.2 o ho p hmem))

theorem map_members (f : Kind → Value → ℕ) (ps : List (Slot × Value)) :
    ps.map (fun p => f p.1.kind p.2) = (ps.map fun p => (p.1.kind, p.2)).map fun x =>
      f x.1 x.2 := by
  rw [map_map]
  rfl

theorem fullSize_array {elem : Kind} {count : ℕ} {nullable : Bool} (elems : List Value) :
    fullSize Γ (depth + 1) (.array elem count nullable) (.array elems) =
      align8 (headerSize + elementBytes elem elems.length) +
        (elems.map fun v => fullSize Γ depth elem v).sum := by
  rw [fullSize_succ rfl, map_members, zip_kinds, map_map]
  rfl

theorem alignDefault_elements (elem : Kind) (hk : elem.isMojom) (n : ℕ) :
    dataHeaderSize + bitsToBytes (embedSize ⟨0, false⟩ elem * n) = headerSize +
      elementBytes elem n := by
  rw [bitsToBytes_eq elem hk ⟨0, false⟩ (fun _ _ _ => rfl)]
  rfl

theorem computeSize_eq (hΓ : Γ.Laid) {slot : Kind} (hk : kind.isMojom)
    (hslot : slot = kind ∨ slot = kind.inUnion) (hv : HasKind Γ D depth slot v) :
    computeSize Γ depth kind v ⟨0, false⟩ = fullSize Γ depth slot v := by
  induction depth generalizing kind slot v with
  | zero => simp only [computeSize, fullSize]
  | succ depth ih =>
    cases kind with
    | string nullable =>
      obtain rfl : slot = .string nullable := hslot.elim id id
      cases v with
      | string bytes =>
        have hzero : ((elementSlots (.number 1) 0 bytes.length).zip
            (bytes.map fun b => Value.number b.toNat)).map
              (fun p => fullSize Γ depth p.1.kind p.2) =
            bytes.map fun _ => 0 := by
          have hzip := zip_kinds (.number 1) (bytes.map fun b => Value.number b.toNat)
          rw [length_map] at hzip
          rw [map_members, hzip, map_map, map_map]
          exact map_congr_left fun b _ => fullSize_of_none rfl
        rw [fullSize_succ rfl, hzero, map_const', sum_replicate_nat, Nat.mul_zero]
        rfl
      | _ => rw [fullSize_of_none rfl]; rfl
    | array elem count nullable =>
      obtain rfl : slot = .array elem count nullable := hslot.elim id id
      cases v with
      | array elems =>
        have hv' := hv
        simp only [HasKind] at hv'
        have helems : elems.map (fun v => computeSize Γ depth elem v ⟨0, false⟩) =
            elems.map fun v => fullSize Γ depth elem v :=
          map_congr_left fun v hmem => ih hk (.inl rfl) (hv'.2 v hmem)
        have hsize : serializedSize Γ ⟨0, false⟩ (.array elem count nullable) (.array elems) =
            headerSize + elementBytes elem elems.length := by
          rw [← alignDefault_elements elem hk, serializedSize]
          split
          · rfl
          · simp_all [bitsToBytes]
        rw [computeSize, fullSize_array, helems, hsize]
        rfl
      | _ => rw [fullSize_of_none rfl]; rfl
    | map key value nullable =>
      obtain rfl : slot = .map key value nullable := hslot.elim id id
      cases v with
      | map keys values =>
        obtain ⟨hkey, hvalue⟩ := isMojom_key (Kind.isSlot_of_isMojom hk)
        simp only [HasKind] at hv
        obtain ⟨-, hlen, hvkeys, hvvalues⟩ := hv
        cases depth with
        | zero => cases hvkeys
        | succ depth =>
          simp only [HasKind] at hvkeys hvvalues
          have hkeys : keys.map (fun v => computeSize Γ (depth + 1) key v ⟨0, false⟩) =
              keys.map fun v => fullSize Γ depth key v :=
            map_congr_left fun v hmem => (ih hkey (.inl rfl) (hvkeys.2 v hmem).succ).trans
              (fullSize_of_hasKind (hvkeys.2 v hmem))
          have hvalues : values.map (fun v => computeSize Γ (depth + 1) value v ⟨0, false⟩) =
              values.map fun v => fullSize Γ depth value v :=
            map_congr_left fun v hmem => (ih hvalue (.inl rfl) (hvvalues.2 v hmem).succ).trans
              (fullSize_of_hasKind (hvvalues.2 v hmem))
          have hfull : fullSize Γ (depth + 2) (.map key value nullable) (.map keys values) =
              align8 24 + (fullSize Γ (depth + 1) (.array key 0 false) (.array keys) +
                (fullSize Γ (depth + 1) (.array value 0 false) (.array values) + 0)) := rfl
          rw [hfull, fullSize_array, fullSize_array, ← alignDefault_elements key hkey,
            ← alignDefault_elements value hvalue]
          have hmod : (keys.map fun v => fullSize Γ depth key v).sum % 8 = 0 :=
            sum_mod (fullSize_mod depth key) keys
          have hmod' : (values.map fun v => fullSize Γ depth value v).sum % 8 = 0 :=
            sum_mod (fullSize_mod depth value) values
          simp only [computeSize, hkeys, hvalues, hlen, alignDefault_eq, align8, mapSize]
          omega
      | _ => rw [fullSize_of_none rfl]; rfl
    | struct name nullable =>
      obtain rfl : slot = .struct name nullable := hslot.elim id id
      cases v with
      | struct fields =>
        simp only [HasKind] at hv
        have hfields : List.zipWith (fun f v => computeSize Γ depth (Field.kind f) v ⟨0, false⟩)
            (Γ.struct name).fields fields =
            (((Γ.struct name).fields.map Field.kind).zip fields).map fun x =>
              fullSize Γ depth x.1 x.2 := by
          rw [map_zip_eq_zipWith, zipWith_map_left]
          obtain ⟨hlen, hzip⟩ := forall₂_iff_zip.mp hv
          refine zipWith_congr _ _ _ _ (forall₂_iff_zip.mpr ⟨hlen, fun {f v} hmem => ?_⟩)
          exact ih ((hΓ.struct name).kinds f (of_mem_zip hmem).1) (.inl rfl) (hzip hmem)
        rw [computeSize, fullSize_succ rfl, map_members, zip_fields, hfields]
        rfl
      | _ => rw [fullSize_of_none rfl]; rfl
    | union name nullable =>
      cases v with
      | union tag field =>
        obtain ⟨kind, hactive, hfield⟩ : ∃ kind, (Γ.union name).active tag = some kind ∧
            HasKind Γ D depth kind.inUnion field := by
          rcases hslot with rfl | rfl <;> simpa [HasKind, Kind.inUnion] using hv
        have ho : object Γ slot (.union tag field) =
            some ⟨unionSize, tag, [(⟨kind.inUnion, 8, 0⟩, field)]⟩ := by
          rcases hslot with rfl | rfl <;> simp [Kind.inUnion, object, hactive]
        rw [computeSize, fullSize_succ ho, variant, hactive, Option.getD_some,
          ih (isMojom_of_active hΓ hactive) (.inr rfl) hfield]
        simp [align8, unionSize]
      | _ => rcases hslot with rfl | rfl <;> rw [fullSize_of_none rfl] <;> rfl
    | unionPointer => cases hk
    | number | bool | handle | interface =>
      obtain rfl := hslot.elim id id
      cases v <;> rw [fullSize_of_none rfl] <;> rfl

end Sizes

end Mojo.RustBindings
