import Mojo.RustBindings.EncodeObjects

/-!
# Where the encoder's cursor is

Whatever is encoded into an object, the states of the other objects stay as they are, and the
cursor of the object's own state has moved as `walk` says. This holds of every run that ends
without a failure, also if the cursor misses the places of the members.
-/

namespace Mojo.RustBindings

open Mojo.Memory Mojo.CppBindings Mojo.Wire

namespace EncodingState

def cursor (s : EncodingState) : Cursor := ⟨s.offset, s.bitOffset⟩

def move (s : EncodingState) (c : Cursor) : EncodingState :=
  { s with offset := c.offset, bitOffset := c.bit }

def Action.Moves (act : Action) (f : Cursor → Cursor) : Prop :=
  ∀ ⦃s s' : EncodingState⦄ ⦃m m' : Mem⦄, act s m = .ok (s', m') → s' = s.move (f s.cursor)

theorem cursor_move (s : EncodingState) (c : Cursor) : (s.move c).cursor = c := rfl

theorem move_move (s : EncodingState) (c c' : Cursor) : (s.move c).move c' = s.move c' := rfl

theorem aligned_move (s : EncodingState) (n : ℕ) :
    s.alignToByte.alignToBytes n = s.move ⟨alignUp s.cursor.toByte n, 0⟩ :=
  aligned_of ⟨s.globalOffset, s.size, s.cursor, none⟩ n

theorem write_moves (n x : ℕ) : Action.Moves (write n x) fun c => ⟨c.offset + n, 0⟩ := by
  intro s s' m m' h
  rw [write] at h
  split at h
  · obtain ⟨rfl, -⟩ := Prod.mk.inj (Except.ok.inj h)
    rfl
  · cases h

theorem encode_moves (n x : ℕ) :
    Action.Moves (encode n x) fun c => ⟨alignUp c.toByte n + n, 0⟩ := by
  intro s s' m m' h
  rw [encode, aligned_move] at h
  exact write_moves n x h

theorem encodeBool_moves (b : Bool) :
    Action.Moves (encodeBool b) fun c => ⟨c.offset + (c.bit + 1) / 8, (c.bit + 1) % 8⟩ := by
  intro s s' m m' h
  simp only [encodeBool] at h
  split at h
  · split at h
    · obtain ⟨rfl, -⟩ := Prod.mk.inj (Except.ok.inj h)
      rfl
    · cases h
  · obtain ⟨rfl, -⟩ := Prod.mk.inj (Except.ok.inj h)
    rfl

theorem alignUp_toByte (n : ℕ) {a : ℕ} (ha : 0 < a) :
    alignUp (Cursor.toByte ⟨alignUp n a, 0⟩) a = alignUp n a :=
  alignUp_alignUp ha

theorem encodeNullUnion_moves :
    Action.Moves encodeNullUnion fun c => ⟨alignUp c.toByte 8 + 16, 0⟩ := by
  intro s s' m m' h
  rw [encodeNullUnion, aligned_move] at h
  obtain ⟨⟨s₁, m₁⟩, h₁, h⟩ := bind_eq_ok.mp h
  obtain ⟨⟨s₂, m₂⟩, h₂, h⟩ := bind_eq_ok.mp h
  rw [write_moves 8 0 h, write_moves 4 0 h₂, write_moves 4 0 h₁]
  rfl

theorem encodeNullPointer_moves :
    Action.Moves encodeNullPointer fun c => ⟨alignUp c.toByte 8 + 8, 0⟩ := by
  intro s s' m m' h
  rw [encodeNullPointer, aligned_move] at h
  rw [encode_moves 8 0 h, cursor_move, move_move]
  simp only [alignUp_toByte _ (show 0 < 8 by decide)]

theorem encodeNullHandle_moves :
    Action.Moves encodeNullHandle fun c => ⟨alignUp c.toByte 4 + 4, 0⟩ := by
  intro s s' m m' h
  rw [encodeNullHandle, aligned_move] at h
  rw [encode_moves 4 _ h, cursor_move, move_move]
  simp only [alignUp_toByte _ (show 0 < 4 by decide)]

theorem encodePointer_moves (location : ℕ) :
    Action.Moves (encodePointer location) fun c => ⟨alignUp c.toByte 8 + 8, 0⟩ := by
  intro s s' m m' h
  rw [encodePointer, aligned_move] at h
  split at h
  · rw [encode_moves 8 _ h, cursor_move, move_move]
    simp only [alignUp_toByte _ (show 0 < 8 by decide)]
  · cases h

theorem startUnion_moves (tag : ℕ) : Action.Moves (startUnion tag) fun c =>
    ⟨alignUp (alignUp (Cursor.toByte ⟨alignUp c.offset 8, c.bit⟩) 4 + 4) 4 + 4, 0⟩ := by
  intro s s' m m' h
  obtain ⟨⟨s₁, m₁⟩, h₁, h⟩ := bind_eq_ok.mp h
  rw [encode_moves 4 _ h, encode_moves 4 _ h₁]
  rfl

theorem finishUnion_moves : Action.Moves finishUnion fun c =>
    ⟨Cursor.toByte ⟨alignUp c.offset 8, c.bit⟩, 0⟩ := by
  intro s s' m m' h
  obtain ⟨rfl, -⟩ := Prod.mk.inj (Except.ok.inj h)
  simp only [alignToByte, alignToBytes, move, cursor, Cursor.toByte, alignUp, alignBytes]
  by_cases hbit : 0 < s.bitOffset
  · simp [hbit]
  · simp only [Nat.eq_zero_of_not_pos hbit, lt_self_iff_false, ↓reduceIte]

end EncodingState

structure Only (id : ℕ) (e e' : Encoder) : Prop where
  length : e.states.length ≤ e'.states.length
  others : ∀ j < e.states.length, j ≠ id → e'.states[j]? = e.states[j]?

structure Moved (id : ℕ) (f : Cursor → Cursor) (e e' : Encoder) : Prop extends Only id e e' where
  moved : ∀ s, e.states[id]? = some s → e'.states[id]? = some (s.move (f s.cursor))

section Frames

variable {id : ℕ} {e e' e'' : Encoder} {context : Context} {f g : Cursor → Cursor}

theorem Only.trans (h : Only id e e') (h' : Only id e' e'') : Only id e e'' where
  length := h.length.trans h'.length
  others j hj hne := (h'.others j (hj.trans_le h.length) hne).trans (h.others j hj hne)

theorem Moved.trans (h : Moved id f e e') (h' : Moved id g e' e'') :
    Moved id (fun c => g (f c)) e e'' where
  toOnly := h.toOnly.trans h'.toOnly
  moved s hs := h'.moved _ (h.moved s hs)

theorem Only.forEach {α : Type} {step : α → Encoder → Except Failure Encoder} {xs : List α}
    (hstep : ∀ x ∈ xs, ∀ e e', step x e = .ok e' → Only id e e') (h : forEach step xs e = .ok e') :
    Only id e e' := by
  induction xs generalizing e with
  | nil =>
    cases h
    exact ⟨le_rfl, fun _ _ _ => rfl⟩
  | cons x xs ih =>
    obtain ⟨e₁, h₁, h⟩ := bind_eq_ok.mp h
    exact (hstep x (.head _) e e₁ h₁).trans (ih (fun y hy => hstep y (.tail x hy)) h)

theorem Moved.update {act : EncodingState.Action} (hact : act.Moves f)
    (h : e.update context act = .ok e') : Moved context.id f e e' := by
  rw [Encoder.update] at h
  split at h
  · cases h
  · rename_i s hs
    obtain ⟨⟨s', m'⟩, hrun, h⟩ := bind_eq_ok.mp h
    cases h
    refine ⟨⟨List.length_set.ge, fun j _ hne => List.getElem?_set_ne hne.symm⟩, fun t ht => ?_⟩
    obtain rfl := Option.some.inj (hs.symm.trans ht)
    rw [← hact hrun]
    exact List.getElem?_set_self (List.getElem?_eq_some_iff.mp hs).1

theorem Moved.add {size data : ℕ} (body : Context → Encoder → Except Failure Encoder)
    (hbody : ∀ c e e', body c e = .ok e' → Only c.id e e')
    (h : (e.add size data >>= fun x => body x.1 x.2) = .ok e') : Moved id (fun c => c) e e' := by
  obtain ⟨⟨c, e₁⟩, hadd, hrun⟩ := bind_eq_ok.mp h
  simp only [Encoder.add] at hadd
  split at hadd
  · cases hadd
  · obtain ⟨⟨s, m⟩, -, hadd⟩ := bind_eq_ok.mp hadd
    obtain ⟨⟨s', m'⟩, -, hadd⟩ := bind_eq_ok.mp hadd
    obtain ⟨rfl, rfl⟩ := Prod.mk.inj (Except.ok.inj hadd)
    have honly := hbody _ _ _ hrun
    have hkept : ∀ j < e.states.length, e'.states[j]? = e.states[j]? := by
      intro j hj
      rw [honly.others j (by simp only [List.length_append]; omega) (by simp only; omega),
        List.getElem?_append_left hj]
    refine ⟨⟨?_, fun j hj _ => hkept j hj⟩, fun s hs => ?_⟩
    · have := honly.length
      simp only [List.length_append] at this
      omega
    · rw [hkept id (List.getElem?_eq_some_iff.mp hs).1]
      exact hs

theorem Moved.of_states {e₁ : Encoder} (h : Moved id f e₁ e') (hstates : e₁.states = e.states) :
    Moved id f e e' := by
  obtain ⟨⟨hlength, hothers⟩, hmoved⟩ := h
  rw [hstates] at hlength hothers hmoved
  exact ⟨⟨hlength, hothers⟩, hmoved⟩

theorem Moved.of_eq (h : Moved id f e e') (hfg : ∀ c, f c = g c) : Moved id g e e' := by
  obtain rfl : f = g := funext hfg
  exact h

end Frames

/-- Encoding into an object leaves the states of the others alone. -/
def Frames (encode : Encode) : Prop :=
  ∀ ⦃kind v context e e'⦄, encode kind v context e = .ok e' → Only context.id e e'

section Values

variable {Γ : Types} {fuel : ℕ} {kind : Kind} {v : Value} {context : Context} {e e' : Encoder}
  {enc : Encode}

theorem encodeValue_only (ih : Frames enc) (h : encodeValue Γ enc kind v context e = .ok e') :
    Only context.id e e' := by
  cases kind with
  | string nullable =>
    cases v with
    | string bytes =>
      exact Only.forEach (fun b _ e e' hb =>
        (Moved.update (EncodingState.encode_moves 1 b.toNat) hb).toOnly) h
    | _ => cases h
  | array elem count nullable =>
    cases v with
    | array elems => exact Only.forEach (fun v _ e e' hv => ih hv) h
    | _ => cases h
  | map key value nullable =>
    cases v with
    | map keys values =>
      obtain ⟨e₁, hpointer, h⟩ := bind_eq_ok.mp h
      obtain ⟨⟨c, e₂⟩, hadd, h⟩ := bind_eq_ok.mp h
      obtain ⟨e₃, hkeys, hvalues⟩ := bind_eq_ok.mp h
      have hnew : (e₁.add (dataHeaderSize + bitsToBytes (embedSize context key * keys.length))
          keys.length >>= fun x => forEach (fun k e => enc key k x.1 e) keys x.2) = .ok e₃ := by
        rw [hadd, ok_bind]
        exact hkeys
      have hkept : Moved context.id (fun c => c) e₁ e₃ :=
        Moved.add (fun c e => forEach (fun k e => enc key k c e) keys e)
          (fun c e e' hrun => Only.forEach (fun k _ e e' hk => ih hk) hrun) hnew
      exact ((Moved.update (EncodingState.encodePointer_moves e.bytes) hpointer).toOnly.trans
        hkept.toOnly).trans (ih hvalues)
    | _ => cases h
  | struct name nullable =>
    cases v with
    | struct fields => exact Only.forEach (fun p _ e e' hp => ih hp) h
    | _ => cases h
  | _ => cases v <;> cases h

theorem encodeNew_moved {id : ℕ} (ih : Frames enc) (h : encodeNew Γ enc kind v context e = .ok e') :
    Moved id (fun c => c) e e' :=
  Moved.add (encodeValue Γ enc kind v) (fun _ _ _ hrun => encodeValue_only ih hrun) h

theorem encodePointer_moved (ih : Frames enc)
    (h : (e.update context (EncodingState.encodePointer e.bytes) >>= fun e =>
      encodeNew Γ enc kind v context e) = .ok e') :
    Moved context.id (fun c => ⟨alignUp c.toByte 8 + 8, 0⟩) e e' := by
  obtain ⟨e₁, hpointer, hnew⟩ := bind_eq_ok.mp h
  exact (Moved.update (EncodingState.encodePointer_moves e.bytes) hpointer).trans
    (encodeNew_moved ih hnew)

theorem encode_moved (hu : ∀ name nullable, kind ≠ .union name nullable)
    (ih : ∀ n < fuel, Frames (encode Γ n))
    (h : encode Γ fuel kind v context e = .ok e') :
    Moved context.id (natural.advance kind v) e e' := by
  cases kind with
  | number size =>
    cases v with
    | number n =>
      simp only [encode] at h
      exact Moved.update (EncodingState.encode_moves size n) h
    | _ => cases fuel <;> cases h
  | bool =>
    cases v with
    | bool b =>
      simp only [encode] at h
      exact Moved.update (EncodingState.encodeBool_moves b) h
    | _ => cases fuel <;> cases h
  | handle nullable =>
    cases v with
    | handle n =>
      simp only [encode] at h
      exact (Moved.update (EncodingState.encode_moves 4 e.handles.length) h).of_states rfl
    | null =>
      simp only [encode] at h
      exact Moved.update EncodingState.encodeNullHandle_moves h
    | _ => cases fuel <;> cases h
  | interface nullable =>
    have hnext (n : ℕ) : alignUp (Cursor.toByte ⟨alignUp n 4 + 4, 0⟩) 4 + 4 = alignUp n 4 + 8 := by
      simp only [Cursor.toByte_mk, alignUp]
      omega
    cases v with
    | interface n version =>
      simp only [encode] at h
      obtain ⟨e₁, hfirst, hsecond⟩ := bind_eq_ok.mp h
      have hmoved := (Moved.update (EncodingState.encode_moves 4 e.handles.length) hfirst).trans
        (Moved.update (EncodingState.encode_moves 4 version) hsecond)
      exact (hmoved.of_states (e := e) rfl).of_eq fun c => congrArg (Cursor.mk · 0) (hnext c.toByte)
    | null =>
      simp only [encode] at h
      obtain ⟨e₁, hfirst, hsecond⟩ := bind_eq_ok.mp h
      exact ((Moved.update EncodingState.encodeNullHandle_moves hfirst).trans
        (Moved.update (EncodingState.encode_moves 4 0) hsecond)).of_eq fun c =>
          congrArg (Cursor.mk · 0) (hnext c.toByte)
    | _ => cases fuel <;> cases h
  | union name nullable => exact absurd rfl (hu name nullable)
  | unionPointer => cases fuel <;> cases v <;> cases h
  | string | array | map | struct =>
    cases v with
    | null =>
      simp only [encode] at h
      exact Moved.update EncodingState.encodeNullPointer_moves h
    | string | array | map | struct =>
      cases fuel with
      | zero => cases h
      | succ fuel => first | exact encodePointer_moved (ih fuel fuel.lt_succ_self) h | cases h
    | _ => cases fuel <;> cases h

theorem nestedEncode_moved {name tag : ℕ} {field : Value} (ih : Frames enc)
    (h : nestedEncode Γ enc name tag field context e = .ok e') :
    Moved context.id (fun c => ⟨alignUp c.toByte 8 + 8, 0⟩) e e' := by
  obtain ⟨e₁, hpointer, hnew⟩ := bind_eq_ok.mp h
  have hkept : Moved context.id (fun c => c) e₁ e' :=
    Moved.add (fun c e => enc (variant Γ name tag) field (c.setIsUnion true) e)
      (fun c e e' hrun => show Only (c.setIsUnion true).id e e' from ih hrun) hnew
  exact (Moved.update (EncodingState.encodePointer_moves e.bytes) hpointer).trans hkept

theorem encode_only : Frames (encode Γ fuel) := by
  induction fuel using Nat.strong_induction_on with
  | _ fuel ih =>
    intro kind v context e e' h
    by_cases hu : ∃ name nullable, kind = .union name nullable
    · obtain ⟨name, nullable, rfl⟩ := hu
      cases v with
      | null =>
        simp only [encode] at h
        exact (Moved.update EncodingState.encodeNullUnion_moves h).toOnly
      | union tag field =>
        cases fuel with
        | zero => cases h
        | succ fuel =>
          have hframes := ih fuel fuel.lt_succ_self
          simp only [encode] at h
          split at h
          · exact (nestedEncode_moved hframes h).toOnly
          · obtain ⟨e₁, hstart, h⟩ := bind_eq_ok.mp h
            obtain ⟨e₂, hfield, hend⟩ := bind_eq_ok.mp h
            exact ((Moved.update (EncodingState.startUnion_moves tag) hstart).toOnly.trans
              (hframes hfield)).trans (Moved.update EncodingState.finishUnion_moves hend).toOnly
      | _ => cases fuel <;> cases h
    · exact (encode_moved (fun name nullable hkind => hu ⟨name, nullable, hkind⟩)
        (fun n hn => ih n hn) h).toOnly

theorem encode_moved_inUnion (hctx : context.isUnion)
    (hnull : ∀ name nullable, kind = .union name nullable → v ≠ .null)
    (h : encode Γ fuel kind v context e = .ok e') :
    Moved context.id (natural.advance kind.inUnion v) e e' := by
  by_cases hu : ∃ name nullable, kind = .union name nullable
  · obtain ⟨name, nullable, rfl⟩ := hu
    cases v with
    | null => exact absurd rfl (hnull name nullable rfl)
    | union tag field =>
      cases fuel with
      | zero => cases h
      | succ fuel =>
        simp only [encode, hctx, ↓reduceIte] at h
        exact nestedEncode_moved encode_only h
    | _ => cases fuel <;> cases h
  · have hne : ∀ name nullable, kind ≠ .union name nullable := fun name nullable hkind =>
      hu ⟨name, nullable, hkind⟩
    have hkind : kind.inUnion = kind := by
      cases kind with
      | union name nullable => exact absurd rfl (hne name nullable)
      | _ => rfl
    rw [hkind]
    exact encode_moved hne (fun _ _ => encode_only) h

theorem encode_walks (hctx : context.isUnion = false)
    (hnull : ∀ name nullable tag field, kind = .union name nullable → v = .union tag field →
      ∀ name' nullable', variant Γ name tag = .union name' nullable' → field ≠ .null)
    (h : encode Γ fuel kind v context e = .ok e') :
    Moved context.id ((walk Γ).advance kind v) e e' := by
  by_cases hu : ∃ name nullable, kind = .union name nullable
  · obtain ⟨name, nullable, rfl⟩ := hu
    cases v with
    | null =>
      simp only [encode] at h
      exact Moved.update EncodingState.encodeNullUnion_moves h
    | union tag field =>
      cases fuel with
      | zero => cases h
      | succ fuel =>
        simp only [encode, hctx, Bool.false_eq_true, ↓reduceIte] at h
        obtain ⟨e₁, hstart, h⟩ := bind_eq_ok.mp h
        obtain ⟨e₂, hfield, hend⟩ := bind_eq_ok.mp h
        have hmoved := ((Moved.update (EncodingState.startUnion_moves tag) hstart).trans
          (encode_moved_inUnion rfl (hnull name nullable tag field rfl rfl) hfield)).trans
          (Moved.update EncodingState.finishUnion_moves hend)
        refine hmoved.of_eq fun c => ?_
        have hstart : alignUp (alignUp (Cursor.toByte ⟨alignUp c.offset 8, c.bit⟩) 4 + 4) 4 + 4 =
            alignUp (Cursor.toByte ⟨alignUp c.offset 8, c.bit⟩) 4 + 8 := by
          simp only [alignUp]
          omega
        simp [walk, hstart]
    | _ => cases fuel <;> cases h
  · have hne : ∀ name nullable, kind ≠ .union name nullable := fun name nullable hkind =>
      hu ⟨name, nullable, hkind⟩
    refine (encode_moved hne (fun _ _ => encode_only) h).of_eq fun c => ?_
    cases kind with
    | union name nullable => exact absurd rfl (hne name nullable)
    | _ => rfl

end Values

end Mojo.RustBindings
