import Mathlib.Data.Option.Basic

/-!
# Computations that fail and computations with a log

For a computation that only fails, `bind_eq_ok` reads its success as the success
of its parts. A `Traced` computation may get stuck and leaves a log of events
behind, also when it gets stuck. What it returns and what it logs are followed
separately: `value_bind` for the result, `Logs` for a property of everything logged.
-/

namespace Mojo.Memory

variable {ε α β : Type}

@[simp] theorem ok_bind (a : α) (f : α → Except ε β) : ((Except.ok a : Except ε α) >>= f) = f a :=
  rfl

variable {x : Except ε α} {f : α → Except ε β}

theorem bind_eq_ok {b : β} :
    (x >>= f) = .ok b ↔ ∃ a, x = .ok a ∧ f a = .ok b := by
  cases x with
  | error e => simp [bind, Except.bind]
  | ok a => simp

def whyFailed {ε α : Type} : Except ε α → Option ε
  | .ok _ => none
  | .error e => some e

theorem eq_error_of_whyFailed {e : ε} (h : whyFailed x = some e) : x = .error e := by
  cases x with
  | ok a => cases h
  | error e' => exact congrArg Except.error (Option.some.inj h)

theorem ok_of_whyFailed (h : whyFailed x = none) : ∃ a, x = .ok a := by
  cases x with
  | ok a => exact ⟨a, rfl⟩
  | error e => cases h

theorem bind_eq_error {e : ε}
    (hx : whyFailed x = none) (h : whyFailed (x >>= f) = some e) :
    ∃ a, x = .ok a ∧ f a = .error e := by
  cases x with
  | ok a => exact ⟨a, rfl, eq_error_of_whyFailed h⟩
  | error e' => cases hx

def forEach {ε α σ : Type} (f : α → σ → Except ε σ) : List α → σ → Except ε σ
  | [], s => .ok s
  | a :: as, s => f a s >>= forEach f as

variable {σ : Type}

theorem forEach_map (f : α → σ → Except ε σ) (g : β → α) (l : List β) (s : σ) :
    forEach f (l.map g) s = forEach (fun b => f (g b)) l s := by
  induction l generalizing s with
  | nil => rfl
  | cons b l ih => simp [forEach, funext ih]

theorem forEach_append (f : α → σ → Except ε σ) (l l' : List α) (s : σ) :
    forEach f (l ++ l') s = forEach f l s >>= forEach f l' := by
  induction l generalizing s with
  | nil => rfl
  | cons a l ih => simp [forEach, funext ih]

theorem forEach_congr {f g : α → σ → Except ε σ} {l : List α} (h : ∀ a ∈ l, f a = g a)
    (s : σ) : forEach f l s = forEach g l s := by
  induction l generalizing s with
  | nil => rfl
  | cons a l ih =>
    rw [forEach, forEach, h a (.head _)]
    exact congrArg _ (funext (ih fun b hb => h b (.tail a hb)))

def collect {ε α β σ : Type} (f : α → σ → Except ε (β × σ)) : List α → σ → Except ε (List β × σ)
  | [], s => .ok ([], s)
  | a :: as, s => do
    let (b, s) ← f a s
    let (bs, s) ← collect f as s
    .ok (b :: bs, s)

structure Traced (ε : Type) (α : Type) where
  log : List ε
  value : Option α

namespace Traced

variable {ε α β : Type}

instance : Monad (Traced ε) where
  pure a := ⟨[], some a⟩
  bind x f := match x.value with
    | none => ⟨x.log, none⟩
    | some a => ⟨x.log ++ (f a).log, (f a).value⟩

def note (e : ε) : Traced ε Unit := ⟨[e], some ()⟩

def stuck : Traced ε α := ⟨[], none⟩

def Logs (P : ε → Prop) (x : Traced ε α) : Prop := ∀ e ∈ x.log, P e

instance (P : ε → Prop) [DecidablePred P] (x : Traced ε α) : Decidable (x.Logs P) :=
  inferInstanceAs (Decidable (∀ e ∈ x.log, P e))

@[simp] theorem value_pure (a : α) : (pure a : Traced ε α).value = some a := rfl

@[simp] theorem value_note (e : ε) : (note e).value = some () := rfl

@[simp] theorem value_stuck : (stuck : Traced ε α).value = none := rfl

@[simp] theorem value_bind (x : Traced ε α) (f : α → Traced ε β) :
    (x >>= f).value = x.value.bind fun a => (f a).value := by
  obtain ⟨log, value⟩ := x
  cases value <;> rfl

theorem value_ite (c : Prop) [Decidable c] (x y : Traced ε α) :
    (if c then x else y).value = if c then x.value else y.value := apply_ite value c x y

variable {P : ε → Prop}

theorem logs_ite (c : Prop) [Decidable c] (x y : Traced ε α) :
    (if c then x else y).Logs P ↔ (c → x.Logs P) ∧ (¬ c → y.Logs P) := by
  by_cases h : c <;> simp [h]

@[simp] theorem logs_pure (a : α) : (pure a : Traced ε α).Logs P := by
  intro e he
  cases he

@[simp] theorem logs_stuck : (stuck : Traced ε α).Logs P := by
  intro e he
  cases he

@[simp] theorem logs_note (e : ε) : (note e).Logs P ↔ P e := by
  simp [Logs, note]

@[simp] theorem logs_bind (x : Traced ε α) (f : α → Traced ε β) :
    (x >>= f).Logs P ↔ x.Logs P ∧ ∀ a, x.value = some a → (f a).Logs P := by
  obtain ⟨log, value⟩ := x
  cases value with
  | none =>
    change (∀ e ∈ log, P e) ↔ (∀ e ∈ log, P e) ∧ _
    simp
  | some a =>
    change (∀ e ∈ log ++ (f a).log, P e) ↔ (∀ e ∈ log, P e) ∧ _
    simp [Logs, or_imp, forall_and]

/-- Everything logged satisfies `P` exactly when it satisfies `Q`. -/
def Agree (P Q : ε → Prop) (x : Traced ε α) : Prop := x.Logs P ↔ x.Logs Q

variable {Q : ε → Prop}

theorem agree_pure (a : α) : (pure a : Traced ε α).Agree P Q :=
  iff_of_true (logs_pure a) (logs_pure a)

theorem agree_stuck : (stuck : Traced ε α).Agree P Q := iff_of_true logs_stuck logs_stuck

theorem agree_note {e : ε} (h : P e ↔ Q e) : (note e).Agree P Q := by
  simpa [Agree, logs_note] using h

variable {x : Traced ε α}

theorem agree_ite {c : Prop} [Decidable c] {y : Traced ε α} (hx : c → x.Agree P Q)
    (hy : ¬ c → y.Agree P Q) : (if c then x else y).Agree P Q := by
  by_cases h : c
  · rw [if_pos h]
    exact hx h
  · rw [if_neg h]
    exact hy h

theorem agree_guard {c : Prop} [Decidable c] {a : α} (hx : ¬ c → x.Agree P Q) :
    (if c then pure a else x).Agree P Q :=
  agree_ite (fun _ => agree_pure a) hx

theorem agree_bind {f : α → Traced ε β} (hx : x.Agree P Q)
    (hf : ∀ a, x.value = some a → (f a).Agree P Q) : (x >>= f).Agree P Q := by
  simp only [Agree, logs_bind]
  exact and_congr hx (forall_congr' fun a => imp_congr_right (hf a))

end Traced

end Mojo.Memory
