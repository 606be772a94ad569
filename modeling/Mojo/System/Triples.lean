import Mathlib.Data.List.Basic

/-!
# Pre- and postconditions for computations that throw

A computation passes a state on, also when it throws. `Triple P x Q E` says what holds after `x` if
`P` holds before: `Q` of the result, `E` of the exception, and both of the state. The rules follow
the structure of the computation; `Triple.each` is the one for loops.

`Returns P x a Q` also says that `x` does not throw, and what it returns.
-/

namespace Mojo.System

variable {ε σ α β : Type}

def Triple (P : σ → Prop) (x : EStateM ε σ α) (Q : α → σ → Prop) (E : ε → σ → Prop) : Prop :=
  ∀ s, P s → match x s with
    | .ok a s' => Q a s'
    | .error e s' => E e s'

variable {P P' : σ → Prop} {x : EStateM ε σ α} {f : α → EStateM ε σ β} {Q Q' : α → σ → Prop}
  {S : β → σ → Prop} {E E' : ε → σ → Prop}

theorem run_bind (x : EStateM ε σ α) (f : α → EStateM ε σ β) (s : σ) : (x >>= f) s = match x s with
      | .ok a s' => f a s'
      | .error e s' => .error e s' := rfl

variable {s' : σ}

variable {s : σ}

theorem bind_of_ok {a : α} (h : x s = .ok a s') : (x >>= f) s = f a s' := by
  rw [run_bind, h]

theorem get_bind (f : σ → EStateM ε σ β) (s : σ) : (get >>= f) s = f s s := rfl

theorem bind_of_error {e : ε} (h : x s = .error e s') : (x >>= f) s = .error e s' := by
  rw [run_bind, h]

namespace Triple

theorem ret (a : α) (h : ∀ s, P s → Q a s) : Triple P (pure a) Q E := h

theorem done (a : α) : Triple P (pure a) (fun _ => P) E := fun _ h => h

theorem raise (e : ε) (h : ∀ s, P s → E e s) : Triple P (throw e : EStateM ε σ α) Q E := h

theorem read {Q : σ → σ → Prop} (h : ∀ s, P s → Q s s) : Triple P (get : EStateM ε σ σ) Q E := h

theorem update {Q : Unit → σ → Prop} (g : σ → σ) (h : ∀ s, P s → Q () (g s)) :
    Triple P (modify g : EStateM ε σ Unit) Q E := h

theorem of_ok (h : Triple P x Q E) {s : σ} {a : α} (hs : P s) (hrun : x s = .ok a s') : Q a s' := by
  have hx := h s hs
  rw [hrun] at hx
  exact hx

theorem of_error (h : Triple P x Q E) {s : σ} {e : ε} (hs : P s) (hrun : x s = .error e s') :
    E e s' := by
  have hx := h s hs
  rw [hrun] at hx
  exact hx

theorem bind (hx : Triple P x Q E) (hf : ∀ a, Triple (Q a) (f a) S E) : Triple P (x >>= f) S E := by
  intro s hs
  rw [run_bind]
  cases hrun : x s with
  | ok a s' => exact hf a s' (hx.of_ok hs hrun)
  | error e s' => exact hx.of_error hs hrun

theorem conseq (h : Triple P x Q E) (hP : ∀ s, P' s → P s) (hQ : ∀ a s, Q a s → Q' a s)
    (hE : ∀ e s, E e s → E' e s) : Triple P' x Q' E' := by
  intro s hs
  cases hrun : x s with
  | ok a s' => exact hQ a s' (h.of_ok (hP s hs) hrun)
  | error e s' => exact hE e s' (h.of_error (hP s hs) hrun)

theorem post (h : Triple P x Q E) (hQ : ∀ a s, Q a s → Q' a s) : Triple P x Q' E :=
  h.conseq (fun _ h => h) hQ fun _ _ h => h

theorem given {p : Prop} (h : p → Triple P x Q E) : Triple (fun s => p ∧ P s) x Q E :=
  fun s hs => h hs.1 s hs.2

theorem knowing {p : Prop} (hp : ∀ s, P s → p) (h : p → Triple P x Q E) : Triple P x Q E :=
  fun s hs => h (hp s hs) s hs

theorem ex {γ : Type} {P : γ → σ → Prop} (h : ∀ y, Triple (P y) x Q E) :
    Triple (fun s => ∃ y, P y s) x Q E :=
  fun s ⟨y, hy⟩ => h y s hy

theorem cond {c : Prop} [Decidable c] {y : EStateM ε σ α} (hx : c → Triple P x Q E)
    (hy : ¬ c → Triple P y Q E) : Triple P (if c then x else y) Q E := by
  by_cases h : c
  · rw [if_pos h]
    exact hx h
  · rw [if_neg h]
    exact hy h

theorem each {l : List α} (h : ∀ a ∈ l, Triple P (f a) (fun _ => P) E) :
    Triple P (l.mapM' f) (fun _ => P) E := by
  induction l with
  | nil => exact ret [] fun _ h => h
  | cons a l ih =>
    have htail := ih fun b hb => h b (.tail a hb)
    exact (h a (.head _)).bind fun b => htail.bind fun bs => ret _ fun _ h => h

end Triple

def Returns (P : σ → Prop) (x : EStateM ε σ α) (a : α) (Q : σ → Prop) : Prop :=
  ∀ s, P s → ∃ s', x s = .ok a s' ∧ Q s'

namespace Returns

variable {a : α} {b : β} {R R' S : σ → Prop}

theorem ret (a : α) (h : ∀ s, P s → R s) : Returns P (pure a : EStateM ε σ α) a R :=
  fun s hs => ⟨s, rfl, h s hs⟩

theorem done (a : α) : Returns P (pure a : EStateM ε σ α) a P := fun s hs => ⟨s, rfl, hs⟩

theorem update (g : σ → σ) (h : ∀ s, P s → R (g s)) :
    Returns P (modify g : EStateM ε σ Unit) () R :=
  fun s hs => ⟨g s, rfl, h s hs⟩

theorem bind (hx : Returns P x a R) (hf : Returns R (f a) b S) : Returns P (x >>= f) b S := by
  intro s hs
  obtain ⟨s', hrun, hs'⟩ := hx s hs
  obtain ⟨s'', hrun', hs''⟩ := hf s' hs'
  exact ⟨s'', (bind_of_ok hrun).trans hrun', hs''⟩

theorem with_state {f : σ → EStateM ε σ β} (h : ∀ s, P s → ∃ s', f s s = .ok b s' ∧ S s') :
    Returns P (get >>= f) b S :=
  h

theorem pre (h : Returns P x a R) (hP : ∀ s, P' s → P s) : Returns P' x a R :=
  fun s hs => h s (hP s hs)

theorem post (h : Returns P x a R) (hR : ∀ s, R s → R' s) : Returns P x a R' := by
  intro s hs
  obtain ⟨s', hrun, hs'⟩ := h s hs
  exact ⟨s', hrun, hR s' hs'⟩

end Returns

def Succeeds (x : EStateM ε σ α) (s : σ) : Prop := ∃ a s', x s = .ok a s'

theorem succeeds_pure (a : α) (s : σ) : Succeeds (pure a : EStateM ε σ α) s := ⟨a, s, rfl⟩

theorem succeeds_bind : Succeeds (x >>= f) s ↔ ∃ a s', x s = .ok a s' ∧ Succeeds (f a) s' := by
  rw [Succeeds, run_bind]
  cases x s with
  | ok a s' => simp [Succeeds]
  | error e s' => simp

theorem succeeds_bind_of_ok {a : α} (h : x s = .ok a s') :
    Succeeds (x >>= f) s ↔ Succeeds (f a) s' := by
  rw [Succeeds, bind_of_ok h]
  rfl

theorem succeeds_bind_pure {g : α → β} :
    Succeeds (x >>= fun a => (pure (g a) : EStateM ε σ β)) s ↔ Succeeds x s := by
  simp only [succeeds_bind, succeeds_pure, and_true]
  rfl

theorem Succeeds.of_bind (h : Succeeds (x >>= f) s) : Succeeds x s := by
  obtain ⟨a, s', hx, -⟩ := succeeds_bind.mp h
  exact ⟨a, s', hx⟩

theorem not_succeeds_of_error {e : ε} (h : x s = .error e s') : ¬ Succeeds x s := by
  rintro ⟨a, s'', hx⟩
  rw [h] at hx
  cases hx

def finalState : EStateM.Result ε σ α → σ
  | .ok _ s | .error _ s => s

def attempt (x : EStateM ε σ α) (handler : ε → EStateM ε σ α) : EStateM ε σ α := fun s =>
  match x s with
  | .ok a s' => .ok a s'
  | .error e s' => handler e s'

/-- From this state, `Q` holds of the result and the state after it, or `R` of the state after an
exception. -/
def Runs (x : EStateM ε σ α) (s : σ) (Q : α → σ → Prop) (R : σ → Prop) : Prop :=
  match x s with
  | .ok a s' => Q a s'
  | .error _ s' => R s'

namespace Runs

variable {s : σ} {R R' : σ → Prop}

theorem of_ok {a : α} (hx : x s = .ok a s') (h : Runs x s Q R) : Q a s' := by
  rw [Runs, hx] at h
  exact h

theorem mono (h : Runs x s Q R) (hQ : ∀ a s', Q a s' → Q' a s') (hR : ∀ s', R s' → R' s') :
    Runs x s Q' R' := by
  rw [Runs] at h ⊢
  cases hx : x s with
  | ok a s' =>
    rw [hx] at h
    exact hQ a s' h
  | error e s' =>
    rw [hx] at h
    exact hR s' h

theorem bind (h : Runs x s Q R) (hR : ∀ s', R s' → R' s')
    (hf : ∀ a s', Q a s' → Runs (f a) s' S R') :
    Runs (x >>= f) s S R' := by
  rw [Runs] at h
  rw [Runs, run_bind]
  cases hx : x s with
  | ok a s' =>
    rw [hx] at h
    exact hf a s' h
  | error e s' =>
    rw [hx] at h
    exact hR s' h

theorem attempt {handler : ε → EStateM ε σ α} (h : Runs x s Q R)
    (hf : ∀ e s', R s' → Runs (handler e) s' Q R') :
    Runs (System.attempt x handler) s Q R' := by
  rw [Runs] at h
  rw [Runs, System.attempt]
  cases hx : x s with
  | ok a s' =>
    rw [hx] at h
    exact h
  | error e s' =>
    rw [hx] at h
    exact hf e s' h

theorem get_bind {f : σ → EStateM ε σ β} (h : Runs (f s) s S R) : Runs (get >>= f) s S R := h

theorem set_bind {f : PUnit → EStateM ε σ β} (h : Runs (f ⟨⟩) s' S R) : Runs (set s' >>= f) s S R :=
  h

theorem modify_bind {g : σ → σ} {f : PUnit → EStateM ε σ β} (h : Runs (f ⟨⟩) (g s) S R) :
    Runs (modify g >>= f) s S R := h

end Runs

def Ends (x : EStateM ε σ α) (s : σ) (R : σ → Prop) : Prop := Runs x s (fun _ => R) R

namespace Ends

variable {s : σ} {R R' : σ → Prop}

theorem mono (h : Ends x s R) (hR : ∀ s', R s' → R' s') : Ends x s R' :=
  Runs.mono h (fun _ => hR) hR

theorem bind (h : Ends x s R) (hR : ∀ s', R s' → R' s') (hf : ∀ a s', R s' → Ends (f a) s' R') :
    Ends (x >>= f) s R' :=
  Runs.bind h hR hf

theorem attempt {handler : ε → EStateM ε σ α} (h : Ends x s R) (hR : ∀ s', R s' → R' s')
    (hf : ∀ e s', R s' → Ends (handler e) s' R') : Ends (System.attempt x handler) s R' :=
  Runs.attempt (Runs.mono h (fun _ => hR) fun _ => id) hf

end Ends

theorem ends_of_reads {Q : α → Prop} {R : σ → Prop} (hx : ∀ a s', x s = .ok a s' → s' = s ∧ Q a)
    (he : ∀ e s', x s = .error e s' → s' = s) (hs : R s) (hf : ∀ a, Q a → Ends (f a) s R) :
    Ends (x >>= f) s R := by
  rw [Ends, Runs, run_bind]
  cases hrun : x s with
  | ok a s' =>
    obtain ⟨rfl, ha⟩ := hx a s' hrun
    exact hf a ha
  | error e s' =>
    obtain rfl := he e s' hrun
    exact hs

end Mojo.System
