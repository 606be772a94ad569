import Mathlib.Data.Option.Basic
import Mathlib.Data.List.Basic

/-!
# Runs of a system

A system is a step function that says what an action does in a state, or that the
action is not possible there. An invariant of the steps is an invariant of all runs, and an
invariant of the steps that satisfy a condition is one of the runs in which each step does.
Where any other step breaks it for good, it holds of just these runs.
-/

namespace Mojo.System

variable {σ α : Type} {step : σ → α → Option σ}

def run (step : σ → α → Option σ) : σ → List α → Option σ
  | s, [] => some s
  | s, a :: as => (step s a).bind fun s' => run step s' as

variable {a : α} {as : List α} {s s' t : σ}

theorem run_cons :
    run step s (a :: as) = some s' ↔ ∃ t, step s a = some t ∧ run step t as = some s' :=
  Option.bind_eq_some_iff

variable {P : σ → Prop}

theorem run_invariant (hstep : ∀ s a s', step s a = some s' → P s → P s')
    (hrun : run step s as = some s') (h : P s) : P s' := by
  induction as generalizing s with
  | nil => exact Option.some.inj hrun ▸ h
  | cons a as ih =>
    obtain ⟨t, ht, hrun⟩ := run_cons.mp hrun
    exact ih hrun (hstep s a t ht h)

def Each (step : σ → α → Option σ) (C : σ → α → Prop) : σ → List α → Prop
  | _, [] => True
  | s, a :: as => C s a ∧ ∀ s', step s a = some s' → Each step C s' as

variable {C : σ → α → Prop}

theorem Each.cons (ht : step s a = some t) (ha : C s a) (h : Each step C t as) :
    Each step C s (a :: as) :=
  ⟨ha, fun _ hs => Option.some.inj (ht.symm.trans hs) ▸ h⟩

theorem run_invariant_of_each (hstep : ∀ s a s', step s a = some s' → C s a → P s → P s')
    (hrun : run step s as = some s') (heach : Each step C s as) (h : P s) : P s' := by
  induction as generalizing s with
  | nil => exact Option.some.inj hrun ▸ h
  | cons a as ih =>
    obtain ⟨t, ht, hrun⟩ := run_cons.mp hrun
    exact ih hrun (heach.2 t ht) (hstep s a t ht heach.1 h)

theorem run_cases_of_each {B : σ → Prop} (hstep : ∀ s a s', step s a = some s' → C s a → P s → P s')
    (hbreak : ∀ s a s', step s a = some s' → ¬ C s a → P s → B s')
    (hbad : ∀ s a s', step s a = some s' → B s → B s') (hrun : run step s as = some s') (h : P s) :
    Each step C s as ∧ P s' ∨ ¬ Each step C s as ∧ B s' := by
  induction as generalizing s with
  | nil => exact .inl ⟨trivial, Option.some.inj hrun ▸ h⟩
  | cons a as ih =>
    obtain ⟨t, ht, hrun⟩ := run_cons.mp hrun
    by_cases ha : C s a
    · exact (ih hrun (hstep s a t ht ha h)).imp (fun h => ⟨.cons ht ha h.1, h.2⟩)
        fun h => ⟨fun heach => h.1 (heach.2 t ht), h.2⟩
    · exact .inr ⟨fun heach => ha heach.1, run_invariant hbad hrun (hbreak s a t ht ha h)⟩

theorem each_iff {C' : σ → α → Prop} (hiff : ∀ s a, P s → (C s a ↔ C' s a))
    (hstep : ∀ s a s', P s → C s a → step s a = some s' → P s') (h : P s) :
    Each step C s as ↔ Each step C' s as := by
  induction as generalizing s with
  | nil => rfl
  | cons a as ih =>
    rw [Each, Each, ← hiff s a h]
    exact and_congr_right fun ha => forall₂_congr fun s' hs' => ih (hstep s a s' h ha hs')

/-- The steps of a run are all good exactly if they are all allowed. -/
theorem each_good_iff {G : σ → σ → Prop}
    (hiff : ∀ {s a s'}, P s → step s a = some s' → (G s s' ↔ C s a) ∧ (C s a → P s')) (h : P s) :
    Each step (fun s a => ∀ s', step s a = some s' → G s s') s as ↔
      Each step (fun s a => (step s a).isSome → C s a) s as := by
  refine each_iff (fun s a h => ?_) (fun s a s' h hgood hstep => ?_) h
  · cases hstep : step s a with
    | none => simp
    | some s' => simpa using (hiff h hstep).1
  · exact (hiff h hstep).2 ((hiff h hstep).1.mp (hgood s' hstep))

end Mojo.System
