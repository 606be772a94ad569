import Mojo.CppBindings.Kind
import Mojo.CppBindings.Router
import Mathlib.Data.List.Nodup
import Mathlib.Logic.Function.Basic

/-!
# Who closes the handles of a message

A `Message` closes the handles that it still has when it is reset or destroyed. Writing it to a pipe
transfers them, and from then on their numbers may be given to other handles of the process.
`Connector::Accept` clears the handles of a message that was written; `SynchronousConnector::Write`
does not.

The state is that of one message, of the connectors it is given to, and of the handles of the
process. Other parts of the process create handles with numbers that are free and close handles of
their own.
-/

namespace Mojo.CppBindings.Transfer

open Mojo.System Mojo.CppBindings.Routing List

/-- `table` has the handles of the process and what they refer to. `transferred` and `closed` record
what was written and what the message has closed; nothing depends on them. -/
structure State where
  table : ℕ → Option ℕ
  connector : ℕ → Connector
  handles : List ℕ
  transferred : List ℕ
  closed : List (ℕ × Option ℕ)

namespace State

/-- `WriteMessageRaw`; what it returns is up to the system, but all handles must be valid for a
success. -/
def writeMessageRaw (s : State) (result : WriteResult) : Option State :=
  match result with
  | .ok =>
    if s.handles.Nodup ∧ ∀ h ∈ s.handles, (s.table h).isSome then
      some { s with
        table := fun h => if h ∈ s.handles then none else s.table h
        transferred := s.transferred ++ s.handles }
    else none
  | _ => some s

def accept (s : State) (i : ℕ) (result : WriteResult) : Option (Bool × State) :=
  if (s.connector i).error then some (false, s)
  else if (s.connector i).pipe = false then none
  else if (s.connector i).dropWrites then some (true, s)
  else
    (s.writeMessageRaw result).bind fun s =>
      match result with
      | .ok => some (true, { s with handles := [] })
      | .failedPrecondition =>
        some (true,
          { s with
            connector := Function.update s.connector i { s.connector i with dropWrites := true } })
      | .busy => none
      | .rejected => some (false, s)

def write (s : State) (result : WriteResult) : Option (Bool × State) :=
  (s.writeMessageRaw result).bind fun s =>
    match result with
    | .ok => some (true, s)
    | .failedPrecondition | .busy | .rejected => some (false, s)

def closeRaw (s : State) (h : ℕ) : State :=
  { s with table := Function.update s.table h none, closed := s.closed ++ [(h, s.table h)] }

def closeAll : State → List ℕ → State
  | s, [] => s
  | s, h :: hs => closeAll (if h ≠ invalidHandle then s.closeRaw h else s) hs

def destroy (s : State) : State := s.closeAll s.handles

def reset (s : State) : State := { s.destroy with handles := [] }

end State

inductive Action
  | accept (i : ℕ) (result : WriteResult)
  | write (result : WriteResult)
  | reset
  | closePipe (i : ℕ)
  | notifyError (i : ℕ)
  | create (h object : ℕ)
  | discard (h : ℕ)

def step (s : State) : Action → Option State
  | .accept i result => (s.accept i result).map Prod.snd
  | .write result => (s.write result).map Prod.snd
  | .reset => some s.reset
  | .closePipe i => some { s with connector := Function.update s.connector i (s.connector i).close }
  | .notifyError i =>
    some { s with
      connector := Function.update s.connector i { (s.connector i).close with error := true } }
  | .create h object =>
    if h ≠ invalidHandle ∧ s.table h = none then
      some { s with table := Function.update s.table h (some object) }
    else none
  -- the handles that the message owns are not closed by others
  | .discard h =>
    if h ∈ s.handles → h ∈ s.transferred then
      some { s with table := Function.update s.table h none } else none

structure Initial (s : State) : Prop where
  nodup : (s.handles.filter (· ≠ invalidHandle)).Nodup
  owned : ∀ h ∈ s.handles, h ≠ invalidHandle → (s.table h).isSome
  invalid : s.table invalidHandle = none
  transferred : s.transferred = []
  closed : s.closed = []

def State.fate (s : State) (h : ℕ) : ℕ := s.transferred.count h + (s.closed.map Prod.fst).count h

/-- Every handle of the message was transferred or closed, only once, and nothing else was closed.
-/
structure Settled (s₀ s : State) : Prop where
  once : ∀ h ∈ s₀.handles, h ≠ invalidHandle → s.fate h = 1
  own : ∀ p ∈ s.closed, p.1 ∈ s₀.handles ∧ p.2 = s₀.table p.1

/-! ### Closing -/

section Closing

variable {s : State} {hs : List ℕ}

theorem closeAll_transferred (s : State) (hs : List ℕ) :
    (s.closeAll hs).transferred = s.transferred := by
  induction hs generalizing s with
  | nil => rfl
  | cons h hs ih =>
    rw [State.closeAll, ih]
    split <;> rfl

theorem closeAll_closed (s : State) (hs : List ℕ) : ((s.closeAll hs).closed.map Prod.fst) =
    s.closed.map Prod.fst ++ hs.filter (· ≠ invalidHandle) := by
  induction hs generalizing s with
  | nil => simp [State.closeAll]
  | cons h hs ih =>
    rw [State.closeAll, ih]
    by_cases hh : h = invalidHandle
    · simp [hh]
    · simp [hh, State.closeRaw]

theorem closeAll_own {table : ℕ → Option ℕ} (hnodup : (hs.filter (· ≠ invalidHandle)).Nodup)
    (htable : ∀ h ∈ hs, s.table h = table h) {p : ℕ × Option ℕ} (hp : p ∈ (s.closeAll hs).closed) :
    p ∈ s.closed ∨ p.1 ∈ hs ∧ p.2 = table p.1 := by
  induction hs generalizing s with
  | nil => exact .inl hp
  | cons h hs ih =>
    rw [State.closeAll] at hp
    by_cases hh : h = invalidHandle
    · rw [if_neg (not_not.mpr hh)] at hp
      rw [filter_cons_of_neg (by simpa using hh)] at hnodup
      rcases ih hnodup (fun h' hmem => htable h' (.tail _ hmem)) hp with hp | ⟨hmem, hp⟩
      · exact .inl hp
      · exact .inr ⟨.tail _ hmem, hp⟩
    · rw [if_pos hh] at hp
      rw [filter_cons_of_pos (by simpa using hh), nodup_cons] at hnodup
      have hrest : ∀ h' ∈ hs, (s.closeRaw h).table h' = table h' := by
        intro h' hmem
        have hne : h' ≠ h := by
          rintro rfl
          exact hnodup.1 (mem_filter.mpr ⟨hmem, by simpa using hh⟩)
        exact (Function.update_of_ne hne _ _).trans (htable h' (.tail _ hmem))
      rcases ih hnodup.2 hrest hp with hp | ⟨hmem, hp⟩
      · rcases mem_append.mp hp with hp | hp
        · exact .inl hp
        · obtain rfl := mem_singleton.mp hp
          exact .inr ⟨.head _, htable h (.head _)⟩
      · exact .inr ⟨.tail _ hmem, hp⟩

theorem fate_destroy (s : State) (h : ℕ) :
    s.destroy.fate h = s.fate h + (s.handles.filter (· ≠ invalidHandle)).count h := by
  rw [State.fate, State.fate, State.destroy, closeAll_transferred, closeAll_closed, count_append,
    Nat.add_assoc]

end Closing

/-! ### What a write does -/

variable {s s' : State}

theorem writeMessageRaw_ok (h : s.writeMessageRaw .ok = some s') :
    s.handles.Nodup ∧ (∀ h ∈ s.handles, (s.table h).isSome) ∧ s'.handles = s.handles ∧
      s'.transferred = s.transferred ++ s.handles ∧ s'.closed = s.closed := by
  simp only [State.writeMessageRaw] at h
  split_ifs at h with hvalid
  cases h
  exact ⟨hvalid.1, hvalid.2, rfl, rfl, rfl⟩

variable {result : WriteResult}

theorem writeMessageRaw_failed (hr : result ≠ .ok)
    (h : s.writeMessageRaw result = some s') : s' = s := by
  cases result with
  | ok => exact absurd rfl hr
  | failedPrecondition | busy | rejected => exact (Option.some.inj h).symm

/-- The message keeps its handles, and with them what they refer to while it has not transferred
them. -/
structure Kept (s s' : State) : Prop where
  handles : s'.handles = s.handles
  transferred : s'.transferred = s.transferred
  closed : s'.closed = s.closed
  table : ∀ h ∈ s.handles, h ∉ s.transferred → (h ≠ invalidHandle → (s.table h).isSome) →
    s'.table h = s.table h

structure Transferred (s : State) (kept : Bool) (s' : State) : Prop where
  nodup : s.handles.Nodup
  valid : ∀ h ∈ s.handles, (s.table h).isSome
  handles : s'.handles = if kept then s.handles else []
  transferred : s'.transferred = s.transferred ++ s.handles
  closed : s'.closed = s.closed

theorem step_cases {a : Action} (hstep : step s a = some s') :
    a ≠ .write .ok ∧ Kept s s' ∨ (∃ kept, (a = .write .ok ↔ kept = true) ∧ Transferred s kept s') ∨
      a = .reset ∧ s' = s.reset := by
  have hsame (c : ℕ → Connector) : Kept s { s with connector := c } :=
    ⟨rfl, rfl, rfl, fun _ _ _ _ => rfl⟩
  cases a with
  | accept i result =>
    obtain ⟨⟨r, t⟩, hrun, rfl⟩ := Option.map_eq_some_iff.mp hstep
    rw [State.accept] at hrun
    split_ifs at hrun
    · cases hrun
      exact .inl ⟨nofun, hsame _⟩
    · cases hrun
      exact .inl ⟨nofun, hsame _⟩
    · obtain ⟨t, ht, hrun⟩ := Option.bind_eq_some_iff.mp hrun
      cases result with
      | ok =>
        obtain ⟨hnodup, hvalid, -, htransferred, hclosed⟩ := writeMessageRaw_ok ht
        cases hrun
        exact .inr (.inl ⟨false, by simp, hnodup, hvalid, rfl, htransferred, hclosed⟩)
      | busy => cases hrun
      | failedPrecondition | rejected =>
        obtain rfl := writeMessageRaw_failed (by simp) ht
        cases hrun
        exact .inl ⟨nofun, hsame _⟩
  | write result =>
    obtain ⟨⟨r, t⟩, hrun, rfl⟩ := Option.map_eq_some_iff.mp hstep
    obtain ⟨t, ht, hrun⟩ := Option.bind_eq_some_iff.mp hrun
    cases result with
    | ok =>
      obtain ⟨hnodup, hvalid, hhandles, htransferred, hclosed⟩ := writeMessageRaw_ok ht
      cases hrun
      exact .inr (.inl ⟨true, by simp, hnodup, hvalid, hhandles, htransferred, hclosed⟩)
    | failedPrecondition | busy | rejected =>
      obtain rfl := writeMessageRaw_failed (by simp) ht
      cases hrun
      exact .inl ⟨nofun, hsame _⟩
  | reset => exact .inr (.inr ⟨rfl, (Option.some.inj hstep).symm⟩)
  | closePipe i | notifyError i =>
    cases hstep
    exact .inl ⟨nofun, hsame _⟩
  | create x object =>
    rw [step] at hstep
    split_ifs at hstep with hfree
    cases hstep
    refine .inl ⟨nofun, rfl, rfl, rfl, fun y _ _ hsome => Function.update_of_ne ?_ _ _⟩
    rintro rfl
    have := hsome hfree.1
    rw [hfree.2] at this
    cases this
  | discard x =>
    rw [step] at hstep
    split_ifs at hstep with hother
    cases hstep
    refine .inl ⟨nofun, rfl, rfl, rfl, fun y hy hkept _ => Function.update_of_ne ?_ _ _⟩
    rintro rfl
    exact hkept (hother hy)

/-! ### A message that is settled -/

structure Owned (s₀ s : State) : Prop where
  handles : s.handles = s₀.handles
  transferred : s.transferred = []
  closed : s.closed = []
  table : ∀ h ∈ s₀.handles, s.table h = s₀.table h

def Good (s₀ s : State) : Prop := Owned s₀ s ∨ s.handles = [] ∧ Settled s₀ s

def Spoiled (s₀ s : State) : Prop :=
  ∃ h ∈ s₀.handles, h ≠ invalidHandle ∧ (h ∈ s.handles ∧ h ∈ s.transferred ∨ 2 ≤ s.fate h)

section Steps

variable {s₀ s s' : State}

theorem Settled.of_eq (h : Settled s₀ s) (htransferred : s'.transferred = s.transferred)
    (hclosed : s'.closed = s.closed) :
    Settled s₀ s' := by
  constructor
  · intro x hx hv
    rw [State.fate, htransferred, hclosed]
    exact h.once x hx hv
  · rw [hclosed]
    exact h.own

theorem Good.kept (hinit : Initial s₀) (h : Good s₀ s) (hkept : Kept s s') : Good s₀ s' := by
  rcases h with h | ⟨hempty, h⟩
  · refine .inl ⟨hkept.handles.trans h.handles, hkept.transferred.trans h.transferred,
      hkept.closed.trans h.closed, fun x hx => ?_⟩
    rw [hkept.table x (h.handles ▸ hx) (by simp [h.transferred]), h.table x hx]
    rw [h.table x hx]
    exact hinit.owned x hx
  · exact .inr ⟨hkept.handles.trans hempty, h.of_eq hkept.transferred hkept.closed⟩

theorem settled_of_transferred (hown : Owned s₀ s) (hnodup : s.handles.Nodup)
    (htransferred : s'.transferred = s.transferred ++ s.handles) (hclosed : s'.closed = s.closed) :
    Settled s₀ s' := by
  constructor
  · intro h hh hv
    rw [State.fate, htransferred, hclosed, hown.transferred, hown.closed, nil_append, hown.handles]
    rw [hown.handles] at hnodup
    rw [count_eq_one_of_mem hnodup hh]
    rfl
  · intro p hp
    rw [hclosed, hown.closed] at hp
    cases hp

theorem Owned.destroy (hinit : Initial s₀) (h : Owned s₀ s) : Settled s₀ s.destroy := by
  constructor
  · intro x hx hv
    have hmem : x ∈ s₀.handles.filter (· ≠ invalidHandle) := mem_filter.mpr ⟨hx, by simpa using hv⟩
    have hzero : s.fate x = 0 := by rw [State.fate, h.transferred, h.closed]; rfl
    rw [fate_destroy, hzero, h.handles, count_eq_one_of_mem hinit.nodup hmem]
  · intro p hp
    rw [State.destroy, h.handles] at hp
    rcases closeAll_own hinit.nodup h.table hp with hp | hp
    · rw [h.closed] at hp
      cases hp
    · exact hp

theorem Good.destroy (hinit : Initial s₀) (h : Good s₀ s) : Settled s₀ s.destroy := by
  rcases h with h | ⟨hempty, h⟩
  · exact h.destroy hinit
  · rw [State.destroy, hempty]
    exact h

theorem good_step (hinit : Initial s₀) (h : Good s₀ s) {a : Action} (hstep : step s a = some s')
    (hwrite : a = .write .ok → s.handles = []) : Good s₀ s' := by
  rcases step_cases hstep with ⟨-, hkept⟩ | ⟨kept, ha, hmoved⟩ | ⟨-, rfl⟩
  · exact h.kept hinit hkept
  · have hempty : s'.handles = [] := by
      rw [hmoved.handles]
      cases kept with
      | false => rfl
      | true => exact hwrite (ha.mpr rfl)
    refine .inr ⟨hempty, ?_⟩
    rcases h with h | ⟨hempty, h⟩
    · exact settled_of_transferred h hmoved.nodup hmoved.transferred hmoved.closed
    · exact h.of_eq (by rw [hmoved.transferred, hempty, append_nil]) hmoved.closed
  · exact .inr ⟨rfl, (h.destroy hinit).of_eq rfl rfl⟩

theorem fate_of_mem {x : ℕ} (h : x ∈ s.transferred) : 1 ≤ s.fate x :=
  Nat.le_add_right_of_le (count_pos_iff.mpr h)

theorem Spoiled.destroy (h : Spoiled s₀ s) :
    ∃ x ∈ s₀.handles, x ≠ invalidHandle ∧ 2 ≤ s.destroy.fate x := by
  obtain ⟨x, hx₀, hv, hx⟩ := h
  refine ⟨x, hx₀, hv, ?_⟩
  rw [fate_destroy]
  rcases hx with ⟨hmem, hsent⟩ | hx
  · have hclose : 1 ≤ (s.handles.filter (· ≠ invalidHandle)).count x :=
      count_pos_iff.mpr (mem_filter.mpr ⟨hmem, by simpa using hv⟩)
    have hfate := fate_of_mem hsent
    omega
  · omega

theorem fate_of_transferred {hs : List ℕ} (htransferred : s'.transferred = s.transferred ++ hs)
    (hclosed : s'.closed = s.closed) (x : ℕ) : s'.fate x = s.fate x + hs.count x := by
  rw [State.fate, State.fate, htransferred, hclosed, count_append]
  omega

theorem spoiled_step (h : Spoiled s₀ s) {a : Action} (hstep : step s a = some s') :
    Spoiled s₀ s' := by
  rcases step_cases hstep with ⟨-, hkept⟩ | ⟨kept, -, hmoved⟩ | ⟨-, rfl⟩
  · obtain ⟨x, hx₀, hv, hx⟩ := h
    refine ⟨x, hx₀, hv, ?_⟩
    rw [State.fate, hkept.handles, hkept.transferred, hkept.closed]
    exact hx
  · obtain ⟨x, hx₀, hv, hx⟩ := h
    refine ⟨x, hx₀, hv, .inr ?_⟩
    rw [fate_of_transferred hmoved.transferred hmoved.closed]
    rcases hx with ⟨hmem, hsent⟩ | hx
    · have hagain : 1 ≤ s.handles.count x := count_pos_iff.mpr hmem
      have hfate := fate_of_mem hsent
      omega
    · omega
  · obtain ⟨x, hx₀, hv, hx⟩ := h.destroy
    exact ⟨x, hx₀, hv, .inr hx⟩

theorem spoiled_of_write (hinit : Initial s₀) (h : Good s₀ s)
    (hstep : step s (.write .ok) = some s') (hne : s.handles ≠ []) : Spoiled s₀ s' := by
  rcases step_cases hstep with ⟨hr, -⟩ | ⟨kept, ha, hmoved⟩ | ⟨hr, -⟩
  · exact absurd rfl hr
  · rcases h with h | ⟨hempty, -⟩
    · obtain ⟨x, hx⟩ := exists_mem_of_ne_nil _ hne
      have hx₀ : x ∈ s₀.handles := h.handles ▸ hx
      have hsome := hmoved.valid x hx
      rw [h.table x hx₀] at hsome
      have hv : x ≠ invalidHandle := by
        rintro rfl
        rw [hinit.invalid] at hsome
        cases hsome
      have hhandles := hmoved.handles
      rw [ha.mp rfl] at hhandles
      refine ⟨x, hx₀, hv, .inl ⟨hhandles ▸ hx, ?_⟩⟩
      rw [hmoved.transferred]
      exact mem_append_right _ hx
    · exact absurd hempty hne
  · cases hr

end Steps

/-! ### Runs -/

def NoneKept : State → List Action → Prop :=
  Each step fun s a => a = .write .ok → s.handles = []

variable {s₀ : State} {as : List Action}

theorem noneKept_cases (hinit : Initial s₀) (hrun : run step s as = some s') (h : Good s₀ s) :
    NoneKept s as ∧ Good s₀ s' ∨ ¬ NoneKept s as ∧ Spoiled s₀ s' := by
  refine run_cases_of_each (fun _ _ _ hstep hwrite h => good_step hinit h hstep hwrite) ?_
    (fun _ _ _ hstep hs => spoiled_step hs hstep) hrun h
  intro s a t hstep hkept h
  obtain ⟨rfl, hne⟩ := Classical.not_imp.mp hkept
  exact spoiled_of_write hinit h hstep hne

/-- The handles of a message are transferred or closed, and not both, exactly if
`SynchronousConnector::Write` does not transfer any. -/
theorem settled_iff_noneKept {s₀ s : State} (hinit : Initial s₀) {as : List Action}
    (hrun : run step s₀ as = some s) : Settled s₀ s.destroy ↔ NoneKept s₀ as := by
  have hstart : Good s₀ s₀ := .inl ⟨rfl, hinit.transferred, hinit.closed, fun _ _ => rfl⟩
  rcases noneKept_cases hinit hrun hstart with ⟨hnone, hgood⟩ | ⟨hnone, hspoiled⟩
  · exact iff_of_true (hgood.destroy hinit) hnone
  · refine iff_of_false (fun hsettled => ?_) hnone
    obtain ⟨x, hx₀, hv, hx⟩ := hspoiled.destroy
    have hone := hsettled.once x hx₀ hv
    omega

def oneHandle : State where
  table h := if h = 5 then some 0 else none
  connector _ := .new
  handles := [5]
  transferred := []
  closed := []

theorem oneHandle_initial : Initial oneHandle where
  nodup := by decide
  owned := by decide
  invalid := rfl
  transferred := rfl
  closed := rfl

/-- The first write is rejected, the second one transfers the handle, and its number is given to
another one. -/
theorem settled_after_accept :
    ∃ s, run step oneHandle [.accept 0 .rejected, .accept 0 .ok, .create 5 1] = some s ∧
    Settled oneHandle s.destroy := by
  have hsome : (run step oneHandle [.accept 0 .rejected, .accept 0 .ok, .create 5 1]).isSome := by
    decide
  obtain ⟨s, hrun⟩ := Option.isSome_iff_exists.mp hsome
  refine ⟨s, hrun, (settled_iff_noneKept oneHandle_initial hrun).mpr ?_⟩
  simp [NoneKept, Each]

theorem write_closes_another : Initial oneHandle ∧
    (run step oneHandle [.write .ok, .create 5 1]).map
      (fun s => (s.transferred, s.destroy.closed)) = some ([5], [(5, some 1)]) :=
  ⟨oneHandle_initial, by decide⟩

end Mojo.CppBindings.Transfer
