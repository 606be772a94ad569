import Mojo.CppBindings.Router
import Mathlib.Logic.Relation

/-!
# What an action can do to the router

Every action is a sequence of effects, each of which touches one thing. Invariants of
the router are shown for the effects one by one.
-/

namespace Mojo.CppBindings.Routing

open Relation

variable {s s' : State} {R : Router} {rest : List Frame} {ok : Bool}

def Frame.answering : Frame → Option ℕ
  | .responder r _ => some r
  | .reading _ | .request _ _ | .message _ | .errorHandler => none

def Event.sent? : Event → Option ℕ
  | .sent r _ => some r
  | _ => none

/-- The responders whose `AcceptWithResponder` returned true. -/
def State.sent (s : State) : List ℕ := s.log.filterMap Event.sent?

inductive Effect : State → State → Prop
  | stack (s : State) (stack : List Frame)
    (h : stack.filterMap Frame.answering = s.stack.filterMap Frame.answering) :
      Effect s { s with stack := stack }
  | thunks (s : State) (thunks : List (ℕ × Bool)) (next : ℕ) : Effect s
    { s with thunks := thunks, nextThunk := next }
  | router (s : State) (R : Router) (waiting enforce receiver : Bool) (h : s.router = some R) :
      Effect s { s with
        router := some { R with
          connector := { R.connector with waiting := waiting, enforceErrors := enforce }
          hasReceiver := receiver } }
  | closed (s : State) (R : Router) (h : s.router = some R) : Effect s (s.closePipe R)
  | failed (s : State) (R : Router) (h : s.router = some R) : Effect s (s.notifyError R)
  | answered (s : State) (R : Router) (id responder : ℕ) (caller : Caller) (h : s.router = some R)
      (hr : R.responders.lookup id = some responder) : Effect s { s with
        router := some { R with responders := R.responders.filter fun p => p.1 != id }
        stack := .responder responder caller :: s.stack
        log := s.log ++ [.answered responder id] }
  | retired (s : State) (responder : ℕ) (caller : Caller) (rest : List Frame)
      (h : s.stack = .responder responder caller :: rest) :
      Effect s ({ s with stack := rest }.note (.deletedAfterResponse responder))
  | write (s : State) (R : Router) (result : WriteResult) (h : s.router = some R)
    (ha : s.aborted = none) :
      Effect s (s.write R result fun _ R s => { s with router := some R })
  | acceptWithResponder (s : State) (R : Router) (responder : ℕ) (result : WriteResult)
      (h : s.router = some R) (hfresh : responder ∉ s.sent) (ha : s.aborted = none) :
      Effect s (s.acceptWithResponder R responder result)
  | destroyed (s : State) (R : Router) (h : s.router = some R) : Effect s (s.destroy R)

abbrev Effects : State → State → Prop := ReflTransGen Effect

theorem Effect.effects (h : Effect s s') : Effects s s' := .single h

theorem effects_finish (s : State) (caller : Caller) (result : Bool) :
    Effects s (s.finish caller result) := by
  rw [State.finish]
  split
  · exact .refl
  · rename_i R hr
    split
    · exact (Effect.failed s R hr).effects
    · cases caller with
      | once => exact .refl
      | all =>
        simp only
        split
        · exact .refl
        · exact (Effect.stack s (.reading .all :: s.stack) rfl).effects

theorem effects_deleteThunk (s : State) (thunk : ℕ) (invoked : Bool) :
    Effects s (s.deleteThunk thunk invoked) := by
  rw [State.deleteThunk]
  have h₁ := Effect.thunks s (s.thunks.filter fun p => p.1 != thunk) s.nextThunk
  split
  · exact h₁.effects
  · rename_i R hr
    split
    · exact h₁.effects
    · exact h₁.effects.tail (.closed _ R hr)

theorem effects_handleIncoming (h : s.router = some R) (caller : Caller)
    (m : Message) : Effects s (s.handleIncoming R caller m) := by
  rw [State.handleIncoming]
  split
  · exact effects_finish s caller false
  split
  · split
    · have h₁ := Effect.thunks s ((s.nextThunk, false) :: s.thunks) (s.nextThunk + 1)
      exact h₁.effects.tail (.stack _ (.request s.nextThunk caller :: s.stack) rfl)
    · exact (Effect.closed s R h).effects.trans (effects_finish _ caller false)
  split
  · split
    · exact effects_finish s caller false
    · rename_i responder hlookup
      exact (Effect.answered s R m.requestId responder caller h hlookup).effects
  · split
    · exact (Effect.stack s (.message caller :: s.stack) rfl).effects
    · exact effects_finish s caller false

theorem effects_read (h : s.router = some R) (caller : Caller)
    (result : ReadResult) : Effects s (s.read R caller result) := by
  cases result with
  | shouldWait =>
    cases caller with
    | once => exact .refl
    | all => exact (Effect.router s R true R.connector.enforceErrors R.hasReceiver h).effects
  | failed => exact (Effect.failed s R h).effects
  | message m => exact effects_handleIncoming h caller m

theorem effects_pop {f : Frame} (hs : s.stack = f :: rest)
    (hf : f.answering = none) : Effects s { s with stack := rest } :=
  (Effect.stack s rest (by rw [hs, List.filterMap_cons, hf])).effects

theorem effects_returned {frame : Frame} {result : Bool} (hstack : s.stack = frame :: rest)
    (h : { s with stack := rest }.returned frame result = some s') : Effects s s' := by
  cases frame with
  | reading caller => cases h
  | responder responder caller =>
    cases h
    exact (Effect.retired s responder caller rest hstack).effects.trans
      (effects_finish _ caller result)
  | request thunk caller =>
    have hpop := effects_pop hstack rfl
    cases result with
    | true =>
      cases h
      exact hpop.trans (effects_finish _ caller true)
    | false =>
      simp only [State.returned, Bool.false_eq_true, ↓reduceIte] at h
      split at h
      · cases h
      · cases h
        exact (hpop.trans (effects_deleteThunk _ thunk _)).trans (effects_finish _ caller false)
  | message caller =>
    cases h
    exact (effects_pop hstack rfl).trans (effects_finish _ caller result)
  | errorHandler =>
    cases h
    exact effects_pop hstack rfl

theorem effects_ready (h : appStep s (.ready ok) = some s') : Effects s s' := by
  simp only [appStep] at h
  split at h
  · cases h
  · rename_i R hR
    have hwait := Effect.router s R false R.connector.enforceErrors R.hasReceiver hR
    split_ifs at h <;> cases h
    · exact hwait.effects.tail (.failed _ _ rfl)
    · exact hwait.effects
    · exact hwait.effects.tail (.stack _ (.reading .all :: s.stack) rfl)

theorem effects_waitForIncoming (h : appStep s (.waitForIncoming ok) = some s') : Effects s s' := by
  simp only [appStep] at h
  split at h
  · cases h
  · rename_i R hR
    split_ifs at h <;> cases h
    · exact .refl
    · exact (Effect.failed s R hR).effects
    · exact (Effect.stack s (.reading .once :: s.stack) rfl).effects

theorem effects_thunkAccept {thunk : ℕ} {result : WriteResult} (ha : s.aborted = none)
    (h : appStep s (.thunkAccept thunk result) = some s') : Effects s s' := by
  simp only [appStep] at h
  have hthunk := Effect.thunks s ((thunk, true) :: s.thunks.filter fun p => p.1 != thunk)
    s.nextThunk
  split at h
  · cases h
  · split at h
    · cases h
      exact hthunk.effects
    · rename_i R hR
      cases h
      exact hthunk.effects.tail (.write _ R result hR ha)

theorem mem_sent_iff {r : ℕ} : r ∈ s.sent ↔
    s.log.any (fun e => match e with | .sent r' _ => r' == r | _ => false) := by
  simp only [State.sent, List.mem_filterMap, List.any_eq_true]
  refine exists_congr fun e => and_congr_right fun _ => ?_
  cases e <;> simp [Event.sent?]

theorem exists_router {f : Router → State} (h : s.router.map f = some s') :
    ∃ R, s.router = some R ∧ s' = f R := by
  obtain ⟨R, hR, rfl⟩ := Option.map_eq_some_iff.mp h
  exact ⟨R, hR, rfl⟩

theorem effects_step {a : Action} (h : step s a = some s') : Effects s s' := by
  obtain ⟨ha, ⟨caller, rest, result, R, hstack, rfl, hR, -, rfl⟩ | h⟩ := step_cases h
  · have hread := effects_read (s := { s with stack := rest }) hR caller result
    exact (effects_pop hstack rfl).trans hread
  cases a with
  | ready ok => exact effects_ready h
  | waitForIncoming ok => exact effects_waitForIncoming h
  | read result => cases h
  | «return» result =>
    simp only [appStep] at h
    split at h
    · cases h
    · rename_i hstack
      exact effects_returned hstack h
  | accept result =>
    obtain ⟨R, hR, rfl⟩ := exists_router h
    exact (Effect.write s R result hR ha).effects
  | acceptWithResponder responder result =>
    simp only [appStep] at h
    split_ifs at h with hfresh
    obtain ⟨R, hR, rfl⟩ := exists_router h
    exact (Effect.acceptWithResponder s R responder result hR
      (fun hmem => hfresh (mem_sent_iff.mp hmem)) ha).effects
  | thunkAccept thunk result => exact effects_thunkAccept ha h
  | thunkDelete thunk =>
    obtain ⟨invoked, -, rfl⟩ := Option.map_eq_some_iff.mp h
    exact effects_deleteThunk s _ invoked
  | setReceiver set =>
    obtain ⟨R, hR, rfl⟩ := exists_router h
    exact (Effect.router s R R.connector.waiting R.connector.enforceErrors set hR).effects
  | enableTestingMode =>
    obtain ⟨R, hR, rfl⟩ := exists_router h
    exact (Effect.router s R R.connector.waiting false R.hasReceiver hR).effects
  | closeMessagePipe =>
    obtain ⟨R, hR, rfl⟩ := exists_router h
    exact (Effect.closed s R hR).effects
  | destroy =>
    obtain ⟨R, hR, rfl⟩ := exists_router h
    exact (Effect.destroyed s R hR).effects

theorem run_effects {P : State → Prop} (heffect : ∀ s s', Effect s s' → P s → P s')
    {as : List Action} (hrun : System.run step s as = some s') (h : P s) : P s' := by
  refine System.run_invariant (fun s a s' hstep hs => ?_) hrun h
  have heffects := effects_step hstep
  clear hstep
  induction heffects with
  | refl => exact hs
  | tail _ hlast ih => exact heffect _ _ hlast ih

end Mojo.CppBindings.Routing
