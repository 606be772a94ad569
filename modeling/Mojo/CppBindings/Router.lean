import Mathlib.Algebra.Group.Nat.Defs
import Mojo.System.Runs

/-!
# The router and its connector

A `Router` writes requests to a message pipe and brings responses back to the
responder of their request. Everything happens on one thread, but application code
runs in the middle of it: responders, the incoming receiver and the error handler may
call the router again, or delete it. So a state has the stack of calls that are in
progress. The actions are what the environment and the application may do next.

The log records what has happened and influences nothing. Debug checks are off. A
responder and the thunk for a response are deleted without side effects other than
those of the classes here.
-/

namespace Mojo.CppBindings.Routing

inductive WriteResult
  | ok
  | failedPrecondition
  | busy
  | rejected
deriving DecidableEq, Repr

inductive Abort
  | pipeInvalid
  | busy
deriving DecidableEq, Repr

structure Connector where
  pipe : Bool
  error : Bool
  dropWrites : Bool
  enforceErrors : Bool
  waiting : Bool
deriving DecidableEq, Repr

namespace Connector

def new : Connector where
  pipe := true
  error := false
  dropWrites := false
  enforceErrors := true
  waiting := true

def close (c : Connector) : Connector := { c with waiting := false, pipe := false }

def accept (c : Connector) (write : WriteResult) : Except Abort (Bool × Connector) :=
  if c.error then .ok (false, c)
  else if !c.pipe then .error .pipeInvalid
  else if c.dropWrites then .ok (true, c)
  else
    match write with
    | .ok => .ok (true, c)
    | .failedPrecondition => .ok (true, { c with dropWrites := true })
    | .busy => .error .busy
    | .rejected => .ok (false, c)

end Connector

structure Router where
  connector : Connector
  nextRequestId : ℕ
  responders : List (ℕ × ℕ)
  hasReceiver : Bool
deriving DecidableEq, Repr

/-- The next request id and the counter after it; the counter is a `uint64_t`, and 0 is reserved. -/
def takeRequestId (next : ℕ) : ℕ × ℕ :=
  if next = 0 then (1, 2) else (next, (next + 1) % 2 ^ 64)

structure Message where
  valid : Bool
  expectsResponse : Bool
  isResponse : Bool
  requestId : ℕ
deriving DecidableEq, Repr

inductive ReadResult
  | shouldWait
  | failed
  | message (message : Message)
deriving DecidableEq, Repr

/-- Whether `ReadSingleMessage` was called by `ReadAllAvailableMessages` or by
`WaitForIncomingMessage`. -/
inductive Caller
  | all
  | once
deriving DecidableEq, Repr

inductive Frame
  | reading (caller : Caller)
  | responder (responder : ℕ) (caller : Caller)
  | request (thunk : ℕ) (caller : Caller)
  | message (caller : Caller)
  | errorHandler
deriving DecidableEq, Repr

inductive Event
  | sent (responder requestId : ℕ)
  | answered (responder requestId : ℕ)
  | deletedAfterResponse (responder : ℕ)
  | deletedByRouter (responder : ℕ)
  | send
  | closed
  | failed
deriving DecidableEq, Repr

/-- `thunks` are the `ResponderThunk`s that exist, and whether `Accept` was invoked on them. -/
structure State where
  router : Option Router
  thunks : List (ℕ × Bool)
  nextThunk : ℕ
  stack : List Frame
  requests : ℕ
  log : List Event
  aborted : Option Abort
deriving DecidableEq, Repr

namespace State

def new : State where
  router := some
    { connector := .new
      nextRequestId := 0
      responders := []
      hasReceiver := false }
  thunks := []
  nextThunk := 0
  stack := []
  requests := 0
  log := []
  aborted := none

def note (s : State) (e : Event) : State := { s with log := s.log ++ [e] }

def closePipe (s : State) (R : Router) : State :=
  { s with
    router := some { R with connector := R.connector.close }
    log := s.log ++ [.closed] }

def notifyError (s : State) (R : Router) : State :=
  { s with
    router := some { R with connector := { R.connector.close with error := true } }
    stack := .errorHandler :: s.stack
    log := s.log ++ [.failed] }

def finish (s : State) (caller : Caller) (result : Bool) : State :=
  match s.router with
  | none => s
  | some R =>
    if R.connector.enforceErrors && !result then s.notifyError R
    else
      match caller with
      | .once => s
      | .all => if R.connector.error then s else { s with stack := .reading .all :: s.stack }

def handleIncoming (s : State) (R : Router) (caller : Caller) (m : Message) : State :=
  if !m.valid then s.finish caller false
  else if m.expectsResponse then
    if R.hasReceiver then
      { s with
        thunks := (s.nextThunk, false) :: s.thunks
        nextThunk := s.nextThunk + 1
        stack := .request s.nextThunk caller :: s.stack }
    else
      (s.closePipe R).finish caller false
  else if m.isResponse then
    match R.responders.lookup m.requestId with
    | none => s.finish caller false
    | some responder =>
      { s with
        router := some { R with responders := R.responders.filter fun p => p.1 != m.requestId }
        stack := .responder responder caller :: s.stack
        log := s.log ++ [.answered responder m.requestId] }
  else
    if R.hasReceiver then { s with stack := .message caller :: s.stack }
    else s.finish caller false

def read (s : State) (R : Router) (caller : Caller) : ReadResult → State
  | .shouldWait =>
    match caller with
    | .once => s
    | .all => { s with router := some { R with connector := { R.connector with waiting := true } } }
  | .failed => s.notifyError R
  | .message m => s.handleIncoming R caller m

def deleteThunk (s : State) (thunk : ℕ) (invoked : Bool) : State :=
  let s := { s with thunks := s.thunks.filter fun p => p.1 != thunk }
  match s.router with
  | none => s
  | some R => if invoked then s else s.closePipe R

def write (s : State) (R : Router) (result : WriteResult) (k : Bool → Router → State → State) :
    State :=
  match R.connector.accept result with
  | .error abort => { s.note .send with aborted := some abort }
  | .ok (ok, c) => k ok { R with connector := c } (s.note .send)

def acceptWithResponder (s : State) (R : Router) (responder : ℕ) (result : WriteResult) : State :=
  let requestId := (takeRequestId R.nextRequestId).1
  let R := { R with nextRequestId := (takeRequestId R.nextRequestId).2 }
  { s with requests := s.requests + 1, router := some R }.write R result fun ok R s =>
    if ok then
      { s.note (.sent responder requestId) with
        router := some { R with
          responders := (requestId, responder) :: R.responders.filter fun p => p.1 != requestId } }
    else { s with router := some R }

def returned (s : State) (frame : Frame) (result : Bool) : Option State :=
  match frame with
  | .reading _ => none
  | .responder responder caller =>
    some ((s.note (.deletedAfterResponse responder)).finish caller result)
  | .request thunk caller =>
    if result then some (s.finish caller true)
    else
      -- The receiver has not taken the thunk over, so it still exists.
      match s.thunks.lookup thunk with
      | none => none
      | some invoked => some ((s.deleteThunk thunk invoked).finish caller false)
  | .message caller => some (s.finish caller result)
  | .errorHandler => some s

def destroy (s : State) (R : Router) : State :=
  { s with
    router := none
    log := s.log ++ R.responders.map fun p => .deletedByRouter p.2 }

end State

inductive Action
  | ready (ok : Bool)
  | waitForIncoming (ok : Bool)
  | read (result : ReadResult)
  | return (result : Bool)
  | accept (result : WriteResult)
  | acceptWithResponder (responder : ℕ) (result : WriteResult)
  | thunkAccept (thunk : ℕ) (result : WriteResult)
  | thunkDelete (thunk : ℕ)
  | setReceiver (set : Bool)
  | enableTestingMode
  | closeMessagePipe
  | destroy
deriving DecidableEq, Repr

/-- What application code and the message loop may do. The router must exist for most
of it, and a responder is passed on only while its owner still has it. -/
def appStep (s : State) : Action → Option State
  | .ready ok =>
    match s.router with
    | none => none
    | some R =>
      if !R.connector.waiting then none
      else
        let R := { R with connector := { R.connector with waiting := false } }
        let s := { s with router := some R }
        if !ok then some (s.notifyError R)
        else if R.connector.error then some s
        else some { s with stack := .reading .all :: s.stack }
  | .waitForIncoming ok =>
    match s.router with
    | none => none
    | some R =>
      if R.connector.error then some s
      else if !ok then some (s.notifyError R)
      else if !R.connector.pipe then none
      else some { s with stack := .reading .once :: s.stack }
  | .read _ => none
  | .return result =>
    match s.stack with
    | [] => none
    | frame :: rest => { s with stack := rest }.returned frame result
  | .accept result =>
    s.router.map fun R => s.write R result fun _ R s => { s with router := some R }
  | .acceptWithResponder responder result =>
    if s.log.any (fun e => match e with | .sent r _ => r == responder | _ => false) then none
    else s.router.map fun R => s.acceptWithResponder R responder result
  | .thunkAccept thunk result =>
    match s.thunks.lookup thunk with
    | none => none
    | some _ =>
      let s := { s with
        thunks := (thunk, true) :: s.thunks.filter fun p => p.1 != thunk }
      match s.router with
      | none => some s
      | some R => some (s.write R result fun _ R s => { s with router := some R })
  | .thunkDelete thunk => (s.thunks.lookup thunk).map fun invoked => s.deleteThunk thunk invoked
  | .setReceiver set =>
    s.router.map fun R => { s with router := some { R with hasReceiver := set } }
  | .enableTestingMode => s.router.map fun R =>
    { s with router := some { R with connector := { R.connector with enforceErrors := false } } }
  | .closeMessagePipe => s.router.map fun R => s.closePipe R
  | .destroy => s.router.map fun R => s.destroy R

def readStep (s : State) (caller : Caller) (rest : List Frame) (result : ReadResult) :
    Option State :=
  match s.router with
  | none => none
  | some R =>
    if !R.connector.pipe ∧ result ≠ .failed then none
    else some ({ s with stack := rest }.read R caller result)

def step (s : State) (a : Action) : Option State :=
  if s.aborted.isSome then none
  else
    match s.stack with
    | .reading caller :: rest =>
      match a with
      | .read result => readStep s caller rest result
      | _ => none
    | _ => appStep s a

theorem step_cases {s s' : State} {a : Action} (h : step s a = some s') : s.aborted = none ∧
      ((∃ caller rest result R, s.stack = .reading caller :: rest ∧ a = .read result ∧
          s.router = some R ∧ (R.connector.pipe = false → result = .failed) ∧
          s' = { s with stack := rest }.read R caller result) ∨
        appStep s a = some s') := by
  rw [step] at h
  split_ifs at h with haborted
  refine ⟨by simpa using haborted, ?_⟩
  split at h
  · rename_i caller rest hstack
    split at h
    · rename_i result
      rw [readStep] at h
      split at h
      · cases h
      · rename_i R hR
        split_ifs at h with hpipe
        refine .inl ⟨caller, rest, result, R, hstack, rfl, hR, fun hp => ?_,
          (Option.some.inj h).symm⟩
        by_contra hne
        exact hpipe ⟨by simp [hp], hne⟩
    · cases h
  · exact .inr h

end Mojo.CppBindings.Routing
