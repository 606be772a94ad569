import Mojo.System.Runs

/-!
# The router of the Go bindings

Goroutines that call `Accept` and `AcceptWithResponse` take a mutex and put their request into a
channel with room for ten. One worker goroutine takes requests out, writes them to the message pipe
and sends responses back through the channels of their requests. When it stops it answers the
requests that still wait, starts a goroutine that drains the channel of requests, and closes the
channel. The actions are the steps of the goroutines, with what the message pipe and the waiter
return; a goroutine that is blocked has none.

Response channels are known by numbers, `none` is the nil channel. They have room for one result, so
the first send to one does not block. A send to the nil channel blocks for ever.
-/

namespace Mojo.GoBindings.Routing

structure RouteRequest where
  requestId : ℕ
  responseChan : Option ℕ
deriving DecidableEq, Repr

inductive ReadResult
  | shouldWait
  | failed
  | malformed
  | message (requestId : ℕ)
deriving DecidableEq, Repr

/-- Where the worker is: at the `select` of `runLoop`, with a request it has received, in the loop
of `readAndDispatchOutstandingMessages`, blocked by the nil channel, in the loop over the responders
after `runLoop` has returned, before it closes the handle and the channel, or at its end. -/
inductive Worker
  | select
  | writing (request : RouteRequest)
  | reading
  | blocked
  | answering
  | closing
  | stopped
deriving DecidableEq, Repr

inductive Drain
  | idle
  | running
  | blocked
  | done
deriving DecidableEq, Repr

/-- `callers` wait for the mutex, `holder` has it. `returned` are the channels that
`AcceptWithResponse` has returned, `answers` those that a result was sent to, in order. The
channels of `lost` were dropped: their request could not be written, or its entry in the map was
replaced. -/
structure State where
  handleValid : Bool
  requestChan : List RouteRequest
  chanClosed : Bool
  done : Bool
  callers : List RouteRequest
  holder : Option RouteRequest
  worker : Worker
  waiting : Bool
  responders : List (ℕ × ℕ)
  drain : Drain
  nextChan : ℕ
  panicked : Bool
  returned : List ℕ
  answers : List ℕ
  lost : List ℕ
deriving DecidableEq, Repr

def State.new : State where
  handleValid := true
  requestChan := []
  chanClosed := false
  done := false
  callers := []
  holder := none
  worker := .select
  waiting := false
  responders := []
  drain := .idle
  nextChan := 0
  panicked := false
  returned := []
  answers := []
  lost := []

inductive Action
  | accept (requestId : ℕ)
  | acceptWithResponse (requestId : ℕ)
  | lock (caller : ℕ)
  | send
  | close
  | waitResponse (ok : Bool)
  | receive
  | stop
  | write (ok : Bool)
  | read (result : ReadResult)
  | answer (requestId : ℕ)
  | spawnDrain
  | closeHandle
  | drainNext
  | drainEnd
deriving DecidableEq, Repr

def capacity : ℕ := 10

namespace State

variable (s : State)

def accept (requestId : ℕ) : State :=
  if requestId ≠ 0 then s else { s with callers := s.callers ++ [⟨0, none⟩] }

def acceptWithResponse (requestId : ℕ) : State :=
  let responseChan := s.nextChan
  let s := { s with nextChan := s.nextChan + 1 }
  if requestId = 0 then
    { s with returned := s.returned ++ [responseChan], answers := s.answers ++ [responseChan] }
  else { s with callers := s.callers ++ [⟨requestId, some responseChan⟩] }

def lock (caller : ℕ) : Option State :=
  match s.holder, s.callers[caller]? with
  | none, some request =>
    some { s with callers := s.callers.eraseIdx caller, holder := some request }
  | _, _ => none

def send : Option State :=
  match s.holder with
  | none => none
  | some request =>
    if !s.handleValid then
      some { s with
        holder := none
        returned := s.returned ++ request.responseChan.toList
        answers := s.answers ++ request.responseChan.toList }
    else if s.chanClosed then some { s with holder := none, panicked := true }
    else if s.requestChan.length < capacity then
      some { s with
        holder := none
        requestChan := s.requestChan ++ [request]
        returned := s.returned ++ request.responseChan.toList }
    else none

def waitResponse (ok : Bool) : Option State :=
  if s.worker = .select ∧ s.waiting then
    some { s with waiting := false, worker := if ok then .reading else .answering }
  else none

def receive : Option State :=
  match s.worker, s.requestChan with
  | .select, request :: requests =>
    some { s with requestChan := requests, worker := .writing request }
  | _, _ => none

def write (ok : Bool) : Option State :=
  match s.worker with
  | .writing request =>
    if !ok then some { s with worker := .answering, lost := s.lost ++ request.responseChan.toList }
    else
      match request.responseChan with
      | none => some { s with worker := .reading }
      | some responseChan =>
        some { s with
          worker := .reading
          responders :=
            (request.requestId, responseChan) :: s.responders.filter fun entry =>
              entry.1 != request.requestId
          lost := s.lost ++ (s.responders.filter fun entry => entry.1 == request.requestId).map
            Prod.snd }
  | _ => none

def read (result : ReadResult) : Option State :=
  if s.worker ≠ .reading then none
  else if s.waiting ∨ s.responders = [] then some { s with worker := .select }
  else
    match result with
    | .shouldWait => some { s with waiting := true, worker := .select }
    | .failed | .malformed => some { s with worker := .answering }
    | .message id =>
      match s.responders.lookup id with
      | none => some { s with worker := .blocked }
      | some responseChan =>
        some { s with
          answers := s.answers ++ [responseChan]
          responders := s.responders.filter fun entry => entry.1 != id }

def answer (requestId : ℕ) : Option State :=
  match s.worker, s.responders.lookup requestId with
  | .answering, some responseChan =>
    some { s with
      answers := s.answers ++ [responseChan]
      responders := s.responders.filter fun entry => entry.1 != requestId }
  | _, _ => none

def spawnDrain : Option State :=
  if s.worker = .answering ∧ s.responders = [] then
    some { s with worker := .closing, drain := .running, waiting := false }
  else none

/-- The worker closes the handle and the channel of requests while it has the mutex. -/
def closeHandle : Option State :=
  if s.worker = .closing ∧ s.holder = none then
    some { s with worker := .stopped, handleValid := false, chanClosed := true }
  else none

def drainNext : Option State :=
  match s.drain, s.requestChan with
  | .running, request :: requests =>
    match request.responseChan with
    | none => some { s with requestChan := requests, drain := .blocked }
    | some responseChan =>
      some { s with requestChan := requests, answers := s.answers ++ [responseChan] }
  | _, _ => none

def drainEnd : Option State :=
  if s.drain = .running ∧ s.requestChan = [] ∧ s.chanClosed then
    some { s with drain := .done } else none

end State

def step (s : State) : Action → Option State
  | .accept requestId => some (s.accept requestId)
  | .acceptWithResponse requestId => some (s.acceptWithResponse requestId)
  | .lock caller => s.lock caller
  | .send => s.send
  | .close => some { s with done := true }
  | .waitResponse ok => s.waitResponse ok
  | .receive => s.receive
  | .stop => if s.worker = .select ∧ s.done then some { s with worker := .answering } else none
  | .write ok => s.write ok
  | .read result => s.read result
  | .answer requestId => s.answer requestId
  | .spawnDrain => s.spawnDrain
  | .closeHandle => s.closeHandle
  | .drainNext => s.drainNext
  | .drainEnd => s.drainEnd

def State.nilSend (s : State) : Prop := s.worker = .blocked ∨ s.drain = .blocked

def State.drained (s : State) : Prop := s.worker = .stopped ∧ s.drain = .done

end Mojo.GoBindings.Routing
