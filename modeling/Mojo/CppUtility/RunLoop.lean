import Mathlib.Algebra.Group.Int.Defs
import Mathlib.Algebra.Group.Nat.Defs
import Mathlib.Data.List.Sort
import Mojo.System.Triples

/-!
# The run loop

A run loop watches handles for handlers, with deadlines, and runs delayed tasks. Handlers and tasks
are code of the user (`Script`) that may use the loop in any way, also run it again. The clock and
the wait set are the `Environment`: it may depend on everything that has happened.

The wait set is the list of its cookies; a handle and its signals are only passed to it, and are
left out. The loops of the source need not end: they stop when the fuel is used up.

The log is what happens, with the newest event first.
-/

namespace Mojo.CppUtility

open Mojo.System

def kMaxMojoTimeTicks : ℤ := 2 ^ 63 - 1

def kInvalidTimeTicks : ℤ := 0

def indefinite : ℕ := 2 ^ 64 - 1

def kInitialWaitSetNumResults : ℕ := 16

def kMaximumWaitSetNumResults : ℕ := 256

inductive MojoResult
  | ok
  | cancelled
  | invalidArgument
  | deadlineExceeded
  | resourceExhausted
  | failedPrecondition
  | aborted
  | busy
deriving DecidableEq, Repr

inductive Notice
  | ready
  | error (result : MojoResult)
deriving DecidableEq, Repr

structure HandlerDeadlineInfo where
  id : ℕ
  absoluteDeadline : ℤ
deriving DecidableEq, Repr

def HandlerDeadlineInfo.less (info other : HandlerDeadlineInfo) : Bool :=
  if info.absoluteDeadline = other.absoluteDeadline then info.id < other.id
  else info.absoluteDeadline > other.absoluteDeadline

structure DelayedTaskInfo where
  id : ℕ
  task : ℕ
  absoluteRunTime : ℤ
deriving DecidableEq, Repr

def DelayedTaskInfo.less (info other : DelayedTaskInfo) : Bool :=
  if info.absoluteRunTime = other.absoluteRunTime then info.id > other.id
  else info.absoluteRunTime > other.absoluteRunTime

/-- The top of a priority queue, its greatest element, is the head of the list. -/
def push {α : Type} (less : α → α → Bool) (x : α) (queue : List α) : List α :=
  queue.orderedInsert (fun y z => less y z = false) x

structure WaitSetResult where
  cookie : ℕ
  waitResult : MojoResult
deriving DecidableEq, Repr

inductive Outcome
  | ok (results : List WaitSetResult) (maxResults : ℕ)
  | deadlineExceeded
  | failed
deriving DecidableEq, Repr

structure RunState where
  shouldQuit : Bool
  resultsSize : ℕ
  now : ℤ
  nextId : ℕ
deriving DecidableEq, Repr

inductive Source
  | results
  | deadlines
  | destruction
deriving DecidableEq, Repr

/-- `added` has the time that a deadline counts from. `returned` is the end of `Run` or
`RunUntilIdle`, with the handlers and the delayed tasks that there are. -/
inductive Event
  | added (id : ℕ) (now : ℤ) (deadline : ℕ)
  | removed (id : ℕ)
  | posted (info : DelayedTaskInfo) (now : ℤ)
  | ran (info : DelayedTaskInfo) (clock : ℤ)
  | notified (id : ℕ) (source : Source) (notice : Notice) (clock : ℤ)
  | waited (deadline elapsed : ℕ) (outcome : Outcome)
  | returned (quitWhenIdle : Bool) (runState : RunState) (handlers : List ℕ)
    (delayedTasks : List DelayedTaskInfo)
deriving DecidableEq, Repr

structure World where
  nextId : ℕ
  handlers : List (ℕ × ℕ)
  waitSet : List ℕ
  handlerDeadlines : List HandlerDeadlineInfo
  delayedTasks : List DelayedTaskInfo
  currentRunState : Option RunState
  clock : ℤ
  log : List Event
deriving DecidableEq, Repr

def World.new (clock : ℤ) : World := ⟨1, [], [], [], [], none, clock, []⟩

structure Environment where
  tick : World → ℕ
  wait : World → ℕ → ℕ → ℕ × Outcome

inductive Script
  | ret
  | look (next : World → Script)
  | addHandler (handler deadline : ℕ) (next : ℕ → Script)
  | removeHandler (id : ℕ) (next : Script)
  | postDelayedTask (task : ℕ) (delay : ℤ) (next : Script)
  | run (next : Script)
  | runUntilIdle (next : Script)
  | quit (next : Script)

structure Callbacks where
  handler : ℕ → ℕ → Notice → Script
  task : ℕ → Script

inductive Stopped
  | outOfFuel
deriving DecidableEq, Repr

abbrev Running := EStateM Stopped World

def record (e : Event) : Running Unit := modify fun w => { w with log := e :: w.log }

inductive Call
  | iterations (quitWhenIdle : Bool)
  | tasks (nowTask : DelayedTaskInfo) (shouldContinue : Bool)
  | deadlines (absoluteDeadline : ℤ) (didWork : Bool)

section Loop

variable (env : Environment) (callbacks : Callbacks) (rec : Call → Running Bool)

def getTimeTicksNow : Running ℤ := do
  let w ← get
  let now := w.clock + env.tick w
  set { w with clock := now }
  pure now

def generateId : Running ℕ := do
  let w ← get
  set { w with nextId := (w.nextId + 1) % 2 ^ 64 }
  pure w.nextId

def insertHandler (id handler : ℕ) (handlers : List (ℕ × ℕ)) : List (ℕ × ℕ) :=
  if id ∈ handlers.map Prod.fst then handlers
  else handlers.orderedInsert (fun x y => x.1 ≤ y.1) (id, handler)

def eraseHandler (id : ℕ) (handlers : List (ℕ × ℕ)) : List (ℕ × ℕ) :=
  handlers.filter fun x => x.1 ≠ id

/-- A cookie that is there already is an error, which the loop only asserts not to get. -/
def waitSetAdd (cookie : ℕ) (waitSet : List ℕ) : List ℕ :=
  if cookie ∈ waitSet then waitSet else cookie :: waitSet

def waitSetRemove (cookie : ℕ) (waitSet : List ℕ) : List ℕ := waitSet.filter (· ≠ cookie)

/-- The entry of a handler in `handler_deadlines_`, and the time that its deadline counts from. A
deadline that is too large is taken as forever. -/
def addDeadline (id deadline : ℕ) : Running ℤ :=
  if deadline ≤ kMaxMojoTimeTicks.toNat then do
    let now ← getTimeTicksNow env
    modify fun w => { w with
      handlerDeadlines :=
        if deadline ≤ (kMaxMojoTimeTicks - now).toNat then
          push HandlerDeadlineInfo.less ⟨id, now + deadline⟩ w.handlerDeadlines
        else w.handlerDeadlines }
    pure now
  else do
    let w ← get
    pure w.clock

def addHandler (handler deadline : ℕ) : Running ℕ := do
  let id ← generateId
  let now ← addDeadline env id deadline
  modify fun w => { w with
    handlers := insertHandler id handler w.handlers
    waitSet := waitSetAdd id w.waitSet }
  record (.added id now deadline)
  pure id

def removeHandler (id : ℕ) : Running Unit := do
  modify fun w => { w with
    handlers := eraseHandler id w.handlers
    waitSet := if (w.handlers.lookup id).isSome then waitSetRemove id w.waitSet else w.waitSet }
  record (.removed id)

def postDelayedTask (task : ℕ) (delay : ℤ) : Running Unit := do
  let id ← generateId
  let now ← getTimeTicksNow env
  modify fun w =>
    { w with delayedTasks := push DelayedTaskInfo.less ⟨id, task, now + delay⟩ w.delayedTasks }
  record (.posted ⟨id, task, now + delay⟩ now)

def quit : Running Unit :=
  modify fun w =>
    { w with currentRunState := w.currentRunState.map fun s => { s with shouldQuit := true } }

def shouldQuit : Running Bool := do
  let w ← get
  pure (w.currentRunState.elim false RunState.shouldQuit)

def runInternal (quitWhenIdle : Bool) : Running Unit := do
  let w ← get
  modify fun w => { w with currentRunState := some ⟨false, kInitialWaitSetNumResults, 0, 0⟩ }
  let _ ← rec (.iterations quitWhenIdle)
  modify fun w' => { w' with
    currentRunState := w.currentRunState
    log := w'.currentRunState.elim w'.log fun s =>
      .returned quitWhenIdle s (w'.handlers.map Prod.fst) w'.delayedTasks :: w'.log }

def runScript : Script → Running Unit
  | .ret => pure ()
  | .look next => do
    let w ← get
    runScript (next w)
  | .addHandler handler deadline next => do
    let id ← addHandler env handler deadline
    runScript (next id)
  | .removeHandler id next => do
    removeHandler id
    runScript next
  | .postDelayedTask task delay next => do
    postDelayedTask env task delay
    runScript next
  | .run next => do
    runInternal rec false
    runScript next
  | .runUntilIdle next => do
    runInternal rec true
    runScript next
  | .quit next => do
    quit
    runScript next

/-- The handler is erased and called. Only `NotifyResults` also removes its cookie. -/
def notify (source : Source) (id handler : ℕ) (notice : Notice) : Running Unit := do
  modify fun w => { w with
    handlers := eraseHandler id w.handlers
    waitSet := if source = .results then waitSetRemove id w.waitSet else w.waitSet
    log := .notified id source notice w.clock :: w.log }
  runScript env rec (callbacks.handler handler id notice)

/-- The loop over the tasks that are ready, and its exit if the loop is to quit. -/
def runTasks (nowTask : DelayedTaskInfo) (shouldContinue : Bool) : Running Bool := do
  let w ← get
  match w.delayedTasks with
  | [] => pure shouldContinue
  | top :: rest =>
    if nowTask.less top then do
      set { w with delayedTasks := rest, log := .ran top w.clock :: w.log }
      runScript env rec (callbacks.task top.task)
      if ← shouldQuit then pure true
      else rec (.tasks nowTask true)
    else pure shouldContinue

def notifyResults : List WaitSetResult → Bool → Running Bool
  | [], didWork => pure didWork
  | result :: results, didWork => do
    let w ← get
    match w.handlers.lookup result.cookie with
    | none => notifyResults results didWork
    | some handler => do
      notify env callbacks rec .results result.cookie handler
        (if result.waitResult = .ok then .ready else .error result.waitResult)
      if ← shouldQuit then pure true
      else notifyResults results true

def notifyHandlersDeadlineExceeded (absoluteDeadline : ℤ) (didWork : Bool) : Running Bool := do
  let w ← get
  match w.handlerDeadlines with
  | [] => pure didWork
  | info :: rest =>
    if info.absoluteDeadline > absoluteDeadline then pure didWork
    else do
      set { w with handlerDeadlines := rest }
      match w.handlers.lookup info.id with
      | none => rec (.deadlines absoluteDeadline didWork)
      | some handler => do
        notify env callbacks rec .deadlines info.id handler (.error .deadlineExceeded)
        if ← shouldQuit then pure true
        else rec (.deadlines absoluteDeadline true)

def dropStale (handlers : List (ℕ × ℕ)) (handlerDeadlines : List HandlerDeadlineInfo) :
    List HandlerDeadlineInfo :=
  handlerDeadlines.dropWhile fun info => (handlers.lookup info.id).isNone

def calculateAbsoluteDeadline : Running (ℤ × Bool) := do
  let w ← get
  let forTasks : ℤ × Bool :=
    match w.delayedTasks with
    | [] => (kInvalidTimeTicks, false)
    | top :: _ => (top.absoluteRunTime, true)
  let handlerDeadlines := dropStale w.handlers w.handlerDeadlines
  set { w with handlerDeadlines := handlerDeadlines }
  match handlerDeadlines with
  | [] => pure forTasks
  | info :: _ =>
    if forTasks.1 = kInvalidTimeTicks ∨ info.absoluteDeadline < forTasks.1 then
      pure (info.absoluteDeadline, false)
    else pure forTasks

def waitSetWait (deadline : ℕ) : Running Outcome := do
  let w ← get
  let (elapsed, outcome) := env.wait w deadline (w.currentRunState.elim 0 RunState.resultsSize)
  set { w with clock := w.clock + elapsed, log := .waited deadline elapsed outcome :: w.log }
  pure outcome

def growResults (maxResults : ℕ) (s : RunState) : RunState :=
  if maxResults > s.resultsSize then
    { s with resultsSize := min kMaximumWaitSetNumResults (s.resultsSize * 2) } else s

def startIteration (now : ℤ) (nextId : ℕ) (s : RunState) : RunState :=
  { s with now := now, nextId := nextId }

def continues (quitWhenIdle shouldContinue : Bool) : Running Bool := do
  let w ← get
  if ← shouldQuit then pure false
  else pure (if quitWhenIdle then shouldContinue else !w.handlers.isEmpty)

/-- The wait, and what is done after it. The deadline may be for a delayed task. -/
def waitAndNotify (quitWhenIdle : Bool) (now : ℤ) (shouldContinue : Bool)
    (absoluteDeadline : ℤ × Bool) :
    Running Bool := do
  let relativeDeadline :=
    if absoluteDeadline.1 = kInvalidTimeTicks then
      indefinite else (max now absoluteDeadline.1 - now).toNat
  match ← waitSetWait env relativeDeadline with
  | .ok results maxResults => do
    modify fun w => { w with currentRunState := w.currentRunState.map (growResults maxResults) }
    let didWork ← notifyResults env callbacks rec results false
    continues quitWhenIdle (shouldContinue || didWork)
  | .deadlineExceeded => do
    let didWork ← rec (.deadlines absoluteDeadline.1 false)
    continues quitWhenIdle (shouldContinue || didWork || absoluteDeadline.2)
  | .failed => pure false

def doIteration (quitWhenIdle : Bool) : Running Bool := do
  let now ← getTimeTicksNow env
  let w ← get
  set { w with currentRunState := w.currentRunState.map (startIteration now w.nextId) }
  let shouldContinue ← rec (.tasks ⟨w.nextId, 0, now⟩ false)
  if ← shouldQuit then pure false
  else do
    let w ← get
    if w.handlers.isEmpty then pure shouldContinue
    else if quitWhenIdle then
      waitAndNotify env callbacks rec quitWhenIdle now shouldContinue (now, false)
    else do
      let absoluteDeadline ← calculateAbsoluteDeadline
      waitAndNotify env callbacks rec quitWhenIdle now shouldContinue absoluteDeadline

def iterations (quitWhenIdle : Bool) : Running Bool := do
  if ← doIteration env callbacks rec quitWhenIdle then rec (.iterations quitWhenIdle)
  else pure true

def destroy : ℕ → Running Unit
  | 0 => pure ()
  | n + 1 => do
    let w ← get
    match w.handlers with
    | [] => pure ()
    | (id, handler) :: _ => do
      notify env callbacks rec .destruction id handler (.error .aborted)
      destroy n

end Loop

def call (env : Environment) (callbacks : Callbacks) : ℕ → Call → Running Bool
  | 0, _ => throw .outOfFuel
  | fuel + 1, .iterations quitWhenIdle =>
    iterations env callbacks (call env callbacks fuel) quitWhenIdle
  | fuel + 1, .tasks nowTask shouldContinue =>
    runTasks env callbacks (call env callbacks fuel) nowTask shouldContinue
  | fuel + 1, .deadlines absoluteDeadline didWork =>
    notifyHandlersDeadlineExceeded env callbacks (call env callbacks fuel) absoluteDeadline didWork

def life (env : Environment) (callbacks : Callbacks) (fuel n : ℕ) (main : Script) :
    Running Unit := do
  runScript env (call env callbacks fuel) main
  destroy env callbacks (call env callbacks fuel) n

def ending : EStateM.Result Stopped World Unit → World
  | .ok _ w => w
  | .error _ w => w

end Mojo.CppUtility
