import Mojo.System.Triples

/-!
# Promises of the Python bindings

A promise is settled by its functions `resolve` and `reject`. A promise that is resolved with
another one is bound to it: it has the state of the other, passes later registrations on to it, and
registers the lists of its own earlier registrations with it. `Then` makes a new promise, which gets
what the callback returns.

Everything here calls everything else: callbacks are code of the user that may use any promise, and
they run inside of `resolve`, `reject` and `Then`. A `Script` is such code; it can also read the
whole state. The interpreter has a limit for the depth of calls, and a call beyond it raises an
exception.

The log is what happens: calls of `resolve` and `reject` with the states that they find,
registrations, and callbacks. A registration is known by the promise that `Then` makes for it.
-/

namespace Mojo.PythonBindings.Promises

open Mojo.System

inductive Error
  | runtimeError
  | typeError
  | attributeError
  | nameError
  | user (n : ℕ)
deriving DecidableEq, Repr

inductive Value
  | none
  | object (n : ℕ)
  | error (e : Error)
  | promise (p : ℕ)
deriving DecidableEq, Repr

def Value.isPromise : Value → Bool
  | .promise _ => true
  | _ => false

inductive State
  | pending
  | fulfilled
  | rejected
  | bound
deriving DecidableEq, Repr

inductive Side
  | fulfilled
  | rejected
deriving DecidableEq, Repr

inductive Setter
  | resolve
  | reject
deriving DecidableEq, Repr

inductive Action
  | callback (c : ℕ)
  | iterate (p : ℕ)
deriving DecidableEq, Repr

structure Delegate where
  promise : ℕ
  side : Side
  resolve : Setter
  action : Option Action
deriving DecidableEq, Repr

/-- The attributes of the lists are `None` if they are cleared. The lists themselves remain. -/
structure Promise where
  state : State
  result : Value
  onFulfilled : List Delegate
  onRejected : List Delegate
  cleared : Bool
deriving DecidableEq, Repr

def Promise.new : Promise := ⟨.pending, .none, [], [], false⟩

def Promise.append (r : Promise) (fulfilling rejecting : Delegate) : Promise :=
  { r with onFulfilled := r.onFulfilled ++ [fulfilling], onRejected := r.onRejected ++ [rejecting] }

/-- `settle` is a call of a setter, with the attribute `_state` and the property `state` of the
promise. A promise that is bound registers itself: it is the `binder`. -/
inductive Event
  | settle (setter : Setter) (p : ℕ) (value : Value) (own seen : State)
  | registered (target promise : ℕ) (binder : Option ℕ)
  | notified (promise : ℕ) (side : Side) (value : Value)
deriving DecidableEq, Repr

structure World where
  promises : List Promise
  log : List Event
deriving DecidableEq, Repr

abbrev Running := EStateM Error World

inductive Script
  | ret (value : Value)
  | raise (n : ℕ)
  | look (next : World → Script)
  | new (generator : ℕ → Script) (next : Value → Script)
  | settle (setter : Setter) (p : ℕ) (value : Value) (next : Script)
  | andThen (p : ℕ) (onFulfilled onRejected : Option ℕ) (next : Value → Script)
  | catching (body : Script) (handler : Error → Script) (next : Value → Script)

def lookup (p : ℕ) : Running Promise := do
  let w ← get
  match w.promises[p]? with
  | some r => pure r
  | none => throw .nameError

def update (p : ℕ) (g : Promise → Promise) : Running Unit :=
  modify fun w => { w with promises := w.promises.modify p g }

def record (e : Event) : Running Unit := modify fun w => { w with log := e :: w.log }

def state : ℕ → ℕ → Running State
  | 0, _ => throw .runtimeError
  | depth + 1, p => do
    let r ← lookup p
    match r.result with
    | .promise q => state depth q
    | _ => pure r.state

inductive Call
  | settle (setter : Setter) (p : ℕ) (value : Value)
  | andThen (p : ℕ) (onFulfilled onRejected : Option Action) (target : ℕ) (binder : Option ℕ)
  | delegate (d : Delegate) (x : Value)
  | action (side : Side) (action : Action) (x : Value)

section Calls

variable (behave : ℕ → Value → Script) (rec : Call → Running Value)

def Promise.delegates (r : Promise) : Side → List Delegate
  | .fulfilled => r.onFulfilled
  | .rejected => r.onRejected

/-- The loop over a list. It does not get longer meanwhile: only a pending promise appends to its
lists. -/
def runAll : List Delegate → Value → Running Unit
  | [], _ => pure ()
  | d :: ds, x => do
    let _ ← rec (.delegate d x)
    runAll ds x

def runOwn (p : ℕ) (side : Side) (x : Value) : Running Value := do
  let r ← lookup p
  if r.cleared then throw .typeError
  else do
    runAll rec (r.delegates side) x
    update p fun r => { r with cleared := true }
    pure .none

def resolve (depth p : ℕ) (value : Value) : Running Value := do
  let r ← lookup p
  let seen ← state depth p
  record (.settle .resolve p value r.state seen)
  if seen ≠ .pending then pure .none
  else
    match value with
    | .promise q => do
      update p fun r => { r with result := value, state := .bound }
      let _ ← rec (.andThen q (some (.iterate p)) (some (.iterate p)) q (some p))
      pure .none
    | value => do
      update p fun r => { r with result := value, state := .fulfilled }
      runOwn rec p .fulfilled value

def reject (depth p : ℕ) (reason : Value) : Running Value := do
  let r ← lookup p
  let seen ← state depth p
  record (.settle .reject p reason r.state seen)
  if seen ≠ .pending then pure .none
  else do
    update p fun r => { r with result := reason, state := .rejected }
    runOwn rec p .rejected reason

def construct (generatorFunction : ℕ → Running Unit) : Running Value := do
  let w ← get
  let p := w.promises.length
  modify fun w => { w with promises := w.promises ++ [Promise.new] }
  attempt (generatorFunction p) fun e => do
    let _ ← rec (.settle .reject p (.error e))
  pure (.promise p)

/-- The function that `Then` gives to the constructor. The state is not changed by appending to the
lists, and a promise that is fulfilled or rejected remains so. -/
def register (p : ℕ) (onFulfilled onRejected : Option Action) (target : ℕ) (binder : Option ℕ)
    (promise : ℕ) :
    Running Unit := do
  record (.registered target promise binder)
  let recover : Setter := if onRejected.isSome then .resolve else .reject
  let fulfilling : Delegate := ⟨promise, .fulfilled, .resolve, onFulfilled⟩
  let rejecting : Delegate := ⟨promise, .rejected, recover, onRejected⟩
  let r ← lookup p
  match r.state with
  | .pending =>
    if r.cleared then throw .attributeError
    else update p fun r => r.append fulfilling rejecting
  | .fulfilled => do
    let _ ← rec (.delegate fulfilling r.result)
  | .rejected => do
    let _ ← rec (.delegate rejecting r.result)
  | .bound => pure ()

def andThen (p : ℕ) (onFulfilled onRejected : Option Action) (target : ℕ) (binder : Option ℕ) :
    Running Value := do
  let r ← lookup p
  match r.result with
  | .promise q => rec (.andThen q onFulfilled onRejected target binder)
  | _ => construct rec (register rec p onFulfilled onRejected target binder)

def runDelegate (d : Delegate) (x : Value) : Running Value :=
  attempt (do
    let y ← match d.action with
      | some action => do
        record (.notified d.promise d.side x)
        rec (.action d.side action x)
      | none => pure x
    rec (.settle d.resolve d.promise y))
    fun e => rec (.settle .reject d.promise (.error e))

def runScript : Script → Running Value
  | .ret value => pure value
  | .raise n => throw (.user n)
  | .look next => do
    let w ← get
    runScript (next w)
  | .new generator next => do
    let promise ← construct rec fun p => do
      let _ ← runScript (generator p)
    runScript (next promise)
  | .settle setter p value next => do
    let _ ← rec (.settle setter p value)
    runScript next
  | .andThen p onFulfilled onRejected next => do
    let promise ← rec (.andThen p (onFulfilled.map .callback) (onRejected.map .callback) p none)
    runScript (next promise)
  | .catching body handler next => do
    let y ← attempt (runScript body) fun e => runScript (handler e)
    runScript (next y)

def runAction (side : Side) (action : Action) (x : Value) : Running Value :=
  match action with
  | .callback c => runScript rec (behave c x)
  | .iterate p => do
    let r ← lookup p
    runAll rec (r.delegates side) x
    pure .none

end Calls

def call (behave : ℕ → Value → Script) : ℕ → Call → Running Value
  | 0, _ => throw .runtimeError
  | depth + 1, .settle .resolve p value => resolve (call behave depth) depth p value
  | depth + 1, .settle .reject p reason => reject (call behave depth) depth p reason
  | depth + 1, .andThen p onFulfilled onRejected target binder =>
    andThen (call behave depth) p onFulfilled onRejected target binder
  | depth + 1, .delegate d x => runDelegate (call behave depth) d x
  | depth + 1, .action side action x => runAction behave (call behave depth) side action x

def run (behave : ℕ → Value → Script) (depth : ℕ) (main : Script) : World :=
  match runScript (call behave depth) main ⟨[], []⟩ with
  | .ok _ w => w
  | .error _ w => w

end Mojo.PythonBindings.Promises
