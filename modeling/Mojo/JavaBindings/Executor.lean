import Mathlib.Tactic.MkIffOfInductiveProp
import Mojo.System.Runs

/-!
# The executor of a thread

`execute` queues a command and writes a message, both under the lock. The thread of the executor
reads a message and then takes a command off the queue. If a write fails its command stays in the
queue, and from then on there is one command more than there are messages.
-/

namespace Mojo.JavaBindings.Executors

open Mojo.System

/-- Commands are numbered by their calls of `execute`. `taking` is set between the read of a message
and the removal of an action; `failed` is set when an action is removed from an empty queue. -/
structure PipedExecutor where
  isOpen : Bool := true
  pendingActions : List ℕ := []
  unread : ℕ := 0
  taking : Bool := false
  issued : ℕ := 0
  threw : List ℕ := []
  ran : List ℕ := []
  failed : Bool := false

inductive Action
  | execute (written : Bool)
  | readNotifyBufferMessage
  | runNextAction
  | close

def PipedExecutor.execute (e : PipedExecutor) (written : Bool) : PipedExecutor :=
  let e' := { e with issued := e.issued + 1 }
  if !e.isOpen then { e' with threw := e.issued :: e.threw }
  else if written then
    { e' with pendingActions := e.pendingActions ++ [e.issued], unread := e.unread + 1 }
  else { e' with pendingActions := e.pendingActions ++ [e.issued], threw := e.issued :: e.threw }

def PipedExecutor.step (e : PipedExecutor) : Action → Option PipedExecutor
  | .execute written => some (e.execute written)
  | .readNotifyBufferMessage =>
    if !e.isOpen || e.taking || e.unread == 0 then none
    else some { e with unread := e.unread - 1, taking := true }
  | .runNextAction =>
    if !e.taking then none
    else match e.pendingActions with
      | [] => some { e with taking := false, failed := true }
      | toRun :: rest =>
        some { e with taking := false, pendingActions := rest, ran := e.ran ++ [toRun] }
  | .close =>
    if !e.isOpen || e.taking then none else some { e with isOpen := false, pendingActions := [] }

@[mk_iff]
structure PipedExecutor.Matched (e : PipedExecutor) : Prop where
  count : e.isOpen → e.pendingActions.length = e.unread + e.taking.toNat
  nonempty : e.failed = false
  ordered : e.ran.Pairwise (· < ·)
  thrown : ∀ command ∈ e.threw, command ∉ e.ran

@[mk_iff]
structure Inv (e : PipedExecutor) : Prop extends e.Matched where
  taking : e.taking → e.isOpen
  queued : (e.ran ++ e.pendingActions).Pairwise (· < ·)
  issued : ∀ command ∈ e.ran ++ e.pendingActions, command < e.issued ∧ command ∉ e.threw
  below : ∀ command ∈ e.threw, command < e.issued

def Written (e : PipedExecutor) (a : Action) : Prop := a = .execute false → e.isOpen = false

variable {e e' : PipedExecutor} {a : Action}

theorem step_iff (h : Inv e) (hstep : e.step a = some e') :
    (e'.Matched ↔ Written e a) ∧ (Written e a → Inv e') := by
  rw [inv_iff]
  simp only [PipedExecutor.matched_iff]
  obtain ⟨⟨hcount, hfailed, hordered, hthrown⟩, htaking, hqueued, hissued, hbelow⟩ := h
  cases a with
  | execute written =>
    have hnew := List.pairwise_append.mpr ⟨hqueued, List.pairwise_singleton _ e.issued, by grind⟩
    obtain rfl := Option.some.inj hstep
    cases hopen : e.isOpen <;> cases written <;> constructor <;> grind
      [PipedExecutor.execute, Written]
  | runNextAction =>
    simp only [PipedExecutor.step] at hstep
    split_ifs at hstep
    split at hstep <;> obtain rfl := Option.some.inj hstep <;> constructor <;> grind [Written]
  | readNotifyBufferMessage | close =>
    simp only [PipedExecutor.step] at hstep
    split_ifs at hstep
    obtain rfl := Option.some.inj hstep
    constructor <;> grind [Written]

theorem matched_iff_written (as : List Action) :
    Each PipedExecutor.step (fun e a => ∀ e', e.step a = some e' → e'.Matched) {} as ↔
      Each PipedExecutor.step (fun e a => (e.step a).isSome → Written e a) {} as := by
  refine each_good_iff step_iff ?_
  rw [inv_iff, PipedExecutor.matched_iff]
  simp

theorem thrown_command_runs : ∃ e, run PipedExecutor.step {}
    [.execute false, .execute true, .readNotifyBufferMessage,
    .runNextAction] = some e ∧ e.threw = [0] ∧ e.ran = [0] ∧ e.pendingActions = [1] ∧
      e.unread = 0 :=
  ⟨_, rfl, rfl, rfl, rfl, rfl⟩

end Mojo.JavaBindings.Executors
