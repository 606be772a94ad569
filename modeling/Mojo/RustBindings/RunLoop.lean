import Mathlib.Algebra.Group.Nat.Defs
import Mathlib.Data.List.AList
import Mojo.System.PriorityQueue
import Mojo.System.Runs

/-!
# The run loop

A run loop watches handles for handlers, each with a deadline. The deadlines are kept in a heap,
from which an entry is only removed when it is at the top. Handlers are code of the user that may
use the loop in any way, except that they cannot run it.

A handle and its signals are only passed to the wait set, and are left out. The wait set answers as
it likes, but a wait does not time out before its deadline.

Each call of `register` or `reregister` that sets a deadline has a number, and so have the entries
of the heap.
-/

namespace Mojo.RustBindings

open Mojo.System

def mojoIndefinite : ℕ := 2 ^ 64 - 1

def mojoIndefiniteAbsolute : ℕ := 0

def maxTimeTicks : ℕ := 2 ^ 63 - 1

/-- `handler` is whether the handler is there. It is taken out while it is called. -/
structure HandlerInfo where
  handler : Bool
  deadline : ℕ
  call : ℕ
deriving DecidableEq, Repr

structure DeadlineInfo where
  token : ℕ
  deadline : ℕ
  call : ℕ
deriving DecidableEq, Repr

def absoluteDeadline (deadline now : ℕ) : ℕ :=
  if deadline = mojoIndefinite then mojoIndefiniteAbsolute
  else if deadline ≤ maxTimeTicks then
    if deadline ≤ maxTimeTicks - now then deadline + now else mojoIndefiniteAbsolute
  else mojoIndefiniteAbsolute

def relativeDeadline (deadline now : ℕ) : ℕ :=
  if deadline = mojoIndefiniteAbsolute then mojoIndefinite else if now ≥ deadline then
    0 else deadline - now

structure RunLoop (σ : Type) where
  tokenCount : ℕ
  handlers : AList fun _ : ℕ => HandlerInfo
  deadlines : σ
  shouldQuit : Bool
  running : Bool
  clock : ℕ
  calls : ℕ

inductive Op
  | register (deadline tick : ℕ)
  | reregister (token deadline tick : ℕ)
  | deregister (token : ℕ)
  | quit
deriving DecidableEq, Repr

namespace RunLoop

variable {σ : Type} (Q : PriorityQueue DeadlineInfo DeadlineInfo.deadline σ) (s : RunLoop σ)

def new (clock : ℕ) : RunLoop σ := ⟨0, ∅, Q.empty, false, false, clock, 0⟩

def generateToken : ℕ := (s.tokenCount + 1) % 2 ^ 64

def setDeadline (token : ℕ) (handler : Bool) (deadline : ℕ) : RunLoop σ :=
  { s with
    deadlines := Q.push ⟨token, deadline, s.calls⟩ s.deadlines
    handlers := s.handlers.insert token ⟨handler, deadline, s.calls⟩
    calls := s.calls + 1 }

def tick (elapsed : ℕ) : RunLoop σ := { s with clock := s.clock + elapsed }

def register (deadline elapsed : ℕ) : RunLoop σ :=
  setDeadline Q { s.tick elapsed with tokenCount := s.generateToken } s.generateToken true
    (absoluteDeadline deadline (s.clock + elapsed))

def reregister (token deadline elapsed : ℕ) : RunLoop σ :=
  match s.handlers.lookup token with
  | some info =>
    setDeadline Q (s.tick elapsed) token info.handler
      (absoluteDeadline deadline (s.clock + elapsed))
  | none => s

def deregister (token : ℕ) : RunLoop σ := { s with handlers := s.handlers.erase token }

def quit : RunLoop σ := { s with shouldQuit := true }

def perform : Op → RunLoop σ
  | .register deadline elapsed => s.register Q deadline elapsed
  | .reregister token deadline elapsed => s.reregister Q token deadline elapsed
  | .deregister token => s.deregister token
  | .quit => s.quit

def isRegistered (token : ℕ) : Bool := (s.handlers.lookup token).isSome

def dropStale : RunLoop σ :=
  { s with deadlines := Q.dropWhile (fun info => !s.isRegistered info.token) s.deadlines }

def getNextDeadline : ℕ :=
  ((Q.peek (s.dropStale Q).deadlines).map DeadlineInfo.deadline).getD mojoIndefiniteAbsolute

def take (token : ℕ) : Option (HandlerInfo × RunLoop σ) :=
  match s.handlers.lookup token with
  | some info =>
    if info.handler then some (info,
      { s with handlers := s.handlers.insert token { info with handler := false } })
    else none
  | none => none

def give (token : ℕ) : RunLoop σ :=
  match s.handlers.lookup token with
  | some info => { s with handlers := s.handlers.insert token { info with handler := true } }
  | none => s

def deadlineOf (token : ℕ) : Option (ℕ × ℕ) :=
  (s.handlers.lookup token).map fun info => (info.deadline, info.call)

end RunLoop

def Op.sets {σ : Type} (s : RunLoop σ) : Op → Option (ℕ × ℕ)
  | .register deadline elapsed =>
    some (s.generateToken, absoluteDeadline deadline (s.clock + elapsed))
  | .reregister token deadline elapsed =>
    if s.isRegistered token then some (token, absoluteDeadline deadline (s.clock + elapsed))
    else none
  | .deregister _ => none
  | .quit => none

namespace RunLoop

variable {σ : Type} {Q : PriorityQueue DeadlineInfo DeadlineInfo.deadline σ} {s s' : RunLoop σ}

structure Alike (s s' : RunLoop σ) : Prop where
  deadlines : s'.deadlines = s.deadlines
  deadlineOf : s'.deadlineOf = s.deadlineOf
  calls : s'.calls = s.calls

variable {token : ℕ}

theorem isRegistered_iff : s.isRegistered token ↔ ∃ d, s.deadlineOf token = some d := by
  rw [isRegistered, deadlineOf]
  cases s.handlers.lookup token <;> simp

theorem deadlineOf_insert (token : ℕ) (info : HandlerInfo) (t : ℕ) :
    ({ s with handlers := s.handlers.insert token info } : RunLoop σ).deadlineOf t =
      if t = token then some (info.deadline, info.call) else s.deadlineOf t := by
  by_cases ht : t = token
  · subst ht
    simp [deadlineOf]
  · simp [deadlineOf, ht, AList.lookup_insert_ne ht]

theorem deadlineOf_deregister (token t : ℕ) :
    (s.deregister token).deadlineOf t = if t = token then none else s.deadlineOf t := by
  by_cases ht : t = token
  · subst ht
    simp [deregister, deadlineOf]
  · simp [deregister, deadlineOf, ht, AList.lookup_erase_ne ht]

variable {info : HandlerInfo}

theorem deadlineOf_insert_handler (h : s.handlers.lookup token = some info) (handler : Bool) :
    ({ s with handlers := s.handlers.insert token { info with handler := handler } } : RunLoop
      σ).deadlineOf = s.deadlineOf := by
  funext t
  rw [deadlineOf_insert]
  split_ifs with ht
  · subst ht
    simp [deadlineOf, h]
  · rfl

theorem take_alike (h : s.take token = some (info, s')) :
    s.Alike s' ∧ s'.shouldQuit = s.shouldQuit ∧ s.deadlineOf token =
      some (info.deadline, info.call) := by
  unfold take at h
  split at h
  · next info' hinfo =>
    split_ifs at h
    cases h
    exact ⟨⟨rfl, deadlineOf_insert_handler hinfo false, rfl⟩, rfl, by simp [deadlineOf, hinfo]⟩
  · exact absurd h (by simp)

theorem give_alike (token : ℕ) :
    s.Alike (s.give token) ∧ (s.give token).shouldQuit = s.shouldQuit := by
  unfold give
  split
  · next info hinfo => exact ⟨⟨rfl, deadlineOf_insert_handler hinfo true, rfl⟩, rfl⟩
  · exact ⟨⟨rfl, rfl, rfl⟩, rfl⟩

theorem Alike.trans {s'' : RunLoop σ} (h : s.Alike s') (h' : s'.Alike s'') : s.Alike s'' :=
  ⟨h'.deadlines.trans h.deadlines, h'.deadlineOf.trans h.deadlineOf, h'.calls.trans h.calls⟩

theorem deadlineOf_setDeadline (token : ℕ) (handler : Bool) (deadline t : ℕ) :
    (s.setDeadline Q token handler deadline).deadlineOf t =
      if t = token then some (deadline, s.calls) else s.deadlineOf t :=
  deadlineOf_insert token ⟨handler, deadline, s.calls⟩ t

structure Sets (Q : PriorityQueue DeadlineInfo DeadlineInfo.deadline σ) (s : RunLoop σ)
    (token deadline : ℕ) (s' : RunLoop σ) : Prop where
  deadlines : s'.deadlines = Q.push ⟨token, deadline, s.calls⟩ s.deadlines
  deadlineOf : ∀ t, s'.deadlineOf t = if t = token then some (deadline, s.calls) else s.deadlineOf t
  calls : s'.calls = s.calls + 1
  shouldQuit : s'.shouldQuit = s.shouldQuit

theorem perform_of_sets {op : Op} {deadline : ℕ} (h : op.sets s = some (token, deadline)) :
    Sets Q s token deadline (s.perform Q op) := by
  cases op with
  | register d elapsed =>
    cases h
    exact ⟨rfl, deadlineOf_setDeadline _ _ _, rfl, rfl⟩
  | reregister t d elapsed =>
    simp only [Op.sets, isRegistered] at h
    cases hinfo : s.handlers.lookup t with
    | none => simp [hinfo] at h
    | some info =>
      simp only [hinfo, Option.isSome_some, ↓reduceIte, Option.some.injEq, Prod.mk.injEq] at h
      simp only [perform, reregister, hinfo]
      rw [← h.1, ← h.2]
      exact ⟨rfl, deadlineOf_setDeadline _ _ _, rfl, rfl⟩
  | deregister t => exact absurd h (by simp [Op.sets])
  | quit => exact absurd h (by simp [Op.sets])

theorem perform_of_not_sets {op : Op} (h : op.sets s = none) :
    (s.perform Q op).deadlines = s.deadlines ∧ (s.perform Q op).calls = s.calls ∧
      ∀ t, (s.perform Q op).deadlineOf t = s.deadlineOf t ∨ (s.perform Q op).deadlineOf t =
        none := by
  cases op with
  | register d elapsed => exact absurd h (by simp [Op.sets])
  | reregister t d elapsed =>
    simp only [Op.sets, isRegistered] at h
    cases hinfo : s.handlers.lookup t with
    | none =>
      have hsame : s.perform Q (.reregister t d elapsed) = s := by simp [perform, reregister, hinfo]
      rw [hsame]
      exact ⟨rfl, rfl, fun t => Or.inl rfl⟩
    | some info => simp [hinfo] at h
  | deregister token =>
    refine ⟨rfl, rfl, fun t => ?_⟩
    rw [perform, deadlineOf_deregister]
    split_ifs
    · exact Or.inr rfl
    · exact Or.inl rfl
  | quit => exact ⟨rfl, rfl, fun t => Or.inl rfl⟩

end RunLoop

/-- Where the loop is: at the head of the loop of `notify_of_results` or of `notify_of_expired`, or
in a handler that was called there. -/
inductive Frame
  | results (cookies : List ℕ)
  | ready (token : ℕ) (cookies : List ℕ)
  | expired (deadline : ℕ) (top : DeadlineInfo)
  | timeout (deadline : ℕ) (top : DeadlineInfo)
deriving DecidableEq, Repr

/-- `fired` has, for each call of `on_timeout`, the number of the entry for which it is made and the
number of the call that set the deadline of the handler. `processed` and `popped` are the entries of
all iterations of `notify_of_expired`. The newest come first. -/
structure World (σ : Type) where
  loop : RunLoop σ
  frame : Option Frame
  fired : List (ℕ × ℕ)
  processed : List DeadlineInfo
  popped : List DeadlineInfo

inductive Action
  | call (op : Op)
  | run
  | finish
  | woken (tick elapsed : ℕ) (cookies : List ℕ)
  | timedOut (tick elapsed : ℕ)
  | next
  | ret
deriving DecidableEq, Repr

namespace World

variable {σ : Type} (Q : PriorityQueue DeadlineInfo DeadlineInfo.deadline σ) (w : World σ)

def new (clock : ℕ) : World σ := ⟨RunLoop.new Q clock, none, [], [], []⟩

def inUserCode : Bool :=
  match w.frame with
  | some (.ready _ _) => true
  | some (.timeout _ _) => true
  | some _ => false
  | none => !w.loop.running

def isWaiting : Bool :=
  w.frame.isNone && w.loop.running && !w.loop.shouldQuit && !w.loop.handlers.entries.isEmpty

def endIteration (deadline : ℕ) : World σ :=
  if w.loop.shouldQuit then { w with frame := none }
  else
    match Q.peek w.loop.deadlines with
    | none => { w with frame := none }
    | some info =>
      { w with
        loop := { w.loop with deadlines := Q.pop w.loop.deadlines }
        popped := info :: w.popped
        frame := (Q.peek (Q.pop w.loop.deadlines)).map (Frame.expired deadline) }

def processTop (deadline : ℕ) (top : DeadlineInfo) : World σ :=
  if deadline ≥ top.deadline then
    match w.loop.take top.token with
    | none => endIteration Q { w with processed := top :: w.processed } deadline
    | some (info, loop) =>
      if top.deadline = info.deadline then
        { w with
          loop := loop
          frame := some (.timeout deadline top)
          fired := (top.call, info.call) :: w.fired
          processed := top :: w.processed }
      else endIteration Q { w with loop := loop.give top.token, processed := top :: w.processed }
        deadline
  else { w with frame := none }

def nextResult (cookies : List ℕ) : World σ :=
  { w with frame := if w.loop.shouldQuit then none else some (.results cookies) }

def step : Action → Option (World σ)
  | .call op => if w.inUserCode then some { w with loop := w.loop.perform Q op } else none
  | .run =>
    if w.frame.isNone && !w.loop.running then
      some { w with loop := { w.loop with running := true, shouldQuit := false } }
    else none
  | .finish =>
    if w.frame.isNone && w.loop.running &&
        (w.loop.shouldQuit || w.loop.handlers.entries.isEmpty) then
      some { w with loop := { w.loop with running := false } }
    else none
  | .woken tick elapsed cookies =>
    if w.isWaiting then
      some { w with
        loop := (w.loop.dropStale Q).tick (tick + elapsed)
        frame := some (.results cookies) }
    else none
  | .timedOut tick elapsed =>
    let deadline := w.loop.getNextDeadline Q
    let untilDeadline := relativeDeadline deadline (w.loop.clock + tick)
    if w.isWaiting ∧ untilDeadline ≠ mojoIndefinite ∧ untilDeadline ≤ elapsed then
      (Q.peek (w.loop.dropStale Q).deadlines).map fun top =>
        { w with
          loop := (w.loop.dropStale Q).tick (tick + elapsed)
          frame := some (.expired deadline top) }
    else none
  | .next =>
    match w.frame with
    | some (.results []) => some { w with frame := none }
    | some (.results (cookie :: cookies)) =>
      match w.loop.take cookie with
      | none => some (w.nextResult cookies)
      | some (_, loop) => some { w with loop := loop, frame := some (.ready cookie cookies) }
    | some (.expired deadline top) => some (w.processTop Q deadline top)
    | _ => none
  | .ret =>
    match w.frame with
    | some (.ready token cookies) => some ({ w with loop := w.loop.give token }.nextResult cookies)
    | some (.timeout deadline top) =>
      some ({ w with loop := w.loop.give top.token }.endIteration Q deadline)
    | _ => none

def firing : Option DeadlineInfo :=
  match w.frame with
  | some (.timeout _ top) => some top
  | _ => none

def atTop : Option DeadlineInfo :=
  match w.frame with
  | some (.expired _ top) => some top
  | _ => none

variable {w}

inductive Stepped : Action → World σ → Prop
  | call (op : Op) : w.inUserCode = true → Stepped (.call op) { w with loop := w.loop.perform Q op }
  | quiet (a : Action) (loop : RunLoop σ) (frame : Option Frame) :
      w.loop.Alike loop → w.firing = none → firing { w with frame := frame } = none →
        atTop { w with frame := frame } = none → Stepped a { w with loop := loop, frame := frame }
  | woken (tick elapsed : ℕ) (cookies : List ℕ) : w.isWaiting = true →
      Stepped (.woken tick elapsed cookies) { w with
        loop := (w.loop.dropStale Q).tick (tick + elapsed)
        frame := some (.results cookies) }
  | timedOut (tick elapsed : ℕ) (top : DeadlineInfo) : w.isWaiting = true →
      Q.peek (w.loop.dropStale Q).deadlines = some top → Stepped (.timedOut tick elapsed)
          { w with
            loop := (w.loop.dropStale Q).tick (tick + elapsed)
            frame := some (.expired (w.loop.getNextDeadline Q) top) }
  | fire (deadline : ℕ) (top : DeadlineInfo) (call : ℕ) (loop : RunLoop σ) :
      w.frame = some (.expired deadline top) → top.deadline ≤ deadline → w.loop.Alike loop →
        w.loop.deadlineOf top.token = some (top.deadline, call) → Stepped .next
            { w with
              loop := loop
              frame := some (.timeout deadline top)
              fired := (top.call, call) :: w.fired
              processed := top :: w.processed }
  | skip (deadline : ℕ) (top : DeadlineInfo) (loop : RunLoop σ) :
      w.frame = some (.expired deadline top) → top.deadline ≤ deadline → w.loop.Alike loop →
        loop.shouldQuit = w.loop.shouldQuit →
          Stepped .next (endIteration Q { w with loop := loop, processed := top :: w.processed }
            deadline)
  | ret (deadline : ℕ) (top : DeadlineInfo) (loop : RunLoop σ) :
      w.frame = some (.timeout deadline top) → w.loop.Alike loop → loop.shouldQuit =
        w.loop.shouldQuit → Stepped .ret (endIteration Q { w with loop := loop } deadline)

variable {Q}

theorem firing_eq_none (h : w.frame.isNone) : w.firing = none := by
  rw [firing, Option.isNone_iff_eq_none.mp h]

variable {w' : World σ}

theorem stepped_next (h : w.step Q .next = some w') : Stepped (w := w) Q .next w' := by
  simp only [step] at h
  split at h
  · next hframe =>
    cases h
    exact .quiet .next w.loop none ⟨rfl, rfl, rfl⟩ (by rw [firing, hframe]) rfl rfl
  · next cookie cookies hframe =>
    have hfiring : w.firing = none := by rw [firing, hframe]
    split at h
    · cases h
      refine .quiet .next w.loop _ ⟨rfl, rfl, rfl⟩ hfiring ?_ ?_ <;> cases w.loop.shouldQuit <;> rfl
    · next info loop htake =>
      cases h
      exact .quiet .next loop _ (RunLoop.take_alike htake).1 hfiring rfl rfl
  · next deadline top hframe =>
    cases h
    unfold processTop
    split_ifs with hd
    · split
      · exact .skip deadline top w.loop hframe hd ⟨rfl, rfl, rfl⟩ rfl
      · next info loop htake =>
        obtain ⟨halike, hquit, hof⟩ := RunLoop.take_alike htake
        split_ifs with heq
        · exact .fire deadline top info.call loop hframe hd halike (heq ▸ hof)
        · obtain ⟨halike', hquit'⟩ := loop.give_alike top.token
          exact .skip deadline top (loop.give top.token) hframe hd (halike.trans halike')
            (hquit'.trans hquit)
    · exact .quiet .next w.loop none ⟨rfl, rfl, rfl⟩ (by rw [firing, hframe]) rfl rfl
  · exact absurd h (by simp)

theorem stepped_ret (h : w.step Q .ret = some w') : Stepped (w := w) Q .ret w' := by
  simp only [step] at h
  split at h
  · next token cookies hframe =>
    cases h
    refine .quiet .ret (w.loop.give token) _ (w.loop.give_alike token).1
      (by rw [firing, hframe]) ?_ ?_ <;>
      cases (w.loop.give token).shouldQuit <;> rfl
  · next deadline top hframe =>
    cases h
    obtain ⟨halike, hquit⟩ := w.loop.give_alike top.token
    exact .ret deadline top (w.loop.give top.token) hframe halike hquit
  · exact absurd h (by simp)

theorem stepped {a : Action} (h : w.step Q a = some w') : Stepped (w := w) Q a w' := by
  cases a with
  | call op =>
    simp only [step] at h
    split_ifs at h with huser
    cases h
    exact .call op huser
  | run =>
    simp only [step, Bool.and_eq_true] at h
    split_ifs at h with hidle
    cases h
    exact .quiet .run _ w.frame ⟨rfl, rfl, rfl⟩ (firing_eq_none hidle.1) (firing_eq_none hidle.1)
      (by rw [atTop, Option.isNone_iff_eq_none.mp hidle.1])
  | finish =>
    simp only [step, Bool.and_eq_true] at h
    split_ifs at h with hidle
    cases h
    exact .quiet .finish _ w.frame ⟨rfl, rfl, rfl⟩ (firing_eq_none hidle.1.1)
      (firing_eq_none hidle.1.1)
      (by rw [atTop, Option.isNone_iff_eq_none.mp hidle.1.1])
  | woken tick elapsed cookies =>
    simp only [step] at h
    split_ifs at h with hwait
    cases h
    exact .woken tick elapsed cookies hwait
  | timedOut tick elapsed =>
    simp only [step] at h
    split_ifs at h with hwait
    obtain ⟨top, htop, rfl⟩ := Option.map_eq_some_iff.mp h
    exact .timedOut tick elapsed top hwait.1 htop
  | next => exact stepped_next h
  | ret => exact stepped_ret h

end World

end Mojo.RustBindings
