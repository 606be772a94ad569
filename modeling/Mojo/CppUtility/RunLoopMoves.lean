import Mathlib.Logic.Relation
import Mojo.CppUtility.RunLoopOnce

/-!
# The moves of the run loop

Whatever handlers and tasks do, a run loop is only changed in these ways. What every move keeps
holds at all times.
-/

namespace Mojo.CppUtility

inductive Moves (w : World) : World → Prop
  | quiet (handlerDeadlines : List HandlerDeadlineInfo) (runState : Option RunState) (clock : ℤ) :
    w.clock ≤ clock → Moves w { w with
        handlerDeadlines := handlerDeadlines
        currentRunState := runState
        clock := clock }
  | added (handler : ℕ) (now : ℤ) (deadline : ℕ) (handlerDeadlines : List HandlerDeadlineInfo)
    (clock : ℤ) :
      w.clock ≤ clock →
      Moves w { w with
        nextId := (w.nextId + 1) % 2 ^ 64
        handlers := insertHandler w.nextId handler w.handlers
        waitSet := waitSetAdd w.nextId w.waitSet
        handlerDeadlines := handlerDeadlines
        clock := clock
        log := .added w.nextId now deadline :: w.log }
  | removed (id : ℕ) :
      Moves w { w with
        handlers := eraseHandler id w.handlers
        waitSet := if (w.handlers.lookup id).isSome then waitSetRemove id w.waitSet else w.waitSet
        log := .removed id :: w.log }
  | posted (task : ℕ) (runTime now : ℤ) : w.clock ≤ now →
      Moves w { w with
        nextId := (w.nextId + 1) % 2 ^ 64
        delayedTasks := push DelayedTaskInfo.less ⟨w.nextId, task, runTime⟩ w.delayedTasks
        clock := now
        log := .posted ⟨w.nextId, task, runTime⟩ now :: w.log }
  | ran (top : DelayedTaskInfo) (rest : List DelayedTaskInfo) : w.delayedTasks = top :: rest →
      top.absoluteRunTime ≤ w.clock →
        Moves w { w with delayedTasks := rest, log := .ran top w.clock :: w.log }
  | notified (id : ℕ) (source : Source) (notice : Notice) : id ∈ w.ids →
      Moves w { w with
        handlers := eraseHandler id w.handlers
        waitSet := if source = .results then waitSetRemove id w.waitSet else w.waitSet
        log := .notified id source notice w.clock :: w.log }
  | waited (deadline elapsed : ℕ) (outcome : Outcome) :
      Moves w { w with
        clock := w.clock + elapsed
        log := .waited deadline elapsed outcome :: w.log }
  | returned (quitWhenIdle : Bool) (s : RunState) (runState : Option RunState) :
      Moves w { w with
        currentRunState := runState
        log := .returned quitWhenIdle s w.ids w.delayedTasks :: w.log }

abbrev Reaches : World → World → Prop := Relation.ReflTransGen Moves

theorem Reaches.keeps {P : World → Prop} (hmoves : ∀ w w', Moves w w' → P w → P w') {w w' : World}
    (h : Reaches w w') (hw : P w) : P w' := by
  induction h with
  | refl => exact hw
  | tail _ hmove ih => exact hmoves _ _ hmove ih

theorem Moves.grows {w w' : World} (h : Moves w w') : w.log <:+ w'.log ∧ w.clock ≤ w'.clock := by
  cases h with
  | quiet _ _ _ hclock => exact ⟨List.suffix_refl _, hclock⟩
  | added _ _ _ _ _ hclock => exact ⟨List.suffix_cons _ _, hclock⟩
  | posted _ _ _ hclock => exact ⟨List.suffix_cons _ _, hclock⟩
  | waited => exact ⟨List.suffix_cons _ _, Int.le_add_of_nonneg_right (Int.natCast_nonneg _)⟩
  | _ => exact ⟨List.suffix_cons _ _, le_rfl⟩

theorem Reaches.grows {w w' : World} (h : Reaches w w') : w.log <:+ w'.log ∧ w.clock ≤ w'.clock :=
  h.keeps (P := fun w' => w.log <:+ w'.log ∧ w.clock ≤ w'.clock)
    (fun _ _ hmove hw => ⟨hw.1.trans hmove.grows.1, hw.2.trans hmove.grows.2⟩)
      ⟨List.suffix_refl _, le_rfl⟩

end Mojo.CppUtility
