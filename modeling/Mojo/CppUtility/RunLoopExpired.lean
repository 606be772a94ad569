import Mojo.CppUtility.RunLoopLife

/-!
# Handlers whose deadline has passed

The entries of `handler_deadlines_` that are not later than the deadline are taken from the queue
one after another, and those whose handler is still there are notified, until one of the handlers
quits. The earliest comes first; among entries of the same time it is the one that was added last.
-/

namespace Mojo.CppUtility

open Mojo.System List

def expiredIds (log : List Event) : List ℕ :=
  log.filterMap fun
    | .notified id .deadlines _ _ => some id
    | _ => none

def expired (handlers : List (ℕ × ℕ)) (absoluteDeadline : ℤ) (entries : List HandlerDeadlineInfo) :
    List HandlerDeadlineInfo :=
  entries.filter fun info => info.absoluteDeadline ≤ absoluteDeadline ∧
    (handlers.lookup info.id).isSome

def HandlerDeadlineInfo.Before (info other : HandlerDeadlineInfo) : Prop :=
  info.absoluteDeadline < other.absoluteDeadline ∨ info.absoluteDeadline = other.absoluteDeadline ∧
    info.id < other.id

section

variable (env : Environment) {callbacks : Callbacks} {w : World} {d : ℤ}
  {queue : List HandlerDeadlineInfo} {handlers : List (ℕ × ℕ)} {info : HandlerDeadlineInfo}

def World.expire (w : World) (info : HandlerDeadlineInfo) (rest : List HandlerDeadlineInfo) :
    World :=
  { w with
    handlers := eraseHandler info.id w.handlers
    handlerDeadlines := rest
    log := .notified info.id .deadlines (.error .deadlineExceeded) w.clock :: w.log }

/-- A handler that neither adds nor removes handlers. A loop that it runs may take entries of
handlers that are gone from the queue. -/
structure Steady (w w' : World) : Prop where
  handlers : w'.handlers = w.handlers
  deadlines : ∃ dropped, w.handlerDeadlines = dropped ++ w'.handlerDeadlines ∧
    ∀ info ∈ dropped, w.handlers.lookup info.id = none
  ids : expiredIds w'.log = expiredIds w.log

variable {I : World → Prop} {quits : ℕ → Bool} {k fuel : ℕ}

variable {entries : List HandlerDeadlineInfo}

theorem lookup_eraseHandler {id id' : ℕ} (h : id' ≠ id) (handlers : List (ℕ × ℕ)) :
    (eraseHandler id handlers).lookup id' = handlers.lookup id' := by
  induction handlers with
  | nil => rfl
  | cons x handlers ih =>
    obtain ⟨key, handler⟩ := x
    by_cases hx : key = id
    · rw [eraseHandler, filter_cons_of_neg (by simpa using hx), ← eraseHandler, ih]
      simp [lookup_cons, hx, beq_eq_false_iff_ne.mpr h]
    · rw [eraseHandler, filter_cons_of_pos (by simpa using hx), ← eraseHandler]
      simp only [lookup_cons, ih]

theorem Steady.expired {w' : World} (h : Steady (w.expire info queue) w')
    (hnew : info.id ∉ queue.map HandlerDeadlineInfo.id) :
    expired w'.handlers d w'.handlerDeadlines = expired w.handlers d queue := by
  obtain ⟨dropped, hqueue, hstale⟩ := h.deadlines
  replace hqueue : queue = dropped ++ w'.handlerDeadlines := hqueue
  have hlookup : ∀ x ∈ queue, (eraseHandler info.id w.handlers).lookup x.id =
      w.handlers.lookup x.id := fun x hx =>
    lookup_eraseHandler (fun heq : x.id = info.id => hnew (heq ▸ mem_map_of_mem hx)) _
  have hnone : CppUtility.expired w.handlers d dropped = [] := by
    refine filter_eq_nil_iff.mpr fun x hx => ?_
    have hgone : (eraseHandler info.id w.handlers).lookup x.id = none := hstale x hx
    rw [hlookup x (hqueue ▸ mem_append_left _ hx)] at hgone
    simp [hgone]
  have hsame : CppUtility.expired w'.handlers d w'.handlerDeadlines =
      CppUtility.expired w.handlers d w'.handlerDeadlines := by
    refine filter_congr fun x hx => ?_
    rw [h.handlers]
    simp only [World.expire, hlookup x (hqueue ▸ mem_append_right _ hx)]
  have hsplit : CppUtility.expired w.handlers d (dropped ++ w'.handlerDeadlines) =
      CppUtility.expired w.handlers d dropped ++
        CppUtility.expired w.handlers d w'.handlerDeadlines :=
    filter_append ..
  rw [hsame, hqueue, hsplit, hnone, nil_append]

variable {log log' : List Event}

end

end Mojo.CppUtility
