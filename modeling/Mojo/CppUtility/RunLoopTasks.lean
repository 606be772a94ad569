import Mojo.CppUtility.RunLoopLife

/-!
# Delayed tasks

A task has an id of its own and leaves the queue when it is run. A pass compares the tasks with one
that would be posted now: it runs those that were posted before and whose time has come. `Run` does
not wait for the others once the handlers are gone.
-/

namespace Mojo.CppUtility

open Mojo.System DelayedTaskInfo List

variable {w w' : World} {log : List Event} {e : Event} {t : DelayedTaskInfo}

theorem mem_runs : t ∈ runs log ↔ ∃ time, .ran t time ∈ log := by
  rw [runs, mem_filterMap]
  constructor
  · rintro ⟨e, he, hsome⟩
    cases e with
    | ran info time =>
      cases hsome
      exact ⟨time, he⟩
    | _ => cases hsome
  · rintro ⟨time, hmem⟩
    exact ⟨_, hmem, rfl⟩

theorem runs_cons (hran : ∀ t time, e ≠ .ran t time) : runs (e :: log) = runs log := by
  cases e with
  | ran info time => exact absurd rfl (hran info time)
  | _ => rfl

structure Tasked (w : World) : Prop where
  nextId : w.nextId = (issued w.log + 1) % 2 ^ 64
  posted : ∀ t now, .posted t now ∈ w.log → t.id ≤ issued w.log
  queued : ∀ t ∈ w.delayedTasks, ∃ now, .posted t now ∈ w.log
  ran : ∀ t time, .ran t time ∈ w.log → (∃ now, .posted t now ∈ w.log) ∧ t.absoluteRunTime ≤ time
  once : ((w.delayedTasks ++ runs w.log).map DelayedTaskInfo.id).Nodup
  returned : ∀ quitWhenIdle s handlers ts older, .returned quitWhenIdle s handlers ts ::
    older <:+ w.log → ∀ t ∈ ts, ∃ now, .posted t now ∈ older

theorem Tasked.id_le (h : Tasked w) (ht : t ∈ w.delayedTasks ++ runs w.log) :
    t.id ≤ issued w.log := by
  have hposted : ∃ now, .posted t now ∈ w.log := by
    rcases mem_append.mp ht with ht | ht
    · exact h.queued t ht
    · obtain ⟨time, hmem⟩ := mem_runs.mp ht
      exact (h.ran t time hmem).1
  obtain ⟨now, hmem⟩ := hposted
  exact h.posted t now hmem

theorem posted_cons (h : ∃ now, .posted t now ∈ log) : ∃ now, .posted t now ∈ e :: log := by
  obtain ⟨now, hmem⟩ := h
  exact ⟨now, .tail e hmem⟩

theorem Tasked.returned_cons (h : Tasked w)
    (he : ∀ quitWhenIdle s handlers ts, e = .returned quitWhenIdle s handlers ts →
      ts = w.delayedTasks)
    (quitWhenIdle : Bool) (s : RunState) (handlers : List ℕ) (ts : List DelayedTaskInfo)
    (older : List Event) (hle : .returned quitWhenIdle s handlers ts :: older <:+ e :: w.log) :
    ∀ t ∈ ts, ∃ now, .posted t now ∈ older := by
  rcases suffix_cons_iff.mp hle with heq | hle
  · obtain ⟨hreturned, rfl⟩ := List.cons.inj heq
    rw [he quitWhenIdle s handlers ts hreturned.symm]
    exact h.queued
  · exact h.returned quitWhenIdle s handlers ts older hle

theorem Tasked.record (h : Tasked w) (hposted : ∀ t now, e ≠ .posted t now)
    (hran : ∀ t time, e ≠ .ran t time)
    (hreturned : ∀ quitWhenIdle s handlers ts, e = .returned quitWhenIdle s handlers ts →
      ts = w.delayedTasks)
    {nextId : ℕ} (hnext : nextId = (issued (e :: w.log) + 1) % 2 ^ 64) (handlers : List (ℕ × ℕ))
    (waitSet : List ℕ)
    (handlerDeadlines : List HandlerDeadlineInfo) (runState : Option RunState) (clock : ℤ) :
    Tasked ⟨nextId, handlers, waitSet, handlerDeadlines, w.delayedTasks, runState, clock,
      e :: w.log⟩ where
  nextId := hnext
  posted t now hmem :=
    (h.posted t now (mem_of_ne_of_mem (hposted t now).symm hmem)).trans
      (issued_mono (suffix_cons e w.log))
  queued t ht := posted_cons (h.queued t ht)
  ran t time hmem := by
    obtain ⟨hposted, hle⟩ := h.ran t time (mem_of_ne_of_mem (hran t time).symm hmem)
    exact ⟨posted_cons hposted, hle⟩
  once := by
    rw [runs_cons hran]
    exact h.once
  returned := h.returned_cons hreturned

theorem tasked_moves (hmove : Moves w w') (hids : Numbers w'.log) (h : Tasked w) : Tasked w' := by
  cases hmove with
  | quiet handlerDeadlines runState clock _ =>
    exact ⟨h.nextId, h.posted, h.queued, h.ran, h.once, h.returned⟩
  | added handler now deadline handlerDeadlines clock _ =>
    refine h.record (by simp) (by simp) (by simp) ?_ _ _ _ _ _
    rw [issued_cons, h.nextId, Nat.mod_add_mod]
    rfl
  | posted task runTime now _ =>
    have hcount : issued (.posted ⟨w.nextId, task, runTime⟩ now :: w.log) = issued w.log + 1 :=
      issued_cons
    have hnext : w.nextId = issued w.log + 1 := by
      rw [Numbers, hcount] at hids
      rw [h.nextId, Nat.mod_eq_of_lt hids]
    refine ⟨?_, ?_, ?_, ?_, ?_, h.returned_cons (by simp)⟩
    · rw [hcount, h.nextId, Nat.mod_add_mod]
    · intro t now' hmem
      rw [hcount]
      rcases mem_cons.mp hmem with heq | hmem
      · cases heq
        exact hnext.le
      · exact Nat.le_succ_of_le (h.posted t now' hmem)
    · intro t ht
      rcases (mem_orderedInsert _).mp ht with rfl | ht
      · exact ⟨now, .head _⟩
      · exact posted_cons (h.queued t ht)
    · intro t time hmem
      obtain ⟨hposted, hle⟩ := h.ran t time (mem_of_ne_of_mem (by simp) hmem)
      exact ⟨posted_cons hposted, hle⟩
    · have hperm := (perm_orderedInsert (fun t u => less t u = false) ⟨w.nextId, task, runTime⟩
        w.delayedTasks).append_right (runs w.log)
      refine (hperm.map DelayedTaskInfo.id).nodup_iff.mpr (nodup_cons.mpr ⟨fun hmem => ?_, h.once⟩)
      obtain ⟨t, ht, heq⟩ := mem_map.mp hmem
      have hle := h.id_le ht
      rw [heq, hnext] at hle
      exact absurd hle (Nat.not_succ_le_self _)
  | ran top rest htasks hclock =>
    have htop : top ∈ w.delayedTasks := htasks ▸ (.head _)
    refine ⟨h.nextId, fun t now hmem => h.posted t now (mem_of_ne_of_mem (by simp) hmem),
      ?_, ?_, ?_, h.returned_cons (by simp)⟩
    · exact fun t ht => posted_cons (h.queued t (htasks ▸ .tail top ht))
    · intro t time hmem
      rcases mem_cons.mp hmem with heq | hmem
      · cases heq
        exact ⟨posted_cons (h.queued top htop), hclock⟩
      · obtain ⟨hposted, hle⟩ := h.ran t time hmem
        exact ⟨posted_cons hposted, hle⟩
    · have honce := h.once
      rw [htasks] at honce
      have hperm : (rest ++ top :: runs w.log).Perm (top :: (rest ++ runs w.log)) := perm_middle
      exact (hperm.map DelayedTaskInfo.id).nodup_iff.mpr honce
  | returned quitWhenIdle s runState =>
    exact h.record (by simp) (by simp) (fun _ _ _ _ heq => (Event.returned.inj heq).2.2.2.symm)
      h.nextId _ _ _ _ _
  | _ => exact h.record (by simp) (by simp) (by simp) h.nextId _ _ _ _ _

theorem tasked_of_reaches (h : Reaches w w') (hids : Numbers w'.log) (hw : Tasked w) :
    Tasked w' := by
  induction h with
  | refl => exact hw
  | tail _ hmove ih => exact tasked_moves hmove hids (ih (hids.suffix hmove.grows.1))

theorem tasked_new (clock : ℤ) : Tasked (World.new clock) :=
  ⟨rfl, nofun, nofun, nofun, .nil, fun _ _ _ _ _ h => by cases eq_nil_of_suffix_nil h⟩

def Forward (log : List Event) : Prop := ∀ t now, .posted t now ∈ log → now ≤ t.absoluteRunTime

section Pass

variable {nowTask : DelayedTaskInfo}

def World.due (nowTask : DelayedTaskInfo) (w : World) : List DelayedTaskInfo :=
  w.delayedTasks.filter nowTask.less

theorem less_of_le {u : DelayedTaskInfo} (hid : t.id ≤ u.id)
    (htime : t.absoluteRunTime ≤ u.absoluteRunTime) :
    t.less u = false := by
  rw [less]
  split <;> simp <;> omega

theorem less_eq_decide {nextId : ℕ} (h : t.id < nextId) (now : ℤ) :
    less ⟨nextId, 0, now⟩ t = decide (t.absoluteRunTime ≤ now) := by
  rw [less]
  by_cases heq : now = t.absoluteRunTime
  · simp [heq, h]
  · rw [if_neg heq]
    exact decide_eq_decide.mpr ⟨fun hlt => hlt.le, fun hle => lt_of_le_of_ne hle (Ne.symm heq)⟩

theorem filter_push {p : DelayedTaskInfo → Bool} (ht : p t = false) (queue : List DelayedTaskInfo) :
    (push less t queue).filter p = queue.filter p := by
  induction queue with
  | nil => simp [push, ht]
  | cons u queue ih =>
    rw [push, orderedInsert_cons]
    split_ifs
    · rw [filter_cons_of_neg (by simp [ht])]
    · rw [filter_cons, filter_cons, ← ih]
      rfl

theorem due_of_reaches (h : Reaches w w') (htasked : Tasked w)
    (hnow : nowTask.absoluteRunTime ≤ w.clock)
    (hid : nowTask.id ≤ issued w.log + 1) (hids : Numbers w'.log) (hforward : Forward w'.log)
    (hruns : runs w'.log = runs w.log) : w'.due nowTask = w.due nowTask := by
  induction h with
  | refl => rfl
  | @tail v v' hreach hmove ih =>
    have hgrows := Reaches.grows hreach
    have hids' := hids.suffix hmove.grows.1
    have hruns' : runs v.log = runs w.log := by
      have hle : runs v.log <:+ runs w.log := hruns ▸ hmove.grows.1.filterMap _
      exact hle.eq_of_length_le (hgrows.1.filterMap _).length_le
    refine Eq.trans ?_ (ih hids' (fun t now hmem => hforward t now (hmove.grows.1.subset hmem))
      hruns')
    cases hmove with
    | posted task runTime now hclock =>
      have htime : now ≤ runTime := hforward _ now (.head _)
      refine filter_push (less_of_le ?_ ((hnow.trans hgrows.2).trans (hclock.trans htime))) _
      have hlt : issued v.log + 1 < 2 ^ 64 := by
        simpa [Numbers, issued_cons, Event.issues] using hids
      rw [(tasked_of_reaches hreach hids' htasked).nextId, Nat.mod_eq_of_lt hlt]
      exact hid.trans (Nat.succ_le_succ (issued_mono hgrows.1))
    | ran top rest _ _ => exact absurd (hruns.trans hruns'.symm) (cons_ne_self _ _)
    | _ => rfl

theorem runs_tasks (env : Environment) (callbacks : Callbacks) (fuel : ℕ) (shouldContinue : Bool)
    (hgood : Numbers w.log → Good w) (htasked : Numbers w.log → Tasked w)
    (hnow : nowTask.absoluteRunTime ≤ w.clock) (hid : nowTask.id ≤ issued w.log + 1) :
    Runs (call env callbacks fuel (.tasks nowTask shouldContinue)) w
      (fun _ w' => w.log <:+ w'.log ∧
        (Numbers w'.log → Forward w'.log → returns w'.log = returns w.log →
        w'.quitting = false → runs w'.log = (w.due nowTask).reverse ++ runs w.log))
        fun _ => True := by
  induction fuel generalizing w shouldContinue with
  | zero => trivial
  | succ fuel ih =>
    refine Runs.get_bind ?_
    cases htasks : w.delayedTasks with
    | nil => exact ⟨suffix_refl _, fun _ _ _ _ => by simp [World.due, htasks]⟩
    | cons top rest =>
      simp only
      split
      · next hless =>
        have hpop := pop_keeps hgood htasks ((runTime_le_of_less hless).trans hnow)
        refine Runs.set_bind (Runs.bind (runScript_keeps (call_keeps env callbacks fuel) _
          hpop.1.good) (fun _ _ => trivial) ?_)
        rintro _ w₂ ⟨hkept, hcalm⟩
        have hsafe := hpop.1.trans hkept.1
        have hcount := returns_mono hkept.1.suffix
        refine runs_shouldQuit ?_ fun _ => ?_
        · intro hquit
          exact ⟨hsafe.suffix, fun _ _ _ hnot => absurd (hquit.symm.trans hnot) (by simp)⟩
        · refine (ih true hkept.1.good (fun hids => tasked_of_reaches hsafe.reaches hids
            (htasked (hids.suffix hsafe.suffix)))
            (hnow.trans hsafe.clock) (hid.trans (Nat.succ_le_succ (issued_mono hsafe.suffix)))).mono
              ?_ fun _ => id
          rintro _ w' ⟨hle, hruns⟩
          refine ⟨hsafe.suffix.trans hle, fun hids hforward hreturns hquit => ?_⟩
          have hcount' := returns_mono hle
          have hsame : returns (.ran top w.clock :: w.log) = returns w.log := rfl
          rw [hsame] at hcount
          have hids' := hids.suffix hle
          have hcalm' := hcalm (by rw [hsame]; omega)
          have hdue := due_of_reaches hkept.1.reaches
            (tasked_of_reaches hpop.1.reaches (hids'.suffix hkept.1.suffix)
              (htasked (hids'.suffix hsafe.suffix))) hnow hid
            hids' (fun t now hmem => hforward t now (hle.subset hmem)) hcalm'
          rw [hruns hids hforward (by omega) hquit, hdue, hcalm', World.due, World.due, htasks,
            filter_cons_of_pos hless, reverse_cons, append_assoc]
          rfl
      · next hless =>
        refine ⟨suffix_refl _, fun hids _ _ _ => ?_⟩
        have hqueue := (hgood hids).queue
        rw [htasks] at hqueue
        have hnil : w.due nowTask = [] := by
          rw [World.due, htasks, filter_eq_nil_iff]
          exact fun t ht => by simp [not_less_of_top hqueue hless t ht]
        rw [hnil]
        rfl

end Pass

/-- A task runs at most once, after it was posted and not before its time. A pass without a nested
run and without `Quit` runs the tasks that were there at its start and whose time has come, in the
order of their times and ids. -/
theorem delayed_tasks_run (env : Environment) (callbacks : Callbacks) (clock : ℤ) :
    (∀ fuel n main, let w := ending (life env callbacks fuel n main (World.new clock))
      Safe (World.new clock) w ∧
        (issued w.log < 2 ^ 64 → ((runs w.log).map DelayedTaskInfo.id).Nodup ∧
        ∀ t time, .ran t time ∈ w.log → (∃ now, .posted t now ∈ w.log) ∧ t.absoluteRunTime ≤ time))
    ∧ ∀ w, Safe (World.new clock) w → ∀ fuel now shouldContinue didWork w', now ≤ w.clock →
      call env callbacks fuel (.tasks ⟨w.nextId, 0, now⟩ shouldContinue) w = .ok didWork w' →
      issued w'.log + 1 < 2 ^ 64 → Forward w'.log → returns w'.log = returns w.log →
        w'.quitting = false →
      runs w'.log = (w.delayedTasks.filter fun t => t.absoluteRunTime ≤ now).reverse ++ runs w.log ∧
        w.delayedTasks.Pairwise fun t u => t.absoluteRunTime < u.absoluteRunTime ∨
          t.absoluteRunTime = u.absoluteRunTime ∧ t.id < u.id := by
  refine ⟨fun fuel n main => ?_,
    fun w hsafe fuel now shouldContinue didWork w' hnow hrun hids hforward hreturns hquit => ?_⟩
  · have hsafe := ending_safe env callbacks fuel n main clock
    refine ⟨hsafe, fun hids => ?_⟩
    have h := tasked_of_reaches hsafe.reaches hids (tasked_new clock)
    exact ⟨(nodup_append.mp (map_append ▸ h.once)).2.1, h.ran⟩
  · have hle := ((call_keeps env callbacks fuel).tasks _ shouldContinue w hsafe.good hnow |>.of_ok
      hrun).1.1.suffix
    have hlt : issued w.log + 1 < 2 ^ 64 :=
      Nat.lt_of_le_of_lt (Nat.succ_le_succ (issued_mono hle)) hids
    have hnum : Numbers w.log := Nat.lt_of_succ_lt hlt
    have htasked := tasked_of_reaches hsafe.reaches hnum (tasked_new clock)
    have hnext : w.nextId = issued w.log + 1 := by rw [htasked.nextId, Nat.mod_eq_of_lt hlt]
    have hpass := (runs_tasks env callbacks fuel shouldContinue hsafe.good (fun _ => htasked) hnow
      hnext.le).of_ok hrun
    have hdue : w.due ⟨w.nextId, 0, now⟩ =
        w.delayedTasks.filter fun t => t.absoluteRunTime ≤ now := by
      refine filter_congr fun t ht => less_eq_decide ?_ now
      rw [hnext]
      exact Nat.lt_succ_of_le (htasked.id_le (mem_append_left _ ht))
    refine ⟨hdue ▸ hpass.2 (Nat.lt_of_succ_lt hids) hforward hreturns hquit, ?_⟩
    have hne := pairwise_map.mp (nodup_append.mp (map_append ▸ htasked.once)).1
    refine ((hsafe.good hnum).queue.and hne).imp fun {t u} h => ?_
    rw [less] at h
    split at h <;> simp at h <;> omega

section Programs

def postsFromTask : Callbacks :=
  ⟨fun _ _ _ => .ret, fun task => if task = 7 then .postDelayedTask 9 0 .ret else .ret⟩

def twoTasks : Script := .postDelayedTask 7 0 (.postDelayedTask 8 0 .ret)

def afterPass : World :=
  ⟨4, [], [], [], [⟨3, 9, 5⟩], none, 5, [.ran ⟨2, 8, 5⟩ 5, .posted ⟨3, 9, 5⟩ 5, .ran ⟨1, 7, 5⟩ 5,
    .posted ⟨2, 8, 5⟩ 5, .posted ⟨1, 7, 5⟩ 5]⟩

theorem delayed_tasks_run_two : call firstReady postsFromTask 9 (.tasks ⟨3, 0, 5⟩ false)
        (ending (life firstReady postsFromTask 9 0 twoTasks (World.new 5))) = .ok true afterPass ∧
      runs afterPass.log = [⟨2, 8, 5⟩, ⟨1, 7, 5⟩] := by
  have hrun : call firstReady postsFromTask 9 (.tasks ⟨3, 0, 5⟩ false)
      (ending (life firstReady postsFromTask 9 0 twoTasks (World.new 5))) = .ok true afterPass := by
    have hstart : ending (life firstReady postsFromTask 9 0 twoTasks (World.new 5)) =
        ⟨3, [], [], [], [⟨1, 7, 5⟩, ⟨2, 8, 5⟩], none, 5,
          [.posted ⟨2, 8, 5⟩ 5, .posted ⟨1, 7, 5⟩ 5]⟩ := by
      decide +kernel
    rw [hstart]
    rfl
  have h := delayed_tasks_run firstReady postsFromTask 5
  refine ⟨hrun, (h.2 _ (h.1 9 0 twoTasks).1 9 5 false true _ le_rfl hrun (by decide) ?_ rfl rfl).1⟩
  intro t now hmem
  have hall : ∀ e ∈ afterPass.log, (match e with
      | .posted t now => decide (now ≤ t.absoluteRunTime)
      | _ => true) = true := by
    decide
  exact of_decide_eq_true (hall _ hmem)

/-- After so many handlers, the id of the next task is smaller than that of a task that is ready:
the task is not run. -/
theorem task_not_run :
    .returned true ⟨false, 16, 5, 0⟩ [] [⟨2 ^ 64 - 1, 0, 5⟩] ∈
      (ending (life firstReady idleCallbacks 9 9
      (addAndRemove (.postDelayedTask 0 0 (.runUntilIdle .ret)) (2 ^ 64 - 2))
        (World.new 5))).log := by
  have hpost (log : List Event) : postDelayedTask firstReady 0 0 ⟨2 ^ 64 - 1, [], [], [], [], none,
      5, log⟩ = .ok () ⟨(2 ^ 64 - 1 + 1) % 2 ^ 64, [], [], [], [⟨2 ^ 64 - 1, 0, 5⟩], none, 5,
        .posted ⟨2 ^ 64 - 1, 0, 5⟩ 5 :: log⟩ := rfl
  have hidle (log : List Event) : runInternal (call firstReady idleCallbacks 9) true
      ⟨0, [], [], [], [⟨2 ^ 64 - 1, 0, 5⟩], none, 5, log⟩ =
      .ok () ⟨0, [], [], [], [⟨2 ^ 64 - 1, 0, 5⟩], none, 5,
        .returned true ⟨false, 16, 5, 0⟩ [] [⟨2 ^ 64 - 1, 0, 5⟩] :: log⟩ := rfl
  have hwrap : (2 ^ 64 - 1 + 1) % 2 ^ 64 = 0 := by decide
  obtain ⟨log, hlog⟩ := runScript_addAndRemove firstReady (call firstReady idleCallbacks 9)
    (.postDelayedTask 0 0 (.runUntilIdle .ret)) (2 ^ 64 - 2) (World.new 5) rfl rfl (by decide)
  have hnext : ((World.new 5).nextId + (2 ^ 64 - 2)) % 2 ^ 64 = 2 ^ 64 - 1 := by decide
  rw [hnext, World.new, runScript, bind_of_ok (hpost _), hwrap, runScript, bind_of_ok (hidle _)]
    at hlog
  rw [life, World.new, bind_of_ok hlog]
  exact .head _

end Programs

/-- `Run` returns with no handlers. It leaves no task if every task was posted before its last
iteration, and was due when that began; the tasks that it leaves are others. -/
theorem run_returns_done (env : Environment) (callbacks : Callbacks) (fuel n : ℕ) (main : Script)
    (clock : ℤ)
    (hids : issued (ending (life env callbacks fuel n main (World.new clock))).log < 2 ^ 64)
    (hworking : Working (ending (life env callbacks fuel n main (World.new clock))).log)
    (s : RunState) (handlers : List ℕ) (delayedTasks : List DelayedTaskInfo) (older : List Event)
    (hle : .returned false s handlers delayedTasks :: older <:+
      (ending (life env callbacks fuel n main (World.new clock))).log) (hquit :
        s.shouldQuit = false) :
    handlers = [] ∧ (∀ t ∈ delayedTasks, s.now < t.absoluteRunTime ∨ s.nextId ≤ t.id) ∧
      ((∀ t now, .posted t now ∈ older → t.absoluteRunTime ≤ s.now ∧ t.id < s.nextId) →
        delayedTasks = []) := by
  have hsafe := ending_safe env callbacks fuel n main clock
  obtain ⟨hempty, hleft⟩ := (hsafe.good hids).returned s handlers delayedTasks
    (hle.subset (.head _)) hquit hworking
  refine ⟨hempty, hleft, fun hready => eq_nil_iff_forall_not_mem.mpr fun t ht => ?_⟩
  obtain ⟨now, hposted⟩ := (tasked_of_reaches hsafe.reaches hids (tasked_new clock)).returned _ _ _
    _ _ hle t ht
  obtain ⟨hdue, hbefore⟩ := hready t now hposted
  rcases hleft t ht with hlater | hnew
  · omega
  · omega

section Returns

def postsLater (delay : ℤ) : Script := .postDelayedTask 0 delay (.run .ret)

def postsFromHandler : Callbacks := ⟨fun _ _ _ => .postDelayedTask 0 0 .ret, fun _ => .ret⟩

theorem run_returns_early : .returned false ⟨false, 16, 5, 2⟩ [] [⟨1, 0, 1005⟩] ∈
        (ending (life firstReady idleCallbacks 9 9 (postsLater 1000) (World.new 5))).log ∧
      .returned false ⟨false, 16, 5, 2⟩ [] [⟨2, 0, 5⟩] ∈
        (ending (life firstReady postsFromHandler 9 9 (.addHandler 0 indefinite fun _ => .run .ret)
        (World.new 5))).log := by
  decide +kernel

def readyLog : List Event :=
  [.returned false ⟨false, 16, 5, 2⟩ [] [], .ran ⟨1, 0, 5⟩ 5, .posted ⟨1, 0, 5⟩ 5]

theorem run_returns_done_ready :
    (ending (life firstReady idleCallbacks 9 9 (postsLater 0) (World.new 5))).log = readyLog ∧
      ∃ delayedTasks, .returned false ⟨false, 16, 5, 2⟩ [] delayedTasks ∈ readyLog ∧
        delayedTasks = [] := by
  have hlog : (ending (life firstReady idleCallbacks 9 9 (postsLater 0) (World.new 5))).log =
      readyLog := by
    decide +kernel
  refine ⟨hlog, [], .head _, ?_⟩
  refine (run_returns_done firstReady idleCallbacks 9 9 (postsLater 0) 5 (by rw [hlog]; decide) ?_
    ⟨false, 16, 5, 2⟩ [] [] [.ran ⟨1, 0, 5⟩ 5, .posted ⟨1, 0, 5⟩ 5]
      (by rw [hlog]; exact suffix_refl _)
    rfl).2.2 ?_
  · intro deadline elapsed
    simp [hlog, readyLog]
  · intro t now hmem
    obtain ⟨rfl, rfl⟩ : t = ⟨1, 0, 5⟩ ∧ now = 5 := by simpa using hmem
    decide

end Returns

end Mojo.CppUtility
