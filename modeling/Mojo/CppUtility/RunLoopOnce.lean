import Mojo.CppUtility.RunLoop

/-!
# Handlers are notified once

`Good w` says what the log has to do with the state of the loop: the handlers in the map are those
that were added and neither removed nor notified. Every operation keeps it, as long as the ids do
not start again.
-/

namespace Mojo.CppUtility

open Mojo.System List

section Log

def Event.issues : Event → Bool
  | .added _ _ _ => true
  | .posted _ _ => true
  | _ => false

def issued (log : List Event) : ℕ := log.countP Event.issues

def Event.isReturn : Event → Bool
  | .returned _ _ _ _ => true
  | _ => false

def returns (log : List Event) : ℕ := log.countP Event.isReturn

def runs (log : List Event) : List DelayedTaskInfo :=
  log.filterMap fun
    | .ran info _ => some info
    | _ => none

def Added (log : List Event) (id : ℕ) : Prop := ∃ now deadline, .added id now deadline ∈ log

def Removed (log : List Event) (id : ℕ) : Prop :=
  ∃ older, .removed id :: older <:+ log ∧ Added older id

def Notified (log : List Event) (id : ℕ) : Prop :=
  ∃ source notice clock, .notified id source notice clock ∈ log

def notifications (log : List Event) (id : ℕ) : List (Source × Notice) :=
  log.filterMap fun
    | .notified id' source notice _ => if id' = id then some (source, notice) else none
    | _ => none

/-- The wait set reports that a deadline is exceeded only after the time has passed. -/
def Punctual (log : List Event) : Prop :=
  ∀ deadline elapsed outcome, .waited deadline elapsed outcome ∈ log →
    (outcome = .deadlineExceeded → deadline ≠ indefinite ∧ deadline ≤ elapsed) ∧
      ∀ results maxResults, outcome = .ok results maxResults → ∀ r ∈ results,
        r.waitResult ≠ .deadlineExceeded

def Working (log : List Event) : Prop := ∀ deadline elapsed, .waited deadline elapsed .failed ∉ log

structure Proper (log : List Event) (id : ℕ) (source : Source) (notice : Notice) (clock : ℤ) :
    Prop where
  added : Added log id
  removed : ¬ Removed log id
  notified : ¬ Notified log id
  timely : Punctual log → notice = .error .deadlineExceeded →
    ∃ (now : ℤ) (deadline : ℕ), .added id now deadline ∈ log ∧ now + deadline ≤ clock
  aborted : source = .destruction → notice = .error .aborted

def Sound (log : List Event) : Prop :=
  ∀ older id source notice clock, .notified id source notice clock :: older <:+ log →
    Proper older id source notice clock

/-- `Run` does not return before the handlers are gone, unless it quits. It has run the tasks that
its last iteration found ready. -/
def Returned (log : List Event) : Prop :=
  ∀ s handlers delayedTasks, .returned false s handlers delayedTasks ∈ log → s.shouldQuit = false →
    Working log → handlers = [] ∧ ∀ t ∈ delayedTasks, s.now < t.absoluteRunTime ∨ s.nextId ≤ t.id

section Growth

variable {log log' : List Event} {e : Event} {id : ℕ}

theorem issued_cons : issued (e :: log) = issued log + if e.issues then 1 else 0 := countP_cons

theorem issued_mono (hle : log <:+ log') : issued log ≤ issued log' := hle.sublist.countP_le

theorem returns_mono (hle : log <:+ log') : returns log ≤ returns log' := hle.sublist.countP_le

theorem Added.suffix (hle : log <:+ log') (h : Added log id) : Added log' id := by
  obtain ⟨now, deadline, hmem⟩ := h
  exact ⟨now, deadline, hle.subset hmem⟩

theorem Removed.suffix (hle : log <:+ log') (h : Removed log id) : Removed log' id := by
  obtain ⟨older, hold, hadded⟩ := h
  exact ⟨older, hold.trans hle, hadded⟩

theorem Notified.suffix (hle : log <:+ log') (h : Notified log id) : Notified log' id := by
  obtain ⟨source, notice, clock, hmem⟩ := h
  exact ⟨source, notice, clock, hle.subset hmem⟩

theorem Punctual.suffix (hle : log <:+ log') (h : Punctual log') : Punctual log :=
  fun deadline elapsed outcome hmem => h deadline elapsed outcome (hle.subset hmem)

theorem Working.suffix (hle : log <:+ log') (h : Working log') : Working log :=
  fun deadline elapsed hmem => h deadline elapsed (hle.subset hmem)

theorem added_cons (he : ∀ now deadline, e ≠ .added id now deadline) :
    Added (e :: log) id ↔ Added log id := by
  refine ⟨?_, .suffix (suffix_cons _ _)⟩
  rintro ⟨now, deadline, hmem⟩
  exact ⟨now, deadline, mem_of_ne_of_mem (he now deadline).symm hmem⟩

theorem removed_cons (he : e ≠ .removed id) : Removed (e :: log) id ↔ Removed log id := by
  refine ⟨?_, .suffix (suffix_cons _ _)⟩
  rintro ⟨older, hold, hadded⟩
  rcases suffix_cons_iff.mp hold with heq | hold
  · exact absurd (List.cons.inj heq).1.symm he
  · exact ⟨older, hold, hadded⟩

theorem notified_cons (he : ∀ source notice clock, e ≠ .notified id source notice clock) :
    Notified (e :: log) id ↔ Notified log id := by
  refine ⟨?_, .suffix (suffix_cons _ _)⟩
  rintro ⟨source, notice, clock, hmem⟩
  exact ⟨source, notice, clock, mem_of_ne_of_mem (he source notice clock).symm hmem⟩

theorem not_removed (h : ¬ Added log id) : ¬ Removed log id := by
  rintro ⟨older, hold, hadded⟩
  exact h (hadded.suffix ((suffix_cons _ _).trans hold))

theorem sound_nil : Sound [] := by
  intro older id source notice clock h
  cases eq_nil_of_suffix_nil h

theorem Sound.cons (h : Sound log)
    (he : ∀ id source notice clock, e = .notified id source notice clock →
      Proper log id source notice clock) :
    Sound (e :: log) := by
  intro older id source notice clock hold
  rcases suffix_cons_iff.mp hold with heq | hold
  · obtain ⟨rfl, rfl⟩ := List.cons.inj heq
    exact he id source notice clock rfl
  · exact h older id source notice clock hold

theorem Returned.cons (h : Returned log)
    (he : ∀ s handlers delayedTasks, e = .returned false s handlers delayedTasks → s.shouldQuit =
      false → Working log →
      handlers = [] ∧ ∀ t ∈ delayedTasks, s.now < t.absoluteRunTime ∨ s.nextId ≤ t.id) : Returned
        (e :: log) := by
  intro s handlers delayedTasks hmem hquit hworking
  have hworking' := hworking.suffix (suffix_cons e log)
  rcases mem_cons.mp hmem with heq | hmem
  · exact he s handlers delayedTasks heq.symm hquit hworking'
  · exact h s handlers delayedTasks hmem hquit hworking'

end Growth

end Log

def World.ids (w : World) : List ℕ := w.handlers.map Prod.fst

structure Numbered (w : World) : Prop where
  nextId : w.nextId = (issued w.log + 1) % 2 ^ 64
  bounds : ∀ id, Added w.log id → 0 < id ∧ id ≤ issued w.log
  unique : ∀ id now deadline now' deadline', .added id now deadline ∈ w.log →
    .added id now' deadline' ∈ w.log → now = now' ∧ deadline = deadline'
  deadlines : ∀ info ∈ w.handlerDeadlines, ∃ (now : ℤ) (deadline : ℕ), .added info.id now
    deadline ∈ w.log ∧ now + deadline = info.absoluteDeadline
  tasks : ∀ t ∈ w.delayedTasks, t.id ≤ issued w.log

structure Listed (w : World) : Prop where
  sorted : w.ids.Pairwise (· < ·)
  live : ∀ id ∈ w.ids, Added w.log id ∧ ¬ Removed w.log id ∧ ¬ Notified w.log id
  complete : ∀ id, Added w.log id → id ∈ w.ids ∨ Removed w.log id ∨ Notified w.log id

structure Good (w : World) : Prop where
  numbered : Numbered w
  listed : Listed w
  queue : w.delayedTasks.Pairwise fun t u => t.less u = false
  sound : Sound w.log
  returned : Returned w.log

section Steps

variable {w : World} {e : Event} {id : ℕ}

theorem not_added_nil : ¬ Added [] id := by
  rintro ⟨now, deadline, hmem⟩
  cases hmem

theorem good_new (clock : ℤ) : Good (World.new clock) where
  numbered := ⟨rfl, fun _ h => absurd h not_added_nil, nofun, nofun, nofun⟩
  listed := ⟨.nil, nofun, fun _ h => absurd h not_added_nil⟩
  queue := .nil
  sound := sound_nil
  returned := nofun

theorem not_issues_of_added (he : e.issues = false) (now : ℤ) (deadline : ℕ) :
    e ≠ .added id now deadline := by
  rintro rfl
  cases he

theorem Numbered.record (h : Numbered w) (he : e.issues = false) (handlers : List (ℕ × ℕ))
    (waitSet : List ℕ) :
    Numbered { w with handlers := handlers, waitSet := waitSet, log := e :: w.log } := by
  have hcount : issued (e :: w.log) = issued w.log := by simp [issued_cons, he]
  have hback : ∀ id now deadline, .added id now deadline ∈ e :: w.log →
      .added id now deadline ∈ w.log :=
    fun id now deadline hmem => mem_of_ne_of_mem (not_issues_of_added he now deadline).symm hmem
  refine ⟨?_, ?_, ?_, ?_, ?_⟩
  · rw [hcount]
    exact h.nextId
  · intro id hid
    rw [hcount]
    exact h.bounds id ((added_cons (not_issues_of_added he)).mp hid)
  · intro id now deadline now' deadline' hmem hmem'
    exact h.unique id now deadline now' deadline' (hback _ _ _ hmem) (hback _ _ _ hmem')
  · intro info hinfo
    obtain ⟨now, deadline, hmem, heq⟩ := h.deadlines info hinfo
    exact ⟨now, deadline, .tail _ hmem, heq⟩
  · intro t ht
    rw [hcount]
    exact h.tasks t ht

theorem Listed.record (h : Listed w) (hadded : ∀ id now deadline, e ≠ .added id now deadline)
    (hremoved : ∀ id, e ≠ .removed id)
    (hnotified : ∀ id source notice clock, e ≠ .notified id source notice clock) :
    Listed { w with log := e :: w.log } := by
  refine ⟨h.sorted, fun id hid => ?_, fun id hid => ?_⟩
  · rw [added_cons (hadded id), removed_cons (hremoved id), notified_cons (hnotified id)]
    exact h.live id hid
  · rw [removed_cons (hremoved id), notified_cons (hnotified id)]
    exact h.complete id ((added_cons (hadded id)).mp hid)

theorem Good.record (h : Good w) (hissues : e.issues = false) (hremoved : ∀ id, e ≠ .removed id)
    (hnotified : ∀ id source notice clock, e ≠ .notified id source notice clock)
    (hreturned : ∀ s handlers delayedTasks, e = .returned false s handlers delayedTasks →
      s.shouldQuit = false →
      Working w.log → handlers = [] ∧ ∀ t ∈ delayedTasks, s.now < t.absoluteRunTime ∨
        s.nextId ≤ t.id) :
    Good { w with log := e :: w.log } where
  numbered := h.numbered.record hissues w.handlers w.waitSet
  listed := h.listed.record (fun _ => not_issues_of_added hissues) hremoved hnotified
  queue := h.queue
  sound := h.sound.cons fun id source notice clock heq =>
    absurd heq (hnotified id source notice clock)
  returned := h.returned.cons hreturned

theorem map_eraseHandler (id : ℕ) (handlers : List (ℕ × ℕ)) :
    (eraseHandler id handlers).map Prod.fst = (handlers.map Prod.fst).filter (· ≠ id) := by
  rw [eraseHandler, filter_map]
  rfl

variable {handlers : List (ℕ × ℕ)}

theorem mem_eraseHandler {id' : ℕ} :
    id' ∈ (eraseHandler id handlers).map Prod.fst ↔ id' ∈ handlers.map Prod.fst ∧ id' ≠ id := by
  rw [map_eraseHandler, mem_filter, decide_eq_true_eq]

variable {waitSet : List ℕ}

theorem Listed.erase (h : Listed w) (hadded : ∀ id now deadline, e ≠ .added id now deadline)
    (hremoved : ∀ id', e = .removed id' → id' = id)
    (hnotified : ∀ id' source notice clock, e = .notified id' source notice clock → id' = id)
    (hgone : Added w.log id → Removed (e :: w.log) id ∨ Notified (e :: w.log) id) :
    Listed { w with
      handlers := eraseHandler id w.handlers
      waitSet := waitSet
      log := e :: w.log } := by
  have hother {id' : ℕ} (hne : id' ≠ id) : (Removed (e :: w.log) id' ↔ Removed w.log id') ∧
      (Notified (e :: w.log) id' ↔ Notified w.log id') :=
    ⟨removed_cons fun heq => hne (hremoved id' heq), notified_cons fun _ _ _ heq =>
      hne (hnotified id' _ _ _ heq)⟩
  refine ⟨?_, ?_, ?_⟩
  · rw [World.ids, map_eraseHandler]
    exact h.sorted.filter _
  · intro id' hid'
    obtain ⟨hmem, hne⟩ := mem_eraseHandler.mp hid'
    rw [added_cons (hadded id'), (hother hne).1, (hother hne).2]
    exact h.live id' hmem
  · intro id' hid'
    rw [added_cons (hadded id')] at hid'
    by_cases hne : id' = id
    · subst hne
      exact .inr (hgone hid')
    · rw [(hother hne).1, (hother hne).2]
      exact (h.complete id' hid').imp_left fun hmem => mem_eraseHandler.mpr ⟨hmem, hne⟩

theorem Good.remove (h : Good w) (id : ℕ) :
    Good { w with
      handlers := eraseHandler id w.handlers
      waitSet := waitSet
      log := .removed id :: w.log } where
  numbered := h.numbered.record rfl _ _
  listed := by
    refine h.listed.erase (by simp) ?_ (by simp) fun hadded => .inl ⟨w.log, suffix_refl _, hadded⟩
    intro id' heq
    cases heq
    rfl
  queue := h.queue
  sound := h.sound.cons (by simp)
  returned := h.returned.cons (by simp)

theorem Good.notify (h : Good w) {source : Source} {notice : Notice} {clock : ℤ} (hid : id ∈ w.ids)
    (htimely : Punctual w.log → notice = .error .deadlineExceeded →
      ∃ (now : ℤ) (deadline : ℕ), .added id now deadline ∈ w.log ∧ now + deadline ≤ clock)
    (haborted : source = .destruction → notice = .error .aborted) :
    Good { w with
      handlers := eraseHandler id w.handlers
      waitSet := waitSet
      log := .notified id source notice clock :: w.log } where
  numbered := h.numbered.record rfl _ _
  listed := by
    refine h.listed.erase (by simp) (by simp) ?_ fun _ => .inr ⟨source, notice, clock, .head _⟩
    intro id' source' notice' clock' heq
    cases heq
    rfl
  queue := h.queue
  sound := by
    refine h.sound.cons ?_
    intro id' source' notice' clock' heq
    cases heq
    obtain ⟨h₁, h₂, h₃⟩ := h.listed.live id hid
    exact ⟨h₁, h₂, h₃, htimely, haborted⟩
  returned := h.returned.cons (by simp)

theorem Numbered.nextId_eq (h : Numbered w) (hids : issued w.log + 1 < 2 ^ 64) :
    w.nextId = issued w.log + 1 := by
  rw [h.nextId, Nat.mod_eq_of_lt hids]

theorem Numbered.not_added (h : Numbered w) (hids : issued w.log + 1 < 2 ^ 64) :
    ¬ Added w.log w.nextId := by
  intro hadded
  have hbound := (h.bounds w.nextId hadded).2
  rw [h.nextId_eq hids] at hbound
  exact absurd hbound (Nat.not_succ_le_self _)

theorem insertHandler_eq {handler : ℕ} (h : ∀ id' ∈ handlers.map Prod.fst, id' < id) :
    insertHandler id handler handlers = handlers ++ [(id, handler)] := by
  have hne : id ∉ handlers.map Prod.fst := fun hmem => Nat.lt_irrefl _ (h id hmem)
  rw [insertHandler, if_neg hne]
  clear hne
  induction handlers with
  | nil => rfl
  | cons x handlers ih =>
    have hx : x.1 < id := h x.1 (.head _)
    rw [orderedInsert_cons, if_neg (Nat.not_le.mpr hx), ih fun id' hid' => h id' (.tail _ hid')]
    rfl

theorem Listed.add (h : Listed w) (hlt : ∀ id' ∈ w.ids, id' < id) (hnew : ¬ Added w.log id)
    (hnot : ¬ Notified w.log id) (handler : ℕ) (now : ℤ) (deadline : ℕ) :
    Listed { w with
      handlers := insertHandler id handler w.handlers
      log := .added id now deadline :: w.log } := by
  have hother (id' : ℕ) : (Removed (.added id now deadline :: w.log) id' ↔ Removed w.log id') ∧
      (Notified (.added id now deadline :: w.log) id' ↔ Notified w.log id') :=
    ⟨removed_cons (by simp), notified_cons (by simp)⟩
  have hids : (insertHandler id handler w.handlers).map Prod.fst = w.ids ++ [id] := by
    rw [insertHandler_eq hlt, map_append, World.ids, map_singleton]
  refine ⟨?_, ?_, ?_⟩
  · rw [World.ids, hids, pairwise_append]
    refine ⟨h.sorted, pairwise_singleton _ _, ?_⟩
    intro id' hid' id'' hid''
    rw [mem_singleton.mp hid'']
    exact hlt id' hid'
  · intro id' hid'
    rw [World.ids, hids, mem_append, mem_singleton] at hid'
    rw [(hother id').1, (hother id').2]
    rcases hid' with hid' | rfl
    · obtain ⟨hadded, hrest⟩ := h.live id' hid'
      exact ⟨hadded.suffix (suffix_cons _ _), hrest⟩
    · exact ⟨⟨now, deadline, .head _⟩, not_removed hnew, hnot⟩
  · intro id' hid'
    rw [World.ids, hids, mem_append, mem_singleton, (hother id').1, (hother id').2]
    by_cases heq : id' = id
    · exact .inl (.inr heq)
    · rw [added_cons (by simp [Ne.symm heq])] at hid'
      exact (h.complete id' hid').imp_left .inl

theorem Sound.added_of_notified {log : List Event} (h : Sound log) (hn : Notified log id) :
    Added log id := by
  obtain ⟨source, notice, clock, hmem⟩ := hn
  obtain ⟨newer, older, rfl⟩ := append_of_mem hmem
  have hproper := h older id source notice clock (suffix_append newer _)
  exact hproper.added.suffix ((suffix_cons _ _).trans (suffix_append newer _))

variable {handlerDeadlines : List HandlerDeadlineInfo}

theorem Good.add (h : Good w) (hids : issued w.log + 1 < 2 ^ 64) (handler : ℕ) (now : ℤ)
    (deadline : ℕ)
    (hdeadlines : ∀ info ∈ handlerDeadlines, info ∈ w.handlerDeadlines ∨
      info = ⟨w.nextId, now + deadline⟩) :
    Good { w with
      nextId := (w.nextId + 1) % 2 ^ 64
      handlers := insertHandler w.nextId handler w.handlers
      waitSet := waitSet
      handlerDeadlines := handlerDeadlines
      log := .added w.nextId now deadline :: w.log } := by
  have hnew := h.numbered.not_added hids
  have hnext := h.numbered.nextId_eq hids
  have hcount : issued (.added w.nextId now deadline :: w.log) = issued w.log + 1 := issued_cons
  have hlt : ∀ id' ∈ w.ids, id' < w.nextId := by
    intro id' hid'
    rw [hnext]
    exact Nat.lt_succ_of_le (h.numbered.bounds id' (h.listed.live id' hid').1).2
  have hlisted := h.listed.add hlt hnew (fun hn => hnew (h.sound.added_of_notified hn)) handler
    now deadline
  refine ⟨⟨?_, ?_, ?_, ?_, ?_⟩, ⟨hlisted.sorted, hlisted.live, hlisted.complete⟩, h.queue,
    h.sound.cons (by simp), h.returned.cons (by simp)⟩
  · rw [hcount, hnext]
  · rintro id' ⟨now', deadline', hmem⟩
    rw [hcount]
    rcases mem_cons.mp hmem with heq | hmem
    · cases heq
      rw [hnext]
      exact ⟨Nat.succ_pos _, le_rfl⟩
    · obtain ⟨hpos, hle⟩ := h.numbered.bounds id' ⟨now', deadline', hmem⟩
      exact ⟨hpos, Nat.le_succ_of_le hle⟩
  · intro id' now₁ deadline₁ now₂ deadline₂ hmem₁ hmem₂
    rcases mem_cons.mp hmem₁ with heq₁ | hold₁
    · rcases mem_cons.mp hmem₂ with heq₂ | hold₂
      · cases heq₁
        cases heq₂
        exact ⟨rfl, rfl⟩
      · cases heq₁
        exact absurd ⟨now₂, deadline₂, hold₂⟩ hnew
    · rcases mem_cons.mp hmem₂ with heq₂ | hold₂
      · cases heq₂
        exact absurd ⟨now₁, deadline₁, hold₁⟩ hnew
      · exact h.numbered.unique id' now₁ deadline₁ now₂ deadline₂ hold₁ hold₂
  · intro info hinfo
    rcases hdeadlines info hinfo with hinfo | rfl
    · obtain ⟨now', deadline', hmem, heq⟩ := h.numbered.deadlines info hinfo
      exact ⟨now', deadline', .tail _ hmem, heq⟩
    · exact ⟨now, deadline, .head _, rfl⟩
  · intro t ht
    rw [hcount]
    exact Nat.le_succ_of_le (h.numbered.tasks t ht)

theorem less_trans {t u v : DelayedTaskInfo} (h : t.less u = false) (h' : u.less v = false) :
    t.less v = false := by
  unfold DelayedTaskInfo.less at *
  split at h <;> split at h' <;> split <;> simp at * <;> omega

theorem pairwise_push {α : Type} {less : α → α → Bool}
    (htotal : ∀ x y, less x y = false ∨ less y x = false)
    (htrans : ∀ x y z, less x y = false → less y z = false → less x z = false)
    {queue : List α} (x : α)
    (h : queue.Pairwise fun x y => less x y = false) :
    (push less x queue).Pairwise fun x y => less x y = false := by
  have : Std.Total fun x y => less x y = false := ⟨htotal⟩
  have : IsTrans α fun x y => less x y = false := ⟨htrans⟩
  exact h.orderedInsert x queue

theorem less_total (t u : DelayedTaskInfo) : t.less u = false ∨ u.less t = false := by
  unfold DelayedTaskInfo.less
  split <;> split <;> simp <;> omega

theorem Good.post (h : Good w) (hids : issued w.log + 1 < 2 ^ 64) (task : ℕ) (runTime now : ℤ) :
    Good { w with
      nextId := (w.nextId + 1) % 2 ^ 64
      delayedTasks := push DelayedTaskInfo.less ⟨w.nextId, task, runTime⟩ w.delayedTasks
      log := .posted ⟨w.nextId, task, runTime⟩ now :: w.log } := by
  have hnext := h.numbered.nextId_eq hids
  have hcount : issued (.posted ⟨w.nextId, task, runTime⟩ now :: w.log) = issued w.log + 1 :=
    issued_cons
  have hlisted := h.listed.record (e := .posted ⟨w.nextId, task, runTime⟩ now) (by simp) (by simp)
    (by simp)
  refine ⟨⟨?_, ?_, ?_, ?_, ?_⟩, ⟨hlisted.sorted, hlisted.live, hlisted.complete⟩, ?_,
    h.sound.cons (by simp), h.returned.cons (by simp)⟩
  · rw [hcount, hnext]
  · intro id' hid'
    rw [hcount]
    obtain ⟨hpos, hle⟩ := h.numbered.bounds id' ((added_cons (by simp)).mp hid')
    exact ⟨hpos, Nat.le_succ_of_le hle⟩
  · intro id' now deadline now' deadline' hmem hmem'
    exact h.numbered.unique id' now deadline now' deadline' (mem_of_ne_of_mem (by simp) hmem)
      (mem_of_ne_of_mem (by simp) hmem')
  · intro info hinfo
    obtain ⟨now, deadline, hmem, heq⟩ := h.numbered.deadlines info hinfo
    exact ⟨now, deadline, .tail _ hmem, heq⟩
  · intro t ht
    rw [hcount]
    rcases mem_orderedInsert _ |>.mp ht with rfl | ht
    · exact hnext.le
    · exact Nat.le_succ_of_le (h.numbered.tasks t ht)
  · exact pairwise_push less_total (fun _ _ _ => less_trans) _ h.queue

theorem Good.change (h : Good w) {delayedTasks : List DelayedTaskInfo}
    (hdeadlines : ∀ info ∈ handlerDeadlines, info ∈ w.handlerDeadlines)
    (htasks : delayedTasks.Sublist w.delayedTasks) (runState : Option RunState) (clock : ℤ) :
    Good { w with
      handlerDeadlines := handlerDeadlines
      delayedTasks := delayedTasks
      currentRunState := runState
      clock := clock } where
  numbered := {
    nextId := h.numbered.nextId
    bounds := h.numbered.bounds
    unique := h.numbered.unique
    deadlines := fun info hinfo => h.numbered.deadlines info (hdeadlines info hinfo)
    tasks := fun t ht => h.numbered.tasks t (htasks.subset ht) }
  listed := ⟨h.listed.sorted, h.listed.live, h.listed.complete⟩
  queue := h.queue.sublist htasks
  sound := h.sound
  returned := h.returned

end Steps

end Mojo.CppUtility
