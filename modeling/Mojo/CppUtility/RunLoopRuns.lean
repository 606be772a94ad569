import Mojo.CppUtility.RunLoopMoves

/-!
# Runs of the run loop

Every function keeps `Good`, however deep the loops are nested. `Safe` is what is left also by a run
that stops in the middle; a call that returns also leaves the run that it was made in.
-/

namespace Mojo.CppUtility

open Mojo.System List

variable {w'' w₀ : World} {handler : ℕ} {R : World → Prop} {top : DelayedTaskInfo}
  {rest : List DelayedTaskInfo} {quitWhenIdle : Bool} {w w' : World} {α : Type}

def Numbers (log : List Event) : Prop := issued log < 2 ^ 64

theorem Numbers.suffix {log log' : List Event} (hle : log <:+ log') (h : Numbers log') :
    Numbers log :=
  Nat.lt_of_le_of_lt (issued_mono hle) h

structure Safe (w w' : World) : Prop where
  suffix : w.log <:+ w'.log
  clock : w.clock ≤ w'.clock
  good : Numbers w'.log → Good w'
  handlers : Numbers w'.log → ∀ id ∈ w'.ids, id ∈ w.ids ∨ issued w.log < id
  tasks : Numbers w'.log → ∀ t ∈ w'.delayedTasks, t ∈ w.delayedTasks ∨ issued w.log < t.id
  reaches : Reaches w w'

def SameRun (w w' : World) : Prop :=
  w'.currentRunState.map (fun s => (s.now, s.nextId)) = w.currentRunState.map fun s =>
    (s.now, s.nextId)

def Kept (w w' : World) : Prop := Safe w w' ∧ SameRun w w'

theorem Safe.refl (h : Numbers w.log → Good w) : Safe w w :=
  ⟨suffix_refl _, le_rfl, h, fun _ _ => .inl, fun _ _ => .inl, .refl⟩

theorem Safe.trans (h : Safe w w') (h' : Safe w' w'') : Safe w w'' where
  suffix := h.suffix.trans h'.suffix
  clock := h.clock.trans h'.clock
  good := h'.good
  handlers hids id hid := by
    rcases h'.handlers hids id hid with hid | hlt
    · exact h.handlers (hids.suffix h'.suffix) id hid
    · exact .inr (Nat.lt_of_le_of_lt (issued_mono h.suffix) hlt)
  tasks hids t ht := by
    rcases h'.tasks hids t ht with ht | hlt
    · exact h.tasks (hids.suffix h'.suffix) t ht
    · exact .inr (Nat.lt_of_le_of_lt (issued_mono h.suffix) hlt)
  reaches := h.reaches.trans h'.reaches

theorem Safe.quiet (hgood : Numbers w.log → Good w) {handlerDeadlines : List HandlerDeadlineInfo}
    (hsub : ∀ info ∈ handlerDeadlines, info ∈ w.handlerDeadlines) (runState : Option RunState)
    {clock : ℤ} (hclock : w.clock ≤ clock) :
    Safe w { w with
      handlerDeadlines := handlerDeadlines
      currentRunState := runState
      clock := clock } where
  suffix := suffix_refl _
  clock := hclock
  good hids := (hgood hids).change hsub (List.Sublist.refl _) runState clock
  handlers _ _ := .inl
  tasks _ _ := .inl
  reaches := .single (.quiet handlerDeadlines runState clock hclock)

theorem Kept.refl (h : Numbers w.log → Good w) : Kept w w := ⟨.refl h, rfl⟩

theorem Kept.trans (h : Kept w w') (h' : Kept w' w'') : Kept w w'' :=
  ⟨h.1.trans h'.1, Eq.trans h'.2 h.2⟩

def Called (w w' : World) : Prop :=
  Kept w w' ∧ (returns w'.log = returns w.log → runs w'.log = runs w.log)

theorem Called.trans (h : Called w w') (h' : Called w' w'') : Called w w'' := by
  refine ⟨h.1.trans h'.1, fun heq => ?_⟩
  have hle := returns_mono h.1.1.suffix
  have hle' := returns_mono h'.1.1.suffix
  exact (h'.2 (by omega)).trans (h.2 (by omega))

def World.quitting (w : World) : Bool := w.currentRunState.elim false RunState.shouldQuit

def Idle (quitWhenIdle : Bool) (w : World) : Prop :=
  ∃ s, w.currentRunState = some s ∧ (quitWhenIdle = false → s.shouldQuit = false → Numbers w.log →
    Working w.log →
    w.handlers = [] ∧ ∀ t ∈ w.delayedTasks, s.now < t.absoluteRunTime ∨ s.nextId ≤ t.id)

structure Keeps (rec : Call → Running Bool) : Prop where
  iterations : ∀ quitWhenIdle w, (Numbers w.log → Good w) → w.currentRunState.isSome →
    Runs (rec (.iterations quitWhenIdle)) w (fun _ w' => Safe w w' ∧ Idle quitWhenIdle w') (Safe w)
  tasks : ∀ nowTask shouldContinue w, (Numbers w.log → Good w) → nowTask.absoluteRunTime ≤ w.clock →
    Runs (rec (.tasks nowTask shouldContinue)) w
      (fun _ w' => Kept w w' ∧ (Numbers w'.log → w'.quitting = false →
      ∀ t ∈ w'.delayedTasks, nowTask.less t = false)) (Safe w)
  deadlines : ∀ absoluteDeadline didWork w, (Numbers w.log → Good w) →
    (Numbers w.log → Punctual w.log → absoluteDeadline ≤ w.clock) →
    Runs (rec (.deadlines absoluteDeadline didWork)) w (fun _ => Kept w) (Safe w)

section Operations

variable {env : Environment} (hgood : Numbers w.log → Good w)

include hgood

theorem issue_safe {e : Event} (he : e.issues) (hlog : w'.log = e :: w.log)
    (hclock : w.clock ≤ w'.clock) (hgood' : issued w.log + 1 < 2 ^ 64 → Good w → Good w')
    (hids : ∀ id ∈ w'.ids, id ∈ w.ids ∨ id = w.nextId)
    (htasks : ∀ t ∈ w'.delayedTasks, t ∈ w.delayedTasks ∨ t.id = w.nextId)
    (hmoves : Moves w w') : Safe w w' := by
  have hle : w.log <:+ w'.log := by
    rw [hlog]
    exact suffix_cons _ _
  have hcount : issued w'.log = issued w.log + 1 := by simp [hlog, issued_cons, he]
  have hnext (hids : Numbers w'.log) : w.nextId = issued w.log + 1 := by
    rw [Numbers, hcount] at hids
    exact (hgood (Nat.lt_of_succ_lt hids)).numbered.nextId_eq hids
  refine ⟨hle, hclock, ?_, ?_, ?_, .single hmoves⟩
  · intro hnum
    have hold := hgood (hnum.suffix hle)
    rw [Numbers, hcount] at hnum
    exact hgood' hnum hold
  · intro hnum id hid
    rcases hids id hid with hid | rfl
    · exact .inl hid
    · exact .inr (hnext hnum ▸ Nat.lt_succ_self _)
  · intro hnum t ht
    rcases htasks t ht with ht | ht
    · exact .inl ht
    · exact .inr (ht ▸ hnext hnum ▸ Nat.lt_succ_self _)

omit hgood in
theorem mem_insertHandler {id id' : ℕ} {handlers : List (ℕ × ℕ)}
    (h : id' ∈ (insertHandler id handler handlers).map Prod.fst) :
    id' ∈ handlers.map Prod.fst ∨ id' = id := by
  rw [insertHandler] at h
  split at h
  · exact .inl h
  · obtain ⟨x, hx, rfl⟩ := mem_map.mp h
    rcases (mem_orderedInsert _).mp hx with rfl | hx
    · exact .inr rfl
    · exact .inl (mem_map_of_mem hx)

omit hgood in
theorem addDeadline_eq (env : Environment) (w : World) (id deadline : ℕ) :
    ∃ handlerDeadlines now clock, addDeadline env id deadline w =
        .ok now { w with handlerDeadlines := handlerDeadlines, clock := clock } ∧ w.clock ≤ clock ∧
      ∀ info ∈ handlerDeadlines, info ∈ w.handlerDeadlines ∨ info = ⟨id, now + deadline⟩ := by
  by_cases hmax : deadline ≤ kMaxMojoTimeTicks.toNat
  · rw [addDeadline, if_pos hmax]
    refine ⟨_, _, _, rfl, Int.le_add_of_nonneg_right (Int.natCast_nonneg _), ?_⟩
    intro info hinfo
    split at hinfo
    · rcases (mem_orderedInsert _).mp hinfo with rfl | hinfo
      · exact .inr rfl
      · exact .inl hinfo
    · exact .inl hinfo
  · rw [addDeadline, if_neg hmax]
    exact ⟨w.handlerDeadlines, w.clock, w.clock, rfl, le_rfl, fun _ => .inl⟩

theorem addHandler_keeps (handler deadline : ℕ) :
    Runs (addHandler env handler deadline) w (fun _ => Called w) (Safe w) := by
  obtain ⟨handlerDeadlines, now, clock, hrun, hclock, hdeadlines⟩ :=
    addDeadline_eq env { w with nextId := (w.nextId + 1) % 2 ^ 64 } w.nextId deadline
  have heq : addHandler env handler deadline w = .ok w.nextId { w with
      nextId := (w.nextId + 1) % 2 ^ 64
      handlers := insertHandler w.nextId handler w.handlers
      waitSet := waitSetAdd w.nextId w.waitSet
      handlerDeadlines := handlerDeadlines
      clock := clock
      log := .added w.nextId now deadline :: w.log } := bind_of_ok hrun
  rw [Runs, heq]
  refine ⟨⟨issue_safe hgood (e := .added w.nextId now deadline) rfl rfl hclock ?_ ?_ (fun _ => .inl)
    (.added handler now deadline handlerDeadlines clock hclock), rfl⟩, fun _ => rfl⟩
  · intro hids h
    exact (h.add hids handler now deadline hdeadlines).change (fun _ => id) (List.Sublist.refl _)
      w.currentRunState clock
  · exact fun id hid => mem_insertHandler hid

theorem removeHandler_keeps (id : ℕ) : Runs (removeHandler id) w (fun _ => Called w) (Safe w) := by
  have hle : w.log <:+ .removed id :: w.log := suffix_cons _ _
  refine ⟨⟨⟨hle, le_rfl, ?_, ?_, fun _ _ => .inl, .single (.removed id)⟩, rfl⟩, fun _ => rfl⟩
  · exact fun hids => (hgood (hids.suffix hle)).remove id
  · exact fun _ id' hid' => .inl (mem_eraseHandler.mp hid').1

omit hgood in
theorem postDelayedTask_eq (env : Environment) (w : World) (task : ℕ) (delay : ℤ) :
    ∃ now, w.clock ≤ now ∧ postDelayedTask env task delay w = .ok () { w with
      nextId := (w.nextId + 1) % 2 ^ 64
      delayedTasks := push DelayedTaskInfo.less ⟨w.nextId, task, now + delay⟩ w.delayedTasks
      clock := now
      log := .posted ⟨w.nextId, task, now + delay⟩ now :: w.log } :=
  ⟨w.clock + env.tick { w with nextId := (w.nextId + 1) % 2 ^ 64 },
    Int.le_add_of_nonneg_right (Int.natCast_nonneg _), rfl⟩

theorem postDelayedTask_keeps (task : ℕ) (delay : ℤ) :
    Runs (postDelayedTask env task delay) w (fun _ => Called w) (Safe w) := by
  obtain ⟨now, hclock, heq⟩ := postDelayedTask_eq env w task delay
  rw [Runs, heq]
  refine ⟨⟨issue_safe hgood (e := .posted ⟨w.nextId, task, now + delay⟩ now) rfl rfl hclock ?_
    (fun _ => .inl) ?_ (.posted task (now + delay) now hclock), rfl⟩, fun _ => rfl⟩
  · intro hids h
    exact (h.post hids task _ _).change (fun _ => id) (List.Sublist.refl _) w.currentRunState _
  · intro t ht
    rcases (mem_orderedInsert _).mp ht with rfl | ht
    · exact .inr rfl
    · exact .inl ht

theorem Kept.change (runState : Option RunState)
    (hsame : runState.map (fun s => (s.now, s.nextId)) = w.currentRunState.map fun s =>
      (s.now, s.nextId)) :
    Kept w { w with currentRunState := runState } :=
  ⟨.quiet hgood (fun _ => id) runState le_rfl, hsame⟩

theorem quit_keeps : Runs quit w (fun _ => Called w) (Safe w) := by
  refine ⟨Kept.change hgood _ ?_, fun _ => rfl⟩
  cases w.currentRunState <;> rfl

end Operations

section Functions

variable {env : Environment} {callbacks : Callbacks} {rec : Call → Running Bool}

theorem runInternal_keeps (hrec : Keeps rec) (quitWhenIdle : Bool)
    (hgood : Numbers w.log → Good w) :
    Runs (runInternal rec quitWhenIdle) w (fun _ => Called w) (Safe w) := by
  have hstart : Safe w
      { w with currentRunState := some ⟨false, kInitialWaitSetNumResults, 0, 0⟩ } :=
    .quiet hgood (fun _ => id) _ le_rfl
  refine Runs.get_bind (Runs.modify_bind (Runs.bind (hrec.iterations quitWhenIdle _ hstart.good rfl)
    (fun w' => hstart.trans) ?_))
  rintro _ w' ⟨hsafe, s, hs, hidle⟩
  have hw' := hstart.trans hsafe
  have hlog : (w'.currentRunState.elim w'.log fun s =>
      .returned quitWhenIdle s (w'.handlers.map Prod.fst) w'.delayedTasks :: w'.log) =
      .returned quitWhenIdle s (w'.handlers.map Prod.fst) w'.delayedTasks :: w'.log := by
        rw [hs, Option.elim_some]
  have hle : w'.log <:+ .returned quitWhenIdle s (w'.handlers.map Prod.fst) w'.delayedTasks ::
      w'.log :=
    suffix_cons _ _
  change Called w { w' with currentRunState := w.currentRunState, log := _ }
  rw [hlog]
  refine ⟨⟨hw'.trans ?_, rfl⟩, fun heq => ?_⟩
  rotate_left
  · have hcount := returns_mono hw'.suffix
    exact absurd (heq.symm.trans countP_cons) (Nat.ne_of_lt (Nat.lt_succ_of_le hcount))
  refine ⟨hle, le_rfl, ?_, fun _ _ => .inl, fun _ _ => .inl,
    .single (.returned quitWhenIdle s w.currentRunState)⟩
  intro hids
  have hids' := hids.suffix hle
  refine ((hw'.good hids').record rfl (by simp) (by simp) ?_).change (fun _ => id)
    (List.Sublist.refl _)
    w.currentRunState w'.clock
  intro s' handlers delayedTasks heq hquit hworking
  cases heq
  obtain ⟨hempty, htasks⟩ := hidle rfl hquit hids' hworking
  exact ⟨by rw [hempty, map_nil], htasks⟩

theorem runScript_keeps (hrec : Keeps rec) (script : Script) (hgood : Numbers w.log → Good w) :
    Runs (runScript env rec script) w (fun _ => Called w) (Safe w) := by
  -- A call that is kept, and the rest of the script.
  have hnext {β : Type} {x : Running β} {f : β → Running Unit} {w : World}
      (hx : Runs x w (fun _ => Called w) (Safe w))
      (hf : ∀ b w', (Numbers w'.log → Good w') → Runs (f b) w' (fun _ => Called w') (Safe w')) :
      Runs (x >>= f) w (fun _ => Called w) (Safe w) := by
    refine hx.bind (fun _ => id) ?_
    intro b w' hw'
    exact (hf b w' hw'.1.1.good).mono (fun _ _ => hw'.trans) fun _ => hw'.1.1.trans
  induction script generalizing w with
  | ret => exact ⟨.refl hgood, fun _ => rfl⟩
  | look next ih => exact ih w hgood
  | addHandler handler deadline next ih =>
    exact hnext (addHandler_keeps hgood handler deadline) fun id w' => ih id
  | removeHandler id next ih => exact hnext (removeHandler_keeps hgood id) fun _ w' => ih
  | postDelayedTask task delay next ih =>
    exact hnext (postDelayedTask_keeps hgood task delay) fun _ w' => ih
  | run next ih => exact hnext (runInternal_keeps hrec false hgood) fun _ w' => ih
  | runUntilIdle next ih => exact hnext (runInternal_keeps hrec true hgood) fun _ w' => ih
  | quit next ih => exact hnext (quit_keeps hgood) fun _ w' => ih

variable {Q : α → World → Prop}

theorem runs_shouldQuit {x y : Running α} (hx : w.quitting → Runs x w Q R)
    (hy : w.quitting = false → Runs y w Q R) : Runs (do if ← shouldQuit then x else y) w Q R := by
  refine Runs.get_bind ?_
  change Runs (if w.quitting = true then x else y) w Q R
  split
  · next h => exact hx h
  · next h => exact hy (Bool.eq_false_of_not_eq_true h)

theorem runs_getTimeTicksNow {f : ℤ → Running α}
    (h : Runs (f (w.clock + env.tick w)) { w with clock := w.clock + env.tick w } Q R) :
    Runs (getTimeTicksNow env >>= f) w Q R := h

variable {id : ℕ}

theorem mem_ids_of_lookup (h : w.handlers.lookup id = some handler) : id ∈ w.ids := by
  obtain ⟨newer, older, heq, -⟩ := lookup_eq_some_iff.mp h
  rw [World.ids, heq]
  simp

/-- The world in which the script of a handler starts. -/
def World.notified (w : World) (source : Source) (id : ℕ) (notice : Notice) : World :=
  { w with
    handlers := eraseHandler id w.handlers
    waitSet := if source = .results then waitSetRemove id w.waitSet else w.waitSet
    log := .notified id source notice w.clock :: w.log }

variable {source : Source} {notice : Notice}

theorem notified_keeps (hgood : Numbers w.log → Good w)
    (hid : id ∈ w.ids) (htimely : Numbers w.log → Punctual w.log →
      notice = .error .deadlineExceeded →
      ∃ (now : ℤ) (deadline : ℕ), .added id now deadline ∈ w.log ∧ now + deadline ≤ w.clock)
    (haborted : source = .destruction → notice = .error .aborted) :
    Kept w (w.notified source id notice) := by
  have hle : w.log <:+ .notified id source notice w.clock :: w.log := suffix_cons _ _
  refine ⟨⟨hle, le_rfl, ?_, ?_, fun _ _ => .inl, .single (.notified id source notice hid)⟩, rfl⟩
  · intro hids
    have hids' := hids.suffix hle
    exact (hgood hids').notify hid (htimely hids') haborted
  · exact fun _ id' hid' => .inl (mem_eraseHandler.mp hid').1

theorem notify_safe (hrec : Keeps rec) (handler : ℕ)
    (hkept : Kept w (w.notified source id notice)) :
    Runs (notify env callbacks rec source id handler notice) w
      (fun _ => Kept (w.notified source id notice)) (Safe (w.notified source id notice)) :=
  Runs.modify_bind ((runScript_keeps hrec _ hkept.1.good).mono (fun _ _ hw' => hw'.1)
    fun _ hw' => hw')

theorem notify_keeps (hrec : Keeps rec) (handler : ℕ)
    (hgood : Numbers w.log → Good w) (hid : id ∈ w.ids)
    (htimely : Numbers w.log → Punctual w.log → notice = .error .deadlineExceeded →
      ∃ (now : ℤ) (deadline : ℕ), .added id now deadline ∈ w.log ∧ now + deadline ≤ w.clock)
    (haborted : source = .destruction → notice = .error .aborted) :
    Runs (notify env callbacks rec source id handler notice) w
      (fun _ w' => Kept w w' ∧ Notified w'.log id) (Safe w) := by
  have hkept := notified_keeps hgood hid htimely haborted
  refine (notify_safe hrec handler hkept).mono ?_ fun w' => hkept.1.trans
  exact fun _ w' hw' => ⟨hkept.trans hw', source, notice, w.clock, hw'.1.suffix.subset (.head _)⟩

theorem runTime_le_of_less {t u : DelayedTaskInfo} (h : t.less u) :
    u.absoluteRunTime ≤ t.absoluteRunTime := by
  rw [DelayedTaskInfo.less] at h
  split at h
  · next heq => exact heq.ge
  · exact (of_decide_eq_true h).le

theorem pop_keeps (hgood : Numbers w.log → Good w)
    (htasks : w.delayedTasks = top :: rest) (hclock : top.absoluteRunTime ≤ w.clock) :
    Kept w { w with delayedTasks := rest, log := .ran top w.clock :: w.log } := by
  have hle : w.log <:+ .ran top w.clock :: w.log := suffix_cons _ _
  have hsub : rest.Sublist w.delayedTasks := by
    rw [htasks]
    exact sublist_cons_self top rest
  refine ⟨⟨hle, le_rfl, fun hids => ?_, fun _ _ => .inl, fun _ t ht => .inl (hsub.subset ht),
    .single (.ran top rest htasks hclock)⟩, rfl⟩
  exact ((hgood (hids.suffix hle)).record rfl (by simp) (by simp) (by simp)).change
    (fun _ => id) hsub
    w.currentRunState w.clock

theorem not_less_of_top {nowTask : DelayedTaskInfo}
    (hqueue : (top :: rest).Pairwise fun t u => t.less u = false)
    (htop : ¬ nowTask.less top) : ∀ t ∈ top :: rest, nowTask.less t = false := by
  have htop' : nowTask.less top = false := by simpa using htop
  intro t ht
  rcases ht with _ | ⟨_, ht⟩
  · exact htop'
  · exact less_trans htop' ((pairwise_cons.mp hqueue).1 t ht)

theorem runTasks_keeps (hrec : Keeps rec) (nowTask : DelayedTaskInfo) (shouldContinue : Bool)
    (hgood : Numbers w.log → Good w) (hnow : nowTask.absoluteRunTime ≤ w.clock) :
    Runs (runTasks env callbacks rec nowTask shouldContinue) w
      (fun _ w' => Kept w w' ∧ (Numbers w'.log →
      w'.quitting = false → ∀ t ∈ w'.delayedTasks, nowTask.less t = false)) (Safe w) := by
  refine Runs.get_bind ?_
  cases htasks : w.delayedTasks with
  | nil => exact ⟨.refl hgood, fun _ _ t ht => by rw [htasks] at ht; cases ht⟩
  | cons top rest =>
    simp only
    split
    · next hless =>
      have hpop := pop_keeps hgood htasks ((runTime_le_of_less hless).trans hnow)
      refine Runs.set_bind (Runs.bind (runScript_keeps hrec _ hpop.1.good) (fun _ => hpop.1.trans)
        ?_)
      rintro _ w' ⟨hw', -⟩
      have hw'' := hpop.trans hw'
      refine runs_shouldQuit ?_ ?_
      · intro hquit
        refine ⟨hw'', ?_⟩
        intro _ hnot
        rw [hquit] at hnot
        cases hnot
      · intro _
        refine (hrec.tasks nowTask true w' hw'.1.good (hnow.trans hw''.1.clock)).mono ?_
          fun _ => hw''.1.trans
        rintro _ w'' ⟨hkept, hready⟩
        exact ⟨hw''.trans hkept, hready⟩
    · next hless =>
      refine ⟨.refl hgood, fun hids _ => ?_⟩
      have hqueue := (hgood hids).queue
      rw [htasks] at hqueue ⊢
      exact not_less_of_top hqueue hless

theorem notifyResults_keeps (hrec : Keeps rec) (results : List WaitSetResult) (didWork : Bool)
    (hgood : Numbers w.log → Good w)
    (hresults : Numbers w.log → Punctual w.log → ∀ r ∈ results, r.waitResult ≠ .deadlineExceeded) :
    Runs (notifyResults env callbacks rec results didWork) w (fun _ => Kept w) (Safe w) := by
  induction results generalizing w didWork with
  | nil => exact .refl hgood
  | cons result results ih =>
    have hrest (hids : Numbers w.log) (hpunctual : Punctual w.log) : ∀ r ∈ results,
        r.waitResult ≠ .deadlineExceeded :=
      fun r hr => hresults hids hpunctual r (.tail _ hr)
    refine Runs.get_bind ?_
    cases hlookup : w.handlers.lookup result.cookie with
    | none => exact ih didWork hgood hrest
    | some handler =>
      refine Runs.bind (notify_keeps hrec handler hgood (mem_ids_of_lookup hlookup) ?_ nofun)
        (fun _ => id) ?_
      · intro hids hpunctual hnotice
        split at hnotice
        · cases hnotice
        · exact absurd (Notice.error.inj hnotice) (hresults hids hpunctual result (.head _))
      · rintro _ w' ⟨hw', -⟩
        refine runs_shouldQuit (fun _ => hw') ?_
        intro _
        refine (ih true hw'.1.good ?_).mono (fun _ _ => hw'.trans) fun _ => hw'.1.trans
        intro hids hpunctual
        exact hrest (hids.suffix hw'.1.suffix) (hpunctual.suffix hw'.1.suffix)

theorem notifyHandlersDeadlineExceeded_keeps (hrec : Keeps rec) {absoluteDeadline : ℤ}
    (didWork : Bool)
    (hgood : Numbers w.log → Good w)
    (hclock : Numbers w.log → Punctual w.log → absoluteDeadline ≤ w.clock) :
    Runs (notifyHandlersDeadlineExceeded env callbacks rec absoluteDeadline didWork) w
      (fun _ => Kept w) (Safe w) := by
  refine Runs.get_bind ?_
  cases hdeadlines : w.handlerDeadlines with
  | nil => exact .refl hgood
  | cons info rest =>
    simp only
    split
    · exact .refl hgood
    · next hexpired =>
      have hpop : Kept w { w with handlerDeadlines := rest } := by
        have hsub : ∀ info ∈ rest, info ∈ w.handlerDeadlines := by
          rw [hdeadlines]
          exact fun info => .tail _
        exact ⟨.quiet hgood hsub w.currentRunState le_rfl, rfl⟩
      refine Runs.set_bind ?_
      cases hlookup : w.handlers.lookup info.id with
      | none =>
        refine (hrec.deadlines absoluteDeadline didWork _ hpop.1.good hclock).mono ?_ ?_
        · exact fun _ _ => hpop.trans
        · exact fun _ => hpop.1.trans
      | some handler =>
        refine Runs.bind (notify_keeps hrec handler hpop.1.good (mem_ids_of_lookup hlookup)
          ?_ nofun) (fun _ => hpop.1.trans) ?_
        · intro hids hpunctual _
          obtain ⟨now, deadline, hmem, heq⟩ :=
            (hgood hids).numbered.deadlines info (by rw [hdeadlines]; simp)
          refine ⟨now, deadline, hmem, ?_⟩
          rw [heq]
          exact le_trans (not_lt.mp hexpired) (hclock hids hpunctual)
        · rintro _ w' ⟨hw', -⟩
          have hw'' := hpop.trans hw'
          refine runs_shouldQuit (fun _ => hw'') ?_
          intro _
          refine (hrec.deadlines absoluteDeadline true w' hw'.1.good ?_).mono
            (fun _ _ => hw''.trans)
            fun _ => hw''.1.trans
          intro hids hpunctual
          exact le_trans (hclock (hids.suffix hw''.1.suffix) (hpunctual.suffix hw''.1.suffix))
            hw''.1.clock

section Iteration

variable {now : ℤ} {nextId : ℕ}

/-- The tasks that the iteration found ready have been run. -/
structure Ready (now : ℤ) (nextId : ℕ) (w : World) : Prop where
  run : ∃ s, w.currentRunState = some s ∧ s.now = now ∧ s.nextId = nextId
  next : Numbers w.log → nextId ≤ issued w.log + 1
  tasks : Numbers w.log → ∀ t ∈ w.delayedTasks, now < t.absoluteRunTime ∨ nextId ≤ t.id

theorem SameRun.run (h : SameRun w w') (hrun : ∃ s, w.currentRunState = some s ∧ s.now = now ∧
    s.nextId = nextId) :
    ∃ s, w'.currentRunState = some s ∧ s.now = now ∧ s.nextId = nextId := by
  obtain ⟨s, hs, hnow, hnext⟩ := hrun
  rw [SameRun, hs, Option.map_some, Option.map_eq_some_iff] at h
  obtain ⟨s', hs', heq⟩ := h
  exact ⟨s', hs', (Prod.mk.inj heq).1.trans hnow, (Prod.mk.inj heq).2.trans hnext⟩

theorem Ready.kept (h : Ready now nextId w) (hkept : Kept w w') : Ready now nextId w' where
  run := hkept.2.run h.run
  next hids := (h.next (hids.suffix hkept.1.suffix)).trans
    (Nat.succ_le_succ (issued_mono hkept.1.suffix))
  tasks hids t ht := by
    have hids' := hids.suffix hkept.1.suffix
    rcases hkept.1.tasks hids t ht with ht | hlt
    · exact h.tasks hids' t ht
    · exact .inr ((h.next hids').trans hlt)

theorem Ready.idle (h : Ready now nextId w)
    (hend : quitWhenIdle = false → w.quitting = false → Working w.log → w.handlers = []) :
    Idle quitWhenIdle w := by
  obtain ⟨s, hs, hnow, hnext⟩ := h.run
  refine ⟨s, hs, ?_⟩
  intro hidle hquit hids hworking
  rw [hnow, hnext]
  refine ⟨hend hidle ?_ hworking, h.tasks hids⟩
  rw [World.quitting, hs]
  exact hquit

def Iterated (quitWhenIdle : Bool) (w : World) (more : Bool) (w' : World) : Prop :=
  Safe w w' ∧ w'.currentRunState.isSome ∧ (more = false → Idle quitWhenIdle w')

theorem Ready.isSome (h : Ready now nextId w) : w.currentRunState.isSome := by
  obtain ⟨s, hs, -⟩ := h.run
  rw [hs]
  rfl

theorem continues_iterated (shouldContinue : Bool) (hsafe : Safe w₀ w)
    (hready : Ready now nextId w) :
    Runs (continues quitWhenIdle shouldContinue) w (Iterated quitWhenIdle w₀) R := by
  refine Runs.get_bind (runs_shouldQuit ?_ ?_)
  · intro hquit
    refine ⟨hsafe, hready.isSome, fun _ => hready.idle ?_⟩
    intro _ hnot
    rw [hquit] at hnot
    cases hnot
  · intro _
    refine ⟨hsafe, hready.isSome, ?_⟩
    intro hmore
    refine hready.idle ?_
    rintro rfl _ _
    simpa using hmore

theorem calculateAbsoluteDeadline_keeps (hgood : Numbers w.log → Good w) :
    Runs calculateAbsoluteDeadline w (fun _ => Kept w) R := by
  have hkept : Kept w { w with handlerDeadlines := dropStale w.handlers w.handlerDeadlines } := by
    have hsub : ∀ info ∈ dropStale w.handlers w.handlerDeadlines, info ∈ w.handlerDeadlines :=
      fun info hinfo => (dropWhile_sublist _).subset hinfo
    exact ⟨.quiet hgood hsub w.currentRunState le_rfl, rfl⟩
  refine Runs.get_bind (Runs.set_bind ?_)
  split
  · exact hkept
  · split
    all_goals
      split
      all_goals exact hkept

theorem waitSetWait_keeps (hgood : Numbers w.log → Good w) (deadline : ℕ) :
    Runs (waitSetWait env deadline) w (fun outcome w' => Kept w w' ∧
      ∃ elapsed : ℕ, .waited deadline elapsed outcome ∈ w'.log ∧ w'.clock = w.clock + elapsed)
        R := by
  have hle (e : Event) : w.log <:+ e :: w.log := suffix_cons _ _
  refine ⟨⟨⟨hle _, Int.le_add_of_nonneg_right (Int.natCast_nonneg _), ?_, fun _ _ => .inl,
    fun _ _ => .inl, .single (.waited deadline _ _)⟩, rfl⟩, _, .head _, rfl⟩
  intro hids
  exact ((hgood (hids.suffix (hle _))).record rfl (by simp) (by simp) (by simp)).change
    (fun _ => id)
    (List.Sublist.refl _) w.currentRunState _

theorem deadline_le_clock {clock absoluteDeadline : ℤ} {elapsed : ℕ} (hnow : now ≤ clock)
    (h : (if absoluteDeadline = kInvalidTimeTicks then
      indefinite else (max now absoluteDeadline - now).toNat) ≠
        indefinite ∧
      (if absoluteDeadline = kInvalidTimeTicks then
        indefinite else (max now absoluteDeadline - now).toNat) ≤
        elapsed) : absoluteDeadline ≤ clock + elapsed := by
  obtain ⟨hne, hle⟩ := h
  split at hne
  · exact absurd rfl hne
  · next habs =>
    rw [if_neg habs] at hle
    omega

theorem waitAndNotify_iterated (hrec : Keeps rec) (quitWhenIdle shouldContinue : Bool)
    (absoluteDeadline : ℤ × Bool) (hsafe : Safe w₀ w) (hready : Ready now nextId w)
    (hnow : now ≤ w.clock) :
    Runs (waitAndNotify env callbacks rec quitWhenIdle now shouldContinue absoluteDeadline) w
      (Iterated quitWhenIdle w₀) (Safe w₀) := by
  refine Runs.bind (waitSetWait_keeps hsafe.good _) (fun _ => id) ?_
  rintro outcome w₁ ⟨hkept₁, elapsed, hmem, hclock⟩
  cases outcome with
  | ok results maxResults =>
    have hgrow : Kept w₁
        { w₁ with currentRunState := w₁.currentRunState.map (growResults maxResults) } := by
      refine Kept.change hkept₁.1.good _ ?_
      rw [Option.map_map]
      congr 1
      funext s
      simp only [Function.comp, growResults]
      split <;> rfl
    have hkept₂ := hkept₁.trans hgrow
    refine Runs.modify_bind (Runs.bind (notifyResults_keeps hrec results false hgrow.1.good ?_) ?_
      ?_)
    · intro _ hpunctual
      exact (hpunctual _ _ _ hmem).2 results maxResults rfl
    · exact fun _ hw' => hsafe.trans (hkept₂.1.trans hw')
    · intro didWork w' hw'
      have hkept₃ := hkept₂.trans hw'
      exact continues_iterated _ (hsafe.trans hkept₃.1) (hready.kept hkept₃)
  | deadlineExceeded =>
    refine Runs.bind (hrec.deadlines absoluteDeadline.1 false w₁ hkept₁.1.good ?_) ?_ ?_
    · intro _ hpunctual
      rw [hclock]
      exact deadline_le_clock hnow ((hpunctual _ _ _ hmem).1 rfl)
    · exact fun _ hw' => hsafe.trans (hkept₁.1.trans hw')
    · intro didWork w' hw'
      have hkept₂ := hkept₁.trans hw'
      exact continues_iterated _ (hsafe.trans hkept₂.1) (hready.kept hkept₂)
  | failed =>
    have hready₁ := hready.kept hkept₁
    refine ⟨hsafe.trans hkept₁.1, hready₁.isSome, fun _ => hready₁.idle ?_⟩
    intro _ _ hworking
    exact absurd hmem (hworking _ _)

theorem doIteration_iterated (hrec : Keeps rec) (quitWhenIdle : Bool)
    (hgood : Numbers w.log → Good w) (hrun : w.currentRunState.isSome) :
    Runs (doIteration env callbacks rec quitWhenIdle) w (Iterated quitWhenIdle w) (Safe w) := by
  obtain ⟨s, hs⟩ := Option.isSome_iff_exists.mp hrun
  let now := w.clock + env.tick w
  have hnow : w.clock ≤ now := Int.le_add_of_nonneg_right (Int.natCast_nonneg _)
  let w₁ : World :=
    { w with clock := now, currentRunState := w.currentRunState.map (startIteration now w.nextId) }
  have hsafe₁ : Safe w w₁ := .quiet hgood (fun _ => id) _ hnow
  have hrun₁ : ∃ s, w₁.currentRunState = some s ∧ s.now = now ∧ s.nextId = w.nextId :=
    ⟨startIteration now w.nextId s, by simp [w₁, hs], rfl, rfl⟩
  have htasks := hrec.tasks ⟨w.nextId, 0, now⟩ false w₁ hsafe₁.good le_rfl
  refine runs_getTimeTicksNow (Runs.get_bind
    (Runs.set_bind (htasks.bind (fun _ => hsafe₁.trans) ?_)))
  rintro shouldContinue w₂ ⟨hkept₂, hless⟩
  have hsafe₂ := hsafe₁.trans hkept₂.1
  have hrun₂ := hkept₂.2.run hrun₁
  refine runs_shouldQuit ?_ ?_
  · intro hquit
    obtain ⟨s₂, hs₂, -⟩ := hrun₂
    refine ⟨hsafe₂, by rw [hs₂]; rfl, fun _ => ⟨s₂, hs₂, ?_⟩⟩
    intro _ hnot
    rw [World.quitting, hs₂, Option.elim_some, hnot] at hquit
    cases hquit
  · intro hquit
    have hready : Ready now w.nextId w₂ := by
      refine ⟨hrun₂, ?_, ?_⟩
      · intro hids
        have hnext := (hgood (hids.suffix hsafe₂.suffix)).numbered.nextId
        have hcount := issued_mono hsafe₂.suffix
        omega
      · intro hids t ht
        have htask := hless hids hquit t ht
        rw [DelayedTaskInfo.less] at htask
        split at htask
        · exact .inr (by simpa using htask)
        · next hne => exact .inl (lt_of_le_of_ne (by simpa using htask) hne)
    refine Runs.get_bind ?_
    split
    · next hempty =>
      refine ⟨hsafe₂, hready.isSome, fun _ => hready.idle fun _ _ _ => ?_⟩
      simpa using hempty
    · have hclock : now ≤ w₂.clock := hkept₂.1.clock
      split
      · exact waitAndNotify_iterated hrec quitWhenIdle shouldContinue (now, false) hsafe₂
          hready hclock
      · refine Runs.bind (calculateAbsoluteDeadline_keeps hsafe₂.good) (fun _ => id) ?_
        intro absoluteDeadline w₃ hkept₃
        exact waitAndNotify_iterated hrec quitWhenIdle shouldContinue absoluteDeadline
          (hsafe₂.trans hkept₃.1)
          (hready.kept hkept₃) (hclock.trans hkept₃.1.clock)

theorem iterations_keeps (hrec : Keeps rec) (quitWhenIdle : Bool) (hgood : Numbers w.log → Good w)
    (hrun : w.currentRunState.isSome) :
    Runs (iterations env callbacks rec quitWhenIdle) w
      (fun _ w' => Safe w w' ∧ Idle quitWhenIdle w') (Safe w) := by
  refine Runs.bind (doIteration_iterated hrec quitWhenIdle hgood hrun) (fun _ => id) ?_
  rintro more w' ⟨hsafe, hrun', hidle⟩
  cases more with
  | false => exact ⟨hsafe, hidle rfl⟩
  | true =>
    refine (hrec.iterations quitWhenIdle w' hsafe.good hrun').mono ?_ fun _ => hsafe.trans
    rintro _ w'' ⟨hsafe', hidle'⟩
    exact ⟨hsafe.trans hsafe', hidle'⟩

end Iteration

theorem destroy_keeps (hrec : Keeps rec) (n k : ℕ) (hgood : Numbers w.log → Good w)
    (hids : Numbers w.log → ∀ id ∈ w.ids, k < id) :
    Runs (destroy env callbacks rec n) w
      (fun _ w' => Safe w w' ∧ (Numbers w'.log → ∀ id ∈ w'.ids, k + n < id)) (Safe w) := by
  induction n generalizing w k with
  | zero => exact ⟨.refl hgood, hids⟩
  | succ n ih =>
    refine Runs.get_bind ?_
    cases hhandlers : w.handlers with
    | nil =>
      refine ⟨.refl hgood, ?_⟩
      rw [World.ids, hhandlers]
      intro _ id hid
      cases hid
    | cons x rest =>
      have hmem : x.1 ∈ w.ids := by
        rw [World.ids, hhandlers]
        exact .head _
      refine Runs.bind (notify_keeps hrec x.2 hgood hmem ?_ fun _ => rfl) (fun _ => id) ?_
      · intro _ _ heq
        cases heq
      · rintro _ w' ⟨hw', hnotified⟩
        have hlater (hnum : Numbers w'.log) : ∀ id ∈ w'.ids, k + 1 < id := by
          intro id hid
          have hnum' := hnum.suffix hw'.1.suffix
          have hx : x.1 < id := by
            rcases hw'.1.handlers hnum id hid with hold | hnew
            · have hsorted := (hgood hnum').listed.sorted
              rw [World.ids, hhandlers] at hold hsorted
              rcases hold with _ | ⟨_, hold⟩
              · exact absurd hnotified ((hw'.1.good hnum).listed.live _ hid).2.2
              · exact (pairwise_cons.mp hsorted).1 id hold
            · have hgood' := hgood hnum'
              exact Nat.lt_of_le_of_lt
                (hgood'.numbered.bounds x.1 (hgood'.listed.live x.1 hmem).1).2 hnew
          exact Nat.lt_of_le_of_lt (hids hnum' x.1 hmem) hx
        refine (ih (k + 1) hw'.1.good hlater).mono ?_ fun _ => hw'.1.trans
        rintro _ w'' ⟨hsafe, hrest⟩
        refine ⟨hw'.1.trans hsafe, fun hnum id hid => ?_⟩
        have hlt := hrest hnum id hid
        omega

end Functions

theorem call_keeps (env : Environment) (callbacks : Callbacks) (fuel : ℕ) :
    Keeps (call env callbacks fuel) := by
  induction fuel with
  | zero =>
    refine ⟨?_, ?_, ?_⟩
    · exact fun _ w hgood _ => .refl hgood
    · exact fun _ _ w hgood _ => .refl hgood
    · exact fun _ _ w hgood _ => .refl hgood
  | succ fuel ih =>
    refine ⟨?_, ?_, ?_⟩
    · exact fun quitWhenIdle w hgood hrun => iterations_keeps ih quitWhenIdle hgood hrun
    · exact fun nowTask shouldContinue w hgood hnow => runTasks_keeps ih nowTask shouldContinue
        hgood hnow
    · exact fun absoluteDeadline didWork w hgood hclock =>
        notifyHandlersDeadlineExceeded_keeps ih didWork hgood hclock

end Mojo.CppUtility
