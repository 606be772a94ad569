import Mojo.CppUtility.RunLoopLife

/-!
# The wait set

`AddHandler` adds the cookie of a handler to the wait set, and `RemoveHandler` and `NotifyResults`
remove it. When the deadline of a handler is exceeded, and in the destructor, the handler is removed
from `handlers_` only. As long as this has not happened, the wait set mirrors the handlers.
-/

namespace Mojo.CppUtility

open Mojo.System

/-- The wait set returns cookies that it has, and at least one of them. -/
def Environment.Honest (env : Environment) : Prop :=
  ∀ w deadline size elapsed results maxResults,
    env.wait w deadline size = (elapsed, .ok results maxResults) →
      results ≠ [] ∧ ∀ result ∈ results, result.cookie ∈ w.waitSet

/-- No handler was told that its deadline is exceeded, or that the loop is destroyed. -/
def Unexpired (log : List Event) : Prop :=
  ∀ id source notice clock, .notified id source notice clock ∈ log → source = .results

def Mirrored (w : World) : Prop := ∀ id, id ∈ w.waitSet ↔ id ∈ w.ids

variable {log log' : List Event}

theorem Unexpired.suffix (hle : log <:+ log') (h : Unexpired log') : Unexpired log :=
  fun id source notice clock hmem => h id source notice clock (hle.subset hmem)

variable {id : ℕ}

theorem mem_ids_insertHandler {id' handler : ℕ} {handlers : List (ℕ × ℕ)} :
    id' ∈ (insertHandler id handler handlers).map Prod.fst ↔ id' = id ∨
      id' ∈ handlers.map Prod.fst := by
  rw [insertHandler]
  split_ifs with hmem
  · exact ⟨Or.inr, fun h => h.elim (fun heq => heq ▸ hmem) fun h => h⟩
  · rw [((List.perm_orderedInsert _ _ _).map Prod.fst).mem_iff, List.map_cons, List.mem_cons]

variable {cookie : ℕ} {waitSet : List ℕ}

theorem mem_waitSetAdd :
    id ∈ waitSetAdd cookie waitSet ↔ id = cookie ∨ id ∈ waitSet := by
  rw [waitSetAdd]
  split_ifs with hmem
  · exact ⟨Or.inr, fun h => h.elim (fun heq => heq ▸ hmem) fun h => h⟩
  · exact List.mem_cons

theorem mem_waitSetRemove :
    id ∈ waitSetRemove cookie waitSet ↔ id ∈ waitSet ∧ id ≠ cookie := by
  rw [waitSetRemove, List.mem_filter, decide_eq_true_eq]

theorem lookup_isSome_iff {w : World} : (w.handlers.lookup id).isSome ↔ id ∈ w.ids := by
  constructor
  · intro h
    obtain ⟨handler, hlookup⟩ := Option.isSome_iff_exists.mp h
    exact mem_ids_of_lookup hlookup
  · intro h
    obtain ⟨x, hx, rfl⟩ := List.mem_map.mp h
    rw [Option.isSome_iff_ne_none, ne_eq, List.lookup_eq_none_iff]
    exact fun hne => absurd (hne x hx) (by simp)

variable {w' : World}

theorem mirrored_moves {w : World} (hmove : Moves w w') (hlog : Unexpired w'.log) (h : Mirrored w) :
    Mirrored w' := by
  intro id
  cases hmove with
  | added handler now deadline handlerDeadlines clock _ =>
    rw [World.ids, mem_ids_insertHandler, mem_waitSetAdd]
    exact or_congr_right (h id)
  | removed id' =>
    rw [World.ids, mem_eraseHandler]
    split_ifs with hfound
    · rw [mem_waitSetRemove]
      exact and_congr_left' (h id)
    · have hne : id ∈ w.ids → id ≠ id' := fun hid heq => hfound (lookup_isSome_iff.mpr (heq ▸ hid))
      exact (h id).trans ⟨fun hid => ⟨hid, hne hid⟩, And.left⟩
  | notified id' source notice hid =>
    rw [World.ids, mem_eraseHandler, if_pos (hlog id' source notice w.clock (.head _)),
      mem_waitSetRemove]
    exact and_congr_left' (h id)
  | quiet | posted | ran | waited | returned => exact h id

theorem mirrored_of_reaches {w : World} (h : Reaches w w') (hlog : Unexpired w'.log)
    (hw : Mirrored w) :
    Mirrored w' := by
  induction h with
  | refl => exact hw
  | tail _ hmove ih => exact mirrored_moves hmove hlog (ih (hlog.suffix hmove.grows.1))

/-- What follows on a wait that returns results: all of them are for handlers that there are, and
the first handler is notified next. -/
def Answered (w w' : World) : Prop :=
  ∀ deadline elapsed results maxResults, .waited deadline elapsed (.ok results maxResults) ::
    w.log <:+ w'.log →
    (∀ result ∈ results, result.cookie ∈ w.ids) ∧ ∃ result ∈ results, ∃ notice clock,
      .notified result.cookie .results notice clock :: .waited deadline elapsed
        (.ok results maxResults) :: w.log
        <:+ w'.log

theorem suffix_cons_inj {e e' : Event} (h : e :: log <:+ log') (h' : e' :: log <:+ log') :
    e = e' := by
  have heq := List.suffix_of_suffix_length_le h h' (by simp)
  exact (List.cons.inj (heq.eq_of_length_le (by simp))).1

variable {env : Environment} {callbacks : Callbacks} {w : World}

variable {deadline elapsed : ℕ} {result : WaitSetResult}

theorem answered_of_notified {results : List WaitSetResult} {maxResults : ℕ}
    {notice : Notice} {clock : ℤ} (hids : ∀ result ∈ results, result.cookie ∈ w.ids)
    (hmem : result ∈ results) (hle : .notified result.cookie .results notice clock ::
      .waited deadline elapsed (.ok results maxResults) :: w.log <:+ w'.log) : Answered w w' := by
  intro deadline' elapsed' results' maxResults' hle'
  obtain ⟨rfl, rfl, heq⟩ := Event.waited.inj
    (suffix_cons_inj hle' ((List.suffix_cons _ _).trans hle))
  obtain ⟨rfl, rfl⟩ := Outcome.ok.inj heq
  exact ⟨hids, result, hmem, notice, clock, hle⟩

theorem answered_of_waited {outcome : Outcome}
    (hne : ∀ results maxResults, outcome ≠ .ok results maxResults)
    (hle : .waited deadline elapsed outcome :: w.log <:+ w'.log) : Answered w w' := by
  intro deadline' elapsed' results' maxResults' hle'
  exact absurd (Event.waited.inj (suffix_cons_inj hle hle')).2.2 (hne _ _)

theorem continues_answered (quitWhenIdle shouldContinue : Bool) (h : Answered w w') :
    Runs (continues quitWhenIdle shouldContinue) w' (fun _ => Answered w) (Answered w) :=
  Runs.get_bind (runs_shouldQuit (fun _ => h) fun _ => h)

variable {rec : Call → Running Bool}

variable (env callbacks) in
theorem notifyResults_notifies (hrec : Keeps rec)
    (results : List WaitSetResult) (hgood : Numbers w.log → Good w) (hid : result.cookie ∈ w.ids)
    (hresults : Numbers w.log → Punctual w.log → ∀ r ∈ result :: results,
      r.waitResult ≠ .deadlineExceeded) :
    ∃ notice, Ends (notifyResults env callbacks rec (result :: results) false) w
      fun w' => .notified result.cookie .results notice w.clock :: w.log <:+ w'.log := by
  obtain ⟨handler, hlookup⟩ := Option.isSome_iff_exists.mp (lookup_isSome_iff.mpr hid)
  have hkept : Kept w (w.notified .results result.cookie
      (if result.waitResult = .ok then .ready else .error result.waitResult)) := by
    refine notified_keeps hgood hid (fun hids hpunctual hnotice => ?_) nofun
    split at hnotice
    · cases hnotice
    · exact absurd (Notice.error.inj hnotice) (hresults hids hpunctual result (.head _))
  refine ⟨if result.waitResult = .ok then .ready else .error result.waitResult, Runs.get_bind ?_⟩
  rw [hlookup]
  refine Runs.bind (notify_safe hrec handler hkept) (fun _ hw' => hw'.suffix) fun _ w' hw' => ?_
  refine runs_shouldQuit (fun _ => hw'.1.suffix) fun _ => ?_
  refine (notifyResults_keeps hrec results true hw'.1.good fun hids hpunctual r hr => ?_).mono
    (fun _ _ hw'' => hw'.1.suffix.trans hw''.1.suffix) fun _ hw'' => hw'.1.suffix.trans hw''.suffix
  have hle := hkept.1.suffix.trans hw'.1.suffix
  exact hresults (hids.suffix hle) (hpunctual.suffix hle) r (.tail _ hr)

theorem waitAndNotify_answers (henv : env.Honest) (hrec : Keeps rec)
    (hgood : Numbers w.log → Good w) (hmirrored : Mirrored w) (quitWhenIdle : Bool) {now : ℤ}
    (hnow : now ≤ w.clock) (shouldContinue : Bool) (absoluteDeadline : ℤ × Bool) :
    Ends (waitAndNotify env callbacks rec quitWhenIdle now shouldContinue absoluteDeadline) w
      (Answered w) := by
  obtain ⟨deadline, hdeadline⟩ : ∃ deadline, deadline = if absoluteDeadline.1 =
      kInvalidTimeTicks then indefinite
    else (max now absoluteDeadline.1 - now).toNat := ⟨_, rfl⟩
  obtain ⟨⟨elapsed, outcome⟩, hwait⟩ :
    ∃ x, env.wait w deadline (w.currentRunState.elim 0 RunState.resultsSize) = x := ⟨_, rfl⟩
  let w₁ : World :=
    { w with clock := w.clock + elapsed, log := .waited deadline elapsed outcome :: w.log }
  have hrun : waitSetWait env deadline w = .ok outcome w₁ := by
    rw [waitSetWait, get_bind, hwait]
    rfl
  have hreturns : Runs (waitSetWait env deadline) w (fun o w' => o = outcome ∧ w' = w₁)
      fun _ => False := by
    rw [Runs, hrun]
    exact ⟨rfl, rfl⟩
  obtain ⟨hkept, -⟩ := (waitSetWait_keeps (R := fun _ => True) hgood deadline).of_ok hrun
  rw [hdeadline] at hreturns
  refine Runs.bind hreturns (fun _ => False.elim) ?_
  rintro _ _ ⟨rfl, rfl⟩
  rename_i outcome
  cases outcome with
  | ok results maxResults =>
    obtain ⟨hsome, hcookies⟩ := henv w deadline _ elapsed results maxResults hwait
    have hids : ∀ result ∈ results, result.cookie ∈ w.ids :=
      fun result hresult => (hmirrored _).mp (hcookies result hresult)
    obtain ⟨result, rest, rfl⟩ := List.exists_cons_of_ne_nil hsome
    have hgrow : Safe w₁
        { w₁ with currentRunState := w₁.currentRunState.map (growResults maxResults) } :=
      .quiet hkept.1.good (fun _ => id) _ le_rfl
    obtain ⟨notice, hnotifies⟩ := notifyResults_notifies env callbacks hrec rest hgrow.good
      (hids result (.head _)) fun _ hpunctual => (hpunctual _ _ _ (.head _)).2 _ maxResults rfl
    refine Runs.modify_bind (Runs.bind hnotifies
      (fun w' hle => answered_of_notified hids (.head _) hle) ?_)
    exact fun didWork w' hle => continues_answered _ _ (answered_of_notified hids (.head _) hle)
  | deadlineExceeded =>
    refine Runs.bind (hrec.deadlines absoluteDeadline.1 false w₁ hkept.1.good ?_) ?_ ?_
    · intro _ hpunctual
      exact deadline_le_clock hnow (hdeadline ▸ (hpunctual _ _ _ (.head _)).1 rfl)
    · exact fun w' hw' => answered_of_waited (by simp) hw'.suffix
    · exact fun didWork w' hw' => continues_answered _ _ (answered_of_waited (by simp) hw'.1.suffix)
  | failed => exact answered_of_waited (by simp) (List.suffix_refl _)

/-- A program only leads to worlds that the operations reach. In these, as long as no deadline of a
handler has expired, the wait set mirrors the handlers, and a wait that has results is answered. -/
theorem waitSet_mirrors (henv : env.Honest) (callbacks : Callbacks) (clock : ℤ) :
    (∀ fuel n main, Safe (World.new clock)
      (ending (life env callbacks fuel n main (World.new clock)))) ∧
    ∀ w, Safe (World.new clock) w → Unexpired w.log → (∀ id, id ∈ w.waitSet ↔ id ∈ w.ids) ∧
      ∀ fuel quitWhenIdle now shouldContinue absoluteDeadline, now ≤ w.clock →
        Ends (waitAndNotify env callbacks (call env callbacks fuel) quitWhenIdle now shouldContinue
        absoluteDeadline) w
          (Answered w) := by
  refine ⟨fun fuel n main => ending_safe env callbacks fuel n main clock, fun w hsafe hlog => ?_⟩
  have hmirrored := mirrored_of_reaches hsafe.reaches hlog fun _ => Iff.rfl
  exact ⟨hmirrored, fun fuel quitWhenIdle now shouldContinue absoluteDeadline hnow =>
    waitAndNotify_answers henv (call_keeps env callbacks fuel) hsafe.good hmirrored quitWhenIdle
      hnow shouldContinue
      absoluteDeadline⟩

def servesLast : Environment :=
  ⟨fun _ => 0, fun w _ _ =>
    match w.waitSet with
    | [] => (0, .failed)
    | id :: _ => (0, .ok [⟨id, .ok⟩] 1)⟩

def twoHandlers (next : Script) : Script :=
  .addHandler 0 5 fun _ => .addHandler 0 indefinite fun _ => next

def withTwoHandlers : World :=
  { World.new 5 with
    nextId := 3
    handlers := [(1, 0), (2, 0)]
    waitSet := [2, 1]
    handlerDeadlines := [⟨1, 10⟩]
    log := [.added 2 5 indefinite, .added 1 5 5] }

theorem servesLast_honest : servesLast.Honest := by
  intro w deadline size elapsed results maxResults hwait
  simp only [servesLast] at hwait
  split at hwait
  · cases hwait
  · next id rest hset =>
    cases hwait
    simp [hset]

theorem waitSet_mirrors_two : ending
    (life servesLast idleCallbacks 9 0 (twoHandlers .ret) (World.new 5)) =
      withTwoHandlers ∧
    (2 ∈ withTwoHandlers.waitSet ↔ 2 ∈ withTwoHandlers.ids) ∧
    Ends (waitAndNotify servesLast idleCallbacks (call servesLast idleCallbacks 9) false 5 false
      (10, false)) withTwoHandlers (Answered withTwoHandlers) := by
  have hend : ending (life servesLast idleCallbacks 9 0 (twoHandlers .ret) (World.new 5)) =
      withTwoHandlers := by
    decide +kernel
  obtain ⟨hsafe, hall⟩ := waitSet_mirrors servesLast_honest idleCallbacks 5
  have h := hall withTwoHandlers (hend ▸ hsafe 9 0 (twoHandlers .ret))
    (by simp [Unexpired, withTwoHandlers])
  exact ⟨hend, h.1 2, h.2 9 false 5 false (10, false) le_rfl⟩

def expiresFirst : Environment :=
  ⟨fun _ => 0, fun w deadline _ =>
    if 1 ∈ w.ids then (deadline, .deadlineExceeded)
    else if 1 ∈ w.waitSet then (0, .ok [⟨1, .ok⟩] 1)
    else (0, .failed)⟩

theorem expiresFirst_honest : expiresFirst.Honest := by
  intro w deadline size elapsed results maxResults hwait
  simp only [expiresFirst] at hwait
  split_ifs at hwait with hid hset
  · cases hwait
  · cases hwait
    simpa using hset
  · cases hwait

/-- The deadline of the first of two handlers is exceeded. The wait set still has its cookie, and
returns it again and again: no handler is called, and the loop does not end. -/
theorem waitSet_keeps_expired : expiresFirst.Honest ∧
    let w := ending (life expiresFirst idleCallbacks 9 0 (twoHandlers (.run .ret)) (World.new 5))
    w.ids = [2] ∧ w.waitSet = [2, 1] ∧ 3 < w.log.count (.waited indefinite 0 (.ok [⟨1, .ok⟩] 1)) ∧
      notifications w.log 1 = [(.deadlines, .error .deadlineExceeded)] ∧
        notifications w.log 2 = [] :=
  ⟨expiresFirst_honest, by decide +kernel⟩

end Mojo.CppUtility
