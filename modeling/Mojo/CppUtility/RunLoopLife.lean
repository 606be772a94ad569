import Mojo.CppUtility.RunLoopRuns

/-!
# The life of a run loop

What the log of a whole program says about the handlers, and about the ends of `Run`.
-/

namespace Mojo.CppUtility

open Mojo.System List

variable {log : List Event} {id : ℕ}

theorem life_safe (env : Environment) (callbacks : Callbacks) (fuel n : ℕ) (main : Script)
    (clock : ℤ) :
    Runs (life env callbacks fuel n main) (World.new clock)
      (fun _ w => Safe (World.new clock) w ∧ (Numbers w.log → ∀ id ∈ w.ids, n < id))
        (Safe (World.new clock)) := by
  have hrec := call_keeps env callbacks fuel
  refine Runs.bind (runScript_keeps hrec main fun _ => good_new clock) (fun _ => id) ?_
  rintro _ w ⟨⟨hsafe, -⟩, -⟩
  have hpos (hids : Numbers w.log) (id : ℕ) (hid : id ∈ w.ids) : 0 < id := by
    have hgood := hsafe.good hids
    exact (hgood.numbered.bounds id (hgood.listed.live id hid).1).1
  refine (destroy_keeps hrec n 0 hsafe.good hpos).mono ?_ fun _ => hsafe.trans
  rintro _ w' ⟨hsafe', hids⟩
  rw [Nat.zero_add] at hids
  exact ⟨hsafe.trans hsafe', hids⟩

theorem ending_safe (env : Environment) (callbacks : Callbacks) (fuel n : ℕ) (main : Script)
    (clock : ℤ) :
    Safe (World.new clock) (ending (life env callbacks fuel n main (World.new clock))) := by
  have hlife := life_safe env callbacks fuel n main clock
  rw [Runs] at hlife
  cases hrun : life env callbacks fuel n main (World.new clock) with
  | ok _ w =>
    rw [hrun] at hlife
    exact hlife.1
  | error _ w =>
    rw [hrun] at hlife
    exact hlife

section Sound

theorem notifications_eq_nil (h : ¬ Notified log id) : notifications log id = [] := by
  rw [notifications, filterMap_eq_nil_iff]
  intro e he
  cases e with
  | notified id' source notice clock =>
    have hne : id' ≠ id := by
      rintro rfl
      exact h ⟨source, notice, clock, he⟩
    exact if_neg hne
  | _ => rfl

variable {source : Source}

variable {notice : Notice} {clock : ℤ}

theorem notifications_cons {id' : ℕ} :
    notifications (.notified id' source notice clock :: log) id =
      (if id' = id then [(source, notice)] else []) ++ notifications log id := by
  rw [notifications, filterMap_cons]
  split <;> simp_all [notifications]

theorem mem_notifications :
    (source, notice) ∈ notifications log id ↔ ∃ clock, .notified id source notice clock ∈ log := by
  rw [notifications, mem_filterMap]
  constructor
  · rintro ⟨e, he, hsome⟩
    cases e with
    | notified id' source' notice' clock =>
      simp only [Option.ite_none_right_eq_some, Option.some.injEq, Prod.mk.injEq] at hsome
      obtain ⟨rfl, rfl, rfl⟩ := hsome
      exact ⟨clock, he⟩
    | _ => cases hsome
  · rintro ⟨clock, hmem⟩
    exact ⟨_, hmem, if_pos rfl⟩

theorem Sound.tail {e : Event} (h : Sound (e :: log)) : Sound log :=
  fun older id source notice clock hold => h older id source notice clock
    (hold.trans (suffix_cons _ _))

theorem Sound.notifications_le (h : Sound log) (id : ℕ) : (notifications log id).length ≤ 1 := by
  induction log with
  | nil => exact Nat.zero_le _
  | cons e log ih =>
    cases e with
    | notified id' source notice clock =>
      rw [notifications_cons]
      split
      · next heq =>
        have hnot := (h log id' source notice clock (suffix_refl _)).notified
        rw [heq] at hnot
        rw [notifications_eq_nil hnot]
        exact le_rfl
      · exact ih h.tail
    | _ => exact ih h.tail

theorem Sound.not_notified {newer older : List Event} (h : Sound (newer ++ .removed id :: older))
    (hadded : Added older id) :
    ¬ Notified newer id := by
  rintro ⟨source, notice, clock, hmem⟩
  obtain ⟨newest, rest, rfl⟩ := append_of_mem hmem
  rw [append_assoc, cons_append] at h
  have hproper := h _ id source notice clock (suffix_append newest _)
  exact hproper.removed ⟨older, suffix_append rest _, hadded⟩

theorem Sound.timely (h : Sound log) (hpunctual : Punctual log)
    (hmem : .notified id source (.error .deadlineExceeded) clock ∈ log) :
    ∃ (now : ℤ) (deadline : ℕ), .added id now deadline ∈ log ∧ now + deadline ≤ clock := by
  obtain ⟨newer, older, rfl⟩ := append_of_mem hmem
  have hle : older <:+ newer ++ .notified id source (.error .deadlineExceeded) clock :: older :=
    (suffix_cons _ _).trans (suffix_append newer _)
  have hproper := h older id source _ clock (suffix_append newer _)
  obtain ⟨now, deadline, hadded, hclock⟩ := hproper.timely (hpunctual.suffix hle) rfl
  exact ⟨now, deadline, hle.subset hadded, hclock⟩

theorem Sound.aborted (h : Sound log) (hn : Notified log id)
    (hsource : ∀ source notice clock, .notified id source notice clock ∈ log →
      source = .destruction) :
    notifications log id = [(.destruction, .error .aborted)] := by
  obtain ⟨source, notice, clock, hmem⟩ := hn
  obtain rfl := hsource source notice clock hmem
  obtain ⟨newer, older, hlog⟩ := append_of_mem hmem
  have hnotice : notice = .error .aborted := by
    rw [hlog] at h
    exact (h older id .destruction notice clock (suffix_append newer _)).aborted rfl
  have hin : (Source.destruction, notice) ∈ notifications log id :=
    mem_notifications.mpr ⟨clock, hmem⟩
  have hone := h.notifications_le id
  match hlist : notifications log id, hone with
  | [], _ =>
    rw [hlist] at hin
    cases hin
  | [x], _ =>
    rw [hlist, mem_singleton] at hin
    rw [← hin, hnotice]

end Sound

/-- Handlers are called once, not after they are removed, not before their deadline for the reason
that it is exceeded, and all of them are called in the end. The destructor calls all handlers with
ids up to the number of its iterations. -/
theorem handlers_notified_once (env : Environment) (callbacks : Callbacks) (fuel n : ℕ)
    (main : Script) (clock : ℤ)
    (hids : issued (ending (life env callbacks fuel n main (World.new clock))).log < 2 ^ 64) :
    (∀ id, (notifications (ending (life env callbacks fuel n main (World.new clock))).log id).length
      ≤ 1) ∧ (∀ id newer older, (ending (life env callbacks fuel n main (World.new clock))).log =
        newer ++ .removed id :: older → Added older id → notifications newer id = []) ∧
      (Punctual (ending (life env callbacks fuel n main (World.new clock))).log →
        ∀ id source (time now : ℤ) (deadline : ℕ),
        .notified id source (.error .deadlineExceeded) time ∈
          (ending (life env callbacks fuel n main (World.new clock))).log →
        .added id now deadline ∈ (ending (life env callbacks fuel n main (World.new clock))).log →
        now + deadline ≤ time) ∧
      ∀ w, life env callbacks fuel n main (World.new clock) = .ok () w → ∀ id, Added w.log id →
        w.handlers = [] ∨ id ≤ n → ¬ Removed w.log id →
        (∀ source notice time, .notified id source notice time ∈ w.log → source = .destruction) →
        notifications w.log id = [(.destruction, .error .aborted)] := by
  have hgood := (ending_safe env callbacks fuel n main clock).good hids
  refine ⟨hgood.sound.notifications_le, ?_, ?_, ?_⟩
  · intro id newer older hlog hadded
    have hsound := hgood.sound
    rw [hlog] at hsound
    exact notifications_eq_nil (hsound.not_notified hadded)
  · intro hpunctual id source time now deadline hmem hadded
    obtain ⟨now', deadline', hadded', hclock⟩ := hgood.sound.timely hpunctual hmem
    obtain ⟨rfl, rfl⟩ := hgood.numbered.unique id now deadline now' deadline' hadded hadded'
    exact hclock
  · intro w hrun id hadded hdone hremoved hsource
    rw [hrun] at hgood hids
    have hlater := ((life_safe env callbacks fuel n main clock).of_ok hrun).2 hids
    have hgone : id ∉ w.ids := by
      intro hid
      rcases hdone with hempty | hle
      · rw [World.ids, hempty] at hid
        cases hid
      · exact Nat.not_lt.mpr hle (hlater id hid)
    rcases hgood.listed.complete id hadded with hid | hr | hn
    · exact absurd hid hgone
    · exact absurd hr hremoved
    · exact hgood.sound.aborted hn hsource

section Programs

def firstReady : Environment := ⟨fun _ => 0, fun _ _ _ => (0, .ok [⟨1, .ok⟩] 1)⟩

def idleCallbacks : Callbacks := ⟨fun _ _ _ => .ret, fun _ => .ret⟩

def removesFirst : Script :=
  .addHandler 0 indefinite fun first => .addHandler 0 5 fun _ => .removeHandler first .ret

def Event.leavesSecond : Event → Bool
  | .notified 2 source _ _ => source == .destruction
  | _ => true

theorem handlers_notified_once_removed :
    notifications (ending (life firstReady idleCallbacks 9 9 removesFirst (World.new 0))).log 2 =
      [(.destruction, .error .aborted)] := by
  have hsource : ∀ e ∈ (ending (life firstReady idleCallbacks 9 9 removesFirst (World.new 0))).log,
      e.leavesSecond = true := by
    decide +kernel
  have honce := handlers_notified_once firstReady idleCallbacks 9 9 removesFirst 0
    (by decide +kernel)
  refine honce.2.2.2 _ rfl 2 ⟨0, 5, by decide +kernel⟩ (.inr (by decide)) ?_ ?_
  · rintro ⟨older, hold, -⟩
    exact absurd (hold.subset (.head _)) (by decide +kernel)
  · intro source notice time hmem
    simpa [Event.leavesSecond] using hsource _ hmem

def addAndRemove (next : Script) : ℕ → Script
  | 0 => next
  | n + 1 => .addHandler 0 indefinite fun id => .removeHandler id (addAndRemove next n)

theorem addHandler_forever (env : Environment) (handler : ℕ) (w : World) :
    addHandler env handler indefinite w = .ok w.nextId { w with
      nextId := (w.nextId + 1) % 2 ^ 64
      handlers := insertHandler w.nextId handler w.handlers
      waitSet := waitSetAdd w.nextId w.waitSet
      log := .added w.nextId w.clock indefinite :: w.log } := by
  have hdeadline : addDeadline env w.nextId indefinite
      { w with nextId := (w.nextId + 1) % 2 ^ 64 } =
      .ok w.clock { w with nextId := (w.nextId + 1) % 2 ^ 64 } := by
    rw [addDeadline, if_neg (by decide)]
    rfl
  have hid : generateId w = .ok w.nextId { w with nextId := (w.nextId + 1) % 2 ^ 64 } := rfl
  rw [addHandler, bind_of_ok hid, bind_of_ok hdeadline]
  rfl

theorem runScript_addAndRemove (env : Environment) (rec : Call → Running Bool) (next : Script)
    (n : ℕ) (w : World)
    (hempty : w.handlers = []) (hwait : w.waitSet = []) (hnext : w.nextId < 2 ^ 64) :
    ∃ log, runScript env rec (addAndRemove next n) w =
      runScript env rec next { w with nextId := (w.nextId + n) % 2 ^ 64, log := log ++ w.log } := by
  induction n generalizing w with
  | zero =>
    refine ⟨[], ?_⟩
    rw [Nat.add_zero, Nat.mod_eq_of_lt hnext]
    rfl
  | succ n ih =>
    have herase : eraseHandler w.nextId (insertHandler w.nextId 0 w.handlers) = [] := by
      rw [hempty]
      simp [insertHandler, eraseHandler]
    let waitSet :=
      if ((insertHandler w.nextId 0 w.handlers).lookup w.nextId).isSome then
        waitSetRemove w.nextId (waitSetAdd w.nextId w.waitSet)
      else waitSetAdd w.nextId w.waitSet
    have hremove : waitSet = [] := by
      simp [waitSet, hempty, hwait, insertHandler, waitSetAdd, waitSetRemove]
    let w' : World := { w with
      nextId := (w.nextId + 1) % 2 ^ 64
      handlers := eraseHandler w.nextId (insertHandler w.nextId 0 w.handlers)
      waitSet := waitSet
      log := .removed w.nextId :: .added w.nextId w.clock indefinite :: w.log }
    have hrun : runScript env rec (addAndRemove next (n + 1)) w =
        runScript env rec (addAndRemove next n) w' :=
      bind_of_ok (addHandler_forever env 0 w)
    obtain ⟨log, hlog⟩ := ih w' herase hremove (Nat.mod_lt _ (Nat.two_pow_pos 64))
    refine ⟨log ++ [.removed w.nextId, .added w.nextId w.clock indefinite], ?_⟩
    have hids : (w'.nextId + n) % 2 ^ 64 = (w.nextId + (n + 1)) % 2 ^ 64 := by
      rw [Nat.mod_add_mod, Nat.add_assoc, Nat.add_comm 1 n]
    have hhandlers : w'.handlers = w.handlers := herase.trans hempty.symm
    have hcookies : w'.waitSet = w.waitSet := hremove.trans hwait.symm
    rw [hrun, hlog, hids, hhandlers, hcookies, append_assoc]
    rfl

def oneAgain (n : ℕ) : Script :=
  .addHandler 0 indefinite fun _ =>
    .runUntilIdle (addAndRemove (.addHandler 0 indefinite fun _ => .runUntilIdle .ret) n)

def callOfFirst (log : List Event) : List Event :=
  .returned true ⟨false, 16, 5, 2⟩ [] [] :: .notified 1 .results .ready 5 :: .waited 0 0
    (.ok [⟨1, .ok⟩] 1) ::
    .added 1 5 indefinite :: log

theorem runScript_called (next : Script) (log : List Event) :
    runScript firstReady (call firstReady idleCallbacks 9)
      (.addHandler 0 indefinite fun _ => .runUntilIdle next)
        ⟨1, [], [], [], [], none, 5, log⟩ =
      runScript firstReady (call firstReady idleCallbacks 9) next
        ⟨2, [], [], [], [], none, 5, callOfFirst log⟩ := by
  rfl

theorem runScript_oneAgain (n : ℕ) (hn : (2 + n) % 2 ^ 64 = 1) :
    ∃ log, runScript firstReady (call firstReady idleCallbacks 9) (oneAgain n) (World.new 5) =
      .ok () ⟨2, [], [], [], [], none, 5, callOfFirst (log ++ callOfFirst [])⟩ := by
  obtain ⟨log, hlog⟩ := runScript_addAndRemove firstReady (call firstReady idleCallbacks 9)
    (.addHandler 0 indefinite fun _ => .runUntilIdle .ret) n
      ⟨2, [], [], [], [], none, 5, callOfFirst []⟩ rfl rfl (by decide)
  refine ⟨log, ?_⟩
  rw [oneAgain, World.new, runScript_called, hlog, hn, runScript_called]
  rfl

/-- After so many handlers, the id of the first one is given to another one. -/
theorem notified_again :
    1 <
      (notifications (ending (life firstReady idleCallbacks 9 9 (oneAgain (2 ^ 64 - 1))
      (World.new 5))).log 1).length := by
  obtain ⟨log, hrun⟩ := runScript_oneAgain (2 ^ 64 - 1) (by decide)
  have hlife : life firstReady idleCallbacks 9 9 (oneAgain (2 ^ 64 - 1)) (World.new 5) =
      .ok () ⟨2, [], [], [], [], none, 5, callOfFirst (log ++ callOfFirst [])⟩ := bind_of_ok hrun
  rw [hlife]
  simp [ending, callOfFirst, notifications]

end Programs

end Mojo.CppUtility
