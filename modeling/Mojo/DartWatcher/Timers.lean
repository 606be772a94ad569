import Mathlib.Algebra.Group.Int.Defs
import Mathlib.Algebra.Group.Nat.Defs
import Mathlib.Data.List.Sort
import Mojo.System.Runs

/-!
# Timers of the Dart handle watcher

The timers are a `std::set` ordered by deadline. Two timers with the same deadline are one
element of it, whatever their ports, and so the second is not inserted. The wait ends at
the first deadline if the clock is at a whole millisecond that is not past it.
-/

namespace Mojo.DartWatcher

open Mojo.System List

structure HandleWatcherTimer where
  deadline : ℤ
  port : ℤ
  deriving DecidableEq

def insert (timer : HandleWatcherTimer) (timers : List HandleWatcherTimer) :
    List HandleWatcherTimer :=
  if ∀ t ∈ timers, t.deadline ≠ timer.deadline then
    timers.orderedInsert (fun l r => l.deadline ≤ r.deadline) timer
  else timers

inductive TimerEvent
  | updateTimer (deadline port : ℤ)
  | completeNextTimer

/-- The set, the deadline of the last command of each port if it was neither cancelled nor
completed since, and the timers whose ports were notified, the last one first. -/
structure Timers where
  timers : List HandleWatcherTimer := []
  pending : ℤ → Option ℤ := fun _ => none
  posted : List HandleWatcherTimer := []

def Timers.step (s : Timers) : TimerEvent → Option Timers
  | .updateTimer deadline port =>
    let timers := s.timers.eraseP (·.port = port)
    some { s with
      timers := if deadline < 0 then timers else insert ⟨deadline, port⟩ timers
      pending := Function.update s.pending port (if deadline < 0 then none else some deadline) }
  | .completeNextTimer =>
    s.timers.head?.map fun t =>
      ⟨s.timers.tail, Function.update s.pending t.port none, t :: s.posted⟩

def Timers.Faithful (s : Timers) : Prop := ∀ t, t ∈ s.timers ↔ s.pending t.port = some t.deadline

def Timers.Collides (s : Timers) : TimerEvent → Prop
  | .updateTimer deadline port => 0 ≤ deadline ∧ ∃ other ≠ port, s.pending other = some deadline
  | .completeNextTimer => False

def Timers.Distinct (s : Timers) : Prop := s.timers.Pairwise fun t t' => t.deadline ≠ t'.deadline

variable {timers : List HandleWatcherTimer}

theorem mem_insert {timer x : HandleWatcherTimer} :
    x ∈ insert timer timers ↔ x ∈ timers ∨ x = timer ∧ ∀ t ∈ timers,
      t.deadline ≠ timer.deadline := by
  unfold insert
  split_ifs with h
  · rw [mem_orderedInsert, and_iff_left h, or_comm]
  · exact ⟨.inl, fun hx => hx.resolve_right fun hx => h hx.2⟩

variable {s s' : Timers} {e : TimerEvent}

theorem Timers.Distinct.step (h : s.Distinct) (hstep : s.step e = some s') :
    s'.Distinct := by
  cases e with
  | updateTimer deadline port =>
    obtain rfl := Option.some.inj hstep
    have hrest := h.sublist (eraseP_sublist (p := (·.port = port)))
    unfold Distinct insert
    dsimp only
    split_ifs with hneg hfree
    · exact hrest
    · rw [(perm_orderedInsert _ _ _).pairwise_iff fun hne => hne.symm, pairwise_cons]
      exact ⟨fun t ht => (hfree t ht).symm, hrest⟩
    · exact hrest
  | completeNextTimer =>
    obtain ⟨t, -, rfl⟩ := Option.map_eq_some_iff.mp hstep
    exact h.tail

theorem mem_eraseP (h : s.Faithful) (hs : s.Distinct) (port : ℤ) (x : HandleWatcherTimer) :
    x ∈ s.timers.eraseP (·.port = port) ↔ x ∈ s.timers ∧ x.port ≠ port := by
  have hports : s.timers.Pairwise fun t t' => t.port ≠ t'.port := by
    refine hs.imp_of_mem fun ht ht' hne heq => hne ?_
    have hpending := (h _).mp ht
    rw [heq, (h _).mp ht', Option.some.injEq] at hpending
    exact hpending.symm
  generalize s.timers = ts at hports
  induction ts with
  | nil => simp
  | cons t ts ih =>
    obtain ⟨hfirst, hrest⟩ := pairwise_cons.mp hports
    by_cases ht : t.port = port
    · rw [eraseP_cons_of_pos (by simpa using ht)]
      grind
    · rw [eraseP_cons_of_neg (by simpa using ht)]
      grind

theorem step_faithful_iff (h : s.Faithful) (hs : s.Distinct) (e : TimerEvent) :
    (∀ s', s.step e = some s' → s'.Faithful) ↔ ¬ s.Collides e := by
  cases e with
  | updateTimer deadline port =>
    have hrest := mem_eraseP h hs port
    simp only [Timers.step, Option.some.injEq, forall_eq', Timers.Faithful, Timers.Collides]
    by_cases hneg : deadline < 0
    · simp only [hneg, ↓reduceIte, hrest, h _, Function.update_apply]
      grind
    · simp only [hneg, ↓reduceIte, mem_insert, hrest, h _, Function.update_apply]
      constructor
      · rintro hall ⟨-, other, hne, hother⟩
        rcases (hall ⟨deadline, port⟩).mpr (if_pos rfl) with hold | hnew
        · exact hold.2 rfl
        · exact hnew.2 ⟨deadline, other⟩ ⟨hother, hne⟩ rfl
      · rintro hfree ⟨d, p⟩
        grind
  | completeNextTimer =>
    refine iff_of_true (fun s' hstep t' => ?_) not_false
    obtain ⟨t, ht, rfl⟩ := Option.map_eq_some_iff.mp hstep
    obtain ⟨ts, hts⟩ := head?_eq_some_iff.mp ht
    have hmem := h t'
    have hhead := h t
    rw [Timers.Distinct, hts, pairwise_cons] at hs
    simp only [hts, tail_cons, Function.update_apply] at hmem hhead ⊢
    grind

/-- The set has the pending timers after every event if and only if no timer is ever set for the
deadline that another port has. -/
theorem timers_faithful_iff (events : List TimerEvent) :
    Each Timers.step (fun s e => ∀ s', s.step e = some s' → s'.Faithful) {} events ↔
      Each Timers.step (fun s e => ¬ s.Collides e) {} events :=
  each_iff (P := fun s => s.Faithful ∧ s.Distinct) (fun _ e h => step_faithful_iff h.1 h.2 e)
    (fun _ _ s' h hkept hstep => ⟨hkept s' hstep, h.2.step hstep⟩) ⟨fun t => by simp, .nil⟩

theorem second_timer_lost : ∃ s, run Timers.step {} [.updateTimer 5 1, .updateTimer 5 2] = some s ∧
    s.timers = [⟨5, 1⟩] ∧ s.pending 2 = some 5 :=
  ⟨_, rfl, rfl, rfl⟩

def TimerEvent.sets (t : HandleWatcherTimer) : TimerEvent → Bool
  | .updateTimer deadline port => 0 ≤ deadline ∧ t = ⟨deadline, port⟩
  | .completeNextTimer => false

theorem count_insert_le (timer t : HandleWatcherTimer) (timers : List HandleWatcherTimer) :
    (insert timer timers).count t ≤ timers.count t + if t = timer then 1 else 0 := by
  unfold insert
  split_ifs with hfree heq heq
  · rw [(perm_orderedInsert _ _ _).count_eq, count_cons, if_pos (by simp [heq])]
  · rw [(perm_orderedInsert _ _ _).count_eq, count_cons, if_neg (by simpa using Ne.symm heq)]
  · exact Nat.le_succ _
  · exact le_rfl

theorem count_step_le (hstep : s.step e = some s')
    (t : HandleWatcherTimer) :
    s'.posted.count t + s'.timers.count t ≤
      s.posted.count t + s.timers.count t + if e.sets t then 1 else 0 := by
  cases e with
  | updateTimer deadline port =>
    obtain rfl := Option.some.inj hstep
    have hrest := (eraseP_sublist (p := (·.port = port)) (l := s.timers)).count_le t
    have hinsert := count_insert_le ⟨deadline, port⟩ t (s.timers.eraseP (·.port = port))
    simp only [TimerEvent.sets, decide_eq_true_eq]
    by_cases hneg : deadline < 0
    · simp only [hneg, ↓reduceIte]
      omega
    · simp only [hneg, ↓reduceIte, not_lt.mp hneg, true_and]
      omega
  | completeNextTimer =>
    obtain ⟨t', ht', rfl⟩ := Option.map_eq_some_iff.mp hstep
    obtain ⟨ts, hts⟩ := head?_eq_some_iff.mp ht'
    simp only [hts, tail_cons, count_cons]
    omega

variable {events : List TimerEvent}

/-- No timer is completed more often than it was set. -/
theorem completed_le_sets
    (hrun : run Timers.step s events = some s') (t : HandleWatcherTimer) :
    s'.posted.count t + s'.timers.count t ≤
      s.posted.count t + s.timers.count t + events.countP (·.sets t) := by
  induction events generalizing s with
  | nil =>
    obtain rfl := Option.some.inj hrun
    exact le_rfl
  | cons e events ih =>
    obtain ⟨s₁, hstep, hrun⟩ := run_cons.mp hrun
    have hfirst := count_step_le hstep t
    have hrest := ih hrun
    rw [countP_cons]
    omega

structure Timers.Sorted (s : Timers) : Prop where
  nonneg : ∀ t ∈ s.timers, 0 ≤ t.deadline
  sorted : s.timers.Pairwise fun t t' => t.deadline ≤ t'.deadline

theorem Timers.Sorted.step (hstep : s.step e = some s')
    (h : s.Sorted) : s'.Sorted := by
  cases e with
  | updateTimer deadline port =>
    obtain rfl := Option.some.inj hstep
    have hsub := eraseP_sublist (p := (·.port = port)) (l := s.timers)
    have hrest := h.sorted.sublist hsub
    split_ifs with hneg
    · exact ⟨fun t ht => h.nonneg t (hsub.subset ht), hrest⟩
    · refine ⟨fun t ht => ?_, ?_⟩
      · rcases mem_insert.mp ht with hold | ⟨rfl, -⟩
        · exact h.nonneg t (hsub.subset hold)
        · exact not_lt.mp hneg
      · unfold insert
        split_ifs
        · exact hrest.orderedInsert _ _
        · exact hrest
  | completeNextTimer =>
    obtain ⟨t, -, rfl⟩ := Option.map_eq_some_iff.mp hstep
    exact ⟨fun t ht => h.nonneg t (mem_of_mem_tail ht), h.sorted.tail⟩

theorem sorted_of_run
    (hrun : run Timers.step {} events = some s) : s.Sorted :=
  run_invariant (fun _ _ _ => Timers.Sorted.step) hrun ⟨by simp, .nil⟩

def getDartTimeInMillis (clock : ℕ → ℤ) (reading : ℕ) : ℤ := (clock reading).tdiv 1000

def processTimers (clock : ℕ → ℤ) : List HandleWatcherTimer → ℕ → List HandleWatcherTimer × ℕ
  | [], k => ([], k + 1)
  | t :: ts, k =>
    if getDartTimeInMillis clock k ≥ t.deadline then processTimers clock ts (k + 1)
    else (t :: ts, k + 1)

/-- `ProcessTimers` completes the timers at the front, one after another. -/
theorem run_processTimers (clock : ℕ → ℤ) (s : Timers) (k : ℕ) :
    ∃ n s', run Timers.step s (List.replicate n .completeNextTimer) = some s' ∧
      s'.timers = (processTimers clock s.timers k).1 ∧
      s.timers.reverse ++ s.posted = s'.timers.reverse ++ s'.posted := by
  obtain ⟨timers, pending, posted⟩ := s
  induction timers generalizing pending posted k with
  | nil => exact ⟨0, _, rfl, rfl, rfl⟩
  | cons t ts ih =>
    dsimp only
    rw [processTimers]
    split_ifs
    · obtain ⟨n, s', hrun, htimers, hposted⟩ :=
        ih (k + 1) (Function.update pending t.port none) (t :: posted)
      refine ⟨n + 1, s', run_cons.mpr ⟨_, rfl, hrun⟩, htimers, ?_⟩
      rw [← hposted, reverse_cons, append_assoc, singleton_append]
    · exact ⟨0, _, rfl, rfl, rfl⟩

theorem processTimers_suffix (clock : ℕ → ℤ) (timers : List HandleWatcherTimer) (k : ℕ) :
    (processTimers clock timers k).1 <:+ timers := by
  induction timers generalizing k with
  | nil => exact suffix_refl _
  | cons t ts ih =>
    rw [processTimers]
    split_ifs
    · exact (ih (k + 1)).trans (suffix_cons t ts)
    · exact suffix_refl _

variable {clock : ℕ → ℤ} {t : HandleWatcherTimer}

-- What is left is later than some reading, and so is all that is behind it in the set.
theorem processTimers_due (hclock : ∀ k, clock k ≤ clock (k + 1))
    (h : timers.Pairwise fun t t' => t.deadline ≤ t'.deadline)
    (k : ℕ) (ht : t ∈ (processTimers clock timers k).1) :
    getDartTimeInMillis clock k < t.deadline := by
  induction timers generalizing k with
  | nil => cases ht
  | cons t' ts ih =>
    obtain ⟨hfirst, hrest⟩ := pairwise_cons.mp h
    rw [processTimers] at ht
    split_ifs at ht with hdue
    · have hnext : getDartTimeInMillis clock k ≤ getDartTimeInMillis clock (k + 1) :=
        Int.tdiv_le_tdiv (by decide) (hclock k)
      exact hnext.trans_lt (ih hrest (k + 1) ht)
    · rcases mem_cons.mp ht with rfl | hmem
      · exact not_le.mp hdue
      · exact (not_le.mp hdue).trans_le (hfirst t hmem)

theorem faithful_of_run
    (hrun : run Timers.step {} events = some s)
    (heach : Each Timers.step (fun s e => ¬ s.Collides e) {} events) : s.Faithful ∧ s.Distinct :=
  run_invariant_of_each (P := fun s => s.Faithful ∧ s.Distinct)
    (fun _ _ s' hstep hfree h => ⟨(step_faithful_iff h.1 h.2 _).mpr hfree s' hstep, h.2.step hstep⟩)
    hrun heach ⟨fun t => by simp, .nil⟩

/-- A pending timer whose time has come is completed by `ProcessTimers`, once. -/
theorem pending_completed_once (hclock : ∀ k, clock k ≤ clock (k + 1))
    (hrun : run Timers.step {} events = some s)
    (heach : Each Timers.step (fun s e => ¬ s.Collides e) {} events)
    (ht : s.pending t.port = some t.deadline) {k : ℕ}
    (hdue : t.deadline ≤ getDartTimeInMillis clock k) :
    ∃ n s', run Timers.step s (List.replicate n .completeNextTimer) = some s' ∧
      s'.timers = (processTimers clock s.timers k).1 ∧
      s'.posted.count t = s.posted.count t + 1 := by
  obtain ⟨hfaithful, hdistinct⟩ := faithful_of_run hrun heach
  obtain ⟨n, s', hrun', htimers, hposted⟩ := run_processTimers clock s k
  refine ⟨n, s', hrun', htimers, ?_⟩
  have hnodup : s.timers.Nodup :=
    hdistinct.imp fun {_ _} hne heq => hne (congrArg HandleWatcherTimer.deadline heq)
  have honce : s.timers.count t = 1 := count_eq_one_of_mem hnodup ((hfaithful t).mpr ht)
  have hgone : s'.timers.count t = 0 := by
    rw [count_eq_zero, htimers]
    exact fun hmem => absurd (processTimers_due hclock (sorted_of_run hrun).sorted k hmem)
      hdue.not_gt
  have hcount := congrArg (List.count t) hposted
  rw [count_append, count_append, count_reverse, count_reverse] at hcount
  omega

def deadlineIndefinite : ℕ := 2 ^ 64 - 1

def waitDeadline (clock : ℕ → ℤ) (timers : List HandleWatcherTimer) (k : ℕ) : ℕ :=
  match timers with
  | [] => deadlineIndefinite
  | t :: _ => ((t.deadline - getDartTimeInMillis clock k) * 1000 % 2 ^ 64).toNat

def remaining (clock : ℕ → ℤ) (t : HandleWatcherTimer) (k : ℕ) : ℕ :=
  (t.deadline * 1000 - clock k).toNat

/-- The clock is at the millisecond of the deadline, or before it and at the start of a
millisecond. A product of 2^64 or more loses its upper bits. -/
def WaitExact (clock : ℕ → ℤ) (t : HandleWatcherTimer) (k : ℕ) : Prop :=
  getDartTimeInMillis clock k = t.deadline ∨
    getDartTimeInMillis clock k < t.deadline ∧
      (clock k ≤ 0 ∨ clock k % 1000 = 0 ∨
        2 ^ 64 ≤ (t.deadline - getDartTimeInMillis clock k) * 1000)

theorem getDartTimeInMillis_spec (clock : ℕ → ℤ) (k : ℕ) :
    clock k ≤ 0 ∧ getDartTimeInMillis clock k ≤ 0 ∧
        clock k ≤ getDartTimeInMillis clock k * 1000 ∨
      0 < clock k ∧ clock k % 1000 = clock k - getDartTimeInMillis clock k * 1000 := by
  rw [getDartTimeInMillis, Int.tdiv_eq_ediv, show Int.sign 1000 = 1 from rfl]
  split_ifs <;> omega

theorem waitDeadline_cons_le_iff {k : ℕ} (hclock : clock k < 2 ^ 63)
    (ht : 0 ≤ t.deadline) (ts : List HandleWatcherTimer) :
    waitDeadline clock (t :: ts) k ≤ remaining clock t k ↔ WaitExact clock t k := by
  have hspec := getDartTimeInMillis_spec clock k
  rw [waitDeadline, remaining, WaitExact]
  generalize getDartTimeInMillis clock k = q at hspec ⊢
  rcases lt_trichotomy (t.deadline - q) 0 with hpast | hnow | hahead
  · have : ((t.deadline - q) * 1000 % 2 ^ 64) = (t.deadline - q) * 1000 + 2 ^ 64 := by omega
    omega
  · rw [hnow, Int.zero_mul, Int.zero_emod]
    omega
  · rcases lt_or_ge ((t.deadline - q) * 1000) (2 ^ 64) with hlt | hge
    · rw [Int.emod_eq_of_lt (by omega) hlt]
      omega
    · have hwrap : (t.deadline - q) * 1000 % 2 ^ 64 ≤ (t.deadline - q) * 1000 - 2 ^ 64 := by
        omega
      refine iff_of_true ?_ (.inr ⟨by omega, .inr (.inr hge)⟩)
      refine Int.toNat_le_toNat (hwrap.trans ?_)
      omega

/-- With a timer left the wait is not indefinite. It is no longer than the time that remains
until the earliest timer exactly if the clock is at a whole millisecond or in the last one. -/
theorem waitDeadline_le_iff {clock : ℕ → ℤ} (hclock : ∀ k, clock k < 2 ^ 63) {s : Timers}
    {events : List TimerEvent} (hrun : run Timers.step {} events = some s)
    {timers : List HandleWatcherTimer} {k k' : ℕ}
    (h : processTimers clock s.timers k = (timers, k')) :
    (waitDeadline clock timers k' = deadlineIndefinite ↔ timers = []) ∧
      ∀ t ts, timers = t :: ts → (∀ t' ∈ ts, t.deadline ≤ t'.deadline) ∧
        (waitDeadline clock timers k' ≤ remaining clock t k' ↔ WaitExact clock t k') := by
  have hsorted := sorted_of_run hrun
  have hsuffix : timers <:+ s.timers := by
    have := processTimers_suffix clock s.timers k
    rwa [h] at this
  cases timers with
  | nil => simp [waitDeadline]
  | cons t ts =>
    have ht := hsorted.nonneg t (hsuffix.subset (.head _))
    refine ⟨iff_of_false ?_ (cons_ne_nil t ts), ?_⟩
    · -- The number is even, so it is not `MOJO_DEADLINE_INDEFINITE`.
      rw [waitDeadline, deadlineIndefinite]
      omega
    · rintro t' ts' heq
      obtain ⟨rfl, rfl⟩ := List.cons.inj heq
      exact ⟨(pairwise_cons.mp (hsorted.sorted.sublist hsuffix.sublist)).1,
        waitDeadline_cons_le_iff (hclock k') ht ts⟩

theorem waitDeadline_le_ahead : waitDeadline (fun k => 1000 * min (k : ℤ) 9) [⟨7, 1⟩] 4 ≤ 3000 := by
  have hrun : run Timers.step {} [.updateTimer 7 1] = some _ := rfl
  exact ((waitDeadline_le_iff (by intro k; omega) hrun (k := 3) rfl).2 ⟨7, 1⟩ [] rfl).2.mpr
    (by unfold WaitExact; decide)

theorem waitDeadline_passed :
    processTimers (fun k => 4000 + 2000 * k) [⟨5, 1⟩] 0 = ([⟨5, 1⟩], 1) ∧
    waitDeadline (fun k => 4000 + 2000 * k) [⟨5, 1⟩] 1 = 2 ^ 64 - 1000 ∧
    remaining (fun k => 4000 + 2000 * k) ⟨5, 1⟩ 1 = 0 :=
  ⟨by decide, by decide, by decide⟩

end Mojo.DartWatcher
