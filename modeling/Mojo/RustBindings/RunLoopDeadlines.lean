import Mojo.RustBindings.RunLoop

/-!
# The next deadline

The loop waits until the deadline of the first entry of the heap whose handler is registered. An
indefinite deadline is zero there, so that its entry is before all others: while the heap has one,
of a registered handler, the loop waits forever. Otherwise it wakes up in time for each handler
whose entry is in the heap.
-/

namespace Mojo.RustBindings

open Mojo.System

namespace RunLoop

variable {σ : Type} {Q : PriorityQueue DeadlineInfo DeadlineInfo.deadline σ} {s : RunLoop σ}

def IsLive (Q : PriorityQueue DeadlineInfo DeadlineInfo.deadline σ) (s : RunLoop σ)
    (info : DeadlineInfo) : Prop :=
  info ∈ Q.items s.deadlines ∧ s.isRegistered info.token = true

def AllIndefinite (s : RunLoop σ) : Prop :=
  ∀ token deadline call, s.deadlineOf token = some (deadline, call) →
    deadline = mojoIndefiniteAbsolute

def WakesInTime (Q : PriorityQueue DeadlineInfo DeadlineInfo.deadline σ) (s : RunLoop σ) : Prop :=
  (∀ token deadline call, s.deadlineOf token = some (deadline, call) →
    deadline ≠ mojoIndefiniteAbsolute → s.getNextDeadline Q ≤ deadline) ∧
  (s.getNextDeadline Q = mojoIndefiniteAbsolute → s.AllIndefinite)

variable {info : DeadlineInfo}

theorem mem_dropStale (h : IsLive Q s info) : info ∈ Q.items (s.dropStale Q).deadlines :=
  Q.mem_dropWhile h.1 (by simp [h.2])

theorem live_of_peek {top : DeadlineInfo} (h : Q.peek (s.dropStale Q).deadlines = some top) :
    IsLive Q s top :=
  ⟨Q.mem_of_mem_dropWhile (Q.peek_mem _ _ h), by simpa using Q.peek_dropWhile h⟩

theorem getNextDeadline_le (h : IsLive Q s info) : s.getNextDeadline Q ≤ info.deadline := by
  have hmem := mem_dropStale h
  cases htop : Q.peek (s.dropStale Q).deadlines with
  | none => exact absurd hmem (by simp [Q.peek_none _ htop])
  | some top => simpa [getNextDeadline, htop] using Q.peek_le _ _ htop _ hmem

theorem getNextDeadline_cases : (∃ info, IsLive Q s info ∧ s.getNextDeadline Q = info.deadline) ∨
      s.getNextDeadline Q = mojoIndefiniteAbsolute := by
  cases htop : Q.peek (s.dropStale Q).deadlines with
  | none => exact Or.inr (by simp [getNextDeadline, htop])
  | some top => exact Or.inl ⟨top, live_of_peek htop, by simp [getNextDeadline, htop]⟩

theorem wakesInTime_iff : WakesInTime Q s ↔ s.AllIndefinite ∨
      ((∀ info, IsLive Q s info → info.deadline ≠ mojoIndefiniteAbsolute) ∧
        ∀ token deadline call, s.deadlineOf token = some (deadline, call) →
        deadline ≠ mojoIndefiniteAbsolute →
          ∃ info, IsLive Q s info ∧ info.deadline ≤ deadline) := by
  constructor
  · rintro ⟨hle, hforever⟩
    by_cases hall : s.AllIndefinite
    · exact Or.inl hall
    · have hnext : s.getNextDeadline Q ≠ mojoIndefiniteAbsolute := fun h => hall (hforever h)
      obtain ⟨first, hfirst, hdeadline⟩ := getNextDeadline_cases.resolve_right hnext
      refine Or.inr ⟨fun info hinfo hzero => hnext ?_, fun token deadline call hof hd => ?_⟩
      · exact Nat.le_zero.mp ((getNextDeadline_le hinfo).trans_eq hzero)
      · exact ⟨first, hfirst, hdeadline ▸ hle token deadline call hof hd⟩
  · rintro (hall | ⟨hfinite, hcovered⟩)
    · exact ⟨fun token deadline call hof hd => absurd (hall token deadline call hof) hd,
        fun _ => hall⟩
    · refine ⟨fun token deadline call hof hd => ?_, fun hzero token deadline call hof => ?_⟩
      · obtain ⟨info, hlive, hle⟩ := hcovered token deadline call hof hd
        exact (getNextDeadline_le hlive).trans hle
      · by_contra hd
        obtain ⟨info, hlive, -⟩ := hcovered token deadline call hof hd
        have hnil : Q.peek (s.dropStale Q).deadlines = none := by
          cases htop : Q.peek (s.dropStale Q).deadlines with
          | none => rfl
          | some top =>
            have : s.getNextDeadline Q = top.deadline := by simp [getNextDeadline, htop]
            exact absurd (this.symm.trans hzero) (hfinite top (live_of_peek htop))
        exact absurd (mem_dropStale hlive) (by simp [Q.peek_none _ hnil])

end RunLoop

namespace World

variable {σ : Type} {Q : PriorityQueue DeadlineInfo DeadlineInfo.deadline σ} {w w' : World σ}

/-- The entry of a registered handler is in the heap, unless `notify_of_expired` has popped it. -/
def KeepsEntries (Q : PriorityQueue DeadlineInfo DeadlineInfo.deadline σ) (w : World σ) : Prop :=
  ∀ token deadline call, w.loop.deadlineOf token = some (deadline, call) →
    ⟨token, deadline, call⟩ ∈ Q.items w.loop.deadlines ∨ ⟨token, deadline, call⟩ ∈ w.popped

variable {frame : Option Frame}

theorem keepsEntries_of_alike {loop : RunLoop σ} {fired : List (ℕ × ℕ)}
    {processed : List DeadlineInfo} (halike : w.loop.Alike loop) (h : KeepsEntries Q w) :
    KeepsEntries Q ⟨loop, frame, fired, processed, w.popped⟩ := by
  intro token deadline call hof
  rw [halike.deadlineOf] at hof
  rw [halike.deadlines]
  exact h token deadline call hof

theorem keepsEntries_dropStale {elapsed : ℕ} (h : KeepsEntries Q w) :
    KeepsEntries Q { w with loop := (w.loop.dropStale Q).tick elapsed, frame := frame } := by
  intro token deadline call hof
  refine (h token deadline call hof).imp_left fun hmem => ?_
  exact RunLoop.mem_dropStale ⟨hmem, RunLoop.isRegistered_iff.mpr ⟨_, hof⟩⟩

theorem keepsEntries_endIteration {deadline : ℕ} (h : KeepsEntries Q w) :
    KeepsEntries Q (w.endIteration Q deadline) := by
  unfold endIteration
  split_ifs
  · exact h
  · split
    · exact h
    · next info hpeek =>
      intro token d call hof
      rcases h token d call hof with hmem | hmem
      · refine (Q.eq_or_mem_pop hpeek hmem).symm.imp_right fun heq => ?_
        exact heq ▸ (.head _)
      · exact Or.inr (.tail info hmem)

theorem keepsEntries_perform {op : Op} (h : KeepsEntries Q w) :
    KeepsEntries Q { w with loop := w.loop.perform Q op } := by
  intro token deadline call hof
  cases hsets : op.sets w.loop with
  | none =>
    obtain ⟨hdeadlines, -, hkept⟩ := RunLoop.perform_of_not_sets (Q := Q) hsets
    have hof' : w.loop.deadlineOf token = some (deadline, call) := by
      refine (hkept token).elim (fun hsame => hsame ▸ hof) fun hnone => ?_
      exact absurd (hnone.symm.trans hof) (by simp)
    exact (h token deadline call hof').imp_left fun hmem => hdeadlines ▸ hmem
  | some set =>
    have hset := RunLoop.perform_of_sets (Q := Q) hsets
    rw [hset.deadlineOf] at hof
    simp only [hset.deadlines, Q.mem_push]
    split_ifs at hof with htoken
    · cases hof
      exact Or.inl (Or.inl (by rw [htoken]))
    · exact (h token deadline call hof).imp_left Or.inr

theorem keepsEntries_step {a : Action} (hstep : w.step Q a = some w') (h : KeepsEntries Q w) :
    KeepsEntries Q w' := by
  cases stepped hstep with
  | call op _ => exact keepsEntries_perform h
  | quiet a loop frame halike _ _ _ => exact keepsEntries_of_alike halike h
  | woken tick elapsed cookies _ => exact keepsEntries_dropStale h
  | timedOut tick elapsed top _ _ => exact keepsEntries_dropStale h
  | fire deadline top call loop _ _ halike _ => exact keepsEntries_of_alike halike h
  | skip deadline top loop _ _ halike _ =>
    exact keepsEntries_endIteration (keepsEntries_of_alike halike h)
  | ret deadline top loop _ halike _ =>
    exact keepsEntries_endIteration (keepsEntries_of_alike halike h)

theorem keepsEntries_run {clock : ℕ} {as : List Action}
    (hrun : run (step Q) (World.new Q clock) as = some w) :
    KeepsEntries Q w :=
  run_invariant (fun _ _ _ hstep h => keepsEntries_step hstep h) hrun fun _ _ _ hof =>
    absurd hof (by simp [World.new, RunLoop.new, RunLoop.deadlineOf])

def AllPending (w : World σ) : Prop :=
  ∀ token deadline call, w.loop.deadlineOf token = some (deadline, call) →
    ⟨token, deadline, call⟩ ∉ w.popped

theorem wakes_in_time_iff (Q : PriorityQueue DeadlineInfo DeadlineInfo.deadline σ) (clock : ℕ)
    (as : List Action) (w : World σ) (hrun : run (step Q) (World.new Q clock) as = some w) :
    (w.loop.WakesInTime Q ↔ w.loop.AllIndefinite ∨
      ((∀ info, w.loop.IsLive Q info → info.deadline ≠ mojoIndefiniteAbsolute) ∧
        ∀ token deadline call, w.loop.deadlineOf token = some (deadline, call) →
        deadline ≠ mojoIndefiniteAbsolute →
          ∃ info, w.loop.IsLive Q info ∧ info.deadline ≤ deadline)) ∧
    (w.AllPending → (w.loop.WakesInTime Q ↔ w.loop.AllIndefinite ∨
      ∀ info, w.loop.IsLive Q info → info.deadline ≠ mojoIndefiniteAbsolute)) := by
  refine ⟨RunLoop.wakesInTime_iff, fun hpending => ?_⟩
  rw [RunLoop.wakesInTime_iff]
  refine or_congr_right (and_iff_left fun token deadline call hof _ => ?_)
  have hmem := (keepsEntries_run hrun token deadline call hof).resolve_right
    (hpending token deadline call hof)
  exact ⟨_, ⟨hmem, RunLoop.isRegistered_iff.mpr ⟨_, hof⟩⟩, le_rfl⟩

theorem wakes_in_time_for_two : ∃ w : World (List DeadlineInfo),
      run (step (listQueue _)) (World.new (listQueue _) 5)
        [.call (.register 20 0), .call (.register 10 1)] = some w ∧
        w.loop.getNextDeadline (listQueue _) = 16 ∧ w.loop.WakesInTime (listQueue _) := by
  refine ⟨_, rfl, by decide, ?_⟩
  have hiff := wakes_in_time_iff (listQueue _) 5 [.call (.register 20 0), .call (.register 10 1)] _
    rfl
  refine (hiff.2 fun _ _ _ _ => List.not_mem_nil).mpr (Or.inr fun info hlive => ?_)
  exact (by decide : ∀ info ∈ [(⟨1, 25, 0⟩ : DeadlineInfo), ⟨2, 16, 1⟩], info.deadline ≠ 0)
    info hlive.1

theorem waits_forever : ∃ w : World (List DeadlineInfo), run (step (listQueue _))
    (World.new (listQueue _) 5)
          [.call (.register 10 0), .call (.register mojoIndefinite 0)] = some w ∧
        w.loop.deadlineOf 1 = some (15, 0) ∧ w.loop.getNextDeadline (listQueue _) =
          mojoIndefiniteAbsolute ∧ ¬ w.loop.WakesInTime (listQueue _) :=
  ⟨_, rfl, by decide, by decide, fun h => absurd (h.2 (by decide) 1 15 0 (by decide)) (by decide)⟩

end World

end Mojo.RustBindings
