import Mojo.RustBindings.RunLoop

/-!
# Timeouts

`notify_of_expired` calls the handler of the entry at the top of the heap and then pops the top,
which need not be the same entry: the handler may have set a deadline that is earlier, and an
indefinite one is. If the handler has told the loop to quit, nothing is popped. The entry that stays
in the heap is processed again.
-/

namespace Mojo.RustBindings.World

open Mojo.System List

variable {frame : Option Frame} {top : DeadlineInfo} {op : Op} {a : Action} {deadline : ℕ}
  {as : List Action}
  {σ : Type} {Q : PriorityQueue DeadlineInfo DeadlineInfo.deadline σ} {w w' : World σ}

/-- What is known of the heap where an entry is processed. The top can only change if an earlier
deadline is set. -/
structure Framed (Q : PriorityQueue DeadlineInfo DeadlineInfo.deadline σ) (w : World σ) : Prop where
  expired : ∀ deadline top, w.frame = some (.expired deadline top) →
    Q.peek w.loop.deadlines = some top ∧ w.loop.shouldQuit = false
  timeout : ∀ deadline top, w.frame = some (.timeout deadline top) → top.deadline ≤ deadline ∧
    (Q.peek w.loop.deadlines = some top ∨ ∃ info ∈ Q.items w.loop.deadlines, info.deadline <
      top.deadline)

theorem framed_of_frame (hexpired : ∀ deadline top, frame ≠ some (.expired deadline top))
    (htimeout : ∀ deadline top, frame ≠ some (.timeout deadline top)) (hframe : w.frame = frame) :
    Framed Q w :=
  ⟨fun deadline top h => absurd (hframe.symm.trans h) (hexpired deadline top),
    fun deadline top h => absurd (hframe.symm.trans h) (htimeout deadline top)⟩

theorem peek_push_or {q : σ} (info : DeadlineInfo)
    (h : Q.peek q = some top ∨ ∃ e ∈ Q.items q, e.deadline < top.deadline) :
    Q.peek (Q.push info q) = some top ∨ ∃ e ∈ Q.items (Q.push info q), e.deadline <
      top.deadline := by
  rcases h with hpeek | ⟨e, he, hlt⟩
  · rcases Nat.lt_or_ge info.deadline top.deadline with hlt | hge
    · exact Or.inr ⟨info, Q.mem_push.mpr (Or.inl rfl), hlt⟩
    · exact Or.inl (Q.peek_push q top info hpeek hge)
  · exact Or.inr ⟨e, Q.mem_push.mpr (Or.inr he), hlt⟩

theorem framed_perform (huser : w.inUserCode) (h : Framed Q w) :
    Framed Q { w with loop := w.loop.perform Q op } := by
  refine ⟨fun deadline top hframe => ?_, fun deadline top hframe =>
    ⟨(h.timeout deadline top hframe).1, ?_⟩⟩
  · have hframe' : w.frame = some (.expired deadline top) := hframe
    exact absurd huser (by simp [inUserCode, hframe'])
  · have hpeek := (h.timeout deadline top hframe).2
    cases hsets : op.sets w.loop with
    | none =>
      simp only [(RunLoop.perform_of_not_sets (Q := Q) hsets).1]
      exact hpeek
    | some set =>
      simp only [(RunLoop.perform_of_sets (Q := Q) hsets).deadlines]
      exact peek_push_or _ hpeek

theorem framed_endIteration (deadline : ℕ) : Framed Q (w.endIteration Q deadline) := by
  unfold endIteration
  split_ifs with hquit
  · exact framed_of_frame (by simp) (by simp) rfl
  · split
    · exact framed_of_frame (by simp) (by simp) rfl
    · next info hpeek =>
      refine ⟨fun d top hframe => ?_, fun d top hframe => ?_⟩
      · obtain ⟨top', htop, heq⟩ := Option.map_eq_some_iff.mp hframe
        cases heq
        exact ⟨htop, Bool.eq_false_iff.mpr hquit⟩
      · obtain ⟨top', -, heq⟩ := Option.map_eq_some_iff.mp hframe
        exact absurd heq (by simp)

theorem framed_step (hstep : w.step Q a = some w') (h : Framed Q w) : Framed Q w' := by
  cases stepped hstep with
  | call op huser => exact framed_perform huser h
  | quiet a loop frame _ _ hfiring htop =>
    refine framed_of_frame ?_ ?_ rfl
    · rintro deadline top rfl
      cases htop
    · rintro deadline top rfl
      cases hfiring
  | woken tick elapsed cookies _ => exact framed_of_frame (by simp) (by simp) rfl
  | timedOut tick elapsed top hwait htop =>
    refine ⟨fun d top' hframe => ?_, fun d top' hframe => absurd hframe (by simp)⟩
    cases hframe
    refine ⟨htop, ?_⟩
    simp only [isWaiting, Bool.and_eq_true, Bool.not_eq_true'] at hwait
    exact hwait.1.2
  | fire deadline top call loop hframe hle halike _ =>
    refine ⟨fun d top' hframe' => absurd hframe' (by simp), fun d top' hframe' => ?_⟩
    cases hframe'
    exact ⟨hle, Or.inl (halike.deadlines ▸ (h.expired deadline top hframe).1)⟩
  | skip deadline top loop _ _ _ _ => exact framed_endIteration deadline
  | ret deadline top loop _ _ _ => exact framed_endIteration deadline

theorem firing_of_waiting (h : w.isWaiting) : w.firing = none := by
  simp only [isWaiting, Bool.and_eq_true] at h
  exact firing_eq_none h.1.1.1

theorem framed_new (clock : ℕ) : Framed Q (World.new Q clock) :=
  framed_of_frame (by simp [World.new]) (by simp [World.new]) rfl

/-! ### What is popped is what was processed -/

/-- If a handler returns to `notify_of_expired`, the loop is not to quit and no entry is earlier
than that of the handler. -/
def PopsOwn (Q : PriorityQueue DeadlineInfo DeadlineInfo.deadline σ) (w : World σ) (a : Action) :
    Prop :=
  a = .ret → ∀ top, w.firing = some top →
    w.loop.shouldQuit = false ∧ ∀ info ∈ Q.items w.loop.deadlines, top.deadline ≤ info.deadline

def Matched (w : World σ) : Prop := w.processed = w.firing.toList ++ w.popped

def Mismatched (w : World σ) : Prop :=
  w.popped.length + w.firing.toList.length < w.processed.length ∨
    ∃ p q, p <:+ w.processed ∧ q <:+ w.popped ∧ p.length = q.length ∧ p ≠ q

theorem Mismatched.processed_ne_popped (h : Mismatched w) : w.processed ≠ w.popped := by
  intro heq
  rcases h with hlt | ⟨p, q, hp, hq, hlen, hne⟩
  · rw [heq] at hlt
    omega
  · rw [heq] at hp
    exact hne (List.IsSuffix.eq_of_length (suffix_of_suffix_length_le hp hq hlen.le) hlen)

theorem Mismatched.of_cons (h : Mismatched w) (hprocessed : w.processed <:+ w'.processed)
    (hpopped : w.popped <:+ w'.popped)
    (hlen : w'.popped.length + w'.firing.toList.length + w.processed.length ≤
      w.popped.length + w.firing.toList.length + w'.processed.length) : Mismatched w' := by
  rcases h with hlt | ⟨p, q, hp, hq, hpq⟩
  · exact Or.inl (by omega)
  · exact Or.inr ⟨p, q, hp.trans hprocessed, hq.trans hpopped, hpq⟩

theorem endIteration_popped (deadline : ℕ) :
    (w.endIteration Q deadline).processed = w.processed ∧ (w.endIteration Q deadline).firing =
      none ∧ (w.endIteration Q deadline).popped =
        (if w.loop.shouldQuit then none else Q.peek w.loop.deadlines).toList ++ w.popped := by
  unfold endIteration
  split_ifs with hquit
  · exact ⟨rfl, rfl, rfl⟩
  · split
    · next hpeek => exact ⟨rfl, rfl, by rw [hpeek]; rfl⟩
    · next info hpeek =>
      refine ⟨rfl, ?_, by rw [hpeek]; rfl⟩
      cases Q.peek (Q.pop w.loop.deadlines) <;> simp [firing]

theorem PopsOwn.peek_eq (hframed : Framed Q w) (hframe : w.frame = some (.timeout deadline top))
    (h : PopsOwn Q w .ret) : w.loop.shouldQuit = false ∧ Q.peek w.loop.deadlines = some top := by
  obtain ⟨hquit, hle⟩ := h rfl top (by rw [firing, hframe])
  refine ⟨hquit, (hframed.timeout deadline top hframe).2.resolve_right ?_⟩
  rintro ⟨info, hinfo, hlt⟩
  exact absurd (hle info hinfo) (Nat.not_le.mpr hlt)

theorem matched_step (hstep : w.step Q a = some w') (hframed : Framed Q w) (hpops : PopsOwn Q w a)
    (h : Matched w) : Matched w' := by
  unfold Matched at h ⊢
  cases stepped hstep with
  | call op _ => exact h
  | quiet a loop frame _ hfiring hfiring' _ =>
    rw [hfiring] at h
    have hfiring'' : firing { w with loop := loop, frame := frame } = none := hfiring'
    rw [hfiring'']
    exact h
  | woken tick elapsed cookies hwait =>
    rw [firing_of_waiting hwait] at h
    exact h
  | timedOut tick elapsed top hwait _ =>
    rw [firing_of_waiting hwait] at h
    exact h
  | fire deadline top call loop hframe _ _ _ =>
    rw [firing, hframe] at h
    exact congrArg (top :: ·) h
  | skip deadline top loop hframe _ halike hquit =>
    obtain ⟨hpeek, hquit'⟩ := hframed.expired deadline top hframe
    obtain ⟨hprocessed, hfiring, hpopped⟩ :=
      endIteration_popped (Q := Q) (w := { w with loop := loop, processed := top :: w.processed })
        deadline
    rw [hprocessed, hfiring, hpopped, hquit, hquit', halike.deadlines, hpeek]
    rw [firing, hframe] at h
    exact congrArg (top :: ·) h
  | ret deadline top loop hframe halike hquit =>
    obtain ⟨hquit', hpeek⟩ := hpops.peek_eq hframed hframe
    obtain ⟨hprocessed, hfiring, hpopped⟩ :=
      endIteration_popped (Q := Q) (w := { w with loop := loop }) deadline
    rw [hprocessed, hfiring, hpopped, hquit, hquit', halike.deadlines, hpeek]
    rw [firing, hframe] at h
    exact h

theorem mismatched_of_not_popsOwn (hstep : w.step Q a = some w') (hframed : Framed Q w)
    (hpops : ¬ PopsOwn Q w a) (h : Matched w) : Mismatched w' := by
  simp only [PopsOwn, not_forall] at hpops
  obtain ⟨rfl, top, htop, hpops⟩ := hpops
  cases stepped hstep with
  | quiet a loop frame _ hfiring _ _ => exact absurd (hfiring.symm.trans htop) (by simp)
  | ret deadline top' loop hframe halike hquit =>
    obtain ⟨hprocessed, hfiring, hpopped⟩ :=
      endIteration_popped (Q := Q) (w := { w with loop := loop }) deadline
    have htop' : top' = top := by
      rw [firing, hframe] at htop
      exact Option.some.inj htop
    subst htop'
    rw [Matched, htop] at h
    unfold Mismatched
    rw [hprocessed, hfiring, hpopped, hquit, halike.deadlines, h]
    cases hquit' : w.loop.shouldQuit with
    | true => exact Or.inl (by simp)
    | false =>
      rcases (hframed.timeout deadline top' hframe).2 with hpeek | ⟨info, hinfo, hlt⟩
      · exact absurd ⟨hquit', Q.peek_le _ _ hpeek⟩ hpops
      · cases hpeek : Q.peek w.loop.deadlines with
        | none => exact absurd hinfo (by simp [Q.peek_none _ hpeek])
        | some first =>
          refine Or.inr ⟨top' :: w.popped, first :: w.popped, suffix_rfl, suffix_rfl, rfl,
            fun heq => ?_⟩
          have hle := Q.peek_le _ _ hpeek info hinfo
          rw [← (List.cons.inj heq).1] at hle
          omega

theorem mismatched_step (hstep : w.step Q a = some w') (hframed : Framed Q w) (h : Mismatched w) :
    Mismatched w' := by
  cases stepped hstep with
  | call op _ => exact h
  | quiet a loop frame _ hfiring hfiring' _ =>
    have hfiring'' : firing { w with loop := loop, frame := frame } = none := hfiring'
    refine h.of_cons suffix_rfl suffix_rfl ?_
    rw [hfiring, hfiring'']
  | woken tick elapsed cookies hwait =>
    refine h.of_cons suffix_rfl suffix_rfl ?_
    rw [firing_of_waiting hwait]
    exact le_rfl
  | timedOut tick elapsed top hwait _ =>
    refine h.of_cons suffix_rfl suffix_rfl ?_
    rw [firing_of_waiting hwait]
    exact le_rfl
  | fire deadline top call loop hframe _ _ _ =>
    refine h.of_cons (suffix_cons _ _) suffix_rfl ?_
    simp [firing, hframe]
    omega
  | skip deadline top loop hframe _ halike hquit =>
    obtain ⟨hpeek, hquit'⟩ := hframed.expired deadline top hframe
    obtain ⟨hprocessed, hfiring, hpopped⟩ :=
      endIteration_popped (Q := Q) (w := { w with loop := loop, processed := top :: w.processed })
        deadline
    refine h.of_cons (hprocessed ▸ suffix_cons _ _) (hpopped ▸ suffix_append _ _) ?_
    rw [hprocessed, hfiring, hpopped, hquit, hquit', halike.deadlines, hpeek, firing, hframe]
    simp
    omega
  | ret deadline top loop hframe halike hquit =>
    obtain ⟨hprocessed, hfiring, hpopped⟩ :=
      endIteration_popped (Q := Q) (w := { w with loop := loop }) deadline
    refine h.of_cons (hprocessed.symm ▸ suffix_rfl) (hpopped ▸ suffix_append _ _) ?_
    rw [hprocessed, hfiring, hpopped, firing, hframe]
    have hlen : ∀ o : Option DeadlineInfo, o.toList.length ≤ 1 := by
      intro o
      cases o <;> simp
    have hone := hlen (if loop.shouldQuit then none else Q.peek loop.deadlines)
    simp only [length_append, Option.toList_some, Option.toList_none, length_singleton, length_nil]
    omega

theorem matched_run (hrun : run (step Q) w as = some w') (hframed : Framed Q w) (h : Matched w) :
    Each (step Q) (PopsOwn Q) w as ∧ Matched w' ∨ ¬ Each (step Q) (PopsOwn Q) w as ∧
      Mismatched w' := by
  refine (run_cases_of_each (P := fun w => Framed Q w ∧ Matched w) (B := fun w => Framed Q w ∧
    Mismatched w)
    (fun _ _ _ hstep hpops h => ⟨framed_step hstep h.1, matched_step hstep h.1 hpops h.2⟩)
    (fun _ _ _ hstep hnot h =>
      ⟨framed_step hstep h.1, mismatched_of_not_popsOwn hstep h.1 hnot h.2⟩)
    (fun _ _ _ hstep h => ⟨framed_step hstep h.1, mismatched_step hstep h.1 h.2⟩) hrun
      ⟨hframed, h⟩).imp ?_ ?_
  · exact fun h => ⟨h.1, h.2.2⟩
  · exact fun h => ⟨h.1, h.2.2⟩

/-! ### Each deadline fires at most once -/

def IsDue (Q : PriorityQueue DeadlineInfo DeadlineInfo.deadline σ) (w : World σ)
    (info : DeadlineInfo) : Prop :=
  info ∈ Q.items w.loop.deadlines ∧ ∃ call, w.loop.deadlineOf info.token =
    some (info.deadline, call)

/-- No handler gets a deadline that one of its entries in the heap has. When a handler returns to
`notify_of_expired`, its entry is popped or its deadline is another. -/
def Careful (Q : PriorityQueue DeadlineInfo DeadlineInfo.deadline σ) (w : World σ) : Action → Prop
  | .call op => ∀ token deadline, op.sets w.loop = some (token, deadline) →
      ∀ info ∈ Q.items w.loop.deadlines, info.token = token → info.deadline ≠ deadline
  | .ret => PopsOwn Q w .ret ∨ ∀ top, w.firing = some top → ¬ IsDue Q w top
  | _ => True

structure Once (Q : PriorityQueue DeadlineInfo DeadlineInfo.deadline σ) (w : World σ) : Prop where
  call_lt : ∀ info ∈ Q.items w.loop.deadlines, info.call < w.loop.calls
  call_nodup : ((Q.items w.loop.deadlines).map DeadlineInfo.call).Nodup
  fired_lt : ∀ f ∈ w.fired, f.1 < w.loop.calls
  current : ∀ info ∈ Q.items w.loop.deadlines, ∀ call,
    w.loop.deadlineOf info.token = some (info.deadline, call) → info.call = call
  unfired : ∀ info, IsDue Q w info → w.firing ≠ some info → ∀ f ∈ w.fired, f.1 ≠ info.call
  fired_nodup : (w.fired.map Prod.fst).Nodup
  fired_current : ∀ f ∈ w.fired, f.1 = f.2

theorem Once.of_fewer (h : Once Q w)
    (hitems : (Q.items w'.loop.deadlines).Subperm (Q.items w.loop.deadlines))
    (hof : ∀ t, w'.loop.deadlineOf t = w.loop.deadlineOf t ∨ w'.loop.deadlineOf t = none)
    (hcalls : w'.loop.calls = w.loop.calls) (hfired : w'.fired = w.fired)
    (hfiring : ∀ info, IsDue Q w' info → w'.firing ≠ some info → w.firing ≠ some info) :
    Once Q w' := by
  have hof' : ∀ {t d}, w'.loop.deadlineOf t = some d → w.loop.deadlineOf t = some d := by
    intro t d hd
    refine (hof t).elim (fun hsame => hsame ▸ hd) fun hnone => ?_
    exact absurd (hnone.symm.trans hd) (by simp)
  constructor
  · rw [hcalls]
    exact fun info hinfo => h.call_lt info (hitems.subset hinfo)
  · obtain ⟨l, hperm, hsub⟩ := hitems
    exact (hperm.map DeadlineInfo.call).nodup_iff.mp
      ((hsub.map DeadlineInfo.call).nodup h.call_nodup)
  · rw [hcalls, hfired]
    exact h.fired_lt
  · exact fun info hinfo call hd => h.current info (hitems.subset hinfo) call (hof' hd)
  · intro info hdue hne
    rw [hfired]
    obtain ⟨hinfo, call, hd⟩ := hdue
    exact h.unfired info ⟨hitems.subset hinfo, call, hof' hd⟩ (hfiring info ⟨hinfo, call, hd⟩ hne)
  · rw [hfired]
    exact h.fired_nodup
  · rw [hfired]
    exact h.fired_current

variable {loop : RunLoop σ}

theorem Once.of_alike {processed popped : List DeadlineInfo} (h : Once Q w)
    (halike : w.loop.Alike loop) (hfiring : w.firing = none) :
    Once Q ⟨loop, frame, w.fired, processed, popped⟩ :=
  h.of_fewer (by rw [halike.deadlines]) (fun t => Or.inl (by rw [halike.deadlineOf]))
    halike.calls rfl
    (fun _ _ _ => by simp [hfiring])

theorem Once.of_dropStale {elapsed : ℕ} (h : Once Q w) (hfiring : w.firing = none) :
    Once Q { w with loop := (w.loop.dropStale Q).tick elapsed, frame := frame } :=
  h.of_fewer (Q.subperm_dropWhile _ _) (fun _ => Or.inl rfl) rfl rfl
    (fun _ _ _ => by simp [hfiring])

theorem endIteration_fewer (deadline : ℕ) :
    (Q.items (w.endIteration Q deadline).loop.deadlines).Subperm (Q.items w.loop.deadlines) ∧
      (w.endIteration Q deadline).loop.deadlineOf = w.loop.deadlineOf ∧
      (w.endIteration Q deadline).loop.calls = w.loop.calls ∧ (w.endIteration Q deadline).fired =
        w.fired := by
  unfold endIteration
  split_ifs
  · exact ⟨List.Subperm.refl _, rfl, rfl, rfl⟩
  · split
    · exact ⟨List.Subperm.refl _, rfl, rfl, rfl⟩
    · next info hpeek =>
      refine ⟨?_, rfl, rfl, rfl⟩
      exact (sublist_cons_self info _).subperm.trans (Q.items_pop _ _ hpeek).symm.subperm

theorem Once.endIteration (h : Once Q w)
    (hfiring : ∀ info, IsDue Q (w.endIteration Q deadline) info → w.firing ≠ some info) :
    Once Q (w.endIteration Q deadline) := by
  obtain ⟨hitems, hof, hcalls, hfired⟩ := endIteration_fewer (Q := Q) (w := w) deadline
  exact h.of_fewer hitems (fun t => Or.inl (congrFun hof t)) hcalls hfired fun info hdue _ =>
    hfiring info hdue

theorem Once.perform (h : Once Q w) (hcareful : Careful Q w (.call op)) :
    Once Q { w with loop := w.loop.perform Q op } := by
  cases hsets : op.sets w.loop with
  | none =>
    obtain ⟨hdeadlines, hcalls, hof⟩ := RunLoop.perform_of_not_sets (Q := Q) hsets
    exact h.of_fewer (by rw [hdeadlines]) hof hcalls rfl fun _ _ hne => hne
  | some set =>
    obtain ⟨token, deadline⟩ := set
    have hset := RunLoop.perform_of_sets (Q := Q) hsets
    have hmem : ∀ {info}, info ∈ Q.items (w.loop.perform Q op).deadlines ↔
        info = ⟨token, deadline, w.loop.calls⟩ ∨ info ∈ Q.items w.loop.deadlines := by
      intro info
      rw [hset.deadlines, Q.mem_push]
    -- An old entry of the handler has another deadline.
    have hold : ∀ info ∈ Q.items w.loop.deadlines, ∀ call,
        (w.loop.perform Q op).deadlineOf info.token = some (info.deadline, call) →
          w.loop.deadlineOf info.token = some (info.deadline, call) := by
      intro info hinfo call hof
      rw [hset.deadlineOf] at hof
      split_ifs at hof with htoken
      · cases hof
        exact absurd rfl (hcareful token _ hsets info hinfo htoken)
      · exact hof
    constructor
    · intro info hinfo
      rw [hset.calls]
      rcases hmem.mp hinfo with rfl | hinfo
      · exact Nat.lt_succ_self _
      · exact (h.call_lt info hinfo).trans (Nat.lt_succ_self _)
    · rw [hset.deadlines]
      refine (((Q.items_push _ _).map DeadlineInfo.call).nodup_iff).mpr
        (nodup_cons.mpr ⟨fun hcall => ?_, h.call_nodup⟩)
      obtain ⟨info, hinfo, heq⟩ := mem_map.mp hcall
      exact absurd (h.call_lt info hinfo) (by simp [heq])
    · intro f hf
      rw [hset.calls]
      exact (h.fired_lt f hf).trans (Nat.lt_succ_self _)
    · intro info hinfo call hof
      rcases hmem.mp hinfo with rfl | hinfo
      · rw [hset.deadlineOf, if_pos rfl] at hof
        cases hof
        rfl
      · exact h.current info hinfo call (hold info hinfo call hof)
    · rintro info ⟨hinfo, call, hof⟩ hne f hf
      rcases hmem.mp hinfo with rfl | hinfo
      · exact (h.fired_lt f hf).ne
      · exact h.unfired info ⟨hinfo, call, hold info hinfo call hof⟩ hne f hf
    · exact h.fired_nodup
    · exact h.fired_current

theorem Once.fire {call : ℕ} (h : Once Q w) (hframed : Framed Q w)
    (hframe : w.frame = some (.expired deadline top)) (halike : w.loop.Alike loop)
    (hof : w.loop.deadlineOf top.token = some (top.deadline, call)) :
    Once Q
      { w with
        loop := loop
        frame := some (.timeout deadline top)
        fired := (top.call, call) :: w.fired
        processed := top :: w.processed } := by
  have htop := Q.peek_mem _ _ (hframed.expired deadline top hframe).1
  have hfiring : w.firing = none := by rw [firing, hframe]
  have hnew := h.unfired top ⟨htop, call, hof⟩ (by simp [hfiring])
  have hdue : ∀ {info}, IsDue Q ⟨loop, some (.timeout deadline top), (top.call, call) :: w.fired,
      top :: w.processed, w.popped⟩ info → IsDue Q w info := by
    rintro info ⟨hinfo, c, hd⟩
    exact ⟨halike.deadlines ▸ hinfo, c, halike.deadlineOf ▸ hd⟩
  constructor
  · rw [halike.deadlines, halike.calls]
    exact h.call_lt
  · rw [halike.deadlines]
    exact h.call_nodup
  · rw [halike.calls]
    exact forall_mem_cons.mpr ⟨h.call_lt top htop, h.fired_lt⟩
  · rw [halike.deadlines, halike.deadlineOf]
    exact h.current
  · intro info hinfo hne
    refine forall_mem_cons.mpr ⟨fun heq => hne ?_, h.unfired info (hdue hinfo) (by simp [hfiring])⟩
    exact congrArg some (inj_on_of_nodup_map h.call_nodup htop (hdue hinfo).1 heq)
  · refine nodup_cons.mpr ⟨fun hmem => ?_, h.fired_nodup⟩
    obtain ⟨f, hf, heq⟩ := mem_map.mp hmem
    exact hnew f hf heq
  · exact forall_mem_cons.mpr ⟨h.current top htop call hof, h.fired_current⟩

theorem Once.ret (h : Once Q w) (hframed : Framed Q w)
    (hframe : w.frame = some (.timeout deadline top)) (halike : w.loop.Alike loop)
    (hquit : loop.shouldQuit = w.loop.shouldQuit) (hcareful : Careful Q w .ret) :
    Once Q (World.endIteration Q { w with loop := loop } deadline) := by
  have hfiring : w.firing = some top := by rw [firing, hframe]
  have h' : Once Q { w with loop := loop } :=
    h.of_fewer (by rw [halike.deadlines]) (fun t => Or.inl (by rw [halike.deadlineOf]))
      halike.calls rfl
      fun _ _ hne => hne
  refine h'.endIteration fun info hdue heq => ?_
  have htop : top = info := Option.some.inj (hfiring.symm.trans heq)
  subst htop
  obtain ⟨hitems, hof, -, -⟩ := endIteration_fewer (Q := Q) (w := { w with loop := loop }) deadline
  rcases hcareful with hpops | hstale
  · obtain ⟨hquit', hpeek⟩ := hpops.peek_eq hframed hframe
    have hnodup := h.call_nodup
    rw [((Q.items_pop _ _ hpeek).map DeadlineInfo.call).nodup_iff, map_cons] at hnodup
    have hitems : (World.endIteration Q { w with loop := loop } deadline).loop.deadlines =
        Q.pop w.loop.deadlines := by
      simp only [World.endIteration, hquit, hquit', halike.deadlines, hpeek]
      rfl
    have hmem := hdue.1
    rw [hitems] at hmem
    exact (nodup_cons.mp hnodup).1 (mem_map_of_mem hmem)
  · obtain ⟨hmem, call, hd⟩ := hdue
    refine hstale top hfiring ⟨?_, call, ?_⟩
    · exact halike.deadlines ▸ hitems.subset hmem
    · rw [hof] at hd
      exact halike.deadlineOf ▸ hd

theorem once_step (hstep : w.step Q a = some w') (hcareful : Careful Q w a)
    (h : Framed Q w ∧ Once Q w) : Framed Q w' ∧ Once Q w' := by
  refine ⟨framed_step hstep h.1, ?_⟩
  cases stepped hstep with
  | call op _ => exact h.2.perform hcareful
  | quiet a loop frame halike hfiring _ _ => exact h.2.of_alike halike hfiring
  | woken tick elapsed cookies hwait => exact h.2.of_dropStale (firing_of_waiting hwait)
  | timedOut tick elapsed top hwait _ => exact h.2.of_dropStale (firing_of_waiting hwait)
  | fire deadline top call loop hframe _ halike hof => exact h.2.fire h.1 hframe halike hof
  | skip deadline top loop hframe _ halike _ =>
    have hfiring : w.firing = none := by rw [firing, hframe]
    exact (h.2.of_alike halike hfiring).endIteration fun _ _ heq => absurd (hfiring.symm.trans heq)
      (by simp)
  | ret deadline top loop hframe halike hquit => exact h.2.ret h.1 hframe halike hquit hcareful

theorem once_new (clock : ℕ) : Once Q (World.new Q clock) := by
  have hitems : Q.items (World.new Q clock).loop.deadlines = [] := Q.items_empty
  constructor
  · simp [hitems]
  · simp [hitems]
  · exact forall_mem_nil _
  · simp [hitems]
  · exact fun info hdue => absurd hdue.1 (by simp [hitems])
  · exact nodup_nil
  · exact forall_mem_nil _

/-! ### The number of iterations -/

def numDue (Q : PriorityQueue DeadlineInfo DeadlineInfo.deadline σ) (deadline : ℕ) (w : World σ) :
    ℕ :=
  (Q.items w.loop.deadlines).countP fun info => info.deadline ≤ deadline

def SetsLater (deadline : ℕ) (w : World σ) (a : Action) : Prop :=
  (∃ top, w.frame = some (.expired deadline top) ∨ w.frame = some (.timeout deadline top)) ∧
    ∀ op, a = .call op → ∀ token d, op.sets w.loop = some (token, d) → deadline < d

/-- The iterations that are left: each pops an entry that is due, and the last may pop none. -/
def iterationsLeft (Q : PriorityQueue DeadlineInfo DeadlineInfo.deadline σ) (deadline : ℕ)
    (w : World σ) : ℕ :=
  match w.frame with
  | some (.expired _ _) => w.numDue Q deadline + 1
  | some (.timeout _ _) => w.numDue Q deadline
  | _ => 0

theorem iterationsLeft_endIteration (deadline : ℕ)
    (h : ∀ info, Q.peek w.loop.deadlines = some info → info.deadline ≤ deadline) :
    (w.endIteration Q deadline).iterationsLeft Q deadline ≤ w.numDue Q deadline := by
  unfold endIteration
  split_ifs
  · exact Nat.zero_le _
  · split
    · exact Nat.zero_le _
    · next info hpeek =>
      have hcount := (Q.items_pop _ _ hpeek).countP_eq fun info => decide (info.deadline ≤ deadline)
      rw [countP_cons_of_pos (by simpa using h info hpeek)] at hcount
      cases Q.peek (Q.pop w.loop.deadlines) with
      | none => exact Nat.zero_le _
      | some top => exact hcount.ge

theorem numDue_perform (h : SetsLater deadline w (.call op)) :
    numDue Q deadline { w with loop := w.loop.perform Q op } = w.numDue Q deadline := by
  unfold numDue
  cases hsets : op.sets w.loop with
  | none => rw [(RunLoop.perform_of_not_sets (Q := Q) hsets).1]
  | some set =>
    have hlater := h.2 op rfl set.1 set.2 hsets
    rw [(RunLoop.perform_of_sets (Q := Q) hsets).deadlines, (Q.items_push _ _).countP_eq,
      countP_cons_of_neg (by simpa using hlater)]

theorem iterationsLeft_step (hstep : w.step Q a = some w') (hframed : Framed Q w)
    (hlater : SetsLater deadline w a) :
    [a].count .next + w'.iterationsLeft Q deadline ≤ w.iterationsLeft Q deadline := by
  obtain ⟨top, htop⟩ := hlater.1
  have hnotWaiting : w.isWaiting ≠ true := by
    intro hwait
    simp only [isWaiting, Bool.and_eq_true, Option.isNone_iff_eq_none] at hwait
    rcases htop with h | h <;> simp [h] at hwait
  cases stepped hstep with
  | call op huser =>
    rcases htop with h | h
    · exact absurd huser (by simp [inUserCode, h])
    · have hdue := numDue_perform (Q := Q) hlater
      simp only [iterationsLeft, h, numDue] at hdue ⊢
      simpa using hdue.le
  | quiet a loop frame _ hfiring hfiring' htop' =>
    have hleft : iterationsLeft Q deadline { w with loop := loop, frame := frame } = 0 := by
      rcases frame with - | frame
      · rfl
      · cases frame with
        | results cookies => rfl
        | ready token cookies => rfl
        | expired d top => simp [atTop] at htop'
        | timeout d top => simp [firing] at hfiring'
    rcases htop with h | h
    · have hone : [a].count .next ≤ 1 := count_le_length
      rw [hleft]
      simp only [iterationsLeft, h]
      omega
    · simp [firing, h] at hfiring
  | woken tick elapsed cookies hwait => exact absurd hwait hnotWaiting
  | timedOut tick elapsed top' hwait _ => exact absurd hwait hnotWaiting
  | fire d top' call loop hframe _ halike _ =>
    simp only [iterationsLeft, hframe, numDue, halike.deadlines, count_singleton_self]
    omega
  | skip d top' loop hframe hle halike _ =>
    have hd : d = deadline := by
      rcases htop with h | h <;> simp [hframe] at h
      exact h.1
    subst hd
    have hpeek := (hframed.expired d top' hframe).1
    have hleft := iterationsLeft_endIteration (Q := Q)
      (w := { w with loop := loop, processed := top' :: w.processed }) d fun info hinfo => by
        rw [halike.deadlines, hpeek] at hinfo
        exact Option.some.inj hinfo ▸ hle
    simp only [numDue, halike.deadlines] at hleft
    simp only [iterationsLeft, hframe, numDue, count_singleton_self] at hleft ⊢
    omega
  | ret d top' loop hframe halike _ =>
    have hd : d = deadline := by
      rcases htop with h | h <;> simp [hframe] at h
      exact h.1
    subst hd
    obtain ⟨hle, hpeek⟩ := hframed.timeout d top' hframe
    have hleft := iterationsLeft_endIteration (Q := Q) (w := { w with loop := loop }) d
      fun info hinfo => by
      rw [halike.deadlines] at hinfo
      rcases hpeek with hpeek | ⟨earlier, hmem, hlt⟩
      · rw [hpeek] at hinfo
        exact Option.some.inj hinfo ▸ hle
      · exact ((Q.peek_le _ _ hinfo earlier hmem).trans hlt.le).trans hle
    simp only [numDue, halike.deadlines] at hleft
    simp only [iterationsLeft, hframe, numDue] at hleft ⊢
    simpa using hleft

theorem iterationsLeft_run (hrun : run (step Q) w as = some w')
    (hframed : Framed Q w) (hlater : Each (step Q) (SetsLater deadline) w as) :
    as.count .next + w'.iterationsLeft Q deadline ≤ w.iterationsLeft Q deadline := by
  induction as generalizing w with
  | nil =>
    cases hrun
    simp
  | cons a as ih =>
    obtain ⟨t, ht, hrun⟩ := run_cons.mp hrun
    have hfirst := iterationsLeft_step ht hframed hlater.1
    have hrest := ih hrun (framed_step ht hframed) (hlater.2 t ht)
    rw [← singleton_append, count_append]
    omega

/-- Deadlines fire once if no handler gets a deadline again of which there is still an entry, and if
the entry of a handler that was called is popped or no longer its deadline. What is popped is what
was processed exactly if no handler quits or sets an earlier deadline; indefinite ones are earlier.
There are as many iterations as entries are due, if only later deadlines are set. -/
theorem timeouts_fire_once (Q : PriorityQueue DeadlineInfo DeadlineInfo.deadline σ) (clock : ℕ)
    (as : List Action) (w : World σ) (hrun : run (step Q) (World.new Q clock) as = some w) :
    (Each (step Q) (Careful Q) (World.new Q clock) as → (w.fired.map Prod.fst).Nodup ∧
      ∀ f ∈ w.fired, f.1 = f.2) ∧
    (w.firing = none → (w.processed = w.popped ↔ Each (step Q) (PopsOwn Q) (World.new Q clock) as))
    ∧ ∀ deadline top bs w', w.frame = some (.expired deadline top) → run (step Q) w bs = some w' →
      Each (step Q) (SetsLater deadline) w bs → bs.count .next ≤ w.numDue Q deadline + 1 := by
  refine ⟨fun heach => ?_, fun hfiring => ?_, fun deadline top bs w' hframe hrun' hlater => ?_⟩
  · have h := (run_invariant_of_each (fun _ _ _ hstep hcareful h => once_step hstep hcareful h)
      hrun heach ⟨framed_new clock, once_new clock⟩).2
    exact ⟨h.fired_nodup, h.fired_current⟩
  · rcases matched_run hrun (framed_new clock) rfl with ⟨heach, h⟩ | ⟨hnot, h⟩
    · rw [Matched, hfiring] at h
      exact iff_of_true h heach
    · exact iff_of_false h.processed_ne_popped hnot
  · have hframed := run_invariant (fun _ _ _ hstep h => framed_step hstep h) hrun (framed_new clock)
    have h := iterationsLeft_run hrun' hframed hlater
    simp only [iterationsLeft, hframe] at h
    omega

def oneTimeout : List Action := [.call (.register 10 0), .run, .timedOut 0 10, .next, .ret]

theorem timeouts_fire_once_for_one : ∃ w : World (List DeadlineInfo),
    run (step (listQueue _)) (World.new (listQueue _) 5) oneTimeout = some w ∧ w.fired = [(0, 0)] ∧
      ((w.fired.map Prod.fst).Nodup ∧ ∀ f ∈ w.fired, f.1 = f.2) ∧ w.processed = w.popped := by
  obtain ⟨honce, hpopped, -⟩ := timeouts_fire_once (listQueue _) 5 oneTimeout _ rfl
  refine ⟨_, rfl, rfl, honce ?_, (hpopped rfl).mpr ?_⟩
  · refine .cons rfl (fun _ _ _ _ hinfo => by cases hinfo)
      (.cons rfl trivial (.cons rfl trivial ?_))
    refine .cons rfl trivial (.cons rfl (.inl ?_) trivial)
    rintro - top htop
    obtain rfl := Option.some.inj htop
    decide
  · refine .cons rfl nofun (.cons rfl nofun
      (.cons rfl nofun (.cons rfl nofun (.cons rfl ?_ trivial))))
    rintro - top htop
    obtain rfl := Option.some.inj htop
    decide

/-- `on_timeout` is called twice for a deadline if it registers a handler without a deadline, and if
it quits; and for a deadline that was set again, also for the entry of the first time. -/
theorem timeouts_fire_twice : (run (step (listQueue _)) (World.new (listQueue _) 5)
      [.call (.register 10 0), .run, .timedOut 0 10, .next, .call (.register mojoIndefinite 0),
        .ret, .next]).map World.fired = some [(0, 0), (0, 0)] ∧
    (run (step (listQueue _)) (World.new (listQueue _) 5)
      [.call (.register 10 0), .run, .timedOut 0 10, .next, .call .quit, .ret, .finish, .run,
        .timedOut 0 0, .next]).map World.fired = some [(0, 0), (0, 0)] ∧
    (run (step (listQueue _)) (World.new (listQueue _) 5)
      [.call (.register 10 0), .call (.reregister 1 10 0), .run, .timedOut 0 10, .next, .ret,
        .next]).map World.fired = some [(1, 1), (0, 1)] := by
  decide

end Mojo.RustBindings.World
