import Mojo.CppBindings.RouterEffects

/-!
# Sending on a closed pipe

`Connector::Accept` checks that the pipe is valid, unless an error was notified before.
A dropped `ResponderThunk` and a request without a receiver close the pipe and notify
nothing, so the check fails exactly if a message is sent after such a close and before
an error.
-/

namespace Mojo.CppBindings.Routing

open Mojo.System

def SentOnClosed (log : List Event) : Prop :=
  ∃ before after, log = before ++ .send :: after ∧ .closed ∈ before ∧ .failed ∉ before

variable {log es : List Event}

theorem sentOnClosed_append (h : .send ∉ es) : SentOnClosed (log ++ es) ↔ SentOnClosed log := by
  constructor
  · rintro ⟨before, after, heq, hclosed, hfailed⟩
    rcases List.append_eq_append_iff.mp heq with ⟨cs, rfl, hcs⟩ | ⟨cs, rfl, hcs⟩
    · exact absurd (hcs ▸ List.mem_append_right cs (.head _)) h
    · cases cs with
      | nil => exact absurd (List.nil_append es ▸ hcs ▸ (.head _)) h
      | cons c cs =>
        obtain ⟨rfl, rfl⟩ := List.cons.inj hcs
        exact ⟨before, cs, rfl, hclosed, hfailed⟩
  · rintro ⟨before, after, rfl, hclosed, hfailed⟩
    exact ⟨before, after ++ es, by simp, hclosed, hfailed⟩

theorem sentOnClosed_send : SentOnClosed (log ++ [.send]) ↔ SentOnClosed log ∨ .closed ∈ log ∧
    .failed ∉ log := by
  constructor
  · rintro ⟨before, after, heq, hclosed, hfailed⟩
    rcases List.eq_nil_or_concat after with rfl | ⟨after, e, rfl⟩
    · obtain rfl := List.append_inj_left' heq rfl
      exact .inr ⟨hclosed, hfailed⟩
    · have hlog : log = before ++ .send :: after := by
        rw [List.concat_eq_append, ← List.cons_append, ← List.append_assoc] at heq
        exact List.append_inj_left' heq rfl
      exact .inl ⟨before, after, hlog, hclosed, hfailed⟩
  · rintro (⟨before, after, rfl, hclosed, hfailed⟩ | ⟨hclosed, hfailed⟩)
    · exact ⟨before, after ++ [.send], by simp, hclosed, hfailed⟩
    · exact ⟨log, [], rfl, hclosed, hfailed⟩

structure Connector.Tracks (c : Connector) (log : List Event) : Prop where
  error : c.error ↔ .failed ∈ log
  pipe : c.pipe ↔ .closed ∉ log ∧ .failed ∉ log

variable {c : Connector}

variable {c' : Connector}

theorem Connector.Tracks.append (h : c.Tracks log)
    (herror : c'.error = c.error) (hpipe : c'.pipe = c.pipe) (hclosed : .closed ∉ es)
    (hfailed : .failed ∉ es) : c'.Tracks (log ++ es) := by
  constructor
  · simpa [herror, hfailed] using h.error
  · simpa [hpipe, hclosed, hfailed] using h.pipe

theorem Connector.Tracks.close (h : c.Tracks log) : c.close.Tracks (log ++ [.closed]) := by
  constructor
  · simpa [Connector.close] using h.error
  · simp [Connector.close]

theorem Connector.Tracks.fail :
    Connector.Tracks { c.close with error := true } (log ++ [.failed]) := by
  constructor <;> simp [Connector.close]

theorem accept_flags {result : WriteResult} {ok : Bool}
    (h : c.accept result = .ok (ok, c')) : c'.error = c.error ∧ c'.pipe = c.pipe := by
  simp only [Connector.accept] at h
  split_ifs at h
  · cases h; exact ⟨rfl, rfl⟩
  · cases h; exact ⟨rfl, rfl⟩
  · cases result with
    | busy => cases h
    | ok | failedPrecondition | rejected => cases h; exact ⟨rfl, rfl⟩

theorem accept_pipeInvalid_iff (h : c.Tracks log) (result : WriteResult) :
    c.accept result = .error .pipeInvalid ↔ .closed ∈ log ∧ .failed ∉ log := by
  have hpipe : c.error = false → (c.pipe = false ↔ .closed ∈ log) := by
    intro herror
    have hfailed : .failed ∉ log := fun hmem => by simp [h.error.mpr hmem] at herror
    rw [← Bool.not_eq_true, h.pipe]
    simp [hfailed]
  rw [← h.error]
  simp only [Connector.accept]
  cases herror : c.error with
  | true => simp
  | false =>
    simp only [Bool.false_eq_true, ↓reduceIte, not_false_eq_true, and_true, ← hpipe herror]
    cases c.pipe with
    | false => simp
    | true => cases result <;> simp <;> split_ifs <;> simp

/-- The invariant: the connector is in step with the log, and the check has failed if
and only if the log shows a reason. -/
structure SendInv (s : State) : Prop where
  tracks : ∀ R, s.router = some R → R.connector.Tracks s.log
  aborts : s.aborted = some .pipeInvalid ↔ SentOnClosed s.log

variable {s : State}

variable {s' : State}

theorem SendInv.append (h : SendInv s)
    (hlog : s'.log = s.log ++ es) (hsend : .send ∉ es) (haborted : s'.aborted = s.aborted)
    (htracks : ∀ R, s'.router = some R → R.connector.Tracks s'.log) : SendInv s' := by
  refine ⟨htracks, ?_⟩
  rw [haborted, hlog, sentOnClosed_append hsend]
  exact h.aborts

variable {R : Router}

theorem SendInv.send (h : SendInv s) (result : WriteResult) (es : List Event)
    (hR : s.router = some R) (ha : s.aborted = none) (hlog : s'.log = s.log ++ [.send] ++ es)
    (hsend : .send ∉ es)
    (habort : s'.aborted = some .pipeInvalid ↔ R.connector.accept result = .error .pipeInvalid)
    (htracks : ∀ R', s'.router = some R' → R'.connector.Tracks s'.log) : SendInv s' := by
  refine ⟨htracks, ?_⟩
  have hno : ¬SentOnClosed s.log := by
    rw [← h.aborts, ha]
    simp
  rw [habort, accept_pipeInvalid_iff (h.tracks R hR), hlog, sentOnClosed_append hsend,
    sentOnClosed_send]
  simp [hno]

theorem SendInv.write (h : SendInv s) (hR : s.router = some R) (ha : s.aborted = none)
    (result : WriteResult) : SendInv
      (s.write R result fun _ R s => { s with router := some R }) := by
  have htracks := h.tracks R hR
  rw [State.write]
  split
  · rename_i abort habort
    refine h.send result [] hR ha (by simp [State.note]) (by simp) (by simp [habort]) ?_
    intro R' hR'
    obtain rfl : R = R' := Option.some.inj (hR.symm.trans hR')
    exact htracks.append rfl rfl (by simp) (by simp)
  · rename_i ok c hok
    obtain ⟨herror, hpipe⟩ := accept_flags hok
    refine h.send result [] hR ha (by simp [State.note]) (by simp) (by simp [hok, State.note, ha])
      ?_
    intro R' hR'
    obtain rfl := Option.some.inj hR'
    exact htracks.append herror hpipe (by simp) (by simp)

theorem SendInv.acceptWithResponder (h : SendInv s)
    (hR : s.router = some R) (ha : s.aborted = none) (responder : ℕ) (result : WriteResult) :
    SendInv (s.acceptWithResponder R responder result) := by
  have htracks := h.tracks R hR
  simp only [State.acceptWithResponder, State.write]
  split
  · rename_i abort habort
    refine h.send result [] hR ha (by simp [State.note]) (by simp) (by simp [habort]) ?_
    intro R' hR'
    obtain rfl := Option.some.inj hR'
    exact htracks.append rfl rfl (by simp) (by simp)
  · rename_i ok c hok
    obtain ⟨herror, hpipe⟩ := accept_flags hok
    cases ok with
    | true =>
      refine h.send result [.sent responder (takeRequestId R.nextRequestId).1] hR ha
        (by simp [State.note]) (by simp) (by simp [hok, State.note, ha]) ?_
      intro R' hR'
      obtain rfl := Option.some.inj hR'
      have hsent : c.Tracks (s.log ++ [.send, .sent responder (takeRequestId R.nextRequestId).1]) :=
        htracks.append herror hpipe (by simp) (by simp)
      simpa [State.note] using hsent
    | false =>
      refine h.send result [] hR ha (by simp [State.note]) (by simp) (by simp [hok, State.note, ha])
        ?_
      intro R' hR'
      obtain rfl := Option.some.inj hR'
      exact htracks.append herror hpipe (by simp) (by simp)

theorem sendInv_effect (he : Effect s s') (h : SendInv s) : SendInv s' := by
  cases he with
  | stack stack | thunks thunks next => exact ⟨h.tracks, h.aborts⟩
  | router R waiting enforce receiver hR =>
    refine ⟨fun R' hR' => ?_, h.aborts⟩
    obtain rfl := Option.some.inj hR'
    exact ⟨(h.tracks R hR).error, (h.tracks R hR).pipe⟩
  | closed R hR =>
    refine h.append rfl (by simp) rfl fun R' hR' => ?_
    obtain rfl := Option.some.inj hR'
    exact (h.tracks R hR).close
  | failed R hR =>
    refine h.append rfl (by simp) rfl fun R' hR' => ?_
    obtain rfl := Option.some.inj hR'
    exact Connector.Tracks.fail
  | answered R id responder caller hR =>
    refine h.append rfl (by simp) rfl fun R' hR' => ?_
    obtain rfl := Option.some.inj hR'
    exact (h.tracks R hR).append rfl rfl (by simp) (by simp)
  | retired responder caller rest =>
    refine h.append rfl (by simp) rfl fun R hR => ?_
    exact (h.tracks R hR).append rfl rfl (by simp) (by simp)
  | write R result hR ha => exact h.write hR ha result
  | acceptWithResponder R responder result hR _ ha =>
    exact h.acceptWithResponder hR ha responder result
  | destroyed R hR => exact h.append rfl (by simp) rfl fun R' hR' => by cases hR'

theorem sendInv_new : SendInv .new := by
  refine ⟨fun R hR => ?_, ?_⟩
  · cases hR
    constructor <;> simp [State.new, Connector.new]
  · simp [State.new, SentOnClosed]

/-- The check of `Connector::Accept` fails in a run if and only if a message is sent on a
pipe that was closed without an error. -/
theorem aborts_iff_sent_on_closed {as : List Action} {s : State}
    (hrun : run step .new as = some s) :
    s.aborted = some .pipeInvalid ↔ SentOnClosed s.log :=
  (run_effects (fun _ _ => sendInv_effect) hrun sendInv_new).aborts

/-- The receiver keeps a request's thunk, drops it later without a response, and the
router is then sent a message. -/
def droppedThunkRun : List Action :=
  [.setReceiver true, .ready true, .read (.message ⟨true, true, false, 1⟩), .return true,
    .read .shouldWait, .thunkDelete 0, .accept .ok]

theorem accept_aborts_after_dropped_thunk :
    ∃ s, run step .new droppedThunkRun = some s ∧ s.aborted = some .pipeInvalid :=
  ⟨_, rfl, rfl⟩

def noReceiverRun : List Action :=
  [.ready true, .read (.message ⟨true, true, false, 1⟩), .return true, .accept .ok]

theorem aborts_iff_sent_on_closed_no_receiver :
    ∃ s, run step .new noReceiverRun = some s ∧ s.log = [.closed, .failed, .send] ∧
      s.aborted = none ∧ ¬SentOnClosed s.log :=
  ⟨_, rfl, rfl, rfl, fun h => nomatch (@aborts_iff_sent_on_closed noReceiverRun _ rfl).mpr h⟩

end Mojo.CppBindings.Routing
