import Mojo.CppBindings.RouterEffects
import Mojo.System.Correlation

/-!
# Responses reach their own caller

The router keeps a ledger: responders wait in its map under the id of their request,
are called from the stack and deleted afterwards, or deleted with the router. Every
effect of an action either leaves this ledger as it is or is one of its steps, so what
holds of ledgers holds of the router, in every interleaving of calls.
-/

namespace Mojo.CppBindings.Routing

open Mojo.System List

variable {e : Event} {s s' : State} {R : Router} {responder : ℕ}

def Event.entry : Event → Option (Entry ℕ)
  | .sent r id => some (.sent r id)
  | .answered r id => some (.answered r id)
  | .deletedAfterResponse r => some (.retired r)
  | .deletedByRouter r => some (.dropped r)
  | .send | .closed | .failed => none

def State.responders (s : State) : List (ℕ × ℕ) :=
  match s.router with
  | none => []
  | some R => R.responders

def State.ledger (s : State) : Ledger ℕ where
  issued := s.requests
  waiting := s.responders
  answering := s.stack.filterMap Frame.answering
  history := s.log.filterMap Event.entry

def Counts (s : State) : Prop :=
  ∀ R, s.router = some R → R.nextRequestId = if s.requests = 0 then 0 else s.requests + 1

structure Simulates (s s' : State) : Prop where
  ledger : s'.ledger = s.ledger ∨ s.ledger.Step s'.ledger
  counts : Counts s → Counts s'

theorem ledger_note (s : State) (he : e.entry = none) : (s.note e).ledger = s.ledger := by
  simp [State.ledger, State.responders, State.note, he]

theorem counts_router {R' : Router} (h : s.router = some R)
    (hn : R'.nextRequestId = R.nextRequestId) (hc : Counts s) :
    ∀ R'', some R' = some R'' → R''.nextRequestId = if s.requests = 0 then
      0 else s.requests + 1 := by
  intro R'' hR''
  obtain rfl := Option.some.inj hR''
  exact hn.trans (hc R h)

theorem simulates_answered {id : ℕ} (caller : Caller)
    (h : s.router = some R) (hr : R.responders.lookup id = some responder) :
    Simulates s { s with
      router := some { R with responders := R.responders.filter fun p => p.1 != id }
      stack := .responder responder caller :: s.stack
      log := s.log ++ [.answered responder id] } := by
  have hmem : (id, responder) ∈ s.ledger.waiting := by
    simp only [State.ledger, State.responders, h]
    obtain ⟨before, after, hsplit, -⟩ := lookup_eq_some_iff.mp hr
    simp [hsplit]
  refine ⟨.inr ?_, counts_router h rfl⟩
  have hstep := Ledger.Step.answer s.ledger id responder hmem
  simpa [State.ledger, State.responders, h, Frame.answering, Event.entry, filterMap_cons]
    using hstep

theorem simulates_retired {caller : Caller} {rest : List Frame}
    (h : s.stack = .responder responder caller :: rest) :
    Simulates s ({ s with stack := rest }.note (.deletedAfterResponse responder)) := by
  have hanswering : s.ledger.answering = responder :: rest.filterMap Frame.answering := by
    simp [State.ledger, h, Frame.answering]
  refine ⟨.inr ?_, fun hc R hR => hc R hR⟩
  have hstep := Ledger.Step.retire s.ledger _ _ hanswering
  simpa [State.ledger, State.responders, State.note, Event.entry] using hstep

theorem simulates_write (h : s.router = some R) (result : WriteResult) :
    Simulates s (s.write R result fun _ R s => { s with router := some R }) := by
  rw [State.write]
  split
  · exact ⟨.inl (ledger_note s (e := .send) rfl), fun hc R hR => hc R hR⟩
  · refine ⟨.inl ?_, counts_router h rfl⟩
    rw [← ledger_note s (e := .send) rfl]
    simp [State.ledger, State.responders, State.note, h]

theorem simulates_destroyed (h : s.router = some R) : Simulates s (s.destroy R) := by
  refine ⟨.inr ?_, fun _ R' hR' => by cases hR'⟩
  have hstep := Ledger.Step.close s.ledger
  simpa [State.ledger, State.responders, State.destroy, h, Event.entry, filterMap_map,
    Function.comp_def] using hstep

theorem takeRequestId_of_counts {n requests : ℕ} (hn : n = if requests = 0 then 0 else requests + 1)
    (hlt : requests + 1 < 2 ^ 64 - 1) : takeRequestId n = (requests + 1, requests + 2) := by
  rw [takeRequestId, hn]
  by_cases h0 : requests = 0
  · simp [h0]
  · simp only [h0, ↓reduceIte, Nat.succ_ne_zero, Prod.mk.injEq, true_and]
    exact Nat.mod_eq_of_lt (by omega)

theorem simulates_lost (h : s.router = some R) (hcounts : Counts s)
    (hlt : s.requests + 1 < 2 ^ 64 - 1) (aborted : Option Abort) (c : Connector) :
    Simulates s { s with
      requests := s.requests + 1
      router := some { R with connector := c, nextRequestId := (takeRequestId R.nextRequestId).2 }
      aborted := aborted } := by
  rw [takeRequestId_of_counts (hcounts R h) hlt]
  refine ⟨.inr ?_, fun _ R' hR' => ?_⟩
  · have hstep := Ledger.Step.lost s.ledger
    simpa [State.ledger, State.responders, h] using hstep
  · obtain rfl := Option.some.inj hR'
    rfl

theorem sent_ledger (s : State) : s.ledger.sent = s.sent := by
  simp only [Ledger.sent, State.ledger, State.sent, filterMap_filterMap]
  congr 1
  funext e
  cases e <;> rfl

theorem simulates_sent (h : s.router = some R) (hcounts : Counts s) (hinv : s.ledger.Inv)
    (hlt : s.requests + 1 < 2 ^ 64 - 1) (hfresh : responder ∉ s.ledger.sent) (c : Connector) :
    Simulates s { s with
      requests := s.requests + 1
      router := some { R with
        connector := c
        nextRequestId := (takeRequestId R.nextRequestId).2
        responders := ((takeRequestId R.nextRequestId).1, responder) ::
          R.responders.filter fun p => p.1 != (takeRequestId R.nextRequestId).1 }
      log := s.log ++ [.sent responder (takeRequestId R.nextRequestId).1] } := by
  rw [takeRequestId_of_counts (hcounts R h) hlt]
  have hwaiting : s.ledger.waiting = R.responders := by simp [State.ledger, State.responders, h]
  have hnew : R.responders.filter (fun p => p.1 != s.requests + 1) = R.responders := by
    rw [filter_eq_self]
    intro p hp
    have hle : p.1 ≤ s.requests := (hinv.bounds p (hwaiting ▸ hp)).2
    simp only [bne_iff_ne, ne_eq]
    omega
  refine ⟨.inr ?_, fun _ R' hR' => ?_⟩
  · have hstep := Ledger.Step.send s.ledger responder hfresh
    simpa [State.ledger, State.responders, h, hnew, Event.entry] using hstep
  · obtain rfl := Option.some.inj hR'
    rfl

theorem requests_acceptWithResponder (s : State) (R : Router) (responder : ℕ)
    (result : WriteResult) :
    (s.acceptWithResponder R responder result).requests = s.requests + 1 := by
  simp only [State.acceptWithResponder, State.write]
  split
  · rfl
  · split_ifs <;> rfl

/-- The invariant of the router: its ledger is sound and its counter is in step. -/
def Sound (s : State) : Prop := Counts s ∧ s.ledger.Inv

theorem simulates_acceptWithResponder (h : s.router = some R) (hs : Sound s)
    (hlt : s.requests + 1 < 2 ^ 64 - 1)
    (hfresh : responder ∉ s.sent) (result : WriteResult) :
    Simulates s (s.acceptWithResponder R responder result) := by
  have hsend := ledger_note s (e := .send) rfl
  have hcounts : Counts (s.note .send) := fun R hR => hs.1 R hR
  have hinv : (s.note .send).ledger.Inv := hsend.symm ▸ hs.2
  have hfresh' : responder ∉ (s.note .send).ledger.sent := by rwa [hsend, sent_ledger]
  suffices hsim : Simulates (s.note .send) (s.acceptWithResponder R responder result) from
    ⟨hsend ▸ hsim.ledger, fun hc => hsim.counts fun R hR => hc R hR⟩
  simp only [State.acceptWithResponder, State.write]
  split
  · rename_i abort _
    exact simulates_lost (s := s.note .send) h hcounts hlt (some abort) R.connector
  · rename_i ok c _
    cases ok with
    | true => exact simulates_sent (s := s.note .send) h hcounts hinv hlt hfresh' c
    | false => exact simulates_lost (s := s.note .send) h hcounts hlt s.aborted c

theorem simulates_effect (h : Effect s s') (hlt : s'.requests < 2 ^ 64 - 1) (hs : Sound s) :
    Simulates s s' := by
  cases h with
  | stack stack h => exact ⟨.inl (by simp only [State.ledger, State.responders, h]), id⟩
  | thunks thunks next => exact ⟨.inl rfl, id⟩
  | router R waiting enforce receiver h =>
    exact ⟨.inl (by simp only [State.ledger, State.responders, h]), counts_router h rfl⟩
  | closed R h =>
    refine ⟨.inl ?_, counts_router h rfl⟩
    rw [← ledger_note s (e := .closed) rfl]
    simp only [State.ledger, State.responders, State.closePipe, State.note, h]
  | failed R h =>
    refine ⟨.inl ?_, counts_router h rfl⟩
    rw [← ledger_note s (e := .failed) rfl]
    simp only [State.ledger, State.responders, State.notifyError, State.note, h, filterMap_cons,
      Frame.answering]
  | answered R id responder caller h hr => exact simulates_answered caller h hr
  | retired responder caller rest h => exact simulates_retired h
  | write R result h => exact simulates_write h result
  | acceptWithResponder R responder result h hfresh =>
    rw [requests_acceptWithResponder] at hlt
    exact simulates_acceptWithResponder h hs hlt hfresh result
  | destroyed R h => exact simulates_destroyed h

theorem Effect.requests_le (h : Effect s s') : s.requests ≤ s'.requests := by
  cases h with
  | acceptWithResponder R responder result =>
    rw [requests_acceptWithResponder]
    exact Nat.le_succ _
  | write R result =>
    rw [State.write]
    split <;> exact le_rfl
  | _ => exact le_rfl

theorem sound_effect (h : Effect s s') (hs : s.requests < 2 ^ 64 - 1 → Sound s)
    (hlt : s'.requests < 2 ^ 64 - 1) : Sound s' := by
  have hsound := hs (h.requests_le.trans_lt hlt)
  have hsim := simulates_effect h hlt hsound
  refine ⟨hsim.counts hsound.1, ?_⟩
  rcases hsim.ledger with heq | hstep
  · exact heq ▸ hsound.2
  · exact hsound.2.step hstep

theorem sound_new : Sound .new :=
  ⟨fun R hR => by obtain rfl := Option.some.inj hR; rfl, Ledger.inv_empty⟩

theorem sound_run {as : List Action} (hrun : run step .new as = some s)
    (hlt : s.requests < 2 ^ 64 - 1) : Sound s :=
  run_effects (P := fun s => s.requests < 2 ^ 64 - 1 → Sound s)
    (fun _ _ h hs hlt => sound_effect h hs hlt) hrun (fun _ => sound_new) hlt

/-! ### What this says of the log -/

def Event.answered? : Event → Option ℕ
  | .answered r _ => some r
  | _ => none

def Event.deleted? : Event → Option ℕ
  | .deletedAfterResponse r | .deletedByRouter r => some r
  | _ => none

def State.answered (s : State) : List ℕ := s.log.filterMap Event.answered?

def State.deleted (s : State) : List ℕ := s.log.filterMap Event.deleted?

theorem answered_ledger (s : State) : s.ledger.answered = s.answered := by
  simp only [Ledger.answered, State.ledger, State.answered, filterMap_filterMap]
  congr 1
  funext e
  cases e <;> rfl

theorem discarded_ledger (s : State) : s.ledger.discarded = s.deleted := by
  simp only [Ledger.discarded, State.ledger, State.deleted, filterMap_filterMap]
  congr 1
  funext e
  cases e <;> rfl

theorem mem_history {log : List Event} {x : Entry ℕ} (hx : e.entry = some x)
    (h : x ∈ log.filterMap Event.entry) : e ∈ log := by
  obtain ⟨e', he', hx'⟩ := mem_filterMap.mp h
  have : e' = e := by
    cases e <;> cases hx <;> cases e' <;> cases hx' <;> rfl
  exact this ▸ he'

theorem answered_closePipe (s : State) (R : Router) : (s.closePipe R).answered = s.answered := by
  simp [State.answered, State.closePipe, Event.answered?]

theorem answered_finish (s : State) (caller : Caller) (result : Bool) :
    (s.finish caller result).answered = s.answered := by
  rw [State.finish]
  split
  · rfl
  · split
    · simp [State.answered, State.notifyError, Event.answered?]
    · cases caller with
      | once => rfl
      | all => simp only; split <;> rfl

theorem answered_read {m : Message} (h : step s (.read (.message m)) = some s')
    (hm : m.requestId ∉ s.responders.map Prod.fst) : s'.answered = s.answered := by
  obtain ⟨-, ⟨caller, rest, result, R, -, hread, hR, -, rfl⟩ | h⟩ := step_cases h
  · obtain rfl := Action.read.inj hread
    have hno : R.responders.lookup m.requestId = none := by
      rw [lookup_eq_none_iff]
      intro p hp
      simp only [bne_iff_ne, ne_eq]
      rintro heq
      exact hm (by simp only [State.responders, hR]; exact mem_map.mpr ⟨p, hp, heq.symm⟩)
    simp only [State.read, State.handleIncoming, hno]
    split_ifs
    · exact answered_finish _ caller false
    · rfl
    · exact (answered_finish _ caller false).trans (answered_closePipe _ R)
    · exact answered_finish _ caller false
    · rfl
    · exact answered_finish _ caller false
  · cases h

structure ResponsesRouted (s : State) : Prop where
  answeredOnce : s.answered.Nodup
  ownRequest : ∀ before r id after, s.log = before ++ .answered r id :: after → .sent r id ∈ before
  distinct : (s.responders.map Prod.fst).Nodup
  nonzero : 0 ∉ s.responders.map Prod.fst
  forgotten : ∀ r id, .answered r id ∈ s.log → id ∉ s.responders.map Prod.fst
  unknown : ∀ m s', step s (.read (.message m)) = some s' →
    m.requestId ∉ s.responders.map Prod.fst → s'.answered = s.answered
  deletedOnce : s.deleted.Nodup
  deletedOwned : ∀ r ∈ s.deleted, r ∈ s.sent
  deletedAfter : ∀ before r after, s.log = before ++ .deletedAfterResponse r :: after → ∃ id,
    .answered r id ∈ before
  deletedAll : s.router = none → s.stack.filterMap Frame.answering = [] → s.deleted.Perm s.sent

theorem responses_reach_their_caller {as : List Action} {s : State}
    (hrun : run step .new as = some s) (hlt : s.requests < 2 ^ 64 - 1) : ResponsesRouted s := by
  have hinv := (sound_run hrun hlt).2
  have hsplit : ∀ {before after : List Event} {e : Event} {x : Entry ℕ}, e.entry = some x →
      s.log = before ++ e :: after → Ledger.Reason (before.filterMap Event.entry) x := by
    intro before after e x hx hlog
    apply hinv.justified _ _ (after.filterMap Event.entry)
    simp [State.ledger, hlog, hx]
  constructor
  · exact answered_ledger s ▸ hinv.answered_nodup
  · intro before r id after hlog
    have hreason : Ledger.Reason _ (.answered r id) := hsplit rfl hlog
    exact mem_history rfl hreason
  · exact hinv.ids
  · intro h0
    obtain ⟨q, hq, hq0⟩ := mem_map.mp h0
    have := (hinv.bounds q hq).1
    omega
  · intro r id hmem
    exact (hinv.spent r id (mem_filterMap.mpr ⟨_, hmem, rfl⟩)).2
  · exact fun m s' h hm => answered_read h hm
  · exact discarded_ledger s ▸ hinv.discarded_nodup
  · intro r hr
    rw [← discarded_ledger] at hr
    rw [← sent_ledger, ← count_pos_iff, hinv.conserved r]
    have := count_pos_iff.mpr hr
    omega
  · intro before r after hlog
    have hreason : Ledger.Reason _ (.retired r) := hsplit rfl hlog
    obtain ⟨id, hid⟩ := hreason
    exact ⟨id, mem_history rfl hid⟩
  · intro hr hstack
    rw [← discarded_ledger, ← sent_ledger]
    exact hinv.discarded_perm (by simp only [State.ledger, State.responders, hr]) hstack

/-- Two requests; the responder of the first sends a third one and is called again for
it, then deletes the router. -/
def reentrantRun : List Action :=
  [.acceptWithResponder 7 .ok, .acceptWithResponder 8 .ok, .ready true,
    .read (.message ⟨true, false, true, 1⟩), .acceptWithResponder 9 .failedPrecondition,
    .waitForIncoming true, .read (.message ⟨true, false, true, 3⟩), .destroy, .return true,
    .return false]

theorem responses_reach_their_caller_reentrant : ∃ s, run step .new reentrantRun = some s ∧
      s.log.filter (fun e => e != .send) =
        [.sent 7 1, .sent 8 2, .answered 7 1, .sent 9 3, .answered 9 3, .deletedByRouter 8,
          .deletedAfterResponse 9, .deletedAfterResponse 7] ∧
      ResponsesRouted s :=
  ⟨_, rfl, by decide, @responses_reach_their_caller reentrantRun _ rfl (by decide)⟩

end Mojo.CppBindings.Routing
