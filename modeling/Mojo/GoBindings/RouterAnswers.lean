import Mojo.GoBindings.Router
import Mojo.System.Correlation
import Mathlib.Data.List.Perm.Basic

/-!
# Every request is answered at most once

The channel of a request that was accepted is in one place at a time: in the queue, with the worker,
in the map of responders, or among those that were answered or lost. So no channel is answered
twice, and when everything is drained exactly the lost ones have no answer. A request is lost when
it cannot be written and when its id is used again; a response with an unknown id blocks the worker,
and a message without a channel blocks the drain.
-/

namespace Mojo.GoBindings.Routing

open Mojo.System List

def chans (requests : List RouteRequest) : List ℕ := requests.filterMap RouteRequest.responseChan

@[simp]
theorem chans_cons (request : RouteRequest) (requests : List RouteRequest) :
    chans (request :: requests) = request.responseChan.toList ++ chans requests := by
  cases hchan : request.responseChan <;> simp [chans, hchan]

@[simp]
theorem chans_nil : chans [] = [] := rfl

@[simp]
theorem chans_append (requests requests' : List RouteRequest) :
    chans (requests ++ requests') = chans requests ++ chans requests' :=
  filterMap_append

def Worker.chans : Worker → List ℕ
  | .writing request => request.responseChan.toList
  | .select | .reading | .blocked | .answering | .closing | .stopped => []

def Worker.isRunning : Worker → Bool
  | .closing | .stopped => false
  | .select | .writing _ | .reading | .blocked | .answering => true

def State.promised (s : State) : List ℕ := chans s.callers ++ chans s.holder.toList

def State.places (s : State) (c : ℕ) : ℕ :=
  s.answers.count c + s.lost.count c + (chans s.requestChan).count c + s.worker.chans.count c +
    (s.responders.map Prod.snd).count c

structure Inv (s : State) : Prop where
  fresh : ∀ c, s.returned.count c + s.promised.count c ≤ if c < s.nextChan then 1 else 0
  conserved : ∀ c, s.returned.count c = s.places c
  keys : (s.responders.map Prod.fst).Nodup
  noPanic : s.panicked = false
  closed : s.chanClosed → s.handleValid = false
  idle : s.worker.isRunning → s.drain = .idle
  answered : s.worker.isRunning = false → s.responders = []
  ended : s.drain = .done → s.requestChan = [] ∧ s.chanClosed

def State.Clean (s : State) : Prop := ¬ s.nilSend ∧ s.lost = []

/-- What the pipe and the peer must not do: fail to take a request or answer an id
that is not in use; and what callers must not do: use an id twice, or leave a message without a
channel in the queue for the drain. -/
def Harmless (s : State) : Action → Prop
  | .write ok => ∀ request, s.worker = .writing request → request.responseChan ≠ none →
      ok = true ∧ request.requestId ∉ s.responders.map Prod.fst
  | .read (.message id) =>
    s.worker = .reading → s.waiting = false → s.responders ≠ [] → id ∈ s.responders.map Prod.fst
  | .drainNext => s.drain = .running → ∀ request ∈ s.requestChan.head?, request.responseChan ≠ none
  | _ => True

section Maps

variable {responders : List (ℕ × ℕ)} {id chan : ℕ}

theorem count_split (responders : List (ℕ × ℕ)) (id c : ℕ) : (responders.map Prod.snd).count c =
      ((responders.filter fun entry => entry.1 == id).map Prod.snd).count c +
        ((responders.filter fun entry => entry.1 != id).map Prod.snd).count c := by
  rw [← count_append, ← map_append]
  exact ((filter_append_perm _ _).map Prod.snd).symm.count_eq c

theorem count_of_lookup (hkeys : (responders.map Prod.fst).Nodup)
    (h : responders.lookup id = some chan) (c : ℕ) :
    (responders.map Prod.snd).count c =
      (chan :: (responders.filter fun entry => entry.1 != id).map Prod.snd).count c := by
  obtain ⟨l₁, l₂, heq, -⟩ := lookup_eq_some_iff.mp h
  exact ((Ledger.perm_filter_id hkeys (by simp [heq])).map Prod.snd).count_eq c

theorem lookup_eq_none : responders.lookup id = none ↔ id ∉ responders.map Prod.fst := by
  simp only [lookup_eq_none_iff, bne_iff_ne, mem_map, not_exists, not_and, ne_comm]

theorem nodup_filter (p : ℕ × ℕ → Bool) (hkeys : (responders.map Prod.fst).Nodup) :
    ((responders.filter p).map Prod.fst).Nodup :=
  hkeys.sublist (filter_sublist.map Prod.fst)

end Maps

theorem Inv.new : Inv State.new where
  fresh c := by simp [State.new, State.promised, chans]
  conserved c := by simp [State.new, State.places, chans, Worker.chans]
  keys := nodup_nil
  noPanic := rfl
  closed h := by cases h
  idle _ := rfl
  answered _ := rfl
  ended h := by cases h

section Steps

variable {s t : State}

theorem inv_accept (h : Inv s) (requestId : ℕ) : Inv (s.accept requestId) := by
  rw [State.accept]
  split
  · exact h
  · exact { h with
      fresh := fun c => by
        have := h.fresh c
        simpa [State.promised] using this
      conserved := h.conserved }

theorem inv_acceptWithResponse (h : Inv s) (requestId : ℕ) :
    Inv (s.acceptWithResponse requestId) := by
  have hnew : s.returned.count s.nextChan + s.promised.count s.nextChan = 0 := by
    have := h.fresh s.nextChan
    simpa using this
  have hfresh : ∀ c, s.returned.count c + s.promised.count c + (if s.nextChan = c then 1 else 0) ≤
      if c < s.nextChan + 1 then 1 else 0 := by
    intro c
    have := h.fresh c
    by_cases hc : s.nextChan = c
    · subst hc
      simp only [↓reduceIte, Nat.lt_succ_self]
      omega
    · simp only [hc, ↓reduceIte]
      split at this <;> split <;> omega
  simp only [State.acceptWithResponse]
  split
  · exact { h with
      fresh := fun c => by
        have := hfresh c
        simp only [State.promised, count_append, count_singleton, beq_iff_eq] at this ⊢
        omega
      conserved := fun c => by
        have := h.conserved c
        simp only [State.places, count_append] at this ⊢
        omega }
  · exact { h with
      fresh := fun c => by
        have := hfresh c
        simp only [State.promised, chans_append, chans_cons, chans_nil, Option.toList_some,
          append_nil, count_append, count_singleton, beq_iff_eq] at this ⊢
        omega
      conserved := h.conserved }

theorem inv_lock (h : Inv s) {caller : ℕ} (hstep : s.lock caller = some t) : Inv t := by
  simp only [State.lock] at hstep
  split at hstep
  · rename_i request hholder hcaller
    cases hstep
    obtain ⟨hlt, hget⟩ := List.getElem?_eq_some_iff.mp hcaller
    have hsplit : (request :: s.callers.eraseIdx caller).Perm s.callers :=
      hget ▸ getElem_cons_eraseIdx_perm hlt
    exact { h with
      fresh := fun c => by
        have := h.fresh c
        have hperm : (chans (request :: s.callers.eraseIdx caller)).count c =
            (chans s.callers).count c :=
          (hsplit.filterMap RouteRequest.responseChan).count_eq c
        simp only [State.promised, hholder, Option.toList_none, Option.toList_some, chans_cons,
          chans_nil, append_nil, count_append] at this hperm ⊢
        omega
      conserved := h.conserved }
  · cases hstep

theorem inv_send (h : Inv s) (hstep : s.send = some t) : Inv t := by
  simp only [State.send] at hstep
  split at hstep
  · cases hstep
  · rename_i request hholder
    have hfresh : ∀ c, (s.returned ++ request.responseChan.toList).count c +
        (chans s.callers).count c ≤
        if c < s.nextChan then 1 else 0 := by
      intro c
      have := h.fresh c
      simp only [State.promised, hholder, Option.toList_some, chans_cons, chans_nil, count_append,
        count_nil] at this ⊢
      omega
    split at hstep
    · cases hstep
      exact { h with
        fresh := fun c => by simpa [State.promised] using hfresh c
        conserved := fun c => by
          have := h.conserved c
          simp only [State.places, count_append] at this ⊢
          omega }
    · rename_i hvalid
      split at hstep
      · rename_i hclosed
        exact absurd (h.closed hclosed) (by simpa using hvalid)
      · split at hstep
        · cases hstep
          exact { h with
            fresh := fun c => by simpa [State.promised] using hfresh c
            conserved := fun c => by
              have := h.conserved c
              simp only [State.places, chans_append, chans_cons, chans_nil, count_append, count_nil]
                at this ⊢
              omega
            ended := fun hdone => absurd (h.ended hdone).2 (by assumption) }
        · cases hstep

theorem inv_move (h : Inv s) {w : Worker} (hs : s.worker.isRunning) (hw : w.isRunning)
    (hchans : s.worker.chans = w.chans) (waiting : Bool) :
    Inv { s with worker := w, waiting := waiting } :=
  { h with
    conserved := fun c => by
      have := h.conserved c
      simp only [State.places, hchans] at this ⊢
      exact this
    idle := fun _ => h.idle hs
    answered := fun hstop => by
      simp only [hw] at hstop
      cases hstop }

variable {ok : Bool}

theorem inv_waitResponse (h : Inv s) (hstep : s.waitResponse ok = some t) : Inv t := by
  simp only [State.waitResponse] at hstep
  split at hstep
  · rename_i hselect
    cases hstep
    cases ok <;> exact inv_move h (by rw [hselect.1]; rfl) rfl (by rw [hselect.1]; rfl) false
  · cases hstep

theorem inv_receive (h : Inv s) (hstep : s.receive = some t) : Inv t := by
  simp only [State.receive] at hstep
  split at hstep
  · rename_i request requests hworker hqueue
    cases hstep
    have hidle : s.drain = .idle := h.idle (by rw [hworker]; rfl)
    exact { h with
      conserved := fun c => by
        have := h.conserved c
        simp only [State.places, hqueue, chans_cons, hworker, Worker.chans, count_append, count_nil]
          at this ⊢
        omega
      idle := fun _ => hidle
      answered := fun hstop => by cases hstop
      ended := fun hdone => by cases hidle.symm.trans hdone }
  · cases hstep

theorem inv_write (h : Inv s) (hstep : s.write ok = some t) : Inv t := by
  simp only [State.write] at hstep
  split at hstep
  · rename_i request hworker
    have hidle : s.drain = .idle := h.idle (by rw [hworker]; rfl)
    split at hstep
    · cases hstep
      exact { h with
        conserved := fun c => by
          have := h.conserved c
          simp only [State.places, hworker, Worker.chans, count_append, count_nil] at this ⊢
          omega
        idle := fun _ => hidle
        answered := fun hstop => by cases hstop }
    · split at hstep
      · rename_i hchan
        cases hstep
        exact inv_move h (by rw [hworker]; rfl) rfl (by rw [hworker, Worker.chans, hchan]; rfl)
          s.waiting
      · rename_i responseChan hchan
        cases hstep
        exact { h with
          conserved := fun c => by
            have := h.conserved c
            have hsplit := count_split s.responders request.requestId c
            simp only [State.places, hworker, Worker.chans, hchan, Option.toList_some,
              count_append, count_nil, map_cons, count_cons] at this ⊢
            omega
          keys := by
            rw [map_cons, nodup_cons]
            exact ⟨by simp, nodup_filter _ h.keys⟩
          idle := fun _ => hidle
          answered := fun hstop => by cases hstop }
  · cases hstep

theorem inv_respond (h : Inv s) {id responseChan : ℕ}
    (hlookup : s.responders.lookup id = some responseChan) :
    Inv { s with
      answers := s.answers ++ [responseChan]
      responders := s.responders.filter fun entry => entry.1 != id } :=
  { h with
    conserved := fun c => by
      have := h.conserved c
      have hcount := count_of_lookup h.keys hlookup c
      simp only [State.places, count_append, count_cons, count_nil] at this hcount ⊢
      omega
    keys := nodup_filter _ h.keys
    answered := fun hstop => by rw [h.answered hstop]; rfl }

variable {result : ReadResult}

theorem inv_read (h : Inv s) (hstep : s.read result = some t) : Inv t := by
  simp only [State.read] at hstep
  split at hstep
  · cases hstep
  · rename_i hworker
    rw [not_not] at hworker
    have hmove (w : Worker) (hw : w.isRunning = true) (hchans : w.chans = []) (waiting : Bool) :
        Inv { s with worker := w, waiting := waiting } :=
      inv_move h (by rw [hworker]; rfl) hw (by rw [hworker, hchans]; rfl) waiting
    split at hstep
    · cases hstep
      exact hmove .select rfl rfl s.waiting
    · split at hstep
      · cases hstep
        exact hmove .select rfl rfl true
      · cases hstep
        exact hmove .answering rfl rfl s.waiting
      · cases hstep
        exact hmove .answering rfl rfl s.waiting
      · split at hstep
        · cases hstep
          exact hmove .blocked rfl rfl s.waiting
        · cases hstep
          exact inv_respond h (by assumption)

theorem inv_answer (h : Inv s) {requestId : ℕ} (hstep : s.answer requestId = some t) : Inv t := by
  simp only [State.answer] at hstep
  split at hstep
  · cases hstep
    exact inv_respond h (by assumption)
  · cases hstep

theorem inv_spawnDrain (h : Inv s) (hstep : s.spawnDrain = some t) : Inv t := by
  simp only [State.spawnDrain] at hstep
  split at hstep
  · rename_i hworker
    cases hstep
    exact { h with
      conserved := fun c => by
        have := h.conserved c
        simp only [State.places, hworker.1, Worker.chans] at this ⊢
        exact this
      idle := fun hrun => by cases hrun
      answered := fun _ => hworker.2
      ended := fun hdone => by cases hdone }
  · cases hstep

theorem inv_closeHandle (h : Inv s) (hstep : s.closeHandle = some t) : Inv t := by
  simp only [State.closeHandle] at hstep
  split at hstep
  · rename_i hworker
    cases hstep
    exact { h with
      conserved := fun c => by
        have := h.conserved c
        simp only [State.places, hworker.1, Worker.chans] at this ⊢
        exact this
      closed := fun _ => rfl
      idle := fun hrun => by cases hrun
      answered := fun _ => h.answered (by rw [hworker.1]; rfl)
      ended := fun hdone => ⟨(h.ended hdone).1, rfl⟩ }
  · cases hstep

theorem inv_drainNext (h : Inv s) (hstep : s.drainNext = some t) : Inv t := by
  simp only [State.drainNext] at hstep
  split at hstep
  · rename_i request requests hdrain hqueue
    split at hstep
    · rename_i hchan
      cases hstep
      exact { h with
        conserved := fun c => by
          have := h.conserved c
          simpa [State.places, hqueue, hchan] using this
        idle := fun hrun => by cases hdrain.symm.trans (h.idle hrun)
        ended := fun hdone => by cases hdone }
    · rename_i responseChan hchan
      cases hstep
      exact { h with
        conserved := fun c => by
          have := h.conserved c
          simp only [State.places, hqueue, chans_cons, hchan, Option.toList_some, count_append]
            at this ⊢
          omega
        ended := fun hdone => by cases hdrain.symm.trans hdone }
  · cases hstep

theorem inv_drainEnd (h : Inv s) (hstep : s.drainEnd = some t) : Inv t := by
  simp only [State.drainEnd] at hstep
  split at hstep
  · rename_i hend
    cases hstep
    exact { h with
      idle := fun hrun => by cases hend.1.symm.trans (h.idle hrun)
      ended := fun _ => hend.2 }
  · cases hstep

theorem inv_step {a : Action} (h : Inv s) (hstep : step s a = some t) : Inv t := by
  cases a with
  | accept requestId => exact Option.some.inj hstep ▸ inv_accept h requestId
  | acceptWithResponse requestId => exact Option.some.inj hstep ▸ inv_acceptWithResponse h requestId
  | lock => exact inv_lock h hstep
  | send => exact inv_send h hstep
  | close => exact Option.some.inj hstep ▸ { h with }
  | waitResponse => exact inv_waitResponse h hstep
  | receive => exact inv_receive h hstep
  | stop =>
    simp only [step] at hstep
    split at hstep
    · rename_i hselect
      cases hstep
      exact inv_move h (by rw [hselect.1]; rfl) rfl (by rw [hselect.1]; rfl) s.waiting
    · cases hstep
  | write => exact inv_write h hstep
  | read => exact inv_read h hstep
  | answer => exact inv_answer h hstep
  | spawnDrain => exact inv_spawnDrain h hstep
  | closeHandle => exact inv_closeHandle h hstep
  | drainNext => exact inv_drainNext h hstep
  | drainEnd => exact inv_drainEnd h hstep

variable {as : List Action}

theorem inv_run (hrun : run step State.new as = some s) : Inv s :=
  run_invariant (fun _ _ _ hstep h => inv_step h hstep) hrun .new

theorem clean_congr (hworker : t.worker = .blocked ↔ s.worker = .blocked)
    (hdrain : t.drain = .blocked ↔ s.drain = .blocked) (hlost : t.lost = s.lost) :
    t.Clean ↔ s.Clean := by
  rw [State.Clean, State.Clean, State.nilSend, State.nilSend, hworker, hdrain, hlost]

theorem clean_write (hstep : s.write ok = some t) : t.Clean ↔ s.Clean ∧ Harmless s (.write ok) := by
  simp only [State.write] at hstep
  split at hstep
  · rename_i request hworker
    have hharmless : Harmless s (.write ok) ↔ (request.responseChan ≠ none →
        ok = true ∧ request.requestId ∉ s.responders.map Prod.fst) := by
      simp only [Harmless, hworker, Worker.writing.injEq, forall_eq']
    rw [hharmless, State.Clean, State.Clean, State.nilSend, State.nilSend, hworker]
    cases hchan : request.responseChan with
    | none =>
      cases ok <;> simp only [hchan, Bool.not_false, Bool.not_true, if_true, Bool.false_eq_true,
        if_false] at hstep <;>
        obtain rfl := Option.some.inj hstep <;> simp
    | some responseChan =>
      cases ok with
      | false =>
        simp only [hchan, Bool.not_false, if_true] at hstep
        cases hstep
        simp
      | true =>
        simp only [hchan, Bool.not_true, Bool.false_eq_true, if_false] at hstep
        cases hstep
        -- the entries that are replaced are lost
        have hlost : (s.responders.filter fun entry => entry.1 == request.requestId) = [] ↔
            request.requestId ∉ s.responders.map Prod.fst := by
          simp only [filter_eq_nil_iff, beq_iff_eq, mem_map, not_exists, not_and]
        simp only [append_eq_nil_iff, map_eq_nil_iff, hlost]
        simp [and_assoc]
  · cases hstep

theorem clean_read (hstep : s.read result = some t) :
    t.Clean ↔ s.Clean ∧ Harmless s (.read result) := by
  simp only [State.read] at hstep
  split at hstep
  · cases hstep
  · rename_i hworker
    rw [not_not] at hworker
    have hstay (w : Worker) (hw : w ≠ .blocked) (waiting : Bool) :
        State.Clean { s with worker := w, waiting := waiting } ↔ s.Clean :=
      clean_congr (by simp [hw, hworker]) Iff.rfl rfl
    cases result with
    | shouldWait =>
      rw [Harmless, and_true]
      · split at hstep <;> obtain rfl := Option.some.inj hstep <;> exact hstay .select (by simp) _
      all_goals simp
    | failed | malformed =>
      rw [Harmless, and_true]
      · split at hstep <;> obtain rfl := Option.some.inj hstep <;> exact hstay _ (by simp) s.waiting
      all_goals simp
    | message id =>
      rw [Harmless]
      split at hstep
      · rename_i hskip
        cases hstep
        rw [hstay .select (by simp) s.waiting]
        rcases hskip with hwait | hnone
        · simp [hwait]
        · simp [hnone]
      · rename_i hread
        simp only [not_or, Bool.not_eq_true] at hread
        have hknown : s.responders.lookup id ≠ none ↔ id ∈ s.responders.map Prod.fst := by
          rw [ne_eq, lookup_eq_none, not_not]
        simp only [hworker, hread.1, ne_eq, hread.2, not_false_eq_true, true_implies, ← hknown]
        dsimp only at hstep
        split at hstep
        · rename_i hlookup
          cases hstep
          simp [State.Clean, State.nilSend, hlookup]
        · rename_i hlookup
          cases hstep
          simp [State.Clean, State.nilSend, hlookup]

theorem clean_drainNext (hstep : s.drainNext = some t) :
    t.Clean ↔ s.Clean ∧ Harmless s .drainNext := by
  simp only [State.drainNext] at hstep
  split at hstep
  · rename_i request requests hdrain hqueue
    have hharmless : Harmless s .drainNext ↔ request.responseChan ≠ none := by
      simp [Harmless, hdrain, hqueue]
    rw [hharmless, State.Clean, State.Clean, State.nilSend, State.nilSend]
    split at hstep
    · rename_i hchan
      cases hstep
      simp [hchan]
    · rename_i hchan
      cases hstep
      simp [hchan]
  · cases hstep

theorem clean_step {a : Action} (h : Inv s) (hstep : step s a = some t) :
    t.Clean ↔ s.Clean ∧ Harmless s a := by
  cases a with
  | write => exact clean_write hstep
  | read => exact clean_read hstep
  | drainNext => exact clean_drainNext hstep
  | spawnDrain =>
    simp only [step, State.spawnDrain] at hstep
    split at hstep
    · rename_i hworker
      have hidle : s.drain = .idle := h.idle (by rw [hworker.1]; rfl)
      cases hstep
      rw [Harmless, and_true]
      · exact clean_congr (by simp [hworker.1]) (by simp [hidle]) rfl
      all_goals simp
    · cases hstep
  | accept => grind [step, State.accept, Harmless, clean_congr]
  | acceptWithResponse => grind [step, State.acceptWithResponse, Harmless, clean_congr]
  | lock => grind [step, State.lock, Harmless, clean_congr]
  | send => grind [step, State.send, Harmless, clean_congr]
  | close => grind [step, Harmless, clean_congr]
  | waitResponse => grind [step, State.waitResponse, Harmless, clean_congr]
  | receive => grind [step, State.receive, Harmless, clean_congr]
  | stop => grind [step, Harmless, clean_congr]
  | answer => grind [step, State.answer, Harmless, clean_congr]
  | closeHandle => grind [step, State.closeHandle, Harmless, clean_congr]
  | drainEnd => grind [step, State.drainEnd, Harmless, clean_congr]

theorem clean_run (h : Inv s) (hclean : s.Clean) (hrun : run step s as = some t) :
    t.Clean ↔ Each step Harmless s as := by
  have hcases := run_cases_of_each (P := fun s => Inv s ∧ s.Clean) (B := fun s => Inv s ∧ ¬ s.Clean)
    (fun _ _ _ hstep ha h => ⟨inv_step h.1 hstep, (clean_step h.1 hstep).mpr ⟨h.2, ha⟩⟩)
    (fun _ _ _ hstep ha h => ⟨inv_step h.1 hstep, fun hc => ha ((clean_step h.1 hstep).mp hc).2⟩)
    (fun _ _ _ hstep h => ⟨inv_step h.1 hstep, fun hc => h.2 ((clean_step h.1 hstep).mp hc).1⟩)
    hrun ⟨h, hclean⟩
  rcases hcases with ⟨heach, -, hc⟩ | ⟨heach, -, hc⟩
  · exact iff_of_true hc heach
  · exact iff_of_false hc heach

theorem Inv.answers_count_le (h : Inv s) (c : ℕ) : s.answers.count c ≤ 1 := by
  have hfresh := h.fresh c
  have hplaces := h.conserved c
  rw [State.places] at hplaces
  split at hfresh <;> omega

theorem Inv.count_of_drained (h : Inv s) (hdrained : s.drained) (c : ℕ) :
    s.returned.count c = s.answers.count c + s.lost.count c := by
  have hplaces := h.conserved c
  rw [State.places, (h.ended hdrained.2).1, h.answered (by rw [hdrained.1]; rfl), hdrained.1]
    at hplaces
  simpa [chans, Worker.chans] using hplaces

theorem Inv.answered_iff_clean (h : Inv s) (hdrained : s.drained) :
    (∀ c ∈ s.returned, s.answers.count c = 1) ↔ s.Clean := by
  have hnil : ¬ s.nilSend := by
    simp [State.nilSend, hdrained.1, hdrained.2]
  constructor
  · intro hall
    refine ⟨hnil, eq_nil_iff_forall_not_mem.mpr fun c hc => ?_⟩
    have hcount := h.count_of_drained hdrained c
    have hlost : 0 < s.lost.count c := count_pos_iff.mpr hc
    have hreturned : c ∈ s.returned := count_pos_iff.mp (by omega)
    have hone := hall c hreturned
    have hfresh := h.fresh c
    split at hfresh <;> omega
  · intro hclean c hc
    have hcount := h.count_of_drained hdrained c
    have hone := h.answers_count_le c
    have hreturned : 0 < s.returned.count c := count_pos_iff.mpr hc
    rw [hclean.2, count_nil] at hcount
    omega

/-- No send is to a closed channel and no channel is answered twice. The goroutines do not block
and lose nothing exactly when all actions are harmless; and then every channel has its answer when
all is drained. -/
theorem answered_once {as : List Action} (hrun : run step State.new as = some s) :
    s.panicked = false ∧ (∀ c, s.answers.count c ≤ 1) ∧
      ((¬ s.nilSend ∧ s.lost = []) ↔ Each step Harmless State.new as) ∧
      (s.drained → ((∀ c ∈ s.returned, s.answers.count c = 1) ↔
        Each step Harmless State.new as)) := by
  have h := inv_run hrun
  have hclean : s.Clean ↔ Each step Harmless State.new as :=
    clean_run .new ⟨by simp [State.nilSend, State.new], rfl⟩ hrun
  exact ⟨h.noPanic, h.answers_count_le, hclean, fun hdrained =>
    (h.answered_iff_clean hdrained).trans hclean⟩

end Steps

def twoRequests : List Action :=
  [.acceptWithResponse 7, .lock 0, .send, .receive, .write true, .read (.message 7),
    .read .shouldWait, .acceptWithResponse 8, .close, .lock 0, .send, .stop, .spawnDrain,
    .drainNext, .closeHandle, .drainEnd]

theorem answered_once_two_requests :
    ∃ s, run step State.new twoRequests = some s ∧ s.drained ∧ s.answers = [0, 1] ∧ ∀ c,
      s.answers.count c ≤ 1 := by
  exact ⟨_, rfl, ⟨rfl, rfl⟩, rfl,
    (answered_once (rfl : run step State.new twoRequests = some _)).2.1⟩

/-- A response whose id is not in use, a message without a channel in the queue when the worker
stops, and a request that cannot be written. -/
theorem nil_sends_and_lost_answer :
    (run step State.new [.acceptWithResponse 7, .lock 0, .send, .receive, .write true,
      .read (.message 9)]).map State.worker = some .blocked ∧
    (run step State.new [.accept 0, .lock 0, .send, .close, .stop, .spawnDrain,
      .drainNext]).map State.drain = some .blocked ∧
    ∃ s, run step State.new [.acceptWithResponse 7, .lock 0, .send, .receive, .write false,
        .spawnDrain, .closeHandle, .drainEnd] = some s ∧
      s.drained ∧ s.returned = [0] ∧ s.answers = [] := by
  exact ⟨by decide, by decide, _, rfl, ⟨rfl, rfl⟩, rfl, rfl⟩

end Mojo.GoBindings.Routing
