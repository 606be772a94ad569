import Mojo.PythonBindings.PromiseOnce

/-!
# Runs of promises

Every function keeps `Good` up to the registrations that its callers still have to notify, however
deep the calls of the callbacks go.
-/

namespace Mojo.PythonBindings.Promises

open Mojo.System List

variable {e : Event} {g : Promise → Promise} {w'' : World} {x : Value} {depth q : ℕ} {side : Side}
  {d : Delegate} {w w' : World} {due : List ℕ} {p : ℕ} {r : Promise} {α : Type}

section Late

theorem Late.record (h : Late w)
    (he : ∀ setter q value own seen, e = .settle setter q value own seen → own ≠ .pending →
      ∃ c, firstCall w.log q = some c) : Late { w with log := e :: w.log } where
  called q r hr hstate := by
    obtain ⟨c, hc⟩ := h.called q r hr hstate
    exact ⟨c, firstCall_cons hc⟩
  past older newer setter q value own seen hlog hown := by
    cases newer with
    | nil =>
      obtain ⟨rfl, rfl⟩ := List.cons.inj hlog
      exact he setter q value own seen rfl hown
    | cons e' newer => exact h.past older newer setter q value own seen (List.cons.inj hlog).2 hown

theorem Late.modify (h : Late w)
    (hg : ∀ r, w.Has p r → (g r).state ≠ .pending → ∃ c, firstCall w.log p = some c) :
    Late { w with promises := w.promises.modify p g } where
  called q r' hr' hstate := by
    obtain ⟨r, hr, rfl⟩ := has_modify.mp hr'
    split at hstate
    · next heq =>
      subst heq
      exact hg r hr hstate
    · exact h.called q r hr hstate
  past := h.past

theorem Late.push (h : Late w) : Late { w with promises := w.promises ++ [Promise.new] } where
  called q r' hr' hstate := by
    rcases has_push.mp hr' with hr' | ⟨-, rfl⟩
    · exact h.called q r' hr' hstate
    · exact absurd rfl hstate
  past := h.past

end Late

structure Sound (due : List ℕ) (w : World) : Prop where
  late : Late w
  good : Fine w.log → Good w due

theorem Sound.drop {gone : List ℕ} (h : Sound (gone ++ due) w) : Sound due w :=
  ⟨h.late, fun hfine => (h.good hfine).drop gone⟩

/-- However the computation ends, the log has been extended and the world is sound. -/
def Keeping (due : List ℕ) (w : World) (x : Running α) : Prop :=
  Ends x w fun w' => w.log <:+ w'.log ∧ Sound due w'

namespace Keeping

variable {β : Type} {x : Running α}

theorem stay (h : Sound due w) : w.log <:+ w.log ∧ Sound due w := ⟨suffix_refl _, h⟩

theorem bind (gone : List ℕ) {f : α → Running β} (hx : Keeping (gone ++ due) w x)
    (hf : ∀ a w', w.log <:+ w'.log → Sound (gone ++ due) w' → Keeping due w' (f a)) :
    Keeping due w (x >>= f) :=
  Ends.bind hx (fun _ h => ⟨h.1, h.2.drop⟩) fun a w' h =>
    (hf a w' h.1 h.2).mono fun _ h' => ⟨h.1.trans h'.1, h'.2⟩

theorem void {b : β} (hx : Keeping due w x) : Keeping due w (x >>= fun _ => pure b) :=
  hx.bind [] fun _ _ _ => stay

theorem attempt {handler : Error → Running α} (hx : Keeping due w x)
    (hf : ∀ e w', Sound due w' → Keeping due w' (handler e)) : Keeping due w (attempt x handler) :=
  Ends.attempt hx (fun _ => id) fun e w' h => (hf e w' h.2).mono fun _ h' => ⟨h.1.trans h'.1, h'.2⟩

theorem record {f : Unit → Running α} (h : Keeping due { w with log := e :: w.log } (f ())) :
    Keeping due w (record e >>= f) :=
  h.mono fun _ h' => ⟨(suffix_cons e w.log).trans h'.1, h'.2⟩

theorem update {f : Unit → Running α}
    (h : Keeping due { w with promises := w.promises.modify p g } (f ())) :
    Keeping due w (update p g >>= f) := h

end Keeping

def Pre (due : List ℕ) (w : World) : Call → Prop
  | .settle _ _ _ => Good w due
  | .andThen p onFulfilled onRejected target binder =>
    Good w due ∧ Leads w.log target p ∧
      (∀ q, onFulfilled = some (.iterate q) ∨ onRejected = some (.iterate q) → binder = some q) ∧
      ∀ q, binder = some q → firstCall w.log q = some (.resolve, .promise target) ∧
        ∀ target' promise', .registered target' promise' (some q) ∉ w.log
  | .delegate d x => Good w (d.promise :: due) ∧ Callable w.log d x
  | .action _ (.callback _) _ => Good w due
  | .action side (.iterate q) x =>
    Good w (w.waiting q ++ due) ∧ ∀ d ∈ w.list q side, Callable w.log d x

def Keeps (rec : Call → Running Value) : Prop :=
  ∀ call w due, Late w → (Fine w.log → Pre due w call) → Keeping due w (rec call)

def Seen (w : World) (p : ℕ) (seen : State) : Prop :=
  ∀ r, w.Has p r → r.result.isPromise = false → seen = r.state

section Reading

theorem lookup_of_has (h : w.Has p r) : lookup p w = .ok r w := by
  refine (bind_of_ok (x := get) rfl).trans ?_
  rw [show w.promises[p]? = some r from h]
  rfl

theorem lookup_of_none (h : w.promises[p]? = none) : lookup p w = .error .nameError w := by
  refine (bind_of_ok (x := get) rfl).trans ?_
  rw [h]
  rfl

theorem Keeping.lookup {f : Promise → Running α} (hw : Sound due w)
    (h : ∀ r, w.Has p r → Keeping due w (f r)) :
    Keeping due w (lookup p >>= f) := by
  rw [Keeping, Ends, Runs, run_bind]
  cases hr : w.promises[p]? with
  | none =>
    rw [lookup_of_none hr]
    exact stay hw
  | some r =>
    rw [lookup_of_has hr]
    exact h r hr

theorem state_of_promise (h : w.Has p r) (hq : r.result = .promise q) :
    state (depth + 1) p w = state depth q w := by
  rw [state, bind_of_ok (lookup_of_has h), hq]

theorem state_of_plain (h : w.Has p r) (hplain : r.result.isPromise = false) :
    state (depth + 1) p w = .ok r.state w := by
  rw [state, bind_of_ok (lookup_of_has h)]
  cases hresult : r.result with
  | promise q =>
    rw [hresult] at hplain
    cases hplain
  | none => rfl
  | object n => rfl
  | error e => rfl

theorem state_of_none (h : w.promises[p]? = none) :
    state (depth + 1) p w = .error .nameError w := by
  rw [state, run_bind, lookup_of_none h]

theorem state_reads (depth p : ℕ) : (∀ e w', state depth p w = .error e w' → w' = w) ∧
    ∀ seen w', state depth p w = .ok seen w' → w' = w ∧ Seen w p seen := by
  induction depth generalizing p with
  | zero =>
    refine ⟨?_, ?_⟩
    · rintro e w' h
      cases h
      rfl
    · rintro seen w' h
      cases h
  | succ depth ih =>
    cases hr : w.promises[p]? with
    | none =>
      rw [state_of_none hr]
      refine ⟨?_, ?_⟩
      · rintro e w' h
        cases h
        rfl
      · rintro seen w' h
        cases h
    | some r =>
      cases hresult : r.result with
      | promise q =>
        rw [state_of_promise hr hresult]
        refine ⟨(ih q).1, ?_⟩
        intro seen w' h
        refine ⟨((ih q).2 seen w' h).1, ?_⟩
        intro r' hr' hplain
        rw [← World.Has.unique hr hr', hresult] at hplain
        cases hplain
      | _ =>
        rw [state_of_plain hr (by rw [hresult]; rfl)]
        refine ⟨?_, ?_⟩
        · rintro e w' h
          cases h
        · rintro seen w' h
          cases h
          refine ⟨rfl, ?_⟩
          intro r' hr' _
          rw [World.Has.unique hr hr']

theorem Keeping.state {f : State → Running α} (hw : Sound due w)
    (h : ∀ seen, Seen w p seen → Keeping due w (f seen)) : Keeping due w (state depth p >>= f) :=
  ends_of_reads (state_reads depth p).2 (state_reads depth p).1 (stay hw) h

end Reading

section Functions

variable {rec : Call → Running Value}

theorem Keeps.settle (hrec : Keeps rec) {setter : Setter} {value : Value} (hw : Sound due w) :
    Keeping due w (rec (.settle setter p value)) :=
  hrec (.settle setter p value) w due hw.late hw.good

theorem runAll_keeps (hrec : Keeps rec) (x : Value) (ds : List Delegate) (hlate : Late w)
    (hgood : Fine w.log → Good w (ds.map Delegate.promise ++ due) ∧ ∀ d ∈ ds, Callable w.log d x) :
    Keeping due w (runAll rec ds x) := by
  induction ds generalizing w with
  | nil => exact Keeping.stay ⟨hlate, fun hfine => (hgood hfine).1⟩
  | cons d ds ih =>
    have hd : Keeping (ds.map Delegate.promise ++ due) w (rec (.delegate d x)) :=
      hrec _ w _ hlate fun hfine => ⟨(hgood hfine).1, (hgood hfine).2 d (.head _)⟩
    refine hd.bind _ fun y w' hle hw' => ih hw'.late fun hfine => ⟨hw'.good hfine, ?_⟩
    have hold := (hgood (hfine.suffix hle)).2
    exact fun d' hd' => (hold d' (.tail d hd')).suffix hle

theorem Lists.map_list (h : Lists w) (p : ℕ) (side : Side) :
    (w.list p side).map Delegate.promise = w.waiting p := by
  cases side with
  | fulfilled => rfl
  | rejected => exact h.paired p

theorem ends_runAll (hrec : Keeps rec) (hlate : Late w) (hr : w.Has p r)
    (hgood : Fine w.log → Good w (w.waiting p ++ due) ∧ ∀ d ∈ w.list p side, Callable w.log d x) :
    Keeping due w (runAll rec (r.delegates side) x) := by
  refine runAll_keeps hrec x _ hlate fun hfine => ?_
  rw [← hr.list, (hgood hfine).1.lists.map_list]
  exact hgood hfine

theorem runOwn_keeps (hrec : Keeps rec) (hlate : Late w)
    (hgood : Fine w.log → Good w (w.waiting p ++ due) ∧ Settles w.log p side x) :
    Keeping due w (runOwn rec p side x) := by
  have hw : Sound due w := ⟨hlate, fun hfine => (hgood hfine).1.drop (w.waiting p)⟩
  refine .lookup hw fun r hr => ?_
  split
  · exact Keeping.stay hw
  · have hall : Keeping due w (runAll rec (r.delegates side) x) := by
      refine ends_runAll hrec hlate hr fun hfine => ?_
      obtain ⟨hw, hsettles⟩ := hgood hfine
      exact ⟨hw, fun d hd => (hw.lists.listed p side d hd).callable hsettles⟩
    refine hall.bind [] fun _ w' _ hw' =>
      .update (Keeping.stay ⟨?_, fun hfine => (hw'.good hfine).clear⟩)
    exact hw'.late.modify fun r' => hw'.late.called p r'

section Settle

variable {setter : Setter} {value : Value} {seen : State}

theorem Good.call_of_seen (h : Good w due) (hr : w.Has p r) (hseen : Seen w p seen)
    (hne : seen ≠ .pending) :
    ∃ c, firstCall w.log p = some c := by
  cases hcall : firstCall w.log p with
  | some c => exact ⟨c, rfl⟩
  | none =>
    have hstate := h.calls.states p r hr
    rw [hcall] at hstate
    have hpending := hseen r hr (by rw [hstate.2]; rfl)
    rw [hstate.1] at hpending
    exact absurd hpending hne

theorem Good.no_call (h : Good w due) (hr : w.Has p r) (hseen : Seen w p .pending)
    (hbound : r.state ≠ .bound) :
    firstCall w.log p = none := by
  have hstates := h.calls.states p r hr
  cases hresult : r.result with
  | promise q =>
    rw [hstates.promise hresult] at hstates
    exact absurd hstates.1 hbound
  | _ => exact hstates.pending (hseen r hr (by rw [hresult]; rfl)).symm

theorem late_settle (hlate : Late w) (hr : w.Has p r) :
    Late { w with log := .settle setter p value r.state seen :: w.log } := by
  refine hlate.record ?_
  intro setter' q value' own seen' heq hown
  cases heq
  exact hlate.called p r hr hown

theorem late_first (hlate : Late w) (hr : w.Has p r) : Late (w.settled p setter value r.state) := by
  refine (late_settle hlate hr).modify ?_
  intro r' hr' _
  cases hcall : firstCall w.log p with
  | some c => exact ⟨c, firstCall_cons hcall⟩
  | none => exact ⟨(setter, value), by rw [firstCall_settle p hcall, if_pos rfl]⟩

theorem sound_late (hw : Sound due w) (hr : w.Has p r) (hseen : Seen w p seen)
    (hne : seen ≠ .pending) :
    Sound due { w with log := .settle setter p value r.state seen :: w.log } where
  late := late_settle hw.late hr
  good hfine := by
    have hgood := hw.good (hfine.suffix (suffix_cons _ _))
    obtain ⟨c, hc⟩ := hgood.call_of_seen hr hseen hne
    exact hgood.late hc hne

theorem Sound.first (hw : Sound due w)
    (hfine : Fine (.settle setter p value r.state .pending :: w.log))
    (hr : w.Has p r) (hseen : Seen w p .pending) :
    Good w due ∧ firstCall w.log p = none ∧ (setter = .reject → value.isPromise = false) ∧
      firstCall (.settle setter p value r.state .pending :: w.log) p = some (setter, value) := by
  have hgood := hw.good (hfine.suffix (suffix_cons _ _))
  have hbound : r.state ≠ .bound := by
    intro hbound
    rw [hbound] at hfine
    exact hfine.bound setter p value (.head _)
  have hcall := hgood.no_call hr hseen hbound
  refine ⟨hgood, hcall, ?_, ?_⟩
  · rintro rfl
    exact hfine.plain p value r.state (.head _)
  · rw [firstCall_settle p hcall, if_pos rfl]

theorem finish_keeps (hrec : Keeps rec) (side : Side) {st : State} (hst : setter.state value = st)
    (hw : Sound due w)
    (hr : w.Has p r) (hseen : Seen w p .pending)
    (hplain : setter = .resolve → value.isPromise = false)
    (hsettles : ∀ log, firstCall log p = some (setter, value) → Settles log p side value) :
    Keeping due { w with log := .settle setter p value r.state .pending :: w.log } (do
      update p fun r => { r with result := value, state := st }
      runOwn rec p side value) := by
  subst hst
  refine .update (runOwn_keeps (w := w.settled p setter value r.state) hrec (late_first hw.late hr)
    fun hfine => ?_)
  obtain ⟨hgood, hcall, hreject, hcall'⟩ := hw.first hfine hr hseen
  have hvalue : value.isPromise = false := by
    cases hs : setter with
    | resolve => exact hplain hs
    | reject => exact hreject hs
  rw [(grows_settled ..).waiting]
  exact ⟨hgood.finish hr hcall hvalue, hsettles _ hcall'⟩

theorem bind_keeps (hrec : Keeps rec) (hw : Sound due w) (hr : w.Has p r)
    (hseen : Seen w p .pending) :
    Keeping due { w with log := .settle .resolve p (.promise q) r.state .pending :: w.log } (do
      update p fun r => { r with result := .promise q, state := .bound }
      let _ ← rec (.andThen q (some (.iterate p)) (some (.iterate p)) q (some p))
      pure Value.none) := by
  refine .update (Keeping.void (hrec _ (w.settled p .resolve (.promise q) r.state) due
    (late_first hw.late hr) fun hfine => ?_))
  obtain ⟨hgood, hcall, hreject, hcall'⟩ := hw.first hfine hr hseen
  refine ⟨hgood.bind hr hcall hreject, .refl q, ?_, ?_⟩
  · rintro q' (heq | heq) <;>
    · cases heq
      rfl
  · intro q' heq
    cases heq
    refine ⟨hcall', ?_⟩
    intro target' promise' hmem
    have hcall'' := hgood.registry.binder target' promise' p (by simpa [World.settled] using hmem)
    rw [hcall] at hcall''
    cases hcall''

theorem setter_keeps (setter : Setter) {x : Running Value} (hw : Sound due w)
    (hx : ∀ r, w.Has p r → Seen w p .pending →
      Keeping due { w with log := .settle setter p value r.state .pending :: w.log } x) :
    Keeping due w (do
      let r ← lookup p
      let seen ← state depth p
      record (.settle setter p value r.state seen)
      if seen ≠ .pending then pure .none else x) := by
  refine .lookup hw fun r hr => .state hw fun seen hseen => .record ?_
  split_ifs with hne
  · exact Keeping.stay (sound_late hw hr hseen hne)
  · obtain rfl := not_not.mp hne
    exact hx r hr hseen

theorem resolve_keeps (hrec : Keeps rec) (depth : ℕ) (hw : Sound due w) :
    Keeping due w (resolve rec depth p value) := by
  refine setter_keeps .resolve hw fun r hr hseen => ?_
  have hplain (hst : Setter.resolve.state value = .fulfilled) (hx : value.isPromise = false) :=
    finish_keeps hrec .fulfilled hst hw hr hseen (fun _ => hx) fun _ hcall => .fulfilled hcall hx
  cases value with
  | promise q => exact bind_keeps hrec hw hr hseen
  | none => exact hplain rfl rfl
  | object n => exact hplain rfl rfl
  | error e => exact hplain rfl rfl

theorem reject_keeps (hrec : Keeps rec) (depth : ℕ) (hw : Sound due w) :
    Keeping due w (reject rec depth p value) :=
  setter_keeps .reject hw fun _ hr hseen =>
    finish_keeps hrec .rejected rfl hw hr hseen nofun fun _ hcall => .rejected hcall

end Settle

section Registration

theorem construct_keeps (hrec : Keeps rec) {generatorFunction : ℕ → Running Unit}
    (hgen : Keeping due { w with promises := w.promises ++ [Promise.new] }
      (generatorFunction w.promises.length)) :
    Keeping due w (construct rec generatorFunction) := by
  have hhandler (e : Error) (w' : World) (hw' : Sound due w') : Keeping due w' (do
      let _ ← rec (.settle .reject w.promises.length (.error e))) := (hrec.settle hw').void
  exact Keeping.void (.attempt hgen hhandler)

theorem Leads.trans {log : List Event} {s : ℕ} (h : Leads log p q) (h' : Leads log q s) :
    Leads log p s := by
  induction h with
  | refl p => exact h'
  | step hcall _ ih => exact .step hcall (ih h')

variable {onFulfilled onRejected : Option Action} {target : ℕ} {binder : Option ℕ}

def World.registering (w : World) (target : ℕ) (binder : Option ℕ) : World :=
  ⟨w.promises ++ [Promise.new], .registered target w.promises.length binder :: w.log⟩

theorem Good.registering (h : Good w due)
    (hbinder : ∀ q, binder = some q → firstCall w.log q = some (.resolve, .promise target) ∧
      ∀ target' promise', .registered target' promise' (some q) ∉ w.log) :
    Good (w.registering target binder) due ∧
      Fresh (w.registering target binder) due w.promises.length := by
  refine ⟨h.push.register h.fresh.lt hbinder, ?_⟩
  have hne : ∀ promise side x, Event.registered target w.promises.length
      binder ≠ .notified promise side x := by simp
  exact { h.fresh with notified := fun hn => h.fresh.notified (notified_cons hne _ hn) }

theorem Late.registering (h : Late w) (target : ℕ) (binder : Option ℕ) :
    Late (w.registering target binder) := by
  refine h.push.record ?_
  intro setter q value own seen heq
  cases heq

theorem register_keeps (hrec : Keeps rec) (hlate : Late w)
    (hpre : Fine w.log → Pre due w (.andThen p onFulfilled onRejected target binder)) :
    Keeping due { w with promises := w.promises ++ [Promise.new] }
      (register rec p onFulfilled onRejected target binder w.promises.length) := by
  have hle : w.log <:+ (w.registering target binder).log := suffix_cons _ _
  have hlate' := hlate.registering target binder
  have hknown (hfine : Fine (w.registering target binder).log) :
      Good (w.registering target binder) due ∧
        Fresh (w.registering target binder) due w.promises.length ∧
        Leads (w.registering target binder).log target p := by
    obtain ⟨hw, hleads, -, hbinder⟩ := hpre (hfine.suffix hle)
    exact ⟨(hw.registering hbinder).1, (hw.registering hbinder).2, hleads.suffix hle⟩
  have hlisted (hfine : Fine (w.registering target binder).log) (side : Side) (setter : Setter)
      (action : Option Action)
      (haction : action = onFulfilled ∨ action = onRejected) :
      Listed (w.registering target binder).log p side ⟨w.promises.length, side, setter,
        action⟩ := by
    refine ⟨rfl, target, binder, .head _, (hknown hfine).2.2, ?_⟩
    intro q hq
    have hiterate := (hpre (hfine.suffix hle)).2.2.1 q
    rcases haction with rfl | rfl
    · exact hiterate (.inl hq)
    · exact hiterate (.inr hq)
  have hw : Sound due (w.registering target binder) := ⟨hlate', fun hfine => (hknown hfine).1⟩
  refine .record (.lookup hw fun r hr => ?_)
  cases hstate : r.state with
  | pending =>
    simp only
    split
    · exact Keeping.stay hw
    · refine ⟨suffix_refl _, hlate'.modify fun r' => hlate'.called p r', fun hfine => ?_⟩
      obtain ⟨hw, hfresh, -⟩ := hknown hfine
      exact hw.append hr hfresh rfl (hlisted hfine .fulfilled _ _ (.inl rfl))
        (hlisted hfine .rejected _ _ (.inr rfl))
  | fulfilled =>
    refine Keeping.void (hrec (.delegate _ r.result) _ due hlate' fun hfine => ?_)
    obtain ⟨hw, hfresh, -⟩ := hknown hfine
    obtain ⟨hcall, hplain⟩ := (hw.calls.states p r hr).fulfilled hstate
    exact ⟨hw.own hfresh, (hlisted hfine .fulfilled _ _ (.inl rfl)).callable
      (.fulfilled hcall hplain)⟩
  | rejected =>
    refine Keeping.void (hrec (.delegate _ r.result) _ due hlate' fun hfine => ?_)
    obtain ⟨hw, hfresh, -⟩ := hknown hfine
    have hcall := (hw.calls.states p r hr).rejected hstate
    exact ⟨hw.own hfresh, (hlisted hfine .rejected _ _ (.inr rfl)).callable (.rejected hcall)⟩
  | bound => exact Keeping.stay hw

theorem andThen_keeps (hrec : Keeps rec) (hlate : Late w)
    (hpre : Fine w.log → Pre due w (.andThen p onFulfilled onRejected target binder)) :
    Keeping due w (andThen rec p onFulfilled onRejected target binder) := by
  refine .lookup ⟨hlate, fun hfine => (hpre hfine).1⟩ fun r hr => ?_
  have hown := construct_keeps hrec (register_keeps hrec hlate hpre)
  cases hresult : r.result with
  | promise q =>
    refine hrec _ w due hlate fun hfine => ?_
    obtain ⟨hw, hleads, hbinder⟩ := hpre hfine
    exact ⟨hw, hleads.trans (.step ((hw.calls.states p r hr).promise hresult) (.refl q)), hbinder⟩
  | none => exact hown
  | object n => exact hown
  | error e => exact hown

end Registration

section Callbacks

theorem Good.iterates (h : Good w (d.promise :: due)) (hd : Callable w.log d x)
    (hq : d.action = some (.iterate q)) :
    Pre due { w with log := .notified d.promise d.side x :: w.log }
      (.action d.side (.iterate q) x) := by
  obtain ⟨target, binder, hreg, hsettles, haction⟩ := id hd
  obtain rfl := haction q hq
  have hcall := h.registry.binder target d.promise q hreg
  refine ⟨h.iterate hd hq, fun d' hd' => ?_⟩
  exact ((h.lists.listed q d.side d' hd').callable (.bound hcall hsettles)).suffix (suffix_cons _ _)

theorem runDelegate_keeps (hrec : Keeps rec) (hlate : Late w)
    (hpre : Fine w.log → Good w (d.promise :: due) ∧ Callable w.log d x) :
    Keeping due w (runDelegate rec d x) := by
  refine Keeping.attempt ?_ fun e w' hw' => hrec.settle hw'
  cases haction : d.action with
  | none => exact hrec.settle ⟨hlate, fun hfine => (hpre hfine).1.drop [d.promise]⟩
  | some action =>
    refine .record (Keeping.bind [] (hrec _ _ due (hlate.record ?_) fun hfine => ?_)
      fun y w' _ hw' => hrec.settle hw')
    · intro setter q value own seen heq
      cases heq
    · obtain ⟨hw, hd⟩ := hpre (hfine.suffix (suffix_cons _ _))
      cases action with
      | callback c => exact hw.callback hd
      | iterate q => exact hw.iterates hd haction

theorem runScript_keeps (hrec : Keeps rec) (script : Script) (hw : Sound due w) :
    Keeping due w (runScript rec script) := by
  induction script generalizing w with
  | ret value => exact Keeping.stay hw
  | raise n => exact Keeping.stay hw
  | look next ih => exact ih w hw
  | new generator next ihg ihn =>
    have hpush : Sound due { w with promises := w.promises ++ [Promise.new] } :=
      ⟨hw.late.push, fun hfine => (hw.good hfine).push⟩
    exact (construct_keeps hrec (ihg _ hpush).void).bind [] fun promise _ _ => ihn promise
  | settle setter p value next ih => exact (hrec.settle hw).bind [] fun _ _ _ => ih
  | andThen p onFulfilled onRejected next ih =>
    refine Keeping.bind [] (hrec _ w due hw.late fun hfine => ?_) fun promise _ _ => ih promise
    refine ⟨hw.good hfine, .refl p, ?_, fun q heq => by cases heq⟩
    intro q hq
    cases onFulfilled <;> cases onRejected <;> simp at hq
  | catching body handler next ihb ihh ihn =>
    exact ((ihb hw).attempt fun e _ => ihh e).bind [] fun y _ _ => ihn y

theorem runAction_keeps (hrec : Keeps rec) (behave : ℕ → Value → Script) {action : Action}
    (hlate : Late w) (hpre : Fine w.log → Pre due w (.action side action x)) :
    Keeping due w (runAction behave rec side action x) := by
  cases action with
  | callback c => exact runScript_keeps hrec _ ⟨hlate, hpre⟩
  | iterate q =>
    exact .lookup ⟨hlate, fun hfine => (hpre hfine).1.drop (w.waiting q)⟩ fun r hr =>
      (ends_runAll hrec hlate hr hpre).void

end Callbacks

end Functions

theorem Pre.good {call : Call} (h : Pre due w call) : Good w due := by
  match call, h with
  | .settle _ _ _, h => exact h
  | .andThen _ _ _ _ _, h => exact h.1
  | .delegate d _, h => exact h.1.drop [d.promise]
  | .action _ (.callback _) _, h => exact h
  | .action _ (.iterate q) _, h => exact h.1.drop (w.waiting q)

theorem call_keeps (behave : ℕ → Value → Script) (depth : ℕ) : Keeps (call behave depth) := by
  induction depth with
  | zero =>
    intro call w due hlate hpre
    exact Keeping.stay ⟨hlate, fun hfine => (hpre hfine).good⟩
  | succ depth ih =>
    intro call w due hlate hpre
    cases call with
    | settle setter p value =>
      cases setter with
      | resolve => exact resolve_keeps ih depth ⟨hlate, hpre⟩
      | reject => exact reject_keeps ih depth ⟨hlate, hpre⟩
    | andThen p onFulfilled onRejected target binder => exact andThen_keeps ih hlate hpre
    | delegate d x => exact runDelegate_keeps ih hlate hpre
    | action side action x => exact runAction_keeps ih behave hlate hpre

theorem not_has_nil {log : List Event} : ¬ World.Has ⟨[], log⟩ p r := by
  intro h
  cases h

theorem good_nil : Good ⟨[], []⟩ [] where
  lists := ⟨fun _ => rfl, fun _ => nodup_nil, nofun, nofun⟩
  registry := ⟨nofun, nofun, nofun⟩
  calls := ⟨nofun, fun _ _ h => absurd h not_has_nil, trivial⟩
  due := ⟨nofun, nofun, nofun, nodup_nil⟩
  once _ := Nat.zero_le _
  faithful := nofun

theorem late_nil : Late ⟨[], []⟩ where
  called _ _ h := absurd h not_has_nil
  past older newer setter p value own seen h := by
    cases newer <;> cases h

theorem sound_run (behave : ℕ → Value → Script) (depth : ℕ) (main : Script) :
    Sound [] (run behave depth main) := by
  have hends := runScript_keeps (call_keeps behave depth) main ⟨late_nil, fun _ => good_nil⟩
  rw [run]
  rw [Keeping, Ends, Runs] at hends
  cases h : runScript (call behave depth) main ⟨[], []⟩ with
  | ok y w =>
    rw [h] at hends
    exact hends.2
  | error e w =>
    rw [h] at hends
    exact hends.2

theorem FirstOnly.first {older newer : List Event} {setter : Setter} {value : Value} {own : State}
    (h : FirstOnly (newer ++ .settle setter p value own .pending :: older)) :
    firstCall older p = none := by
  induction newer with
  | nil => exact h.1 setter p value own rfl
  | cons e newer ih => exact ih h.2

/-- A promise is settled once as long as no setter is called on a promise that is bound to one that
is still pending. -/
theorem settled_once_iff (behave : ℕ → Value → Script) (depth : ℕ) (main : Script)
    (hplain : ∀ p reason own, .settle .reject p reason own .pending ∈ (run behave depth main).log →
      reason.isPromise = false) :
    (FirstOnly (run behave depth main).log ∧
      (∀ promise, (notifications (run behave depth main).log promise).length ≤ 1) ∧
      Faithful (run behave depth main).log) ↔
      ∀ setter p value, .settle setter p value .bound .pending ∉ (run behave depth main).log := by
  have hkept := sound_run behave depth main
  constructor
  · rintro ⟨hfirst, -, -⟩ setter p value hmem
    obtain ⟨newer, older, hlog⟩ := append_of_mem hmem
    obtain ⟨c, hc⟩ := hkept.late.past older newer setter p value .bound .pending hlog (by decide)
    rw [hlog] at hfirst
    rw [hfirst.first] at hc
    cases hc
  · intro hbound
    have hgood := hkept.good ⟨hbound, hplain⟩
    exact ⟨hgood.calls.first, hgood.once, hgood.faithful⟩

section Programs

/-- A promise with a registration is resolved with a pending promise, and then used again. -/
def boundAndUsed (next : Script) : World :=
  run (fun _ => .ret) 9 (.new (fun _ => .ret .none) fun _ => .new (fun _ => .ret .none) fun _ =>
    .andThen 0 (some 0) (some 1) fun _ => .settle .resolve 0 (.promise 1) next)

def rejectedWithPromise : World :=
  run (fun _ => .ret) 9 (.new (fun _ => .ret .none) fun _ =>
    .new (fun p => .settle .resolve p (.object 1) (.ret .none)) fun _ => .settle .reject 0
      (.promise 1)
      (.andThen 0 (some 0) (some 1) fun _ => .ret .none))

def Event.isOrderly : Event → Bool
  | .settle _ _ _ .bound .pending => false
  | .settle .reject _ reason _ .pending => !reason.isPromise
  | _ => true

theorem settled_once_bound : FirstOnly
    (boundAndUsed (.settle .reject 1 (.object 6) (.ret .none))).log ∧
      (∀ promise, (notifications (boundAndUsed (.settle .reject 1 (.object 6) (.ret .none))).log
        promise).length ≤ 1) ∧
      Faithful (boundAndUsed (.settle .reject 1 (.object 6) (.ret .none))).log := by
  have hlog : ∀ e ∈ (boundAndUsed (.settle .reject 1 (.object 6) (.ret .none))).log, e.isOrderly =
      true := by
    decide +kernel
  refine (settled_once_iff _ _ _ ?_).mpr ?_
  · intro p reason own hmem
    have hreason := hlog _ hmem
    cases own with
    | bound => cases hreason
    | _ => simpa [Event.isOrderly] using hreason
  · intro setter p value hmem
    cases hlog _ hmem

/-- The second call of `resolve` has an effect, and both callbacks of the registration are called. A
promise that is rejected calls the callback for a fulfilled one. -/
theorem settled_twice :
    (¬ FirstOnly (boundAndUsed
      (.settle .resolve 0 (.object 5) (.settle .reject 1 (.object 6) (.ret .none)))).log ∧
      notifications (boundAndUsed
        (.settle .resolve 0 (.object 5) (.settle .reject 1 (.object 6) (.ret .none)))).log 2 =
        [(.rejected, .object 6), (.fulfilled, .object 5)]) ∧
      firstCall rejectedWithPromise.log 0 = some (.reject, .promise 1) ∧
      notifications rejectedWithPromise.log 2 = [(.fulfilled, .object 1)] ∧
        ¬ Faithful rejectedWithPromise.log := by
  refine ⟨⟨?_, by decide +kernel⟩, by decide +kernel, by decide +kernel, ?_⟩
  · intro hfirst
    have hmem : .settle .resolve 0 (.object 5) .bound .pending ∈
        (boundAndUsed (.settle .resolve 0 (.object 5)
          (.settle .reject 1 (.object 6) (.ret .none)))).log := by
      decide +kernel
    obtain ⟨newer, older, hlog⟩ := append_of_mem hmem
    obtain ⟨c, hc⟩ := (sound_run _ _ _).late.past older newer _ _ _ _ _ hlog (by decide)
    rw [hlog] at hfirst
    rw [hfirst.first] at hc
    cases hc
  · intro hfaithful
    have hmem : .notified 2 .fulfilled (.object 1) ∈ rejectedWithPromise.log := by decide +kernel
    obtain ⟨target, binder, hreg, hsettles⟩ := hfaithful 2 .fulfilled (.object 1) hmem
    have htarget : ∀ e ∈ rejectedWithPromise.log, (match e with
        | .registered target 2 _ => target == 0
        | _ => true) = true := by
      decide +kernel
    obtain rfl : target = 0 := by simpa using htarget _ hreg
    have hcall : firstCall rejectedWithPromise.log 0 = some (.reject, .promise 1) := by
      decide +kernel
    cases hsettles with
    | fulfilled h hx =>
      rw [hcall] at h
      cases h
    | bound h hq =>
      rw [hcall] at h
      cases h

end Programs

end Mojo.PythonBindings.Promises
