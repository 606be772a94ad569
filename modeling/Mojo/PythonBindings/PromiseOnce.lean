import Mathlib.Data.Nat.Basic
import Mojo.PythonBindings.Promise

/-!
# Promises are settled once

A registration waits in the lists of one promise. The lists of a promise are run when it gets its
value, or, if it is bound, when its own registration with the other promise is notified. `Good w
due` says that no list is run again, where the registrations `due` are those that a loop which is
not yet at its end is still to notify: what runs inside of the loop cannot reach them.

All of this depends on the setters: a call after the first must find a promise that is not pending.
A promise that is bound to a pending promise does not tell, and neither does one that is rejected
with a pending promise.
-/

namespace Mojo.PythonBindings.Promises

open Mojo.System List

section Log

def Event.call (p : ℕ) : Event → Option (Setter × Value)
  | .settle setter q value _ _ => if q = p then some (setter, value) else none
  | _ => none

def firstCall : List Event → ℕ → Option (Setter × Value)
  | [], _ => none
  | e :: log, p => (firstCall log p).or (e.call p)

inductive Settles (log : List Event) : ℕ → Side → Value → Prop
  | fulfilled {p : ℕ} {x : Value} (h : firstCall log p = some (.resolve, x))
    (hx : x.isPromise = false) :
    Settles log p .fulfilled x
  | rejected {p : ℕ} {x : Value} (h : firstCall log p = some (.reject, x)) : Settles log p
    .rejected x
  | bound {p q : ℕ} {side : Side} {x : Value} (h : firstCall log p = some (.resolve, .promise q))
    (hq : Settles log q side x) : Settles log p side x

inductive Leads (log : List Event) : ℕ → ℕ → Prop
  | refl (p : ℕ) : Leads log p p
  | step {p q r : ℕ} (h : firstCall log p = some (.resolve, .promise q)) (hq : Leads log q r) :
    Leads log p r

/-- Only the first call of a setter finds a pending promise, and so has an effect. -/
def FirstOnly : List Event → Prop
  | [] => True
  | e :: log =>
    (∀ setter p value own, e = .settle setter p value own .pending → firstCall log p = none) ∧
      FirstOnly log

def notifications (log : List Event) (promise : ℕ) : List (Side × Value) :=
  log.filterMap fun
    | .notified q side x => if q = promise then some (side, x) else none
    | _ => none

/-- The callback that is called is the one for the outcome of the promise that `Then` was called on.
-/
def Faithful (log : List Event) : Prop :=
  ∀ promise side x, .notified promise side x ∈ log →
    ∃ target binder, .registered target promise binder ∈ log ∧ Settles log target side x

/-- No call of a setter has found a promise that is bound to a pending one, and none has rejected a
promise with a promise. -/
structure Fine (log : List Event) : Prop where
  bound : ∀ setter p value, .settle setter p value .bound .pending ∉ log
  plain : ∀ p value own, .settle .reject p value own .pending ∈ log → value.isPromise = false

def Notified (log : List Event) (promise : ℕ) : Prop := ∃ side x, .notified promise side x ∈ log

def Spent (log : List Event) (p : ℕ) : Prop :=
  (∃ setter x, firstCall log p = some (setter, x) ∧ (setter = .resolve → x.isPromise = false)) ∨
    ∃ target promise, .registered target promise (some p) ∈ log ∧ Notified log promise

section Growth

variable {log log' : List Event} {e : Event} {p q r : ℕ} {side : Side} {x : Value}

theorem firstCall_cons {c : Setter × Value} (h : firstCall log p = some c) :
    firstCall (e :: log) p = some c := by
  rw [firstCall, h, Option.some_or]

theorem firstCall_suffix {c : Setter × Value} (hle : log <:+ log') (h : firstCall log p = some c) :
    firstCall log' p = some c := by
  obtain ⟨events, rfl⟩ := hle
  induction events with
  | nil => exact h
  | cons e events ih => exact firstCall_cons ih

theorem firstCall_of_call (he : ∀ p, e.call p = none) :
    firstCall (e :: log) p = firstCall log p := by
  rw [firstCall, he p, Option.or_none]

theorem Settles.suffix (hle : log <:+ log') (h : Settles log p side x) : Settles log' p side x := by
  induction h with
  | fulfilled h hx => exact .fulfilled (firstCall_suffix hle h) hx
  | rejected h => exact .rejected (firstCall_suffix hle h)
  | bound h _ ih => exact .bound (firstCall_suffix hle h) ih

theorem Leads.suffix (hle : log <:+ log') (h : Leads log p r) : Leads log' p r := by
  induction h with
  | refl p => exact .refl p
  | step h _ ih => exact .step (firstCall_suffix hle h) ih

theorem Leads.settles (h : Leads log p r) (hr : Settles log r side x) : Settles log p side x := by
  induction h with
  | refl p => exact hr
  | step h _ ih => exact .bound h (ih hr)

theorem Notified.suffix (hle : log <:+ log') (h : Notified log p) : Notified log' p := by
  obtain ⟨side, x, hmem⟩ := h
  exact ⟨side, x, hle.subset hmem⟩

theorem Spent.suffix (hle : log <:+ log') (h : Spent log p) : Spent log' p := by
  rcases h with ⟨setter, x, hcall, hplain⟩ | ⟨target, promise, hmem, hnotified⟩
  · exact .inl ⟨setter, x, firstCall_suffix hle hcall, hplain⟩
  · exact .inr ⟨target, promise, hle.subset hmem, hnotified.suffix hle⟩

theorem Fine.suffix (hle : log <:+ log') (h : Fine log') : Fine log where
  bound setter p value hmem := h.bound setter p value (hle.subset hmem)
  plain p value own hmem := h.plain p value own (hle.subset hmem)

end Growth

end Log

def Setter.state : Setter → Value → State
  | .resolve, .promise _ => .bound
  | .resolve, _ => .fulfilled
  | .reject, _ => .rejected

def Consistent : Option (Setter × Value) → Promise → Prop
  | none, r => r.state = .pending ∧ r.result = .none
  | some (setter, x), r =>
    r.state = setter.state x ∧ r.result = x ∧ (setter = .reject → x.isPromise = false)

variable {r' : Promise}

section Consistent

variable {c : Option (Setter × Value)} {r : Promise}

theorem Consistent.congr (h : Consistent c r) (hs : r'.state = r.state)
    (hr : r'.result = r.result) :
    Consistent c r' := by
  match c, h with
  | none, h => exact ⟨hs.trans h.1, hr.trans h.2⟩
  | some (_, _), h => exact ⟨hs.trans h.1, hr.trans h.2.1, h.2.2⟩

theorem Consistent.promise (h : Consistent c r) {q : ℕ} (hr : r.result = .promise q) :
    c = some (.resolve, .promise q) := by
  match c, h with
  | none, h => cases hr.symm.trans h.2
  | some (.resolve, x), h => rw [← h.2.1, hr]
  | some (.reject, x), h =>
    have hx := h.2.2 rfl
    rw [← h.2.1, hr] at hx
    cases hx

theorem Setter.state_ne_pending (setter : Setter) (x : Value) : setter.state x ≠ .pending := by
  cases setter <;> cases x <;> nofun

theorem Consistent.pending (h : Consistent c r) (hs : r.state = .pending) : c = none := by
  match c, h with
  | none, _ => rfl
  | some (setter, x), h => exact absurd (h.1.symm.trans hs) (setter.state_ne_pending x)

theorem Consistent.fulfilled (h : Consistent c r) (hs : r.state = .fulfilled) :
    c = some (.resolve, r.result) ∧ r.result.isPromise = false := by
  match c, h with
  | none, h => cases hs.symm.trans h.1
  | some (.resolve, x), h =>
    rw [h.2.1]
    refine ⟨rfl, ?_⟩
    cases x with
    | promise q => cases hs.symm.trans h.1
    | _ => rfl
  | some (.reject, x), h => cases hs.symm.trans h.1

theorem Consistent.rejected (h : Consistent c r) (hs : r.state = .rejected) :
    c = some (.reject, r.result) := by
  match c, h with
  | none, h => cases hs.symm.trans h.1
  | some (.resolve, x), h => cases x <;> cases hs.symm.trans h.1
  | some (.reject, x), h => rw [h.2.1]

end Consistent

def World.Has (w : World) (p : ℕ) (r : Promise) : Prop := w.promises[p]? = some r

def World.list (w : World) (p : ℕ) (side : Side) : List Delegate :=
  (w.promises[p]?.map (·.delegates side)).getD []

def World.waiting (w : World) (p : ℕ) : List ℕ := (w.list p .fulfilled).map Delegate.promise

def Listed (log : List Event) (p : ℕ) (side : Side) (d : Delegate) : Prop :=
  d.side = side ∧ ∃ target binder, .registered target d.promise binder ∈ log ∧ Leads log target p ∧
    ∀ q, d.action = some (.iterate q) → binder = some q

structure Grows (w w' : World) : Prop where
  log : w.log <:+ w'.log
  lists : w'.list = w.list
  length : w.promises.length ≤ w'.promises.length

structure Lists (w : World) : Prop where
  paired : ∀ p, (w.list p .rejected).map Delegate.promise = w.waiting p
  nodup : ∀ p, (w.waiting p).Nodup
  listed : ∀ p side, ∀ d ∈ w.list p side, Listed w.log p side d
  home : ∀ p q, ∀ promise ∈ w.waiting p, promise ∈ w.waiting q → p = q

structure Registry (w : World) : Prop where
  lt : ∀ target promise binder, .registered target promise binder ∈ w.log →
    promise < w.promises.length
  binder : ∀ target promise p, .registered target promise (some p) ∈ w.log →
    firstCall w.log p = some (.resolve, .promise target)
  binders : ∀ target promise target' promise' p, .registered target promise (some p) ∈ w.log →
    .registered target' promise' (some p) ∈ w.log → promise = promise'

structure Calls (w : World) : Prop where
  lt : ∀ p c, firstCall w.log p = some c → p < w.promises.length
  states : ∀ p r, w.Has p r → Consistent (firstCall w.log p) r
  first : FirstOnly w.log

/-- The registrations in lists that are not yet run can be notified, and so can those that are due.
-/
structure Due (w : World) (due : List ℕ) : Prop where
  ready : ∀ p, ¬ Spent w.log p → ∀ promise ∈ w.waiting p, ¬ Notified w.log promise ∧ promise ∉ due
  owned : ∀ promise ∈ due, ¬ Notified w.log promise
  lt : ∀ promise ∈ due, promise < w.promises.length
  nodup : due.Nodup

structure Good (w : World) (due : List ℕ) : Prop where
  lists : Lists w
  registry : Registry w
  calls : Calls w
  due : Due w due
  once : ∀ promise, (notifications w.log promise).length ≤ 1
  faithful : Faithful w.log

structure Late (w : World) : Prop where
  called : ∀ p r, w.Has p r → r.state ≠ .pending → ∃ c, firstCall w.log p = some c
  past : ∀ older newer setter p value own seen, w.log = newer ++
    .settle setter p value own seen :: older → own ≠ .pending → ∃ c, firstCall older p = some c

section Worlds

variable {w w' : World} {due : List ℕ} {p : ℕ} {r : Promise}

theorem has_push {q : ℕ} : World.Has { w with promises := w.promises ++ [Promise.new] } q r' ↔
      w.Has q r' ∨ q = w.promises.length ∧ r' = Promise.new := by
  simp only [World.Has]
  rcases Nat.lt_trichotomy q w.promises.length with hlt | heq | hgt
  · rw [getElem?_append_left hlt]
    simp [Nat.ne_of_lt hlt]
  · rw [heq, getElem?_concat_length]
    simp [eq_comm]
  · rw [getElem?_eq_none (by simp; omega), getElem?_eq_none (by omega)]
    simp [Nat.ne_of_gt hgt]

variable {log : List Event} {g : Promise → Promise}

theorem has_modify {q : ℕ} :
    World.Has ⟨w.promises.modify p g, log⟩ q r' ↔ ∃ r, w.Has q r ∧ r' = if p = q then
      g r else r := by
  simp only [World.Has, getElem?_modify]
  cases w.promises[q]? <;> simp [eq_comm]

theorem World.Has.unique (h : w.Has p r) (h' : w.Has p r') : r = r' :=
  Option.some.inj (h.symm.trans h')

theorem World.Has.list (h : w.Has p r) (side : Side) : w.list p side = r.delegates side := by
  rw [World.list, show w.promises[p]? = some r from h]
  rfl

theorem list_modify (q : ℕ) (side : Side) (hr : w.Has p r) :
    World.list ⟨w.promises.modify p g, log⟩ q side = if p = q then
      (g r).delegates side else w.list q side := by
  rw [World.list, getElem?_modify]
  split
  · next heq =>
    rw [← heq, show w.promises[p]? = some r from hr]
    rfl
  · rw [Option.map_eq_map, Option.map_id']
    rfl

theorem grows_log (e : Event) : Grows w { w with log := e :: w.log } :=
  ⟨suffix_cons _ _, rfl, le_rfl⟩

theorem grows_push : Grows w { w with promises := w.promises ++ [Promise.new] } where
  log := suffix_refl _
  lists := by
    funext q side
    simp only [World.list]
    rcases Nat.lt_trichotomy q w.promises.length with hlt | rfl | hgt
    · rw [getElem?_append_left hlt]
    · rw [getElem?_concat_length, getElem?_eq_none le_rfl]
      cases side <;> rfl
    · rw [getElem?_eq_none (by simp; omega), getElem?_eq_none (by omega)]
  length := by simp

theorem grows_modify (hg : ∀ r side, (g r).delegates side = r.delegates side)
    (hle : w.log <:+ log) :
    Grows w ⟨w.promises.modify p g, log⟩ where
  log := hle
  lists := by
    funext q side
    rw [World.list, World.list, getElem?_modify]
    cases w.promises[q]? with
    | none => rfl
    | some r =>
      simp only [Option.map_eq_map, Option.map_some]
      split
      · exact hg r side
      · rfl
  length := by simp

theorem Grows.waiting (h : Grows w w') (p : ℕ) : w'.waiting p = w.waiting p := by
  rw [World.waiting, h.lists, World.waiting]

theorem Listed.suffix {log' : List Event} {side : Side} {d : Delegate} (hle : log <:+ log')
    (h : Listed log p side d) : Listed log' p side d := by
  obtain ⟨hside, target, binder, hmem, hleads, haction⟩ := h
  exact ⟨hside, target, binder, hle.subset hmem, hleads.suffix hle, haction⟩

theorem Lists.transport (h : Lists w) (hgrows : Grows w w') : Lists w' where
  paired p := by
    rw [hgrows.lists, hgrows.waiting]
    exact h.paired p
  nodup p := by
    rw [hgrows.waiting]
    exact h.nodup p
  listed p side := by
    rw [hgrows.lists]
    exact fun d hd => (h.listed p side d hd).suffix hgrows.log
  home p q := by
    rw [hgrows.waiting, hgrows.waiting]
    exact h.home p q

theorem Due.transport (gone : List ℕ) (h : Due w (gone ++ due)) (hgrows : Grows w w')
    (hnotified : ∀ promise, Notified w'.log promise → Notified w.log promise ∨ promise ∈ gone) :
    Due w' due where
  ready q hspent promise hmem := by
    rw [hgrows.waiting] at hmem
    obtain ⟨h₁, h₂⟩ := h.ready q (fun hs => hspent (hs.suffix hgrows.log)) promise hmem
    rw [mem_append, not_or] at h₂
    exact ⟨fun hn => (hnotified promise hn).elim h₁ h₂.1, h₂.2⟩
  owned promise hdue := by
    have hgone : promise ∉ gone := fun hmem => (nodup_append.mp h.nodup).2.2 _ hmem _ hdue rfl
    exact fun hn => (hnotified promise hn).elim (h.owned promise (mem_append_right _ hdue)) hgone
  lt promise hdue := Nat.lt_of_lt_of_le (h.lt promise (mem_append_right _ hdue)) hgrows.length
  nodup := (nodup_append.mp h.nodup).2.1

theorem Due.take (gone : List ℕ) (h : Due w (gone ++ due)) (hlists : Lists w) (hgrows : Grows w w')
    (hnotified : ∀ promise, Notified w'.log promise → Notified w.log promise ∨ promise ∈ gone)
    (hlt : ∀ promise ∈ w.waiting p, promise < w.promises.length) (hspent : ¬ Spent w.log p)
    (hspent' : Spent w'.log p) : Due w' (w.waiting p ++ due) := by
  have hdue := h.transport gone hgrows hnotified
  have hready := h.ready p hspent
  simp only [mem_append, not_or] at hready
  refine ⟨?_, ?_, ?_, ?_⟩
  · intro q hnot promise hmem
    obtain ⟨h₁, h₂⟩ := hdue.ready q hnot promise hmem
    refine ⟨h₁, ?_⟩
    rw [mem_append]
    rintro (hmem' | hmem')
    · -- It waits for one promise only.
      rw [hgrows.waiting] at hmem
      obtain rfl := hlists.home p q promise hmem' hmem
      exact hnot hspent'
    · exact h₂ hmem'
  · intro promise hmem
    rcases mem_append.mp hmem with hmem | hmem
    · obtain ⟨h₁, h₂, -⟩ := hready promise hmem
      exact fun hn => (hnotified promise hn).elim h₁ h₂
    · exact hdue.owned promise hmem
  · intro promise hmem
    rcases mem_append.mp hmem with hmem | hmem
    · exact Nat.lt_of_lt_of_le (hlt promise hmem) hgrows.length
    · exact hdue.lt promise hmem
  · rw [nodup_append]
    refine ⟨hlists.nodup p, hdue.nodup, ?_⟩
    rintro promise hmem _ hmem' rfl
    exact (hready promise hmem).2.2 hmem'

theorem Good.drop (gone : List ℕ) (h : Good w (gone ++ due)) : Good w due :=
  { h with due := h.due.transport gone ⟨suffix_refl _, rfl, le_rfl⟩ fun _ => .inl }

theorem notified_cons {e : Event} (he : ∀ promise side x, e ≠ .notified promise side x)
    (promise : ℕ) (h : Notified (e :: log) promise) : Notified log promise := by
  obtain ⟨side, x, hmem⟩ := h
  rcases mem_cons.mp hmem with heq | hmem
  · exact absurd heq.symm (he _ _ _)
  · exact ⟨side, x, hmem⟩

theorem Faithful.cons {e : Event} (he : ∀ promise side x, e ≠ .notified promise side x)
    (h : Faithful log) : Faithful (e :: log) := by
  intro promise side x hmem
  rcases mem_cons.mp hmem with heq | hmem
  · exact absurd heq.symm (he _ _ _)
  · obtain ⟨target, binder, hreg, hsettles⟩ := h promise side x hmem
    exact ⟨target, binder, .tail _ hreg, hsettles.suffix (suffix_cons _ _)⟩

variable {promise : ℕ}

theorem Good.not_notified (h : Good w due)
    (hreg : ∀ target binder, .registered target promise binder ∉ w.log) :
    ¬ Notified w.log promise := by
  rintro ⟨side, x, hmem⟩
  obtain ⟨target, binder, hmem', -⟩ := h.faithful promise side x hmem
  exact hreg target binder hmem'

theorem Good.mem_registered (h : Good w due) (hmem : promise ∈ w.waiting p) :
    ∃ target binder, .registered target promise binder ∈ w.log := by
  obtain ⟨d, hd, rfl⟩ := mem_map.mp hmem
  obtain ⟨-, target, binder, hreg, -⟩ := h.lists.listed p .fulfilled d hd
  exact ⟨target, binder, hreg⟩

theorem Good.not_spent (h : Good w due) (hcall : firstCall w.log p = none) : ¬ Spent w.log p := by
  rintro (⟨setter, x, hsome, -⟩ | ⟨target, promise, hmem, -⟩)
  · rw [hcall] at hsome
    cases hsome
  · rw [h.registry.binder target promise p hmem] at hcall
    cases hcall

theorem Registry.transport (h : Registry w) (hgrows : Grows w w')
    (hreg : ∀ target promise binder, .registered target promise binder ∈ w'.log →
      .registered target promise binder ∈ w.log) : Registry w' where
  lt target promise binder hmem := Nat.lt_of_lt_of_le (h.lt target promise binder (hreg _ _ _ hmem))
    hgrows.length
  binder target promise q hmem :=
    firstCall_suffix hgrows.log (h.binder target promise q (hreg _ _ _ hmem))
  binders target promise target' promise' q hmem hmem' :=
    h.binders target promise target' promise' q (hreg _ _ _ hmem) (hreg _ _ _ hmem')

theorem Calls.record (h : Calls w) {e : Event} (he : ∀ q, e.call q = none) :
    Calls { w with log := e :: w.log } where
  lt q c hc := by
    rw [firstCall_of_call he] at hc
    exact h.lt q c hc
  states q r hr := by
    rw [firstCall_of_call he]
    exact h.states q r hr
  first := by
    refine ⟨?_, h.first⟩
    rintro setter q value own rfl
    simpa [Event.call] using he q

theorem Calls.modify (h : Calls w) (hg : ∀ r, (g r).state = r.state ∧ (g r).result = r.result) :
    Calls { w with promises := w.promises.modify p g } where
  lt q c hc := by
    rw [length_modify]
    exact h.lt q c hc
  states q r' hr' := by
    obtain ⟨r, hr, rfl⟩ := has_modify.mp hr'
    have hsame : Consistent (firstCall w.log q) (g r) := (h.states q r hr).congr (hg r).1 (hg r).2
    split
    · exact hsame
    · exact h.states q r hr
  first := h.first

theorem firstCall_settle {setter : Setter} {value : Value} {own seen : State} (q : ℕ)
    (h : firstCall log p = none) :
    firstCall (.settle setter p value own seen :: log) q = if p = q then
      some (setter, value) else firstCall log q := by
  rw [firstCall, Event.call]
  split
  · next heq =>
    rw [← heq, h, Option.none_or]
  · rw [Option.or_none]

theorem Calls.settle (h : Calls w) {setter : Setter} {value : Value} {own seen : State}
    (hr : w.Has p r) (hcall : firstCall w.log p = none)
    (hg : Consistent (some (setter, value)) (g r)) :
    Calls ⟨w.promises.modify p g, .settle setter p value own seen :: w.log⟩ where
  lt q c hc := by
    rw [length_modify]
    rw [firstCall_settle q hcall] at hc
    split at hc
    · next heq =>
      rw [← heq]
      exact (List.getElem?_eq_some_iff.mp hr).1
    · exact h.lt q c hc
  states q r' hr' := by
    obtain ⟨r'', hr'', rfl⟩ := has_modify.mp hr'
    rw [firstCall_settle q hcall]
    split
    · next heq =>
      rw [← heq] at hr''
      rw [← hr.unique hr'']
      exact hg
    · exact h.states q r'' hr''
  first := by
    refine ⟨?_, h.first⟩
    intro setter' q value' own' heq
    cases heq
    exact hcall

theorem Calls.late (h : Calls w) {setter : Setter} {value : Value} {own seen : State}
    {c : Setter × Value} (hcall : firstCall w.log p = some c) (hseen : seen ≠ .pending) :
    Calls { w with log := .settle setter p value own seen :: w.log } := by
  have hsame : ∀ q, firstCall (.settle setter p value own seen :: w.log) q = firstCall w.log q := by
    intro q
    rw [firstCall, Event.call]
    split
    · next heq =>
      rw [← heq, hcall, Option.some_or]
    · rw [Option.or_none]
  refine ⟨?_, ?_, ?_, h.first⟩
  · intro q c' hc
    rw [hsame] at hc
    exact h.lt q c' hc
  · intro q r hr
    rw [hsame]
    exact h.states q r hr
  · intro setter' q value' own' heq
    cases heq
    exact absurd rfl hseen

structure Fresh (w : World) (due : List ℕ) (promise : ℕ) : Prop where
  lt : promise < w.promises.length
  notified : ¬ Notified w.log promise
  due : promise ∉ due
  waiting : ∀ p, promise ∉ w.waiting p

theorem Good.push (h : Good w due) :
    Good { w with promises := w.promises ++ [Promise.new] } due where
  lists := h.lists.transport grows_push
  registry := h.registry.transport grows_push fun _ _ _ => id
  calls := by
    refine ⟨fun q c hc => Nat.lt_of_lt_of_le (h.calls.lt q c hc) grows_push.length, ?_,
      h.calls.first⟩
    intro q r' hr'
    rcases has_push.mp hr' with hr' | ⟨rfl, rfl⟩
    · exact h.calls.states q r' hr'
    · cases hc : firstCall w.log w.promises.length with
      | none => exact ⟨rfl, rfl⟩
      | some c => exact absurd (h.calls.lt _ c hc) (Nat.lt_irrefl _)
  due := h.due.transport [] grows_push fun _ => .inl
  once := h.once
  faithful := h.faithful

theorem Good.not_registered (h : Good w due) (target : ℕ) (binder : Option ℕ) :
    .registered target w.promises.length binder ∉ w.log :=
  fun hmem => Nat.lt_irrefl _ (h.registry.lt target _ binder hmem)

theorem Good.fresh (h : Good w due) :
    Fresh { w with promises := w.promises ++ [Promise.new] } due w.promises.length where
  lt := by simp
  notified := h.not_notified h.not_registered
  due hdue := Nat.lt_irrefl _ (h.due.lt _ hdue)
  waiting q hmem := by
    rw [grows_push.waiting] at hmem
    obtain ⟨target, binder, hreg⟩ := h.mem_registered hmem
    exact h.not_registered target binder hreg

theorem Good.register (h : Good w due) {target : ℕ} {binder : Option ℕ}
    (hlt : promise < w.promises.length)
    (hbinder : ∀ q, binder = some q → firstCall w.log q = some (.resolve, .promise target) ∧
      ∀ target' promise', .registered target' promise' (some q) ∉ w.log) :
    Good { w with log := .registered target promise binder :: w.log } due := by
  have hne : ∀ promise' side x, Event.registered target promise
      binder ≠ .notified promise' side x := by simp
  refine ⟨h.lists.transport (grows_log _), ⟨?_, ?_, ?_⟩, h.calls.record fun _ => rfl,
    h.due.transport [] (grows_log _) fun promise' hn => .inl (notified_cons hne promise' hn),
    h.once, h.faithful.cons hne⟩
  · intro target' promise' binder' hmem
    rcases mem_cons.mp hmem with heq | hmem
    · cases heq
      exact hlt
    · exact h.registry.lt target' promise' binder' hmem
  · intro target' promise' q hmem
    rw [firstCall_of_call fun _ => rfl]
    rcases mem_cons.mp hmem with heq | hmem
    · cases heq
      exact (hbinder q rfl).1
    · exact h.registry.binder target' promise' q hmem
  · intro target' promise' target'' promise'' q hmem hmem'
    rcases mem_cons.mp hmem with heq | hold
    · rcases mem_cons.mp hmem' with heq' | hold'
      · cases heq
        cases heq'
        rfl
      · cases heq
        exact absurd hold' ((hbinder q rfl).2 target'' promise'')
    · rcases mem_cons.mp hmem' with heq' | hold'
      · cases heq'
        exact absurd hold ((hbinder q rfl).2 target' promise')
      · exact h.registry.binders target' promise' target'' promise'' q hold hold'

theorem Good.clear (h : Good w due) :
    Good { w with promises := w.promises.modify p fun r => { r with cleared := true } } due := by
  have hgrows : Grows w
      { w with promises := w.promises.modify p fun r => { r with cleared := true } } :=
    grows_modify (fun _ side => by cases side <;> rfl) (suffix_refl _)
  exact ⟨h.lists.transport hgrows, h.registry.transport hgrows fun _ _ _ => id,
    h.calls.modify fun _ => ⟨rfl, rfl⟩, h.due.transport [] hgrows fun _ => .inl, h.once, h.faithful⟩

theorem Good.own (h : Good w due) (hfresh : Fresh w due promise) : Good w (promise :: due) := by
  refine { h with due := ⟨?_, ?_, ?_, nodup_cons.mpr ⟨hfresh.due, h.due.nodup⟩⟩ }
  · intro q hspent promise' hmem
    obtain ⟨h₁, h₂⟩ := h.due.ready q hspent promise' hmem
    refine ⟨h₁, ?_⟩
    rw [mem_cons, not_or]
    refine ⟨?_, h₂⟩
    rintro rfl
    exact hfresh.waiting q hmem
  · intro promise' hmem
    rcases hmem with _ | ⟨_, hmem⟩
    · exact hfresh.notified
    · exact h.due.owned promise' hmem
  · intro promise' hmem
    rcases hmem with _ | ⟨_, hmem⟩
    · exact hfresh.lt
    · exact h.due.lt promise' hmem

theorem Good.append (h : Good w due) {fulfilling rejecting : Delegate} (hr : w.Has p r)
    (hfresh : Fresh w due fulfilling.promise) (hsame : rejecting.promise = fulfilling.promise)
    (hf : Listed w.log p .fulfilled fulfilling) (hj : Listed w.log p .rejected rejecting) :
    Good { w with promises := w.promises.modify p fun r => r.append fulfilling rejecting } due := by
  set w' : World :=
    { w with promises := w.promises.modify p fun r => r.append fulfilling rejecting } with hw'
  have hlist (q : ℕ) : w'.list q .fulfilled = w.list q .fulfilled ++
      (if p = q then [fulfilling] else []) ∧
      w'.list q .rejected = w.list q .rejected ++ (if p = q then [rejecting] else []) := by
    rw [hw', list_modify q _ hr, list_modify q _ hr]
    split
    · next heq =>
      rw [← heq, hr.list, hr.list]
      exact ⟨rfl, rfl⟩
    · exact ⟨(append_nil _).symm, (append_nil _).symm⟩
  have hwaiting (q : ℕ) : w'.waiting q = w.waiting q ++
      (if p = q then [fulfilling.promise] else []) := by
    rw [World.waiting, (hlist q).1, map_append, apply_ite (List.map _)]
    rfl
  have hback (q promise : ℕ) (hmem : promise ∈ w'.waiting q) :
      promise ∈ w.waiting q ∨ p = q ∧ promise = fulfilling.promise := by
    rw [hwaiting, mem_append] at hmem
    simpa using hmem
  refine ⟨⟨?_, ?_, ?_, ?_⟩, ⟨?_, h.registry.binder, h.registry.binders⟩,
    h.calls.modify fun _ => ⟨rfl, rfl⟩, ⟨?_, h.due.owned, ?_, h.due.nodup⟩, h.once, h.faithful⟩
  · intro q
    rw [(hlist q).2, hwaiting, map_append, h.lists.paired, apply_ite (List.map _),
      map_singleton, hsame]
    rfl
  · intro q
    rw [hwaiting, nodup_append]
    refine ⟨h.lists.nodup q, by split <;> simp, ?_⟩
    rintro promise hmem _ hmem' rfl
    obtain ⟨-, rfl⟩ : p = q ∧ promise = fulfilling.promise := by simpa using hmem'
    exact hfresh.waiting q hmem
  · intro q side d hd
    cases side with
    | fulfilled =>
      rw [(hlist q).1, mem_append] at hd
      rcases hd with hd | hd
      · exact h.lists.listed q .fulfilled d hd
      · obtain ⟨rfl, rfl⟩ : p = q ∧ d = fulfilling := by simpa using hd
        exact hf
    | rejected =>
      rw [(hlist q).2, mem_append] at hd
      rcases hd with hd | hd
      · exact h.lists.listed q .rejected d hd
      · obtain ⟨rfl, rfl⟩ : p = q ∧ d = rejecting := by simpa using hd
        exact hj
  · intro q q' promise hmem hmem'
    rcases hback q promise hmem with hold | ⟨rfl, rfl⟩
    · rcases hback q' promise hmem' with hold' | ⟨rfl, rfl⟩
      · exact h.lists.home q q' promise hold hold'
      · exact absurd hold (hfresh.waiting q)
    · rcases hback q' _ hmem' with hold' | ⟨rfl, -⟩
      · exact absurd hold' (hfresh.waiting q')
      · rfl
  · intro target promise binder hmem
    rw [length_modify]
    exact h.registry.lt target promise binder hmem
  · intro q hnot promise hmem
    rcases hback q promise hmem with hold | ⟨rfl, rfl⟩
    · exact h.due.ready q hnot promise hold
    · exact ⟨hfresh.notified, hfresh.due⟩
  · intro promise hdue
    rw [length_modify]
    exact h.due.lt promise hdue

section Settle

variable {setter : Setter} {value : Value} {own seen : State}

theorem settle_ne (promise : ℕ) (side : Side) (x : Value) :
    Event.settle setter p value own seen ≠ .notified promise side x := by simp

theorem Good.late (h : Good w due) {c : Setter × Value} (hcall : firstCall w.log p = some c)
    (hseen : seen ≠ .pending) :
    Good { w with log := .settle setter p value own seen :: w.log } due where
  lists := h.lists.transport (grows_log _)
  registry := h.registry.transport (grows_log _) fun _ _ _ hmem => by simpa using hmem
  calls := h.calls.late hcall hseen
  due := h.due.transport [] (grows_log _) fun promise hn =>
    .inl (notified_cons settle_ne promise hn)
  once := h.once
  faithful := h.faithful.cons settle_ne

def World.settled (w : World) (p : ℕ) (setter : Setter) (value : Value) (own : State) : World :=
  ⟨w.promises.modify p fun r => { r with result := value, state := setter.state value },
    .settle setter p value own .pending :: w.log⟩

theorem grows_settled (w : World) (p : ℕ) (setter : Setter) (value : Value) (own : State) :
    Grows w (w.settled p setter value own) :=
  grows_modify (fun _ side => by cases side <;> rfl) (suffix_cons _ _)

theorem Good.settle (h : Good w due) {due' : List ℕ} (hr : w.Has p r)
    (hcall : firstCall w.log p = none)
    (hvalue : setter = .reject → value.isPromise = false)
    (hdue : Due (w.settled p setter value own) due') :
    Good (w.settled p setter value own) due' where
  lists := h.lists.transport (grows_settled ..)
  registry := h.registry.transport (grows_settled ..) fun _ _ _ hmem => by
    simpa [World.settled] using hmem
  calls := h.calls.settle hr hcall ⟨rfl, rfl, hvalue⟩
  due := hdue
  once := h.once
  faithful := h.faithful.cons settle_ne

theorem Good.bind (h : Good w due) (hr : w.Has p r) (hcall : firstCall w.log p = none)
    (hvalue : setter = .reject → value.isPromise = false) :
    Good (w.settled p setter value own) due :=
  h.settle hr hcall hvalue
    (h.due.transport [] (grows_settled ..) fun promise hn =>
      .inl (notified_cons settle_ne promise hn))

theorem Good.waiting_lt (h : Good w due) (promise : ℕ) (hmem : promise ∈ w.waiting p) :
    promise < w.promises.length := by
  obtain ⟨target, binder, hreg⟩ := h.mem_registered hmem
  exact h.registry.lt target promise binder hreg

theorem Good.finish (h : Good w due) (hr : w.Has p r) (hcall : firstCall w.log p = none)
    (hvalue : value.isPromise = false) :
    Good (w.settled p setter value own) (w.waiting p ++ due) := by
  refine h.settle hr hcall (fun _ => hvalue) ?_
  have hcall' : firstCall (w.settled p setter value own).log p = some (setter, value) := by
    rw [World.settled, firstCall_settle p hcall, if_pos rfl]
  exact h.due.take [] h.lists (grows_settled ..)
    (fun promise hn => .inl (notified_cons settle_ne promise hn))
    h.waiting_lt (h.not_spent hcall) (.inl ⟨setter, value, hcall', fun _ => hvalue⟩)

end Settle

def Callable (log : List Event) (d : Delegate) (x : Value) : Prop :=
  ∃ target binder, .registered target d.promise binder ∈ log ∧ Settles log target d.side x ∧
    ∀ q, d.action = some (.iterate q) → binder = some q

theorem Callable.suffix {log' : List Event} {d : Delegate} {x : Value} (hle : log <:+ log')
    (h : Callable log d x) :
    Callable log' d x := by
  obtain ⟨target, binder, hmem, hsettles, haction⟩ := h
  exact ⟨target, binder, hle.subset hmem, hsettles.suffix hle, haction⟩

theorem Listed.callable {side : Side} {d : Delegate} {x : Value} (h : Listed log p side d)
    (hsettles : Settles log p side x) : Callable log d x := by
  obtain ⟨hside, target, binder, hmem, hleads, haction⟩ := h
  exact ⟨target, binder, hmem, hside ▸ hleads.settles hsettles, haction⟩

section Notify

variable {d : Delegate} {x : Value}

theorem notified_of_cons (promise : ℕ)
    (h : Notified (.notified d.promise d.side x :: w.log) promise) :
    Notified w.log promise ∨ promise ∈ [d.promise] := by
  obtain ⟨side, y, hmem⟩ := h
  rcases mem_cons.mp hmem with heq | hmem
  · cases heq
    exact .inr (mem_singleton.mpr rfl)
  · exact .inl ⟨side, y, hmem⟩

theorem notifications_eq_nil (h : ¬ Notified log promise) : notifications log promise = [] := by
  rw [notifications, filterMap_eq_nil_iff]
  intro e he
  cases e with
  | settle setter q value own seen => rfl
  | registered target q binder => rfl
  | notified q side y =>
    have hne : q ≠ promise := by
      rintro rfl
      exact h ⟨side, y, he⟩
    exact if_neg hne

theorem Good.notify (h : Good w (d.promise :: due)) (hd : Callable w.log d x) {due' : List ℕ}
    (hdue : Due { w with log := .notified d.promise d.side x :: w.log } due') :
    Good { w with log := .notified d.promise d.side x :: w.log } due' where
  lists := h.lists.transport (grows_log _)
  registry := h.registry.transport (grows_log _) fun _ _ _ hmem => by simpa using hmem
  calls := h.calls.record fun _ => rfl
  due := hdue
  once promise := by
    have hcons : notifications (.notified d.promise d.side x :: w.log) promise =
        (if d.promise = promise then [(d.side, x)] else []) ++ notifications w.log promise := by
      rw [notifications, filterMap_cons]
      split <;> simp_all [notifications]
    rw [hcons]
    split
    · next heq =>
      have hnot := h.due.owned d.promise (.head _)
      rw [heq] at hnot
      rw [notifications_eq_nil hnot]
      exact le_rfl
    · exact h.once promise
  faithful := by
    intro promise side y hmem
    rcases mem_cons.mp hmem with heq | hmem
    · cases heq
      obtain ⟨target, binder, hreg, hsettles, -⟩ := hd
      exact ⟨target, binder, .tail _ hreg, hsettles.suffix (suffix_cons _ _)⟩
    · obtain ⟨target, binder, hreg, hsettles⟩ := h.faithful promise side y hmem
      exact ⟨target, binder, .tail _ hreg, hsettles.suffix (suffix_cons _ _)⟩

theorem Good.callback (h : Good w (d.promise :: due)) (hd : Callable w.log d x) :
    Good { w with log := .notified d.promise d.side x :: w.log } due :=
  h.notify hd (h.due.transport [d.promise] (grows_log _) notified_of_cons)

theorem Good.iterate (h : Good w (d.promise :: due)) (hd : Callable w.log d x) {q : ℕ}
    (hq : d.action = some (.iterate q)) :
    Good { w with log := .notified d.promise d.side x :: w.log } (w.waiting q ++ due) := by
  obtain ⟨target, binder, hreg, -, haction⟩ := id hd
  obtain rfl := haction q hq
  have hspent : ¬ Spent w.log q := by
    rintro (⟨setter, y, hcall, hplain⟩ | ⟨target', promise', hreg', hnotified⟩)
    · rw [h.registry.binder target d.promise q hreg] at hcall
      cases hcall
      cases hplain rfl
    · obtain rfl := h.registry.binders target d.promise target' promise' q hreg hreg'
      exact h.due.owned d.promise (.head _) hnotified
  have hspent' : Spent (.notified d.promise d.side x :: w.log) q :=
    .inr ⟨target, d.promise, .tail _ hreg, d.side, x, .head _⟩
  exact h.notify hd (h.due.take [d.promise] h.lists (grows_log _) notified_of_cons h.waiting_lt
    hspent hspent')

end Notify

end Worlds

end Mojo.PythonBindings.Promises
