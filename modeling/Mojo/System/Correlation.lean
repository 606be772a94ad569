import Mathlib.Data.List.Nodup
import Mathlib.Data.List.Count
import Mathlib.Logic.Relation
import Mathlib.Order.Nat

/-!
# Correlating answers with requests

A request is sent under an identifier that is fresh, together with a party that waits
for the answer and that is handed over with it. An answer is given to the party of
its identifier, which is then retired. When the ledger is closed, the parties that still wait
are dropped. What is to be expected of such a ledger over any sequence of steps is
proved here once: every party is answered at most once and with its own identifier,
and is retired or dropped exactly once.
-/

namespace Mojo.System

open List

variable {ρ : Type}

inductive Entry (ρ : Type)
  | sent (party : ρ) (id : ℕ)
  | answered (party : ρ) (id : ℕ)
  | retired (party : ρ)
  | dropped (party : ρ)
deriving DecidableEq, Repr

namespace Entry

def sent? : Entry ρ → Option ρ
  | .sent p _ => some p
  | .answered _ _ | .retired _ | .dropped _ => none

def answered? : Entry ρ → Option ρ
  | .answered p _ => some p
  | .sent _ _ | .retired _ | .dropped _ => none

def discarded? : Entry ρ → Option ρ
  | .retired p | .dropped p => some p
  | .sent _ _ | .answered _ _ => none

end Entry

/-- `issued` is the last identifier that was used; `answering` are the parties that have
their answer and are not yet retired, the latest first. -/
structure Ledger (ρ : Type) where
  issued : ℕ
  waiting : List (ℕ × ρ)
  answering : List ρ
  history : List (Entry ρ)

namespace Ledger

def empty : Ledger ρ := ⟨0, [], [], []⟩

def sent (L : Ledger ρ) : List ρ := L.history.filterMap Entry.sent?

def answered (L : Ledger ρ) : List ρ := L.history.filterMap Entry.answered?

def discarded (L : Ledger ρ) : List ρ := L.history.filterMap Entry.discarded?

inductive Step : Ledger ρ → Ledger ρ → Prop
  | lost (L) : Step L { L with issued := L.issued + 1 }
  | send (L : Ledger ρ) (p : ρ) (h : p ∉ L.sent) : Step L
      { L with
        issued := L.issued + 1
        waiting := (L.issued + 1, p) :: L.waiting
        history := L.history ++ [.sent p (L.issued + 1)] }
  | answer (L : Ledger ρ) (id : ℕ) (p : ρ) (h : (id, p) ∈ L.waiting) : Step L
      { L with
        waiting := L.waiting.filter fun q => q.1 != id
        answering := p :: L.answering
        history := L.history ++ [.answered p id] }
  | retire (L : Ledger ρ) (p : ρ) (ps : List ρ) (h : L.answering = p :: ps) : Step L
      { L with
        answering := ps
        history := L.history ++ [.retired p] }
  | close (L) : Step L
      { L with
        waiting := []
        history := L.history ++ L.waiting.map fun q => .dropped q.2 }

def Justified (P : List (Entry ρ) → Entry ρ → Prop) (history : List (Entry ρ)) : Prop :=
  ∀ before e after, history = before ++ e :: after → P before e

variable {P : List (Entry ρ) → Entry ρ → Prop} {history : List (Entry ρ)}

theorem Justified.append {es : List (Entry ρ)}
    (h : Justified P history) (hes : ∀ before e after, es = before ++ e :: after →
      P (history ++ before) e) : Justified P (history ++ es) := by
  intro before e after heq
  rcases append_eq_append_iff.mp heq with ⟨cs, rfl, hcs⟩ | ⟨cs, rfl, hcs⟩
  · exact hes cs e after hcs
  · cases cs with
    | nil => simpa using hes [] e after hcs.symm
    | cons c cs =>
      obtain ⟨rfl, rfl⟩ := List.cons.inj hcs
      exact h before _ cs rfl

theorem Justified.snoc
    {e : Entry ρ} (h : Justified P history) (he : P history e) : Justified P (history ++ [e]) := by
  refine h.append ?_
  intro before e' after heq
  cases before with
  | nil =>
    obtain ⟨rfl, -⟩ := List.cons.inj heq
    simpa using he
  | cons c cs => simp at heq

/-- A party is answered under the identifier it was sent with, and retired after an answer. -/
def Reason (before : List (Entry ρ)) : Entry ρ → Prop
  | .answered p id => .sent p id ∈ before
  | .retired p => ∃ id, .answered p id ∈ before
  | .sent _ _ | .dropped _ => True

theorem perm_filter_id {waiting : List (ℕ × ρ)} (hids : (waiting.map Prod.fst).Nodup)
    {id : ℕ} {p : ρ}
    (h : (id, p) ∈ waiting) : waiting.Perm ((id, p) :: waiting.filter fun q => q.1 != id) := by
  induction waiting with
  | nil => cases h
  | cons q qs ih =>
    obtain ⟨hq, hqs⟩ := nodup_cons.mp hids
    rcases h with _ | ⟨_, h⟩
    · have hkeep : qs.filter (fun r => r.1 != id) = qs := by
        rw [filter_eq_self]
        intro r hr
        have : r.1 ≠ id := fun heq => hq (mem_map.mpr ⟨r, hr, heq⟩)
        simpa using this
      simp [hkeep]
    · have hne : q.1 ≠ id := fun heq => hq (heq ▸ mem_map_of_mem h)
      have hfilter : (q :: qs).filter (fun r => r.1 != id) = q :: qs.filter fun r => r.1 != id :=
        filter_cons_of_pos (by simpa using hne)
      rw [hfilter]
      exact ((ih hqs h).cons q).trans (List.Perm.swap _ _ _)

section Invariant

variable [DecidableEq ρ]

structure Inv (L : Ledger ρ) : Prop where
  bounds : ∀ q ∈ L.waiting, 1 ≤ q.1 ∧ q.1 ≤ L.issued
  ids : (L.waiting.map Prod.fst).Nodup
  once : L.sent.Nodup
  conserved : ∀ p, L.sent.count p = (L.waiting.map Prod.snd).count p + L.answering.count p +
    L.discarded.count p
  answers : ∀ p, L.answered.count p + (L.waiting.map Prod.snd).count p ≤ L.sent.count p
  paired : ∀ q ∈ L.waiting, .sent q.2 q.1 ∈ L.history
  justified : Justified Reason L.history
  answering : ∀ p ∈ L.answering, ∃ id, .answered p id ∈ L.history
  spent : ∀ p id, .answered p id ∈ L.history → id ≤ L.issued ∧ id ∉ L.waiting.map Prod.fst

theorem inv_empty : Inv (empty : Ledger ρ) where
  bounds _ h := by cases h
  ids := nodup_nil
  once := nodup_nil
  conserved _ := rfl
  answers _ := le_rfl
  paired _ h := by cases h
  justified before e after h := by
    have := congrArg List.length h
    simp [empty] at this
  answering _ h := by cases h
  spent _ _ h := by cases h

variable {L : Ledger ρ}

theorem Inv.lost (h : Inv L) : Inv { L with issued := L.issued + 1 } where
  bounds q hq := ⟨(h.bounds q hq).1, (h.bounds q hq).2.trans (Nat.le_succ _)⟩
  ids := h.ids
  once := h.once
  conserved := h.conserved
  answers := h.answers
  paired := h.paired
  justified := h.justified
  answering := h.answering
  spent p id hid := ⟨(h.spent p id hid).1.trans (Nat.le_succ _), (h.spent p id hid).2⟩

variable {p : ρ}

theorem Inv.send (h : Inv L) (hp : p ∉ L.sent) :
    Inv { L with
      issued := L.issued + 1
      waiting := (L.issued + 1, p) :: L.waiting
      history := L.history ++ [.sent p (L.issued + 1)] } := by
  have hold := fun q hq => (h.bounds q hq).2
  constructor <;> simp only [sent, answered, discarded, filterMap_append, count_append]
  · intro q hq
    rcases hq with _ | ⟨_, hq⟩
    · exact ⟨Nat.succ_pos _, le_rfl⟩
    · exact ⟨(h.bounds q hq).1, (hold q hq).trans (Nat.le_succ _)⟩
  · refine nodup_cons.mpr ⟨fun hmem => ?_, h.ids⟩
    obtain ⟨q, hq, heq⟩ := mem_map.mp hmem
    have := hold q hq
    omega
  · exact List.Nodup.append h.once (nodup_singleton p) (disjoint_singleton.mpr hp)
  · intro r
    have := h.conserved r
    simp only [sent, discarded] at this
    simp only [filterMap_cons, Entry.sent?, Entry.discarded?, filterMap_nil,
      map_cons, count_cons, count_nil]
    omega
  · intro r
    have := h.answers r
    simp only [sent, answered] at this
    simp only [filterMap_cons, Entry.sent?, Entry.answered?, filterMap_nil,
      map_cons, count_cons, count_nil]
    omega
  · intro q hq
    rcases hq with _ | ⟨_, hq⟩
    · simp
    · exact mem_append_left _ (h.paired q hq)
  · exact h.justified.snoc trivial
  · intro r hr
    obtain ⟨id, hid⟩ := h.answering r hr
    exact ⟨id, mem_append_left _ hid⟩
  · intro r id hid
    have hid' : .answered r id ∈ L.history := by simpa using hid
    obtain ⟨h₁, h₂⟩ := h.spent r id hid'
    refine ⟨h₁.trans (Nat.le_succ _), ?_⟩
    simp only [map_cons, mem_cons, not_or]
    exact ⟨by omega, h₂⟩

theorem Inv.answer (h : Inv L) {id : ℕ} (hp : (id, p) ∈ L.waiting) :
    Inv { L with
      waiting := L.waiting.filter fun q => q.1 != id
      answering := p :: L.answering
      history := L.history ++ [.answered p id] } := by
  have hperm := perm_filter_id h.ids hp
  have hcount : ∀ r, (L.waiting.map Prod.snd).count r =
      ((L.waiting.filter fun q => q.1 != id).map Prod.snd).count r + if p = r then 1 else 0 := by
    intro r
    rw [(hperm.map Prod.snd).count_eq, map_cons, count_cons]
    simp
  have hsub : (L.waiting.filter fun q => q.1 != id).Sublist L.waiting := filter_sublist
  constructor <;> simp only [sent, answered, discarded, filterMap_append, count_append]
  · exact fun q hq => h.bounds q (hsub.subset hq)
  · exact h.ids.sublist (hsub.map _)
  · simp only [filterMap_cons, Entry.sent?, filterMap_nil, append_nil]
    exact h.once
  · intro r
    have h₁ := h.conserved r
    have h₂ := hcount r
    simp only [sent, discarded] at h₁
    simp only [filterMap_cons, Entry.sent?, Entry.discarded?, filterMap_nil,
      count_cons, count_nil, beq_iff_eq]
    omega
  · intro r
    have h₁ := h.answers r
    have h₂ := hcount r
    simp only [sent, answered] at h₁
    simp only [filterMap_cons, Entry.sent?, Entry.answered?, filterMap_nil,
      count_cons, count_nil, beq_iff_eq]
    omega
  · exact fun q hq => mem_append_left _ (h.paired q (hsub.subset hq))
  · exact h.justified.snoc (h.paired (id, p) hp)
  · intro r hr
    rcases hr with _ | ⟨_, hr⟩
    · exact ⟨id, by simp⟩
    · obtain ⟨id', hid⟩ := h.answering r hr
      exact ⟨id', mem_append_left _ hid⟩
  · intro r id' hid
    have hcase : .answered r id' ∈ L.history ∨ r = p ∧ id' = id := by simpa using hid
    rcases hcase with hid | ⟨-, rfl⟩
    · obtain ⟨h₁, h₂⟩ := h.spent r id' hid
      exact ⟨h₁, fun hmem => h₂ ((hsub.map Prod.fst).subset hmem)⟩
    · refine ⟨(h.bounds _ hp).2, ?_⟩
      intro hmem
      obtain ⟨q, hq, rfl⟩ := mem_map.mp hmem
      simp at hq

theorem Inv.retire (h : Inv L) {ps : List ρ} (hp : L.answering = p :: ps) :
    Inv { L with
      answering := ps
      history := L.history ++ [.retired p] } := by
  have hmem : ∀ r ∈ ps, r ∈ L.answering := fun r hr => hp ▸ .tail p hr
  constructor <;> simp only [sent, answered, discarded, filterMap_append, count_append]
  · exact h.bounds
  · exact h.ids
  · simp only [filterMap_cons, Entry.sent?, filterMap_nil, append_nil]
    exact h.once
  · intro r
    have := h.conserved r
    rw [hp] at this
    simp only [sent, discarded, count_cons] at this
    simp only [filterMap_cons, Entry.sent?, Entry.discarded?, filterMap_nil, count_cons, count_nil]
    omega
  · intro r
    simp only [filterMap_cons, Entry.sent?, Entry.answered?, filterMap_nil, count_nil, Nat.add_zero]
    exact h.answers r
  · exact fun q hq => mem_append_left _ (h.paired q hq)
  · exact h.justified.snoc (h.answering p (hp ▸ (.head _)))
  · intro r hr
    obtain ⟨id, hid⟩ := h.answering r (hmem r hr)
    exact ⟨id, mem_append_left _ hid⟩
  · intro r id hid
    exact h.spent r id (by simpa using hid)

theorem Inv.close (h : Inv L) :
    Inv { L with
      waiting := []
      history := L.history ++ L.waiting.map fun q => .dropped q.2 } := by
  have hsent : (L.waiting.map fun q => Entry.dropped q.2).filterMap Entry.sent? = [] := by
    rw [filterMap_map]
    exact filterMap_eq_nil_iff.mpr fun _ _ => rfl
  have hanswered : (L.waiting.map fun q => Entry.dropped q.2).filterMap Entry.answered? = [] := by
    rw [filterMap_map]
    exact filterMap_eq_nil_iff.mpr fun _ _ => rfl
  have hdropped : (L.waiting.map fun q => Entry.dropped q.2).filterMap Entry.discarded? =
      L.waiting.map Prod.snd := by
    rw [filterMap_map]
    exact congrFun (filterMap_eq_map (f := Prod.snd)) L.waiting
  constructor <;> simp only [sent, answered, discarded, filterMap_append, hsent, hanswered,
      hdropped, append_nil, count_append]
  · exact fun q hq => absurd hq not_mem_nil
  · exact nodup_nil
  · exact h.once
  · intro r
    have := h.conserved r
    simp only [sent, discarded] at this
    simp only [map_nil, count_nil]
    omega
  · intro r
    have := h.answers r
    simp only [sent, answered] at this
    simp only [map_nil, count_nil]
    omega
  · exact fun q hq => absurd hq not_mem_nil
  · refine h.justified.append ?_
    intro before e after heq
    have he : e ∈ L.waiting.map fun q => Entry.dropped q.2 := by rw [heq]; simp
    obtain ⟨q, -, rfl⟩ := mem_map.mp he
    trivial
  · intro r hr
    obtain ⟨id, hid⟩ := h.answering r hr
    exact ⟨id, mem_append_left _ hid⟩
  · intro r id hid
    have hid' : .answered r id ∈ L.history := by simpa using hid
    exact ⟨(h.spent r id hid').1, not_mem_nil⟩

theorem Inv.step {L' : Ledger ρ} (h : Inv L) (hs : Step L L') : Inv L' := by
  cases hs with
  | lost => exact h.lost
  | send p hp => exact h.send hp
  | answer id p hp => exact h.answer hp
  | retire p ps hp => exact h.retire hp
  | close => exact h.close

theorem Inv.answered_nodup (h : Inv L) : L.answered.Nodup := by
  rw [nodup_iff_count_le_one]
  intro p
  have h₁ := h.answers p
  have h₂ := nodup_iff_count_le_one.mp h.once p
  omega

theorem Inv.discarded_nodup (h : Inv L) : L.discarded.Nodup := by
  rw [nodup_iff_count_le_one]
  intro p
  have h₁ := h.conserved p
  have h₂ := nodup_iff_count_le_one.mp h.once p
  omega

theorem Inv.discarded_perm (h : Inv L) (hw : L.waiting = []) (ha : L.answering = []) :
    L.discarded.Perm L.sent := by
  rw [perm_iff_count]
  intro p
  have := h.conserved p
  rw [hw, ha] at this
  simpa using this.symm

end Invariant

end Ledger

end Mojo.System
