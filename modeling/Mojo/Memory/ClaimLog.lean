import Mathlib.Data.List.Pairwise
import Mojo.Memory.Bytes

/-!
# What a decoder has claimed, read and taken

A decoder that checks a message while it goes through it leaves a log behind, the newest entry
first. In a `Proper` log every claim is aligned, inside the buffer and behind all the earlier ones,
nothing is read that was not claimed before, the handles are taken in increasing order, and
no more memory is asked for than the buffer can account for.
-/

namespace Mojo.Memory

open List

/-- `alloc count bits` is an array of `count` elements that take `bits` bits each in the message. -/
inductive Access
  | claim (start stop : ℕ)
  | read (addr size : ℕ)
  | handle (index : ℕ)
  | alloc (count bits : ℕ)
deriving DecidableEq, Repr

def roundUp8 (n : ℕ) : ℕ := (n + 7) / 8 * 8

def Claimed (log : List Access) (addr size : ℕ) : Prop :=
  ∃ start stop, .claim start stop ∈ log ∧ start ≤ addr ∧ addr + size ≤ stop

/-- What may follow a log, in a buffer of `limit` bytes that comes with `numHandles` handles. -/
def MayFollow (limit numHandles : ℕ) (log : List Access) : Access → Prop
  | .claim start stop => start % 8 = 0 ∧ start ≤ stop ∧ stop ≤ limit ∧
      ∀ start' stop', .claim start' stop' ∈ log → roundUp8 stop' ≤ start
  | .read addr size => Claimed log addr size
  | .handle index => index < numHandles ∧ ∀ index', .handle index' ∈ log → index' < index
  | .alloc count bits => count * bits ≤ 8 * limit

def Proper (limit numHandles : ℕ) : List Access → Prop
  | [] => True
  | e :: log => MayFollow limit numHandles log e ∧ Proper limit numHandles log

def claims (log : List Access) : List (ℕ × ℕ) :=
  log.reverse.filterMap fun
    | .claim start stop => some (start, stop)
    | _ => none

def taken (log : List Access) : List ℕ :=
  log.reverse.filterMap fun
    | .handle index => some index
    | _ => none

variable {limit numHandles : ℕ} {log : List Access}

theorem mem_claims {start stop : ℕ} : (start, stop) ∈ claims log ↔ .claim start stop ∈ log := by
  simp only [claims, mem_filterMap, mem_reverse]
  constructor
  · rintro ⟨e, he, h⟩
    cases e <;> simp_all
  · intro h
    exact ⟨_, h, rfl⟩

theorem mem_taken {index : ℕ} : index ∈ taken log ↔ .handle index ∈ log := by
  simp only [taken, mem_filterMap, mem_reverse]
  constructor
  · rintro ⟨e, he, h⟩
    cases e <;> simp_all
  · intro h
    exact ⟨_, h, rfl⟩

theorem Claimed.cons {addr size : ℕ} (h : Claimed log addr size) (e : Access) :
    Claimed (e :: log) addr size := by
  obtain ⟨start, stop, hmem, hin⟩ := h
  exact ⟨start, stop, .tail e hmem, hin⟩

theorem Proper.read (h : Proper limit numHandles log) {addr size : ℕ}
    (hmem : .read addr size ∈ log) :
    Claimed log addr size := by
  induction log with
  | nil => cases hmem
  | cons e log ih =>
    rcases hmem with _ | ⟨_, hmem⟩
    · exact h.1.cons _
    · exact (ih h.2 hmem).cons e

theorem Proper.claim (h : Proper limit numHandles log) {start stop : ℕ}
    (hmem : .claim start stop ∈ log) : start % 8 = 0 ∧ start ≤ stop ∧ stop ≤ limit := by
  induction log with
  | nil => cases hmem
  | cons e log ih =>
    rcases hmem with _ | ⟨_, hmem⟩
    · exact ⟨h.1.1, h.1.2.1, h.1.2.2.1⟩
    · exact ih h.2 hmem

theorem Proper.alloc (h : Proper limit numHandles log) {count bits : ℕ}
    (hmem : .alloc count bits ∈ log) : count * bits ≤ 8 * limit := by
  induction log with
  | nil => cases hmem
  | cons e log ih =>
    rcases hmem with _ | ⟨_, hmem⟩
    · exact h.1
    · exact ih h.2 hmem

theorem claims_cons (e : Access) (log : List Access) :
    claims (e :: log) = claims log ++ match e with
      | .claim start stop => [(start, stop)]
      | _ => [] := by
  cases e <;> simp [claims]

theorem taken_cons (e : Access) (log : List Access) : taken (e :: log) = taken log ++ match e with
      | .handle index => [index]
      | _ => [] := by
  cases e <;> simp [taken]

theorem Proper.claims_increasing (h : Proper limit numHandles log) :
    (claims log).Pairwise fun r r' => r.2 ≤ r'.1 := by
  induction log with
  | nil => exact .nil
  | cons e log ih =>
    rw [claims_cons]
    cases e with
    | claim start stop =>
      rw [pairwise_append]
      refine ⟨ih h.2, pairwise_singleton _ _, ?_⟩
      intro r hr r' hr'
      obtain rfl := mem_singleton.mp hr'
      have := h.1.2.2.2 r.1 r.2 (mem_claims.mp hr)
      simp only [roundUp8] at this
      omega
    | _ =>
      rw [append_nil]
      exact ih h.2

theorem Proper.taken_increasing (h : Proper limit numHandles log) :
    (taken log).Pairwise (· < ·) := by
  induction log with
  | nil => exact .nil
  | cons e log ih =>
    rw [taken_cons]
    cases e with
    | handle index =>
      rw [pairwise_append]
      refine ⟨ih h.2, pairwise_singleton _ _, ?_⟩
      intro i hi j hj
      obtain rfl := mem_singleton.mp hj
      exact h.1.2 i (mem_taken.mp hi)
    | _ =>
      rw [append_nil]
      exact ih h.2

end Mojo.Memory
