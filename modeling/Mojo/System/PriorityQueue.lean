import Mathlib.Data.List.MinMax
import Mathlib.Data.List.Perm.Subperm

/-!
# Priority queues

The top of a priority queue is an item with a smallest key. Which one it is among items of equal
keys is left to the implementation, but a new item does not take the place of a top that is no
later.
-/

namespace Mojo.System

open List

structure PriorityQueue (α : Type) (key : α → ℕ) (σ : Type) where
  items : σ → List α
  empty : σ
  push : α → σ → σ
  peek : σ → Option α
  pop : σ → σ
  items_empty : items empty = []
  items_push : ∀ a q, (items (push a q)).Perm (a :: items q)
  peek_mem : ∀ q a, peek q = some a → a ∈ items q
  peek_le : ∀ q a, peek q = some a → ∀ b ∈ items q, key a ≤ key b
  peek_none : ∀ q, peek q = none → items q = []
  items_pop : ∀ q a, peek q = some a → (items q).Perm (a :: items (pop q))
  peek_push : ∀ q a b, peek q = some a → key a ≤ key b → peek (push b q) = some a

def listQueue {α : Type} [DecidableEq α] (key : α → ℕ) : PriorityQueue α key (List α) where
  items q := q
  empty := []
  push a q := q ++ [a]
  peek q := q.argmin key
  pop q := (q.argmin key).elim q q.erase
  items_empty := rfl
  items_push a q := perm_append_singleton a q
  peek_mem _ _ h := argmin_mem h
  peek_le _ _ h _ hb := le_of_mem_argmin hb h
  peek_none _ h := argmin_eq_none.mp h
  items_pop q a h := by
    rw [h]
    exact perm_cons_erase (argmin_mem h)
  peek_push q a b h hab := by
    rw [argmin_concat, h]
    exact if_neg (Nat.not_lt.mpr hab)

namespace PriorityQueue

variable {α σ : Type} {key : α → ℕ} (Q : PriorityQueue α key σ) {q : σ} {a b : α}

theorem mem_push : b ∈ Q.items (Q.push a q) ↔ b = a ∨ b ∈ Q.items q := by
  rw [(Q.items_push a q).mem_iff, mem_cons]

theorem mem_of_mem_pop (h : Q.peek q = some a) (hb : b ∈ Q.items (Q.pop q)) : b ∈ Q.items q :=
  (Q.items_pop q a h).mem_iff.mpr (.tail a hb)

theorem eq_or_mem_pop (h : Q.peek q = some a) (hb : b ∈ Q.items q) :
    b = a ∨ b ∈ Q.items (Q.pop q) :=
  mem_cons.mp ((Q.items_pop q a h).mem_iff.mp hb)

/-- The items that are popped while the top satisfies `p`, at most a number of them. -/
def dropUpTo (p : α → Bool) : ℕ → σ → σ
  | 0, q => q
  | n + 1, q =>
    match Q.peek q with
    | none => q
    | some top => if p top then dropUpTo p n (Q.pop q) else q

def dropWhile (p : α → Bool) (q : σ) : σ := Q.dropUpTo p (Q.items q).length q

variable {p : α → Bool}

theorem dropWhile_induction {P : σ → Prop}
    (hpop : ∀ q a, Q.peek q = some a → p a → P q → P (Q.pop q)) (h : P q) :
    P (Q.dropWhile p q) := by
  suffices ∀ n q, P q → P (Q.dropUpTo p n q) from this _ q h
  intro n
  induction n with
  | zero => exact fun q h => h
  | succ n ih =>
    intro q h
    cases htop : Q.peek q with
    | none => simpa [dropUpTo, htop] using h
    | some top =>
      by_cases hp : p top = true
      · simpa [dropUpTo, htop, hp] using ih _ (hpop q top htop hp h)
      · simpa [dropUpTo, htop, hp] using h

theorem mem_of_mem_dropWhile (hb : b ∈ Q.items (Q.dropWhile p q)) : b ∈ Q.items q :=
  Q.dropWhile_induction (P := fun q' => b ∈ Q.items q' → b ∈ Q.items q)
    (fun _ _ htop _ h hb => h (Q.mem_of_mem_pop htop hb)) id hb

theorem mem_dropWhile (hb : b ∈ Q.items q) (hp : p b = false) : b ∈ Q.items (Q.dropWhile p q) := by
  refine Q.dropWhile_induction (P := fun q => b ∈ Q.items q) (fun q a htop ha h => ?_) hb
  refine (Q.eq_or_mem_pop htop h).resolve_left fun hba => ?_
  rw [hba, ha] at hp
  exact absurd hp (by decide)

theorem subperm_dropWhile (p : α → Bool) (q : σ) :
    (Q.items (Q.dropWhile p q)).Subperm (Q.items q) := by
  refine Q.dropWhile_induction (P := fun q' => (Q.items q').Subperm (Q.items q))
    (fun q' a htop _ h => ?_)
    (List.Subperm.refl _)
  exact ((sublist_cons_self a _).subperm.trans (Q.items_pop q' a htop).symm.subperm).trans h

theorem peek_dropUpTo {n : ℕ} (hn : (Q.items q).length ≤ n)
    (h : Q.peek (Q.dropUpTo p n q) = some a) : p a = false := by
  induction n generalizing q with
  | zero =>
    have hnil := eq_nil_of_length_eq_zero (Nat.le_zero.mp hn)
    exact absurd (Q.peek_mem _ _ h) (by simp [dropUpTo, hnil])
  | succ n ih =>
    cases htop : Q.peek q with
    | none =>
      simp only [dropUpTo, htop] at h
      exact absurd h (by simp)
    | some top =>
      by_cases hp : p top = true
      · simp only [dropUpTo, htop, hp, ↓reduceIte] at h
        have hlen := (Q.items_pop q top htop).length_eq
        rw [length_cons] at hlen
        exact ih (by omega) h
      · simp only [dropUpTo, htop, hp, Bool.false_eq_true, ↓reduceIte] at h
        exact Option.some.inj h ▸ Bool.eq_false_iff.mpr hp

theorem peek_dropWhile (h : Q.peek (Q.dropWhile p q) = some a) : p a = false :=
  Q.peek_dropUpTo le_rfl h

end PriorityQueue

end Mojo.System
