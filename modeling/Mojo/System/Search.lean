import Mathlib.Data.Nat.Basic

/-!
# Binary search

`search n f` looks for the first index below `n` at which `f` holds, by halving the indices that are
left. It returns `n` if there is none. Where `f` holds from some index on, that index is found.
-/

namespace Mojo.System

/-- The loop of the search, with the indices from `i` to `j` left. -/
def searchFrom (f : ℕ → Bool) (i j : ℕ) : ℕ :=
  if i < j then
    if f (i + (j - i) / 2) then searchFrom f i (i + (j - i) / 2)
    else searchFrom f (i + (j - i) / 2 + 1) j
  else i
termination_by j - i

def search (n : ℕ) (f : ℕ → Bool) : ℕ := searchFrom f 0 n

structure Between (n : ℕ) (f : ℕ → Bool) (i j : ℕ) : Prop where
  le : i ≤ j
  stop : j ≤ n
  below : ∀ k < i, f k = false
  above : ∀ k, j ≤ k → k < n → f k

section

variable {n : ℕ} {f : ℕ → Bool}

theorem between_searchFrom (hf : ∀ a b, a ≤ b → b < n → f a → f b) {i j : ℕ}
    (h : Between n f i j) : Between n f (searchFrom f i j) (searchFrom f i j) := by
  have hle := h.le
  have hstop := h.stop
  fun_induction searchFrom f i j with
  | case1 i j hij hmid ih =>
    have h' : Between n f i (i + (j - i) / 2) :=
      ⟨by omega, by omega, h.below, fun k hk hkn => hf _ k hk hkn hmid⟩
    exact ih h' h'.le h'.stop
  | case2 i j hij hmid ih =>
    have hbelow : ∀ k < i + (j - i) / 2 + 1, f k = false := by
      intro k hk
      by_contra hne
      exact hmid (hf k _ (by omega) (by omega) (by simpa using hne))
    have h' : Between n f (i + (j - i) / 2 + 1) j := ⟨by omega, hstop, hbelow, h.above⟩
    exact ih h' h'.le h'.stop
  | case3 i j hij =>
    have hj : j = i := by omega
    subst hj
    exact h

theorem between_search (hf : ∀ a b, a ≤ b → b < n → f a → f b) :
    Between n f (search n f) (search n f) := by
  refine between_searchFrom hf ⟨Nat.zero_le n, le_rfl, ?_, ?_⟩
  · intro k hk
    exact absurd hk (Nat.not_lt_zero k)
  · intro k hk hkn
    omega

theorem search_eq (hf : ∀ a b, a ≤ b → b < n → f a → f b) {r : ℕ}
    (hr : Between n f r r) : search n f = r := by
  have hs := between_search hf
  have h₁ := hs.stop
  have h₂ := hr.stop
  rcases Nat.lt_trichotomy (search n f) r with hlt | heq | hlt
  · have := hs.above _ le_rfl (by omega)
    rw [hr.below _ hlt] at this
    cases this
  · exact heq
  · have := hr.above _ le_rfl (by omega)
    rw [hs.below _ hlt] at this
    cases this

end

end Mojo.System
