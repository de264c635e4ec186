import Mathlib.Data.Nat.Notation
import Mathlib.Order.Basic
import Mathlib.Order.Nat

/-!
# Binary search

The loop of Go's `sort.Search`: on a predicate that stays true once it is true, it returns the
first index below `n` where it holds, or `n`.
-/

namespace Search

/-- The loop: the answer lies in `[i, j]`. The first argument bounds the number of turns. -/
def loop (f : ℕ → Bool) : ℕ → ℕ → ℕ → ℕ
  | 0, i, _ => i
  | k + 1, i, j =>
    if i < j then
      if f ((i + j) / 2) then loop f k i ((i + j) / 2) else loop f k ((i + j) / 2 + 1) j
    else i

/-- `sort.Search(n, f)`. -/
def search (n : ℕ) (f : ℕ → Bool) : ℕ := loop f n 0 n

variable {f : ℕ → Bool}

theorem loop_spec (hf : ∀ i j, i ≤ j → f i → f j) {k i j : ℕ} (hk : j ≤ i + k) (hij : i ≤ j)
    (hlow : ∀ x < i, f x = false) :
    loop f k i j ≤ j ∧ (∀ x < loop f k i j, f x = false) ∧
      (loop f k i j < j → f (loop f k i j)) := by
  induction k generalizing i j with
  | zero => exact ⟨hij, hlow, fun h => absurd h (by simp only [loop]; omega)⟩
  | succ k ih =>
    unfold loop
    split
    next hlt =>
      split
      next hmid =>
        obtain ⟨hle, hbefore, hat⟩ := ih (i := i) (j := (i + j) / 2) (by omega) (by omega) hlow
        refine ⟨by omega, hbefore, fun _ => ?_⟩
        rcases Nat.lt_or_ge (loop f k i ((i + j) / 2)) ((i + j) / 2) with h | h
        · exact hat h
        · exact hf _ _ h hmid
      next hmid =>
        have hlow' : ∀ x < (i + j) / 2 + 1, f x = false := fun x hx =>
          Bool.eq_false_iff.2 fun h => hmid (hf _ _ (by omega) h)
        exact ih (by omega) (by omega) hlow'
    next hlt => exact ⟨hij, hlow, fun h => absurd h hlt⟩

/-- The answer is at most `n`, nothing before it satisfies the predicate, and it does itself
unless it is `n`. -/
theorem search_spec (hf : ∀ i j, i ≤ j → f i → f j) (n : ℕ) :
    search n f ≤ n ∧ (∀ x < search n f, f x = false) ∧ (search n f < n → f (search n f)) :=
  loop_spec hf (by omega) (Nat.zero_le n) fun x hx => absurd hx (Nat.not_lt_zero x)

end Search
