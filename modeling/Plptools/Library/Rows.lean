import Mathlib.Algebra.Group.Nat.Defs
import Mathlib.Order.Basic

/-!
# What cells of equal rows hold together

Cells are laid out in rows of `n`. In each row the first `c` cells hold `part c` elements together.
How many elements the first `k` cells hold follows from the whole rows and the rest.
-/

namespace Plptools.Library

/-- The elements of the first `k` cells. -/
def inRows (n : ℕ) (part : ℕ → ℕ) (k : ℕ) : ℕ := k / n * part n + part (k % n)

section

variable {n : ℕ} {part : ℕ → ℕ}

/-- No pixels. -/
theorem inRows_zero (hzero : part 0 = 0) : inRows n part 0 = 0 := by
  rw [inRows, Nat.zero_div, Nat.zero_mod, Nat.zero_mul, hzero]

/-- `q` rows and a part of the next one. -/
theorem inRows_add {q c : ℕ} (hc : c < n) : inRows n part (q * n + c) = q * part n + part c := by
  have hn : 0 < n := Nat.zero_lt_of_lt hc
  rw [inRows, Nat.mul_comm q n, Nat.mul_add_div hn, Nat.div_eq_of_lt hc, Nat.add_zero,
    Nat.mul_add_mod, Nat.mod_eq_of_lt hc]

/-- Whole rows. -/
theorem inRows_mul (hzero : part 0 = 0) (hn : 0 < n) (q : ℕ) : inRows n part (q * n) = q * part n := by
  have hadd : inRows n part (q * n + 0) = q * part n + part 0 := inRows_add hn
  rwa [hzero] at hadd

/-- One more cell. -/
theorem inRows_succ (hzero : part 0 = 0) (hn : 0 < n) (k : ℕ) :
    inRows n part (k + 1) + part (k % n) = inRows n part k + part (k % n + 1) := by
  have hlt : k % n < n := Nat.mod_lt k hn
  have hk : k = k / n * n + k % n := (Nat.div_add_mod' k n).symm
  have hbefore : inRows n part k = k / n * part n + part (k % n) := rfl
  by_cases hlast : k % n + 1 = n
  · have hnext : k + 1 = (k / n + 1) * n := by
      rw [Nat.succ_mul]
      omega
    rw [hbefore, hlast, hnext, inRows_mul hzero hn, Nat.succ_mul]
    exact Nat.add_right_comm _ _ _
  · have hnext : k + 1 = k / n * n + (k % n + 1) := by omega
    have hafter : inRows n part (k + 1) = k / n * part n + part (k % n + 1) := by
      rw [hnext]
      exact inRows_add (Nat.lt_of_le_of_ne hlt hlast)
    rw [hafter, hbefore]
    exact Nat.add_right_comm _ _ _

end

end Plptools.Library
