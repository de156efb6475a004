import Mathlib.Data.List.Basic

/-!
# Records one behind the other

Data is made up of records, each of which tells how long it is, until a test says that no more begins. What is left
at the beginning of each record is collected, and what is left at the end. A record without a length is met again
until the fuel is out.
-/

namespace Plptools.Library

section Records

variable {α : Type*} (more : List α → Prop) [DecidablePred more] (size : List α → ℕ)

/-- What is left at the beginning of each record. -/
def records : ℕ → List α → List (List α)
  | 0, _ => []
  | fuel + 1, b => if more b then b :: records fuel (b.drop (size b)) else []

/-- What is left behind the last record. -/
def leftover : ℕ → List α → List α
  | 0, b => b
  | fuel + 1, b => if more b then leftover fuel (b.drop (size b)) else b

variable {more size} {fuel : ℕ} {b : List α}

/-- No record begins. -/
theorem records_of_not_more (h : ¬more b) : records more size fuel b = [] := by
  cases fuel with
  | zero => rfl
  | succ fuel => exact if_neg h

/-- Everything is left. -/
theorem leftover_of_not_more (h : ¬more b) : leftover more size fuel b = b := by
  cases fuel with
  | zero => rfl
  | succ fuel => exact if_neg h

/-- The first record. -/
theorem records_of_more (h : more b) : records more size (fuel + 1) b = b :: records more size fuel (b.drop (size b)) :=
  if_pos h

/-- What is left behind the first record. -/
theorem leftover_of_more (h : more b) : leftover more size (fuel + 1) b = leftover more size fuel (b.drop (size b)) :=
  if_pos h

/-- A record begins there. -/
theorem more_of_mem_records {s : List α} (hs : s ∈ records more size fuel b) : more s := by
  induction fuel generalizing b with
  | zero => cases hs
  | succ fuel ih =>
    by_cases hmore : more b
    · rw [records_of_more hmore] at hs
      obtain rfl | hs := List.mem_cons.mp hs
      · exact hmore
      · exact ih hs
    · rw [records_of_not_more hmore] at hs
      cases hs

/-- There are no more records than fuel. -/
theorem length_records_le : (records more size fuel b).length ≤ fuel := by
  induction fuel generalizing b with
  | zero => exact Nat.le_refl 0
  | succ fuel ih =>
    by_cases hmore : more b
    · rw [records_of_more hmore, List.length_cons]
      exact Nat.succ_le_succ ih
    · rw [records_of_not_more hmore]
      exact Nat.zero_le _

/-- With a length for each record there are no others than with as much fuel as data. -/
theorem mem_records_of_length_le (hnil : ¬more []) {k : ℕ} (hfuel : b.length ≤ fuel)
    (hsize : ∀ s ∈ records more size fuel b, 0 < size s) {s : List α} (hs : s ∈ records more size k b) :
    s ∈ records more size fuel b := by
  induction fuel generalizing b k with
  | zero =>
    rw [List.eq_nil_of_length_eq_zero (Nat.le_zero.mp hfuel), records_of_not_more hnil] at hs
    cases hs
  | succ fuel ih =>
    by_cases hmore : more b
    · rw [records_of_more hmore] at hsize ⊢
      have hfirst : 0 < size b := hsize b List.mem_cons_self
      cases k with
      | zero => cases hs
      | succ k =>
        rw [records_of_more hmore] at hs
        obtain rfl | hs := List.mem_cons.mp hs
        · exact List.mem_cons_self
        · refine List.mem_cons_of_mem _ (ih ?_ (fun s hs => hsize s (List.mem_cons_of_mem _ hs)) hs)
          rw [List.length_drop]
          omega
    · rw [records_of_not_more hmore] at hs
      cases hs

/-- With a length for each record, and as much fuel as data, no more begins at the end. -/
theorem not_more_leftover (hnil : ¬more []) (hfuel : b.length ≤ fuel) (hsize : ∀ s ∈ records more size fuel b, 0 < size s) :
    ¬more (leftover more size fuel b) := by
  induction fuel generalizing b with
  | zero =>
    rw [List.eq_nil_of_length_eq_zero (Nat.le_zero.mp hfuel)]
    exact hnil
  | succ fuel ih =>
    by_cases hmore : more b
    · rw [records_of_more hmore] at hsize
      rw [leftover_of_more hmore]
      have hfirst : 0 < size b := hsize b List.mem_cons_self
      refine ih ?_ fun s hs => hsize s (List.mem_cons_of_mem _ hs)
      rw [List.length_drop]
      omega
    · rw [leftover_of_not_more hmore]
      exact hmore

end Records

end Plptools.Library
