import Mathlib.Data.Nat.Notation
import Mathlib.Logic.Function.Basic
import Mathlib.Data.List.Basic

/-!
# Ring buffers

A ring is an array of cells whose indices are counted modulo its size. The cells from a read
index up to a write index are read as a list. At most `size - 1` cells are in use, so that an
empty ring and a full one have different indices.
-/

namespace Plptools.Library

variable {A : Type*}

/-- The `n` cells from index `i` on, wrapping at the end of the ring. -/
def ringSlice (size : ℕ) (cells : ℕ → A) (i : ℕ) : ℕ → List A
  | 0 => []
  | n + 1 => cells i :: ringSlice size cells ((i + 1) % size) n

/-- The number of cells from index `r` up to index `w`. -/
def ringUsed (size r w : ℕ) : ℕ := (w + size - r) % size

/-- An index that passed the end of the ring at most once. -/
theorem mod_wrap {size i : ℕ} (h : i < 2 * size) :
    i % size = if i < size then i else i - size := by
  split
  · exact Nat.mod_eq_of_lt ‹_›
  · rw [Nat.mod_eq_sub_mod (by omega), Nat.mod_eq_of_lt (by omega)]

/-- As many cells as are asked for. -/
@[simp] theorem ringSlice_length (size : ℕ) (cells : ℕ → A) (i n : ℕ) :
    (ringSlice size cells i n).length = n := by
  induction n generalizing i with
  | zero => rfl
  | succ n ih => rw [ringSlice, List.length_cons, ih]

/-- A slice consists of cells. -/
theorem exists_of_mem_ringSlice {size : ℕ} {cells : ℕ → A} {i n : ℕ} {a : A}
    (h : a ∈ ringSlice size cells i n) : ∃ k, cells k = a := by
  induction n generalizing i with
  | zero => cases h
  | succ n ih =>
    rcases List.mem_cons.mp h with rfl | hrest
    · exact ⟨i, rfl⟩
    · exact ih hrest

/-- A slice continues where its first part ends. -/
theorem ringSlice_add (size : ℕ) (cells : ℕ → A) (i m n : ℕ) :
    ringSlice size cells i (m + n) =
      ringSlice size cells i m ++ ringSlice size cells (if m = 0 then i else (i + m) % size) n := by
  induction m generalizing i with
  | zero => simp [ringSlice]
  | succ m ih =>
    rw [Nat.add_right_comm, ringSlice, ih, ringSlice, List.cons_append]
    have hindex : (if m = 0 then (i + 1) % size else ((i + 1) % size + m) % size) =
        if m + 1 = 0 then i else (i + (m + 1)) % size := by
      by_cases hm : m = 0
      · simp [hm]
      · rw [if_neg hm, if_neg (by omega), Nat.mod_add_mod, Nat.add_assoc, Nat.add_comm 1 m]
    rw [hindex]

/-- Two slices are equal when their cells are. -/
theorem ringSlice_eq_iff {size : ℕ} {cells cells' : ℕ → A} {i n : ℕ} (hi : i < size) :
    ringSlice size cells i n = ringSlice size cells' i n ↔
      ∀ k < n, cells ((i + k) % size) = cells' ((i + k) % size) := by
  induction n generalizing i with
  | zero => simp [ringSlice]
  | succ n ih =>
    have hnext (k : ℕ) : ((i + 1) % size + k) % size = (i + (k + 1)) % size := by
      rw [Nat.mod_add_mod, Nat.add_assoc, Nat.add_comm 1 k]
    rw [ringSlice, ringSlice, List.cons.injEq, ih (Nat.mod_lt _ (Nat.zero_lt_of_lt hi))]
    simp only [hnext]
    constructor
    · rintro ⟨hhead, htail⟩ k hk
      cases k with
      | zero => simpa [Nat.mod_eq_of_lt hi] using hhead
      | succ k => exact htail k (Nat.lt_of_succ_lt_succ hk)
    · intro hall
      have hhead := hall 0 (Nat.zero_lt_succ n)
      rw [Nat.add_zero, Nat.mod_eq_of_lt hi] at hhead
      exact ⟨hhead, fun k hk => hall (k + 1) (Nat.succ_lt_succ hk)⟩

/-- The front of a slice is a slice. -/
theorem ringSlice_take {size : ℕ} (cells : ℕ → A) (i k n : ℕ) (hk : k ≤ n) :
    (ringSlice size cells i n).take k = ringSlice size cells i k := by
  obtain ⟨m, rfl⟩ := Nat.exists_eq_add_of_le hk
  rw [ringSlice_add, List.take_left' (ringSlice_length size cells i k)]

/-- Dropping from a slice moves its first index. -/
theorem ringSlice_drop {size : ℕ} (cells : ℕ → A) {i : ℕ} (hi : i < size) (k n : ℕ) (hk : k ≤ n) :
    (ringSlice size cells i n).drop k = ringSlice size cells ((i + k) % size) (n - k) := by
  obtain ⟨m, rfl⟩ := Nat.exists_eq_add_of_le hk
  have hindex : (if k = 0 then i else (i + k) % size) = (i + k) % size := by
    by_cases h : k = 0
    · rw [if_pos h, h, Nat.add_zero, Nat.mod_eq_of_lt hi]
    · rw [if_neg h]
  rw [ringSlice_add, List.drop_left' (ringSlice_length size cells i k), Nat.add_sub_cancel_left,
    hindex]

/-- Writing a cell outside a slice does not change it. -/
theorem ringSlice_update_of_ne {size : ℕ} (cells : ℕ → A) (w : ℕ) (a : A) (i n : ℕ) (hi : i < size)
    (h : ∀ k < n, (i + k) % size ≠ w) :
    ringSlice size (Function.update cells w a) i n = ringSlice size cells i n := by
  induction n generalizing i with
  | zero => rfl
  | succ n ih =>
    have hhead : i ≠ w := by
      have := h 0 (by omega)
      rwa [Nat.add_zero, Nat.mod_eq_of_lt hi] at this
    rw [ringSlice, ringSlice, Function.update_of_ne hhead,
      ih _ (Nat.mod_lt _ (by omega)) fun k hk => ?_]
    rw [Nat.mod_add_mod, Nat.add_assoc, Nat.add_comm 1 k]
    exact h (k + 1) (by omega)

/-- There are fewer cells in use than the ring has. -/
theorem ringUsed_lt {size : ℕ} (r w : ℕ) (h : 0 < size) : ringUsed size r w < size :=
  Nat.mod_lt _ h

/-- The used cells lead from the read index to the write index. -/
theorem add_ringUsed {size r w : ℕ} (hr : r < size) (hw : w < size) :
    (r + ringUsed size r w) % size = w := by
  rw [ringUsed, Nat.add_mod_mod, show r + (w + size - r) = w + size by omega, Nat.add_mod_right,
    Nat.mod_eq_of_lt hw]

/-- The number of used cells is the one that leads from the read index to the write index. -/
theorem ringUsed_eq {size r w n : ℕ} (hr : r < size) (hn : n < size) (h : (r + n) % size = w) :
    ringUsed size r w = n := by
  subst h
  rw [ringUsed, mod_wrap (by omega : r + n < 2 * size)]
  split <;> rw [mod_wrap (by omega)] <;> split <;> omega

/-- Nothing is in use exactly when the two indices are equal. -/
theorem ringUsed_eq_zero_iff {size r w : ℕ} (hr : r < size) (hw : w < size) :
    ringUsed size r w = 0 ↔ r = w := by
  rw [ringUsed, mod_wrap (by omega)]
  split <;> omega

/-- Moving the read index over `k` used cells leaves the rest in use. -/
theorem ringUsed_advance {size r w : ℕ} (hr : r < size) (hw : w < size) (k : ℕ)
    (hk : k ≤ ringUsed size r w) : ringUsed size ((r + k) % size) w = ringUsed size r w - k := by
  have hlt := ringUsed_lt r w (by omega : 0 < size)
  unfold ringUsed at hk hlt ⊢
  rw [mod_wrap (by omega : w + size - r < 2 * size)] at hk hlt ⊢
  rw [mod_wrap (by omega : r + k < 2 * size)]
  split at hk <;> split <;> rw [mod_wrap (by omega)] <;> split <;> omega

/-- Writing the cell at the write index appends to what is in use. -/
theorem ringSlice_push {size r w : ℕ} (hr : r < size) (hw : w < size) (cells : ℕ → A) (a : A) :
    ringSlice size (Function.update cells w a) r (ringUsed size r w + 1) =
      ringSlice size cells r (ringUsed size r w) ++ [a] := by
  have hend := add_ringUsed hr hw
  have hindex : (if ringUsed size r w = 0 then r else (r + ringUsed size r w) % size) = w := by
    by_cases h : ringUsed size r w = 0
    · rw [if_pos h]
      exact (ringUsed_eq_zero_iff hr hw).mp h
    · rw [if_neg h, hend]
  rw [ringSlice_add, hindex, ringSlice_update_of_ne cells w a r _ hr fun k hk => ?_]
  · simp [ringSlice]
  · intro heq
    have hlt := ringUsed_lt r w (by omega : 0 < size)
    rw [mod_wrap (by omega)] at hend heq
    split at hend <;> split at heq <;> omega

/-- One more cell is in use after a write, as long as that does not fill the ring. -/
theorem ringUsed_push {size r w : ℕ} (hr : r < size) (hw : w < size)
    (hroom : ringUsed size r w + 1 < size) :
    ringUsed size r ((w + 1) % size) = ringUsed size r w + 1 := by
  unfold ringUsed at hroom ⊢
  rw [mod_wrap (by omega : w + size - r < 2 * size)] at hroom ⊢
  rw [mod_wrap (by omega : w + 1 < 2 * size)]
  split at hroom <;> split <;> rw [mod_wrap (by omega)] <;> split <;> omega

end Plptools.Library
