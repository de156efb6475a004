import Mathlib.Logic.Function.Basic
import Mathlib.Data.Option.Basic
import Mathlib.Data.List.Basic

/-!
# Allocated arrays and the loops over them

A block has a number of cells; reading or writing behind them gives nothing. Writing a cell goes
through an assignment, which may use what the cell held before. The loops that copy one block
into another, or move the cells of one block up or down by one, stay inside their blocks when
the indices they start from do, and what they leave in each cell is stated once.
-/

namespace Plptools.Library

/-- An array of `size` cells. -/
structure Block (A : Type*) where
  size : ℕ
  cell : ℕ → A

namespace Block

variable {A B : Type*}

/-- The cell at an index, if there is one. -/
def load (b : Block A) (i : ℕ) : Option A :=
  if i < b.size then some (b.cell i) else none

/-- The block after assigning to one cell. -/
def set (assign : A → A → A) (b : Block A) (i : ℕ) (a : A) : Block A :=
  ⟨b.size, Function.update b.cell i (assign (b.cell i) a)⟩

/-- Assigns to the cell at an index, if there is one. -/
def store (assign : A → A → A) (b : Block A) (i : ℕ) (a : A) : Option (Block A) :=
  if i < b.size then some (b.set assign i a) else none

/-- The loop `for (; left > 0; left--, i++) into[offset + i] = source[i]`. -/
def copyInto (assign : A → A → A) (source : Block A) (offset : ℕ) :
    ℕ → ℕ → Block A → Option (Block A)
  | 0, _, into => some into
  | left + 1, i, into => do
    let a ← source.load i
    let next ← into.store assign (offset + i) a
    copyInto assign source offset left (i + 1) next

/-- The loop `for (; i > 0; i--) into[i] = source[i - 1]`. -/
def copyUp (assign : A → A → A) (source : Block A) : ℕ → Block A → Option (Block A)
  | 0, into => some into
  | i + 1, into => do
    let a ← source.load i
    let next ← into.store assign (i + 1) a
    copyUp assign source i next

/-- The loop `for (; i > pos; i--) b[i] = b[i - 1]`. -/
def moveUp (assign : A → A → A) (pos : ℕ) : ℕ → Block A → Option (Block A)
  | 0, b => some b
  | i + 1, b =>
    if pos < i + 1 then do
      let a ← b.load i
      let next ← b.store assign (i + 1) a
      moveUp assign pos i next
    else some b

/-- The loop `for (; left > 0; left--, i++) b[i] = b[i + 1]`. -/
def moveDown (assign : A → A → A) : ℕ → ℕ → Block A → Option (Block A)
  | 0, _, b => some b
  | left + 1, i, b => do
    let a ← b.load (i + 1)
    let next ← b.store assign i a
    moveDown assign left (i + 1) next

section Loops

variable {assign : A → A → A} {b source into : Block A} {i pos left count offset : ℕ} {a : A}

/-- A slot inside is read. -/
@[simp] theorem load_of_lt (h : i < b.size) : b.load i = some (b.cell i) := by
  simp [load, h]

/-- A slot inside is written. -/
@[simp] theorem store_of_lt (h : i < b.size) : b.store assign i a = some (b.set assign i a) := by
  simp [store, h]

/-- Writing does not change the size. -/
@[simp] theorem set_size : (b.set assign i a).size = b.size := rfl

/-- What was written. -/
@[simp] theorem set_cell_self : (b.set assign i a).cell i = assign (b.cell i) a :=
  Function.update_self ..

/-- The other slots stay. -/
theorem set_cell_of_ne {j : ℕ} (h : j ≠ i) : (b.set assign i a).cell j = b.cell j :=
  Function.update_of_ne h ..

/-- The cells from the offset on are assigned the cells of the source. -/
theorem copyInto_spec (assign : A → A → A) (source : Block A) (offset i : ℕ) (into : Block A)
    (hsource : i + left ≤ source.size) (hinto : offset + i + left ≤ into.size) :
    ∃ c, copyInto assign source offset left i into = some c ∧ c.size = into.size ∧
      (∀ j, i ≤ j → j < i + left →
        c.cell (offset + j) = assign (into.cell (offset + j)) (source.cell j)) ∧
      ∀ j, j < offset + i ∨ offset + i + left ≤ j → c.cell j = into.cell j := by
  induction left generalizing i into with
  | zero => exact ⟨into, rfl, rfl, by omega, fun _ _ => rfl⟩
  | succ left ih =>
    have hload : source.load i = _ := load_of_lt (by omega)
    have hstore : into.store assign (offset + i) (source.cell i) = _ := store_of_lt (by omega)
    obtain ⟨c, hc, hsize, hcopied, hkept⟩ := ih (i + 1)
      (into.set assign (offset + i) (source.cell i)) (by omega) (by rw [set_size]; omega)
    refine ⟨c, by simp [copyInto, hload, hstore, hc], hsize, fun j hij hj => ?_, fun j hj => ?_⟩
    · rcases Nat.eq_or_lt_of_le hij with rfl | hlt
      · rw [hkept (offset + i) (.inl (by omega)), set_cell_self]
      · rw [hcopied j hlt (by omega)]
        rw [set_cell_of_ne (by omega)]
    · rw [hkept j (by omega)]
      exact set_cell_of_ne (by omega)

/-- Copying leaves the block when there are too few cells behind the offset. -/
theorem copyInto_eq_none (into : Block A) (hleft : 0 < left)
    (hinto : into.size < offset + i + left) : copyInto assign source offset left i into = none := by
  induction left generalizing i into with
  | zero => omega
  | succ left ih =>
    by_cases hi : offset + i < into.size
    · have hnext : copyInto assign source offset left (i + 1)
          (into.set assign (offset + i) (source.cell i)) = none :=
        ih _ (by omega) (by rw [set_size]; omega)
      by_cases hload : i < source.size
      · simp [copyInto, load, hload, store, hi, hnext]
      · simp [copyInto, load, hload]
    · simp [copyInto, store, hi]

/-- The cells above the first are assigned the cells of the source below them. -/
theorem copyUp_spec (assign : A → A → A) (source into : Block A) (hsource : count ≤ source.size)
    (hinto : count < into.size) :
    ∃ c, copyUp assign source count into = some c ∧ c.size = into.size ∧
      (∀ j < count, c.cell (j + 1) = assign (into.cell (j + 1)) (source.cell j)) ∧
      ∀ j, j = 0 ∨ count < j → c.cell j = into.cell j := by
  induction count generalizing into with
  | zero => exact ⟨into, rfl, rfl, by omega, fun _ _ => rfl⟩
  | succ i ih =>
    have hload : source.load i = _ := load_of_lt (by omega)
    have hstore : into.store assign (i + 1) (source.cell i) = _ := store_of_lt hinto
    obtain ⟨c, hc, hsize, hcopied, hkept⟩ := ih
      (into.set assign (i + 1) (source.cell i)) (by omega) (by rw [set_size]; omega)
    refine ⟨c, by simp [copyUp, hload, hstore, hc], hsize, fun j hj => ?_, fun j hj => ?_⟩
    · rcases Nat.lt_succ_iff_lt_or_eq.mp hj with hlt | rfl
      · rw [hcopied j hlt]
        rw [set_cell_of_ne (by omega)]
      · rw [hkept (j + 1) (.inr (by omega)), set_cell_self]
    · rw [hkept j (by omega)]
      exact set_cell_of_ne (by omega)

/-- The cells from the place on are assigned to the cells above them. -/
theorem moveUp_spec (assign : A → A → A) (pos : ℕ) (b : Block A) (hcount : count < b.size) :
    ∃ c, moveUp assign pos count b = some c ∧ c.size = b.size ∧
      (∀ j, pos ≤ j → j < count → c.cell (j + 1) = assign (b.cell (j + 1)) (b.cell j)) ∧
      ∀ j, j ≤ pos ∨ count < j → c.cell j = b.cell j := by
  induction count generalizing b with
  | zero => exact ⟨b, rfl, rfl, by omega, fun _ _ => rfl⟩
  | succ i ih =>
    by_cases hpos : pos < i + 1
    · have hload : b.load i = _ := load_of_lt (by omega)
      have hstore : b.store assign (i + 1) (b.cell i) = _ := store_of_lt hcount
      obtain ⟨c, hc, hsize, hmoved, hkept⟩ := ih
        (b.set assign (i + 1) (b.cell i)) (by rw [set_size]; omega)
      refine ⟨c, by simp [moveUp, hpos, hload, hstore, hc], hsize, fun j hle hj => ?_,
        fun j hj => ?_⟩
      · rcases Nat.lt_succ_iff_lt_or_eq.mp hj with hlt | rfl
        · rw [hmoved j hle hlt]
          rw [set_cell_of_ne (by omega), set_cell_of_ne (by omega)]
        · rw [hkept (j + 1) (.inr (by omega)), set_cell_self]
      · rw [hkept j (by omega)]
        exact set_cell_of_ne (by omega)
    · exact ⟨b, by simp [moveUp, hpos], rfl, by omega, fun _ _ => rfl⟩

/-- The cells behind the place are assigned to the cells below them. -/
theorem moveDown_spec (assign : A → A → A) (left pos : ℕ) (b : Block A)
    (hcount : pos + left < b.size) :
    ∃ c, moveDown assign left pos b = some c ∧ c.size = b.size ∧
      (∀ j, pos ≤ j → j < pos + left → c.cell j = assign (b.cell j) (b.cell (j + 1))) ∧
      ∀ j, j < pos ∨ pos + left ≤ j → c.cell j = b.cell j := by
  induction left generalizing pos b with
  | zero => exact ⟨b, rfl, rfl, by omega, fun _ _ => rfl⟩
  | succ left ih =>
    have hload : b.load (pos + 1) = _ := load_of_lt (by omega)
    have hstore : b.store assign pos (b.cell (pos + 1)) = _ := store_of_lt (by omega)
    obtain ⟨c, hc, hsize, hmoved, hkept⟩ := ih (pos + 1)
      (b.set assign pos (b.cell (pos + 1))) (by rw [set_size]; omega)
    refine ⟨c, by simp [moveDown, hload, hstore, hc], hsize, fun j hle hj => ?_, fun j hj => ?_⟩
    · rcases Nat.eq_or_lt_of_le hle with rfl | hlt
      · rw [hkept pos (by omega), set_cell_self]
      · rw [hmoved j hlt (by omega)]
        rw [set_cell_of_ne (by omega), set_cell_of_ne (by omega)]
    · rw [hkept j (by omega)]
      exact set_cell_of_ne (by omega)

end Loops

/-! ## What the first cells hold -/

/-- The first cells hold the elements of a list, one by one, as a relation says. -/
def Shows (R : A → B → Prop) (b : Block A) (xs : List B) : Prop :=
  ∀ i x, xs[i]? = some x → R (b.cell i) x

/-- Every block shows nothing. -/
theorem shows_nil (R : A → B → Prop) (b : Block A) : b.Shows R [] := by
  simp [Shows]

/-- A list is shown in front of another one when its elements and the others' are. -/
theorem shows_append {R : A → B → Prop} {b : Block A} {xs ys : List B} :
    b.Shows R (xs ++ ys) ↔
      b.Shows R xs ∧ ∀ i y, ys[i]? = some y → R (b.cell (xs.length + i)) y := by
  constructor
  · intro h
    refine ⟨fun i x hx => h i x ?_, fun i y hy => h (xs.length + i) y ?_⟩
    · rw [List.getElem?_append_left (List.getElem?_eq_some_iff.mp hx).1]
      exact hx
    · rw [List.getElem?_append_right (by omega), Nat.add_sub_cancel_left]
      exact hy
  · rintro ⟨hxs, hys⟩ i x hx
    by_cases hi : i < xs.length
    · rw [List.getElem?_append_left hi] at hx
      exact hxs i x hx
    · rw [List.getElem?_append_right (by omega)] at hx
      have hshown := hys _ _ hx
      rwa [Nat.add_sub_cancel' (by omega)] at hshown

/-- Only the cells below the length of the list matter. -/
theorem Shows.congr {R : A → B → Prop} {b c : Block A} {xs : List B} (h : b.Shows R xs)
    (hsame : ∀ i < xs.length, c.cell i = b.cell i) : c.Shows R xs := by
  intro i x hx
  rw [hsame i (List.getElem?_eq_some_iff.mp hx).1]
  exact h i x hx

end Block

end Plptools.Library
