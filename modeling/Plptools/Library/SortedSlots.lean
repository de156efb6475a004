import Mathlib.Data.Finset.Card
import Mathlib.Data.Finset.Range
import Mathlib.Data.Finset.Image
import Mathlib.Order.Basic

/-!
# A set kept in the first slots of an array

The first slots of an array are in strictly descending order and hold the elements of a set. An
element is inserted at its place by moving the slots behind it up by one, and removed by moving
them down by one; what the slots behind the last one hold does not matter.
-/

namespace Plptools.Library

variable {A : Type*} [LinearOrder A]

/-- The first `count` slots hold the elements of `s` in strictly descending order. -/
structure HoldsSet (slots : ℕ → A) (count : ℕ) (s : Finset A) : Prop where
  descending : ∀ i j, i < j → j < count → slots j < slots i
  mem : ∀ a, a ∈ s ↔ ∃ i < count, slots i = a

namespace HoldsSet

variable {slots slots' : ℕ → A} {count pos : ℕ} {s : Finset A} {a : A}

/-- No slot holds an element of the empty set. -/
theorem empty (slots : ℕ → A) : HoldsSet slots 0 ∅ :=
  ⟨fun _ _ _ hj => by omega, fun _ => by simp⟩

/-- Different slots hold different elements. -/
theorem injOn (h : HoldsSet slots count s) {i j : ℕ} (hi : i < count) (hj : j < count)
    (heq : slots i = slots j) : i = j := by
  rcases lt_trichotomy i j with hlt | rfl | hlt
  · exact absurd heq (h.descending i j hlt hj).ne'
  · rfl
  · exact absurd heq (h.descending j i hlt hi).ne

/-- There are as many slots in use as elements. -/
theorem card_eq (h : HoldsSet slots count s) : s.card = count := by
  have himage : s = (Finset.range count).image slots := by
    ext a
    simp [h.mem]
  rw [himage, Finset.card_image_of_injOn, Finset.card_range]
  intro i hi j hj heq
  exact h.injOn (by simpa using hi) (by simpa using hj) heq

/-- Whether the element at its place is the one looked for decides membership. -/
theorem mem_iff_at (h : HoldsSet slots count s) (hbefore : ∀ i < pos, a < slots i)
    (hbehind : ∀ i < count, pos ≤ i → slots i ≤ a) : a ∈ s ↔ pos < count ∧ slots pos = a := by
  rw [h.mem]
  constructor
  · rintro ⟨i, hi, rfl⟩
    have hle : pos ≤ i := by
      by_contra hlt
      exact (hbefore i (by omega)).false
    rcases Nat.eq_or_lt_of_le hle with rfl | hlt
    · exact ⟨hi, rfl⟩
    · have hup := hbehind pos (by omega) le_rfl
      exact absurd (h.descending pos i hlt hi) (not_lt.mpr hup)
  · rintro ⟨hlt, heq⟩
    exact ⟨pos, hlt, heq⟩

/-- The element goes between the larger and the smaller ones. -/
theorem insert (h : HoldsSet slots count s) (hpos : pos ≤ count) (hbefore : ∀ i < pos, a < slots i)
    (hbehind : ∀ i < count, pos ≤ i → slots i < a) (hkept : ∀ i < pos, slots' i = slots i)
    (hat : slots' pos = a) (hmoved : ∀ i, pos ≤ i → i < count → slots' (i + 1) = slots i) :
    HoldsSet slots' (count + 1) (insert a s) := by
  constructor
  · intro i j hij hj
    rcases lt_trichotomy j pos with hjpos | rfl | hjpos
    · rw [hkept j hjpos, hkept i (hij.trans hjpos)]
      exact h.descending i j hij (by omega)
    · rw [hat, hkept i hij]
      exact hbefore i hij
    · obtain ⟨j, rfl⟩ := Nat.exists_eq_succ_of_ne_zero (Nat.ne_of_gt (Nat.zero_lt_of_lt hjpos))
      rw [hmoved j (by omega) (by omega)]
      rcases lt_trichotomy i pos with hipos | rfl | hipos
      · rw [hkept i hipos]
        exact h.descending i j (by omega) (by omega)
      · rw [hat]
        exact hbehind j (by omega) (by omega)
      · obtain ⟨i, rfl⟩ := Nat.exists_eq_succ_of_ne_zero (Nat.ne_of_gt (Nat.zero_lt_of_lt hipos))
        rw [hmoved i (by omega) (by omega)]
        exact h.descending i j (by omega) (by omega)
  · intro b
    rw [Finset.mem_insert, h.mem]
    constructor
    · rintro (rfl | ⟨i, hi, rfl⟩)
      · exact ⟨pos, by omega, hat⟩
      · by_cases hipos : i < pos
        · exact ⟨i, by omega, hkept i hipos⟩
        · exact ⟨i + 1, by omega, hmoved i (by omega) hi⟩
    · rintro ⟨i, hi, rfl⟩
      rcases lt_trichotomy i pos with hipos | rfl | hipos
      · exact .inr ⟨i, by omega, (hkept i hipos).symm⟩
      · exact .inl hat
      · obtain ⟨i, rfl⟩ := Nat.exists_eq_succ_of_ne_zero (Nat.ne_of_gt (Nat.zero_lt_of_lt hipos))
        exact .inr ⟨i, by omega, (hmoved i (by omega) (by omega)).symm⟩

/-- The slots behind the removed element close the gap. -/
theorem erase (h : HoldsSet slots (count + 1) s) (hpos : pos ≤ count) (hkept : ∀ i < pos, slots' i = slots i)
    (hmoved : ∀ i, pos ≤ i → i < count → slots' i = slots (i + 1)) :
    HoldsSet slots' count (s.erase (slots pos)) := by
  constructor
  · intro i j hij hj
    by_cases hjpos : j < pos
    · rw [hkept j hjpos, hkept i (hij.trans hjpos)]
      exact h.descending i j hij (by omega)
    · rw [hmoved j (by omega) hj]
      by_cases hipos : i < pos
      · rw [hkept i hipos]
        exact h.descending i (j + 1) (by omega) (by omega)
      · rw [hmoved i (by omega) (by omega)]
        exact h.descending (i + 1) (j + 1) (by omega) (by omega)
  · intro b
    rw [Finset.mem_erase, h.mem]
    constructor
    · rintro ⟨hne, i, hi, rfl⟩
      rcases lt_trichotomy i pos with hipos | rfl | hipos
      · exact ⟨i, by omega, hkept i hipos⟩
      · exact absurd rfl hne
      · obtain ⟨i, rfl⟩ := Nat.exists_eq_succ_of_ne_zero (Nat.ne_of_gt (Nat.zero_lt_of_lt hipos))
        exact ⟨i, by omega, hmoved i (by omega) (by omega)⟩
    · rintro ⟨i, hi, rfl⟩
      by_cases hipos : i < pos
      · rw [hkept i hipos]
        exact ⟨fun heq => hipos.ne (h.injOn (by omega) (by omega) heq), i, by omega, rfl⟩
      · rw [hmoved i (by omega) hi]
        refine ⟨fun heq => ?_, i + 1, by omega, rfl⟩
        have := h.injOn (by omega) (by omega) heq
        omega

end HoldsSet

end Plptools.Library
