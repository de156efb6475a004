import Plptools.Buffer.Refinement
import Plptools.Library.Block

/-!
# The growable array of buffer stores

`BufferArray` keeps its stores in the first `len` cells of a block. Copying an array onto itself
deletes the block before it is read, and joining two arrays copies the elements of the first one
to the place of the second one's.
-/

namespace Plptools

open Plptools.Library

/-- The three members of `BufferArray`. -/
structure BufferArray where
  len : ℕ
  lenAllocd : ℕ
  buff : Block BufferStore

namespace BufferArray

/-- The smallest number of stores that is allocated. -/
def ALLOC_MIN : ℕ := 5

/-- `new BufferStore[n]`. -/
def newStores (n : ℕ) : Block BufferStore := ⟨n, fun _ => BufferStore.new⟩

/-- As many stores as are asked for. -/
@[simp] theorem newStores_size (n : ℕ) : (newStores n).size = n := rfl

/-- Each of them is new. -/
@[simp] theorem newStores_cell (n i : ℕ) : (newStores n).cell i = BufferStore.new := rfl

/-- The default constructor. -/
def new : BufferArray := ⟨0, ALLOC_MIN, newStores ALLOC_MIN⟩

/-- The copy constructor, and assignment from another array. -/
def newCopy (a : BufferArray) : Option BufferArray := do
  let buff ← Block.copyInto BufferStore.assign a.buff 0 a.len 0 (newStores a.lenAllocd)
  some ⟨a.len, a.lenAllocd, buff⟩

/-- Assignment from the array itself. The block read is the new one, and a store assigned to
itself stays as it is. -/
def assignSelf (a : BufferArray) : Option BufferArray := do
  let buff ← Block.copyInto (fun store _ => store) (newStores a.lenAllocd) 0 a.len 0
    (newStores a.lenAllocd)
  some ⟨a.len, a.lenAllocd, buff⟩

/-- Takes the first element out. -/
def pop (a : BufferArray) : Option (BufferStore × BufferArray) :=
  if a.len > 0 then do
    let first ← a.buff.load 0
    let len := a.len - 1
    let buff ← Block.moveDown BufferStore.assign len 0 a.buff
    some (BufferStore.new.assign first, ⟨len, a.lenAllocd, buff⟩)
  else some (BufferStore.new, a)

/-- Adds a store behind the others. When the block grows, the old one is deleted before the
store is read, and an element of the array itself (`own`) with it. -/
def append (a : BufferArray) (b : BufferStore) (own : Bool) : Option BufferArray := do
  if a.len = a.lenAllocd then
    let lenAllocd := a.lenAllocd + ALLOC_MIN
    let nb ← Block.copyInto BufferStore.assign a.buff 0 a.len 0 (newStores lenAllocd)
    if own then none
    else
      let buff ← nb.store BufferStore.assign a.len b
      some ⟨a.len + 1, lenAllocd, buff⟩
  else
    let buff ← a.buff.store BufferStore.assign a.len b
    some ⟨a.len + 1, a.lenAllocd, buff⟩

/-- Puts a store in front of the others. The old block is deleted last. -/
def push (a : BufferArray) (b : BufferStore) : Option BufferArray := do
  let lenAllocd := if a.len = a.lenAllocd then a.lenAllocd + ALLOC_MIN else a.lenAllocd
  let nb ← Block.copyUp BufferStore.assign a.buff a.len (newStores lenAllocd)
  let buff ← nb.store BufferStore.assign 0 b
  some ⟨a.len + 1, lenAllocd, buff⟩

/-- Empties the array. -/
def clear (_ : BufferArray) : BufferArray := ⟨0, ALLOC_MIN, newStores ALLOC_MIN⟩

/-- `operator +=` for a store. -/
def addStore (a : BufferArray) (s : BufferStore) (own : Bool) : Option BufferArray :=
  a.append s own

/-- `operator +=` for an array: both loops write from `len` on. -/
def addArray (a b : BufferArray) : Option BufferArray := do
  let lenAllocd := a.lenAllocd + b.lenAllocd
  let nb ← Block.copyInto BufferStore.assign a.buff a.len a.len 0 (newStores lenAllocd)
  let buff ← Block.copyInto BufferStore.assign b.buff a.len b.len 0 nb
  some ⟨a.len + b.len, lenAllocd, buff⟩

/-- `operator +` for a store, which is no element of the copy. -/
def plusStore (a : BufferArray) (s : BufferStore) : Option BufferArray := do
  let res ← a.newCopy
  res.addStore s false

/-- `operator +` for an array. -/
def plusArray (a b : BufferArray) : Option BufferArray := do
  let res ← a.newCopy
  res.addArray b

/-! ## What an array is observed as -/

/-- The elements lie in the block, which has the recorded size, and every store of it has its
window in its own block. -/
structure Wf (a : BufferArray) : Prop where
  le : a.len ≤ a.lenAllocd
  size : a.buff.size = a.lenAllocd
  fits : ∀ i, (a.buff.cell i).Fits

/-- The array is observed as a list of byte strings. -/
structure Represents (a : BufferArray) (xs : List (List UInt8)) : Prop where
  length : a.len = xs.length
  elements : a.buff.Shows BufferStore.Represents xs

/-- Whatever it is assigned to, the store is observed as these bytes afterwards. -/
def Carries (b : BufferStore) (x : List UInt8) : Prop :=
  b.Fits ∧ b.getString b.getLen = x

/-- Every element is empty. -/
def AllEmpty (a : BufferArray) : Prop := ∀ i < a.len, (a.buff.cell i).getLen = 0

instance (a : BufferArray) : Decidable a.AllEmpty := inferInstanceAs (Decidable (∀ i < a.len, _))

section Operations

variable {a b c : BufferArray} {s : BufferStore} {x : List UInt8} {xs ys : List (List UInt8)}

/-- A store that is assigned reads the same. -/
theorem Carries.assign (h : Carries s x) {old : BufferStore} (hold : old.Fits) :
    (old.assign s).Represents x :=
  h.2 ▸ old.assign_represents s hold h.1

/-- An element carries the bytes it is observed as. -/
theorem Wf.carries (h : a.Wf) {i : ℕ} (hx : (a.buff.cell i).Represents x) :
    Carries (a.buff.cell i) x :=
  ⟨h.fits i, (a.buff.cell i).getString_getLen (h.fits i) hx⟩

/-- A new store is observed as empty and nothing else. -/
theorem new_represents_iff : BufferStore.new.Represents x ↔ x = [] := by
  constructor
  · exact fun h => List.eq_nil_of_length_eq_zero h.2.1.symm
  · rintro rfl
    exact BufferStore.new_represents

/-- The elements are all empty exactly when the strings are. -/
theorem Represents.allEmpty_iff (h : a.Represents xs) : a.AllEmpty ↔ ∀ x ∈ xs, x = [] := by
  have hlen : ∀ i x, xs[i]? = some x → ((a.buff.cell i).getLen = 0 ↔ x = []) := by
    intro i x hx
    rw [(h.elements i x hx).2.1, List.length_eq_zero_iff]
  constructor
  · intro hempty x hx
    obtain ⟨i, hi⟩ := List.mem_iff_getElem?.mp hx
    refine (hlen i x hi).mp (hempty i ?_)
    rw [h.length]
    exact (List.getElem?_eq_some_iff.mp hi).1
  · intro hempty i hi
    rw [h.length] at hi
    exact (hlen i _ (List.getElem?_eq_getElem hi)).mpr (hempty _ (List.getElem_mem hi))

/-- A new array is well formed. -/
theorem new_wf : new.Wf := ⟨Nat.zero_le _, rfl, fun _ => BufferStore.new_fits⟩

/-- A new array has no elements. -/
theorem represents_new : new.Represents [] := ⟨rfl, Block.shows_nil _ _⟩

/-- Copying the elements into new stores keeps what they are observed as. -/
theorem copyInto_new (h : a.Wf) (offset lenAllocd : ℕ) (hroom : offset + a.len ≤ lenAllocd) :
    ∃ nb, Block.copyInto BufferStore.assign a.buff offset a.len 0 (newStores lenAllocd) = some nb ∧
      nb.size = lenAllocd ∧ (∀ i, (nb.cell i).Fits) ∧
      (∀ i < offset, nb.cell i = BufferStore.new) ∧
      (∀ i x, i < a.len → (a.buff.cell i).Represents x → (nb.cell (offset + i)).Represents x) := by
  have hsource : 0 + a.len ≤ a.buff.size := by
    rw [h.size]
    exact (Nat.zero_add a.len).symm ▸ h.le
  obtain ⟨nb, hnb, hsize, hcopied, hkept⟩ := Block.copyInto_spec BufferStore.assign
    a.buff offset 0 (newStores lenAllocd) hsource (by simp only [newStores]; omega)
  refine ⟨nb, hnb, hsize, fun i => ?_, fun i hi => hkept i (.inl hi), fun i x hi hx => ?_⟩
  · by_cases hin : offset ≤ i ∧ i < offset + a.len
    · obtain ⟨j, rfl⟩ := Nat.exists_eq_add_of_le hin.1
      rw [hcopied j (Nat.zero_le j) (by omega)]
      exact BufferStore.assign_fits _ _ BufferStore.new_fits (h.fits j)
    · rw [hkept i (by omega)]
      exact BufferStore.new_fits
  · rw [hcopied i (Nat.zero_le i) (by omega)]
    exact (h.carries hx).assign BufferStore.new_fits

/-- A copied array is observed like the other one. -/
theorem newCopy_spec (h : a.Wf) :
    ∃ c, a.newCopy = some c ∧ c.Wf ∧ c.len = a.len ∧ c.lenAllocd = a.lenAllocd ∧
      ∀ xs, a.Represents xs → c.Represents xs := by
  obtain ⟨nb, hnb, hsize, hfits, -, hcopied⟩ :=
    copyInto_new h 0 a.lenAllocd (by rw [Nat.zero_add]; exact h.le)
  refine ⟨⟨a.len, a.lenAllocd, nb⟩, by simp [newCopy, hnb], ⟨h.le, hsize, hfits⟩, rfl, rfl,
    fun xs hxs => ⟨hxs.length, fun i x hx => ?_⟩⟩
  have hi : i < a.len := hxs.length ▸ (List.getElem?_eq_some_iff.mp hx).1
  have hshown := hcopied i x hi (hxs.elements i x hx)
  rwa [Nat.zero_add] at hshown

/-- An array assigned to itself keeps its length only. -/
theorem assignSelf_spec (h : a.Wf) :
    ∃ c, a.assignSelf = some c ∧ c.Wf ∧ ∀ xs, a.Represents xs → (c.Represents xs ↔ a.AllEmpty) := by
  have hroom : 0 + a.len ≤ (newStores a.lenAllocd).size := by
    rw [Nat.zero_add]
    exact h.le
  obtain ⟨nb, hnb, hsize, hcopied, hkept⟩ :=
    Block.copyInto_spec (fun store _ => store) (newStores a.lenAllocd) 0 0 (newStores a.lenAllocd)
      hroom (by simpa using hroom)
  have hnew : ∀ i, nb.cell i = BufferStore.new := by
    intro i
    by_cases hi : i < 0 + a.len
    · simpa using hcopied i (Nat.zero_le i) hi
    · exact hkept i (.inr (by omega))
  have hfits : ∀ i, (nb.cell i).Fits := fun i => hnew i ▸ BufferStore.new_fits
  refine ⟨⟨a.len, a.lenAllocd, nb⟩, by simp [assignSelf, hnb], ⟨h.le, hsize, hfits⟩,
    fun xs hxs => ?_⟩
  rw [hxs.allEmpty_iff]
  constructor
  · intro hc x hx
    obtain ⟨i, hi⟩ := List.mem_iff_getElem?.mp hx
    have hshown := hc.elements i x hi
    exact new_represents_iff.mp (hnew i ▸ hshown)
  · intro hempty
    refine ⟨hxs.length, fun i x hi => ?_⟩
    rw [hnew i, hempty x (List.mem_of_getElem? hi)]
    exact BufferStore.new_represents

/-- The first element is taken out, or an empty store when there is none. -/
theorem pop_spec (h : a.Wf) :
    ∃ ret c, a.pop = some (ret, c) ∧ c.Wf ∧
      ∀ xs, a.Represents xs → ret.Represents (xs.headD []) ∧ c.Represents xs.tail := by
  by_cases hlen : a.len > 0
  · have hroom : a.len ≤ a.buff.size := h.size.symm ▸ h.le
    have hload : a.buff.load 0 = some (a.buff.cell 0) := Block.load_of_lt (by omega)
    obtain ⟨nb, hnb, hsize, hmoved, hkept⟩ := Block.moveDown_spec BufferStore.assign
      (a.len - 1) 0 a.buff (by omega)
    refine ⟨BufferStore.new.assign (a.buff.cell 0), ⟨a.len - 1, a.lenAllocd, nb⟩,
      by simp [pop, hlen, hload, hnb], ⟨?_, hsize.trans h.size, fun i => ?_⟩, fun xs hxs => ?_⟩
    · have := h.le
      simp only
      omega
    · by_cases hi : i < 0 + (a.len - 1)
      · rw [hmoved i (Nat.zero_le i) hi]
        exact BufferStore.assign_fits _ _ (h.fits i) (h.fits (i + 1))
      · rw [hkept i (.inr (by omega))]
        exact h.fits i
    · cases xs with
      | nil => exact absurd hxs.length hlen.ne'
      | cons x xs =>
        have htail : a.len - 1 = xs.length := by
          rw [hxs.length, List.length_cons, Nat.add_sub_cancel]
        refine ⟨(h.carries (hxs.elements 0 x rfl)).assign BufferStore.new_fits,
          htail, fun i y hy => ?_⟩
        have hi : i < a.len - 1 := htail ▸ (List.getElem?_eq_some_iff.mp hy).1
        rw [hmoved i (Nat.zero_le i) (by omega)]
        exact (h.carries (hxs.elements (i + 1) y hy)).assign (h.fits i)
  · refine ⟨BufferStore.new, a, by simp [pop, hlen], h, fun xs hxs => ?_⟩
    obtain rfl : xs = [] := List.eq_nil_of_length_eq_zero (hxs.length ▸ by omega)
    exact ⟨BufferStore.new_represents, hxs⟩

/-- The cell behind the elements is assigned the appended store. -/
theorem storeLast {nb : Block BufferStore} {len lenAllocd : ℕ} (hsize : nb.size = lenAllocd)
    (hroom : len < lenAllocd) (hfits : ∀ i, (nb.cell i).Fits) (hs : s.Fits) :
    ∃ buff, nb.store BufferStore.assign len s = some buff ∧ Wf ⟨len + 1, lenAllocd, buff⟩ ∧
      ∀ xs x, len = xs.length → nb.Shows BufferStore.Represents xs → Carries s x →
        Represents ⟨len + 1, lenAllocd, buff⟩ (xs ++ [x]) := by
  refine ⟨nb.set BufferStore.assign len s, Block.store_of_lt (hsize ▸ hroom),
    ⟨hroom, hsize, fun i => ?_⟩, fun xs x hlen hxs hx => ⟨by simp [hlen], ?_⟩⟩
  · by_cases hi : i = len
    · simp only [hi, Block.set_cell_self]
      exact BufferStore.assign_fits _ _ (hfits len) hs
    · simp only [Block.set_cell_of_ne hi, hfits i]
  · refine Block.shows_append.mpr ⟨hxs.congr fun i hi => Block.set_cell_of_ne (by omega), ?_⟩
    intro i y hy
    obtain ⟨rfl, rfl⟩ : i = 0 ∧ x = y := by
      cases i with
      | zero => simpa using hy
      | succ i => simp at hy
    simp only [Nat.add_zero, ← hlen, Block.set_cell_self]
    exact hx.assign (hfits len)

/-- An appended store is the last element, unless the block it lies in was deleted first. -/
theorem append_spec (h : a.Wf) (hs : s.Fits) {own : Bool}
    (hown : ¬ (own = true ∧ a.len = a.lenAllocd)) :
    ∃ c, a.append s own = some c ∧ c.Wf ∧
      ∀ xs x, a.Represents xs → Carries s x → c.Represents (xs ++ [x]) := by
  by_cases hfull : a.len = a.lenAllocd
  · have hother : own = false := by simpa [hfull] using hown
    obtain ⟨nb, hnb, hsize, hfits, -, hcopied⟩ := copyInto_new h 0 (a.lenAllocd + ALLOC_MIN)
      (by have := h.le; omega)
    have hroom : a.len < a.lenAllocd + ALLOC_MIN := by
      simp only [ALLOC_MIN]
      omega
    obtain ⟨buff, hbuff, hwf, hlast⟩ := storeLast hsize hroom hfits hs
    refine ⟨_, by simp [append, if_pos hfull, hother, hnb, hbuff], hwf, fun xs x hxs hx => ?_⟩
    refine hlast xs x hxs.length (fun i y hy => ?_) hx
    have hi : i < a.len := hxs.length ▸ (List.getElem?_eq_some_iff.mp hy).1
    have hshown := hcopied i y hi (hxs.elements i y hy)
    rwa [Nat.zero_add] at hshown
  · obtain ⟨buff, hbuff, hwf, hlast⟩ := storeLast h.size (lt_of_le_of_ne h.le hfull) h.fits hs
    refine ⟨_, by simp [append, hfull, hbuff], hwf, fun xs x hxs hx => ?_⟩
    exact hlast xs x hxs.length hxs.elements hx

/-- An element of a full array cannot be appended to it. -/
theorem append_own_full (hfull : a.len = a.lenAllocd) : a.append s true = none := by
  simp only [append, hfull, if_true]
  cases Block.copyInto BufferStore.assign a.buff 0 a.lenAllocd 0
    (newStores (a.lenAllocd + ALLOC_MIN)) <;> rfl

/-- A pushed store is the first element. -/
theorem push_spec (h : a.Wf) (hs : s.Fits) :
    ∃ c, a.push s = some c ∧ c.Wf ∧
      ∀ xs x, a.Represents xs → Carries s x → c.Represents (x :: xs) := by
  generalize halloc : (if a.len = a.lenAllocd then a.lenAllocd + ALLOC_MIN else a.lenAllocd) =
    lenAllocd
  have hroom : a.len < lenAllocd := by
    have := h.le
    simp only [ALLOC_MIN] at halloc
    split at halloc <;> omega
  obtain ⟨nb, hnb, hsize, hcopied, hkept⟩ := Block.copyUp_spec BufferStore.assign a.buff
    (newStores lenAllocd) (h.size.symm ▸ h.le) hroom
  have hstore : nb.store BufferStore.assign 0 s = some (nb.set BufferStore.assign 0 s) :=
    Block.store_of_lt (by rw [hsize, newStores_size]; omega)
  refine ⟨⟨a.len + 1, lenAllocd, nb.set BufferStore.assign 0 s⟩,
    by simp [push, halloc, hnb, hstore], ⟨hroom, hsize, fun i => ?_⟩, fun xs x hxs hx => ?_⟩
  · cases i with
    | zero =>
      simp only [Block.set_cell_self, hkept 0 (.inl rfl)]
      exact BufferStore.assign_fits _ _ BufferStore.new_fits hs
    | succ i =>
      simp only [Block.set_cell_of_ne (Nat.succ_ne_zero i)]
      by_cases hi : i < a.len
      · rw [hcopied i hi]
        exact BufferStore.assign_fits _ _ BufferStore.new_fits (h.fits i)
      · rw [hkept (i + 1) (.inr (by omega))]
        exact BufferStore.new_fits
  · refine ⟨by simp [hxs.length], fun i y hy => ?_⟩
    cases i with
    | zero =>
      obtain rfl : x = y := by simpa using hy
      simp only [Block.set_cell_self, hkept 0 (.inl rfl)]
      exact hx.assign BufferStore.new_fits
    | succ i =>
      have hy : xs[i]? = some y := hy
      have hi : i < a.len := hxs.length ▸ (List.getElem?_eq_some_iff.mp hy).1
      simp only [Block.set_cell_of_ne (Nat.succ_ne_zero i), hcopied i hi]
      exact (h.carries (hxs.elements i y hy)).assign BufferStore.new_fits

/-- Joining two arrays keeps both within the new block and the strings of the first one exactly
when the first one's elements fit behind themselves and are empty. -/
def Joins (a b : BufferArray) : Prop := a.AllEmpty ∧ a.len + a.len ≤ a.lenAllocd + b.lenAllocd

instance (a b : BufferArray) : Decidable (a.Joins b) := inferInstanceAs (Decidable (_ ∧ _))

/-- The first loop of the join leaves the block. -/
theorem addArray_eq_none (h : a.lenAllocd + b.lenAllocd < a.len + a.len) (ha : a.Wf) :
    a.addArray b = none := by
  have hpos : 0 < a.len := by
    have := ha.le
    omega
  have hnone : Block.copyInto BufferStore.assign a.buff a.len a.len 0
      (newStores (a.lenAllocd + b.lenAllocd)) = none :=
    Block.copyInto_eq_none _ hpos (by simpa [newStores] using h)
  simp [addArray, hnone]

/-- A join inside the block holds as many empty stores as the first array has elements, and then
the elements of the second one. -/
theorem addArray_spec (ha : a.Wf) (hb : b.Wf) (hroom : a.len + a.len ≤ a.lenAllocd + b.lenAllocd) :
    ∃ c, a.addArray b = some c ∧ c.Wf ∧
      ∀ xs ys, a.Represents xs → b.Represents ys → (c.Represents (xs ++ ys) ↔ a.AllEmpty) := by
  obtain ⟨nb, hnb, hsize, hfits, hnew, -⟩ := copyInto_new ha a.len (a.lenAllocd + b.lenAllocd) hroom
  have hsource : 0 + b.len ≤ b.buff.size := by
    rw [hb.size, Nat.zero_add]
    exact hb.le
  obtain ⟨buff, hbuff, hbuffSize, hcopied, hkept⟩ := Block.copyInto_spec
    BufferStore.assign b.buff a.len 0 nb hsource (by have := ha.le; have := hb.le; omega)
  refine ⟨⟨a.len + b.len, a.lenAllocd + b.lenAllocd, buff⟩, by simp [addArray, hnb, hbuff],
    ⟨Nat.add_le_add ha.le hb.le, hbuffSize.trans hsize, fun i => ?_⟩, fun xs ys hxs hys => ?_⟩
  · by_cases hin : a.len ≤ i ∧ i < a.len + b.len
    · obtain ⟨j, rfl⟩ := Nat.exists_eq_add_of_le hin.1
      simp only [hcopied j (Nat.zero_le j) (by omega)]
      exact BufferStore.assign_fits _ _ (hfits _) (hb.fits j)
    · simp only [hkept i (by omega)]
      exact hfits i
  · have hfirst : ∀ i < a.len, buff.cell i = BufferStore.new :=
      fun i hi => (hkept i (.inl (by omega))).trans (hnew i hi)
    have hsecond : ∀ i y, ys[i]? = some y → (buff.cell (xs.length + i)).Represents y := by
      intro i y hy
      have hi : i < b.len := hys.length ▸ (List.getElem?_eq_some_iff.mp hy).1
      rw [← hxs.length, hcopied i (Nat.zero_le i) (by omega)]
      exact (hb.carries (hys.elements i y hy)).assign (hfits _)
    rw [hxs.allEmpty_iff]
    constructor
    · intro hc x hx
      obtain ⟨i, hi⟩ := List.mem_iff_getElem?.mp hx
      have hlt : i < a.len := hxs.length ▸ (List.getElem?_eq_some_iff.mp hi).1
      have hshown := (Block.shows_append.mp hc.elements).1 i x hi
      exact new_represents_iff.mp (hfirst i hlt ▸ hshown)
    · intro hempty
      refine ⟨by simp [hxs.length, hys.length], Block.shows_append.mpr ⟨fun i x hi => ?_, hsecond⟩⟩
      have hlt : i < a.len := hxs.length ▸ (List.getElem?_eq_some_iff.mp hi).1
      simp only [hfirst i hlt, hempty x (List.mem_of_getElem? hi)]
      exact BufferStore.new_represents

/-- The sum of an array and a store ends with the store. -/
theorem plusStore_spec (h : a.Wf) (hs : s.Fits) :
    ∃ c, a.plusStore s = some c ∧ c.Wf ∧
      ∀ xs x, a.Represents xs → Carries s x → c.Represents (xs ++ [x]) := by
  obtain ⟨res, hres, hwf, -, -, hcopied⟩ := newCopy_spec h
  have hother : ¬ (false = true ∧ res.len = res.lenAllocd) := fun h => Bool.false_ne_true h.1
  obtain ⟨c, hc, hcwf, hlast⟩ := append_spec hwf hs hother
  exact ⟨c, by simp [plusStore, hres, addStore, hc], hcwf,
    fun xs x hxs hx => hlast xs x (hcopied xs hxs) hx⟩

/-- The sum of two arrays is a copy of the first one joined with the second one. -/
theorem plusArray_spec (ha : a.Wf) (hb : b.Wf)
    (hroom : a.len + a.len ≤ a.lenAllocd + b.lenAllocd) :
    ∃ c, a.plusArray b = some c ∧ c.Wf ∧
      ∀ xs ys, a.Represents xs → b.Represents ys → (c.Represents (xs ++ ys) ↔ a.AllEmpty) := by
  obtain ⟨res, hres, hwf, hlen, halloc, hcopied⟩ := newCopy_spec ha
  obtain ⟨c, hc, hcwf, hjoined⟩ := addArray_spec hwf hb (by rw [hlen, halloc]; exact hroom)
  refine ⟨c, by simp [plusArray, hres, hc], hcwf, fun xs ys hxs hys => ?_⟩
  rw [hjoined xs ys (hcopied xs hxs) hys, (hcopied xs hxs).allEmpty_iff, hxs.allEmpty_iff]

/-- The sum of two arrays leaves the block where the join of the copy does. -/
theorem plusArray_eq_none (h : a.lenAllocd + b.lenAllocd < a.len + a.len) (ha : a.Wf) :
    a.plusArray b = none := by
  obtain ⟨res, hres, hwf, hlen, halloc, -⟩ := newCopy_spec ha
  have hnone : res.addArray b = none := addArray_eq_none (by rw [hlen, halloc]; exact h) hwf
  simp [plusArray, hres, hnone]

end Operations

end BufferArray

end Plptools
