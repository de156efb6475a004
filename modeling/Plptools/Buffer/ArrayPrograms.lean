import Plptools.Buffer.Array
import Plptools.Library.Run

/-!
# Sequences of array operations

A program runs over a pool of named arrays, and beside it over lists of byte strings. The two
stay observably equal exactly as long as no join moves a byte of its first array, no array is
assigned to itself unless all it holds is empty, and no full array is given an element of its own.
-/

namespace Plptools

open Plptools.Library

/-- A store given to an operation: one of its own, or an element of an array of the pool. -/
inductive ArrayOperand where
  | store (b : {b : BufferStore // b.Fits})
  | element (w i : ℕ)

namespace ArrayOperand

/-- The store that the reference denotes. -/
def read (pool : ℕ → BufferArray) : ArrayOperand → Option BufferStore
  | store b => some b.1
  | element w i => (pool w).buff.load i

/-- The bytes that the operand stands for. -/
def content (lists : ℕ → List (List UInt8)) : ArrayOperand → List UInt8
  | store b => b.1.getString b.1.getLen
  | element w i => (lists w).getD i []

/-- A reference to an element denotes one. -/
def denotes (lists : ℕ → List (List UInt8)) : ArrayOperand → Bool
  | store _ => true
  | element w i => decide (i < (lists w).length)

/-- The operand is an element of the array `v`. -/
def isIn (v : ℕ) : ArrayOperand → Bool
  | store _ => false
  | element w _ => w == v

end ArrayOperand

/-- One operation on the pool; the first argument names the array that changes. -/
inductive ArrayOp where
  | new (v : ℕ)
  | newCopy (v w : ℕ)
  | assign (v w : ℕ)
  | append (v : ℕ) (b : ArrayOperand)
  | push (v : ℕ) (b : ArrayOperand)
  | pop (v : ℕ)
  | clear (v : ℕ)
  | plusStore (v w : ℕ) (s : ArrayOperand)
  | plusArray (v w u : ℕ)
  | addStore (v : ℕ) (s : ArrayOperand)
  | addArray (v w : ℕ)

namespace ArrayOp

/-- The array that an operation changes. -/
def target : ArrayOp → ℕ
  | new v | newCopy v _ | assign v _ | append v _ | push v _ | pop v | clear v | plusStore v _ _
  | plusArray v _ _ | addStore v _ | addArray v _ => v

/-- The elements that an operation is given exist. -/
def denotes (lists : ℕ → List (List UInt8)) : ArrayOp → Bool
  | append _ b | push _ b | plusStore _ _ b | addStore _ b => b.denotes lists
  | _ => true

/-- What the operation makes of its array; nothing where it leaves a block. -/
def onArray (pool : ℕ → BufferArray) : ArrayOp → Option BufferArray
  | new _ => some BufferArray.new
  | newCopy _ w => (pool w).newCopy
  | assign v w => if v = w then (pool v).assignSelf else (pool w).newCopy
  | append v b => do (pool v).append (← b.read pool) (b.isIn v)
  | push v b => do (pool v).push (← b.read pool)
  | pop v => (pool v).pop.map (·.2)
  | clear v => some (pool v).clear
  | plusStore _ w s => do (pool w).plusStore (← s.read pool)
  | plusArray _ w u => (pool w).plusArray (pool u)
  | addStore v s => do (pool v).addStore (← s.read pool) (s.isIn v)
  | addArray v w => (pool v).addArray (pool w)

/-- The corresponding list operation. -/
def onList (lists : ℕ → List (List UInt8)) : ArrayOp → List (List UInt8)
  | new _ => []
  | newCopy _ w => lists w
  | assign _ w => lists w
  | append v b => lists v ++ [b.content lists]
  | push v b => b.content lists :: lists v
  | pop v => (lists v).tail
  | clear _ => []
  | plusStore _ w s => lists w ++ [s.content lists]
  | plusArray _ w u => lists w ++ lists u
  | addStore v s => lists v ++ [s.content lists]
  | addArray v w => lists v ++ lists w

/-- What `pop` returns, beside the string it should be observed as. -/
def popped (pool : ℕ → BufferArray) (lists : ℕ → List (List UInt8)) :
    ArrayOp → List (BufferStore × List UInt8)
  | pop v => ((pool v).pop.map fun r => (r.1, (lists v).headD [])).toList
  | _ => []

/-- The operation does to the arrays what it does to the lists. A join needs a first array of
empty elements, with room for them behind themselves; an array assigned to itself needs empty
elements; and an element of a full array is not appended to it. -/
def KeepsList (pool : ℕ → BufferArray) : ArrayOp → Prop
  | assign v w => v = w → (pool v).AllEmpty
  | append v b | addStore v b => ¬ (b.isIn v = true ∧ (pool v).len = (pool v).lenAllocd)
  | plusArray _ w u => (pool w).Joins (pool u)
  | addArray v w => (pool v).Joins (pool w)
  | _ => True

end ArrayOp

/-- The arrays, the lists, and what was popped so far; no arrays after a block was left. -/
structure ArrayRun where
  pool : Option (ℕ → BufferArray)
  lists : ℕ → List (List UInt8)
  popped : List (BufferStore × List UInt8)

namespace ArrayRun

/-- Before the program every array is default-constructed and every list is empty. -/
def start : ArrayRun := ⟨some fun _ => BufferArray.new, fun _ => [], []⟩

/-- Perform one operation on the arrays and on the lists. One that refers to an element that does
not exist is not performed. -/
def step (r : ArrayRun) (op : ArrayOp) : ArrayRun :=
  if op.denotes r.lists then
    { pool := do
        let pool ← r.pool
        let a ← op.onArray pool
        some (Function.update pool op.target a)
      lists := Function.update r.lists op.target (op.onList r.lists)
      popped := r.popped ++ (r.pool.map fun pool => op.popped pool r.lists).getD [] }
  else r

/-- Every array is observed as its list, and every popped store as the string it should be. -/
def Observed (r : ArrayRun) : Prop :=
  ∃ pool, r.pool = some pool ∧ (∀ v, (pool v).Represents (r.lists v)) ∧
    ∀ p ∈ r.popped, p.1.Represents p.2

/-- Every array has its elements in its block. -/
def Wf (r : ArrayRun) : Prop := ∀ pool, r.pool = some pool → ∀ v, (pool v).Wf

/-- The operation, if it is performed, does to the arrays what it does to the lists. -/
def Keeps (r : ArrayRun) (op : ArrayOp) : Prop :=
  op.denotes r.lists = true → ∀ pool, r.pool = some pool → op.KeepsList pool

section Steps

variable {pool : ℕ → BufferArray} {lists : ℕ → List (List UInt8)} {s : BufferStore}
  {a : BufferArray}

/-- A store that is read has its window in its block. -/
theorem read_fits (hpool : ∀ v, (pool v).Wf) {b : ArrayOperand} (hread : b.read pool = some s) :
    s.Fits := by
  cases b with
  | store b =>
    obtain rfl : b.1 = s := by simpa [ArrayOperand.read] using hread
    exact b.2
  | element w i =>
    simp only [ArrayOperand.read, Block.load, Option.ite_none_right_eq_some, Option.some.injEq]
      at hread
    obtain ⟨-, rfl⟩ := hread
    exact (hpool w).fits i

/-- An operand that denotes a store is read as one that carries its bytes. -/
theorem read_carries (hpool : ∀ v, (pool v).Wf) (hlists : ∀ v, (pool v).Represents (lists v))
    {b : ArrayOperand} (hdenotes : b.denotes lists = true) :
    ∃ s, b.read pool = some s ∧ BufferArray.Carries s (b.content lists) := by
  cases b with
  | store b => exact ⟨b.1, rfl, b.2, rfl⟩
  | element w i =>
    have hi : i < (lists w).length := by simpa [ArrayOperand.denotes] using hdenotes
    have hroom : i < (pool w).buff.size := by
      rw [(hpool w).size]
      exact ((hlists w).length.symm ▸ hi).trans_le (hpool w).le
    have hx := (hlists w).elements i _ (List.getElem?_eq_getElem hi)
    refine ⟨(pool w).buff.cell i, Block.load_of_lt hroom, ?_⟩
    rw [ArrayOperand.content, List.getD_eq_getElem?_getD, List.getElem?_eq_getElem hi, Option.getD_some]
    exact (hpool w).carries hx

/-- A result that is known is the one that was found. -/
theorem wf_of_spec {result : Option BufferArray} {P : BufferArray → Prop}
    (hspec : ∃ c, result = some c ∧ c.Wf ∧ P c) (ha : result = some a) : a.Wf := by
  obtain ⟨c, hc, hwf, -⟩ := hspec
  exact Option.some.inj (hc.symm.trans ha) ▸ hwf

/-- Appending keeps the elements in the block. -/
theorem append_wf (hpool : ∀ v, (pool v).Wf) {v : ℕ} {b : ArrayOperand}
    (ha : (do (pool v).append (← b.read pool) (b.isIn v)) = some a) : a.Wf := by
  obtain ⟨s, hs, hresult⟩ := Option.bind_eq_some_iff.mp ha
  by_cases hown : b.isIn v = true ∧ (pool v).len = (pool v).lenAllocd
  · rw [hown.1, BufferArray.append_own_full hown.2] at hresult
    exact absurd hresult (by simp)
  · exact wf_of_spec (BufferArray.append_spec (hpool v) (read_fits hpool hs) hown) hresult

/-- Every operation keeps the elements of its array in the block. -/
theorem onArray_wf (hpool : ∀ v, (pool v).Wf) {op : ArrayOp} (ha : op.onArray pool = some a) :
    a.Wf := by
  cases op with
  | new v =>
    obtain rfl : BufferArray.new = a := by simpa [ArrayOp.onArray] using ha
    exact BufferArray.new_wf
  | newCopy v w => exact wf_of_spec (BufferArray.newCopy_spec (hpool w)) ha
  | assign v w =>
    rw [ArrayOp.onArray] at ha
    split at ha
    · exact wf_of_spec (BufferArray.assignSelf_spec (hpool v)) ha
    · exact wf_of_spec (BufferArray.newCopy_spec (hpool w)) ha
  | append v b => exact append_wf hpool ha
  | push v b =>
    obtain ⟨s, hs, hresult⟩ := Option.bind_eq_some_iff.mp ha
    exact wf_of_spec (BufferArray.push_spec (hpool v) (read_fits hpool hs)) hresult
  | pop v =>
    obtain ⟨ret, c, hc, hwf, -⟩ := BufferArray.pop_spec (hpool v)
    obtain rfl : c = a := by simpa [ArrayOp.onArray, hc] using ha
    exact hwf
  | clear v =>
    obtain rfl : (pool v).clear = a := by simpa [ArrayOp.onArray] using ha
    exact BufferArray.new_wf
  | plusStore v w s =>
    obtain ⟨store, hs, hresult⟩ := Option.bind_eq_some_iff.mp ha
    exact wf_of_spec (BufferArray.plusStore_spec (hpool w) (read_fits hpool hs)) hresult
  | plusArray v w u =>
    by_cases hroom : (pool w).len + (pool w).len ≤ (pool w).lenAllocd + (pool u).lenAllocd
    · exact wf_of_spec (BufferArray.plusArray_spec (hpool w) (hpool u) hroom) ha
    · rw [ArrayOp.onArray, BufferArray.plusArray_eq_none (not_le.mp hroom) (hpool w)] at ha
      exact absurd ha (by simp)
  | addStore v s => exact append_wf hpool ha
  | addArray v w =>
    by_cases hroom : (pool v).len + (pool v).len ≤ (pool v).lenAllocd + (pool w).lenAllocd
    · exact wf_of_spec (BufferArray.addArray_spec (hpool v) (hpool w) hroom) ha
    · rw [ArrayOp.onArray, BufferArray.addArray_eq_none (not_le.mp hroom) (hpool v)] at ha
      exact absurd ha (by simp)

/-- A result is observed as the list exactly when what was found about it says so. -/
theorem represents_iff_of_spec {result : Option BufferArray} {P : BufferArray → Prop} {Q : Prop}
    {xs : List (List UInt8)} (hspec : ∃ c, result = some c ∧ c.Wf ∧ P c)
    (hiff : ∀ c, P c → (c.Represents xs ↔ Q)) :
    (∃ a, result = some a ∧ a.Represents xs) ↔ Q := by
  obtain ⟨c, rfl, -, hc⟩ := hspec
  simp only [Option.some.injEq, exists_eq_left', hiff c hc]

/-- Appending is observed as appending unless the array is full and the operand its own. -/
theorem append_represents_iff (hpool : ∀ v, (pool v).Wf)
    (hlists : ∀ v, (pool v).Represents (lists v)) (v : ℕ) {b : ArrayOperand}
    (hdenotes : b.denotes lists = true) :
    (∃ a, (do (pool v).append (← b.read pool) (b.isIn v)) = some a ∧
        a.Represents (lists v ++ [b.content lists])) ↔
      ¬ (b.isIn v = true ∧ (pool v).len = (pool v).lenAllocd) := by
  obtain ⟨s, hs, hcarries⟩ := read_carries hpool hlists hdenotes
  simp only [hs, Option.bind_eq_bind, Option.bind_some]
  by_cases hown : b.isIn v = true ∧ (pool v).len = (pool v).lenAllocd
  · simp [hown.1, hown.2, BufferArray.append_own_full hown.2]
  · exact represents_iff_of_spec (BufferArray.append_spec (hpool v) hcarries.1 hown)
      fun c hc => iff_of_true (hc _ _ (hlists v) hcarries) hown

/-- The changed array is observed as the changed list exactly when the operation keeps lists. -/
theorem onArray_represents_iff (hpool : ∀ v, (pool v).Wf)
    (hlists : ∀ v, (pool v).Represents (lists v)) {op : ArrayOp}
    (hdenotes : op.denotes lists = true) :
    (∃ a, op.onArray pool = some a ∧ a.Represents (op.onList lists)) ↔ op.KeepsList pool := by
  cases op with
  | new v => exact iff_of_true ⟨_, rfl, BufferArray.represents_new⟩ trivial
  | newCopy v w =>
    exact represents_iff_of_spec (BufferArray.newCopy_spec (hpool w))
      fun c hc => iff_of_true (hc.2.2 _ (hlists w)) trivial
  | assign v w =>
    rw [ArrayOp.onArray, ArrayOp.onList, ArrayOp.KeepsList]
    by_cases heq : v = w
    · subst heq
      simp only [if_true, true_implies]
      exact represents_iff_of_spec (BufferArray.assignSelf_spec (hpool v))
        fun c hc => hc _ (hlists v)
    · rw [if_neg heq]
      exact represents_iff_of_spec (BufferArray.newCopy_spec (hpool w))
        fun c hc => iff_of_true (hc.2.2 _ (hlists w)) (absurd · heq)
  | append v b => exact append_represents_iff hpool hlists v hdenotes
  | push v b =>
    obtain ⟨s, hs, hcarries⟩ := read_carries hpool hlists hdenotes
    simp only [ArrayOp.onArray, hs, Option.bind_eq_bind, Option.bind_some]
    exact represents_iff_of_spec (BufferArray.push_spec (hpool v) hcarries.1)
      fun c hc => iff_of_true (hc _ _ (hlists v) hcarries) trivial
  | pop v =>
    obtain ⟨ret, c, hc, -, hpopped⟩ := BufferArray.pop_spec (hpool v)
    exact iff_of_true ⟨c, by simp [ArrayOp.onArray, hc], (hpopped _ (hlists v)).2⟩ trivial
  | clear v => exact iff_of_true ⟨_, rfl, BufferArray.represents_new⟩ trivial
  | plusStore v w b =>
    obtain ⟨s, hs, hcarries⟩ := read_carries hpool hlists hdenotes
    simp only [ArrayOp.onArray, hs, Option.bind_eq_bind, Option.bind_some]
    exact represents_iff_of_spec (BufferArray.plusStore_spec (hpool w) hcarries.1)
      fun c hc => iff_of_true (hc _ _ (hlists w) hcarries) trivial
  | plusArray v w u =>
    by_cases hroom : (pool w).len + (pool w).len ≤ (pool w).lenAllocd + (pool u).lenAllocd
    · have hkeeps : ArrayOp.KeepsList pool (.plusArray v w u) ↔ (pool w).AllEmpty :=
        and_iff_left hroom
      rw [hkeeps]
      exact represents_iff_of_spec (BufferArray.plusArray_spec (hpool w) (hpool u) hroom)
        fun c hc => hc _ _ (hlists w) (hlists u)
    · have hnone := BufferArray.plusArray_eq_none (not_le.mp hroom) (hpool w)
      exact iff_of_false (by simp [ArrayOp.onArray, hnone]) fun hjoins => hroom hjoins.2
  | addStore v b => exact append_represents_iff hpool hlists v hdenotes
  | addArray v w =>
    by_cases hroom : (pool v).len + (pool v).len ≤ (pool v).lenAllocd + (pool w).lenAllocd
    · have hkeeps : ArrayOp.KeepsList pool (.addArray v w) ↔ (pool v).AllEmpty :=
        and_iff_left hroom
      rw [hkeeps]
      exact represents_iff_of_spec (BufferArray.addArray_spec (hpool v) (hpool w) hroom)
        fun c hc => hc _ _ (hlists v) (hlists w)
    · have hnone := BufferArray.addArray_eq_none (not_le.mp hroom) (hpool v)
      exact iff_of_false (by simp [ArrayOp.onArray, hnone]) fun hjoins => hroom hjoins.2

/-- What is popped is observed as the first string of the list. -/
theorem popped_represents (hpool : ∀ v, (pool v).Wf)
    (hlists : ∀ v, (pool v).Represents (lists v)) (op : ArrayOp) :
    ∀ p ∈ op.popped pool lists, p.1.Represents p.2 := by
  cases op with
  | pop v =>
    obtain ⟨ret, c, hc, -, hpopped⟩ := BufferArray.pop_spec (hpool v)
    simpa [ArrayOp.popped, hc] using (hpopped _ (hlists v)).1
  | _ => simp [ArrayOp.popped]

end Steps

/-- A step keeps the elements of every array in its block. -/
theorem step_wf (r : ArrayRun) (hr : r.Wf) (op : ArrayOp) : (r.step op).Wf := by
  by_cases hdenotes : op.denotes r.lists = true
  · intro next hnext v
    simp only [step, hdenotes, if_true] at hnext
    obtain ⟨pool, hpool, hbind⟩ := Option.bind_eq_some_iff.mp hnext
    obtain ⟨a, ha, hupdate⟩ := Option.bind_eq_some_iff.mp hbind
    obtain rfl : Function.update pool op.target a = next := Option.some.inj hupdate
    by_cases hv : v = op.target
    · subst hv
      rw [Function.update_self]
      exact onArray_wf (hr pool hpool) ha
    · rw [Function.update_of_ne hv]
      exact hr pool hpool v
  · rwa [step, if_neg hdenotes]

/-- A step keeps arrays and lists equal exactly when its operation keeps lists. -/
theorem step_observed_iff (r : ArrayRun) (hr : r.Wf) (hobs : r.Observed) (op : ArrayOp) :
    (r.step op).Observed ↔ r.Keeps op := by
  obtain ⟨pool, hpool, hlists, hpopped⟩ := hobs
  by_cases hdenotes : op.denotes r.lists = true
  · have hkeeps : r.Keeps op ↔ op.KeepsList pool := by
      simp [Keeps, hdenotes, hpool]
    rw [hkeeps, ← onArray_represents_iff (hr pool hpool) hlists hdenotes]
    simp only [step, hdenotes, if_true, hpool]
    constructor
    · rintro ⟨next, hnext, hshown, -⟩
      obtain ⟨a, ha, hupdate⟩ := Option.bind_eq_some_iff.mp hnext
      obtain rfl : Function.update pool op.target a = next := Option.some.inj hupdate
      have htarget := hshown op.target
      simp only [Function.update_self] at htarget
      exact ⟨a, ha, htarget⟩
    · rintro ⟨a, ha, hshown⟩
      refine ⟨Function.update pool op.target a, by simp [ha], fun v => ?_, ?_⟩
      · by_cases hv : v = op.target
        · subst hv
          simpa only [Function.update_self] using hshown
        · simpa only [Function.update_of_ne hv] using hlists v
      · simp only [Option.map_some, Option.getD_some, List.forall_mem_append]
        exact ⟨hpopped, popped_represents (hr pool hpool) hlists op⟩
  · rw [step, if_neg hdenotes]
    exact iff_of_true ⟨pool, hpool, hlists, hpopped⟩ fun h => absurd h hdenotes

/-- Every array has its elements in its block along every program. -/
theorem run_wf (ops : List ArrayOp) : (runFrom step start ops).Wf := by
  have hstart : start.Wf := by
    intro pool hpool v
    obtain rfl := Option.some.inj hpool
    exact BufferArray.new_wf
  exact runFrom_invariant step_wf hstart ops

/-- A store of one byte. -/
def oneByte (cc : UInt8) : ArrayOperand :=
  .store ⟨BufferStore.newFrom [cc], (BufferStore.newFrom_spec [cc]).1⟩

end ArrayRun

end Plptools
