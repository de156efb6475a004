import Mathlib.Logic.Function.Iterate
import Mathlib.Data.List.Basic

/-!
# Computations that report errors or go wrong

A computation over a memory has a value, reports an error, or does what is not allowed, such as
reading outside the memory. A specification says which of the three it is, by a condition for going
on as is allowed and one for being accepted, and which value there is. Specifications compose: of one
computation after the other, of a test, of an error that is looked at, and of a loop that reads the
records of a table one behind the other.
-/

namespace Plptools.Library

/-- A value, a reported error, or something that is not allowed. -/
inductive Outcome (E A : Type)
  | ok (a : A)
  | error (e : E)
  | fault
deriving DecidableEq, Repr

namespace Outcome

variable {E A B : Type}

/-- One computation after the other. -/
def bind (x : Outcome E A) (f : A → Outcome E B) : Outcome E B :=
  match x with
  | ok a => f a
  | error e => error e
  | fault => fault

instance : Monad (Outcome E) where
  pure := ok
  bind := bind

/-- A value is handed on. -/
@[simp] theorem ok_bind (a : A) (f : A → Outcome E B) : (ok a >>= f : Outcome E B) = f a := rfl

/-- An error is handed on. -/
@[simp] theorem error_bind (e : E) (f : A → Outcome E B) : (error e >>= f : Outcome E B) = error e := rfl

/-- A fault is handed on. -/
@[simp] theorem fault_bind (f : A → Outcome E B) : (fault >>= f : Outcome E B) = fault := rfl

/-- A value is a success. -/
@[simp] theorem pure_eq (a : A) : (pure a : Outcome E A) = ok a := rfl

/-- An error is that of the first computation, or of the second. -/
theorem bind_eq_error_iff {x : Outcome E A} {f : A → Outcome E B} {e : E} :
    x >>= f = .error e ↔ x = .error e ∨ ∃ a, x = .ok a ∧ f a = .error e := by
  cases x with
  | ok a => simp
  | error e' => simp
  | fault => simp

/-- What is done about an error. -/
def rescue {E' : Type} (x : Outcome E A) (f : E → Outcome E' A) : Outcome E' A :=
  match x with
  | ok a => ok a
  | error e => f e
  | fault => fault

/-- The computation is allowed where `safe` holds, accepted where `valid` does, and `a` is its value. -/
structure Spec (x : Outcome E A) (safe valid : Prop) (a : A) : Prop where
  fault : ¬safe → x = .fault
  ok : safe → valid → x = .ok a
  error : safe → ¬valid → ∃ e, x = .error e

namespace Spec

variable {x : Outcome E A} {safe valid : Prop} {a : A}

/-- What is not allowed is not done exactly where the condition holds. -/
theorem ne_fault_iff (h : Spec x safe valid a) : x ≠ .fault ↔ safe := by
  constructor
  · intro hne
    by_contra hsafe
    exact hne (h.fault hsafe)
  · intro hsafe heq
    by_cases hvalid : valid
    · exact nomatch heq.symm.trans (h.ok hsafe hvalid)
    · obtain ⟨e, he⟩ := h.error hsafe hvalid
      exact nomatch heq.symm.trans he

/-- There is a value exactly where both conditions hold. -/
theorem eq_ok_iff (h : Spec x safe valid a) (b : A) : x = .ok b ↔ safe ∧ valid ∧ b = a := by
  constructor
  · intro heq
    have hsafe : safe := h.ne_fault_iff.mp fun hfault => nomatch heq.symm.trans hfault
    have hvalid : valid := by
      by_contra hvalid
      obtain ⟨e, he⟩ := h.error hsafe hvalid
      exact nomatch heq.symm.trans he
    exact ⟨hsafe, hvalid, Outcome.ok.inj (heq.symm.trans (h.ok hsafe hvalid))⟩
  · rintro ⟨hsafe, hvalid, rfl⟩
    exact h.ok hsafe hvalid

/-- A program that does nothing. -/
theorem value (a : A) : Spec (E := E) (.ok a) True True a where
  fault := fun h => absurd trivial h
  ok := fun _ _ => rfl
  error := fun _ h => absurd trivial h

/-- One computation after the other: the second is done where the first is accepted. -/
theorem bind (h : Spec x safe valid a) {f : A → Outcome E B} {safe' valid' : Prop} {b : B}
    (hf : Spec (f a) safe' valid' b) :
    Spec (x >>= f) (safe ∧ (valid → safe')) (valid ∧ valid') b where
  fault hnot := by
    by_cases hsafe : safe
    · have hvalid : valid := by
        by_contra hvalid
        exact hnot ⟨hsafe, fun h => absurd h hvalid⟩
      rw [h.ok hsafe hvalid, ok_bind]
      exact hf.fault fun hsafe' => hnot ⟨hsafe, fun _ => hsafe'⟩
    · rw [h.fault hsafe, fault_bind]
  ok := by
    rintro ⟨hsafe, hsafe'⟩ ⟨hvalid, hvalid'⟩
    rw [h.ok hsafe hvalid, ok_bind]
    exact hf.ok (hsafe' hvalid) hvalid'
  error := by
    rintro ⟨hsafe, hsafe'⟩ hnot
    by_cases hvalid : valid
    · rw [h.ok hsafe hvalid, ok_bind]
      exact hf.error (hsafe' hvalid) fun hvalid' => hnot ⟨hvalid, hvalid'⟩
    · obtain ⟨e, he⟩ := h.error hsafe hvalid
      exact ⟨e, by rw [he, error_bind]⟩

/-- A test that reports an error. -/
theorem ite (e : E) {c : Prop} [Decidable c] (h : ¬c → Spec x safe valid a) :
    Spec (if c then .error e else x) (¬c → safe) (¬c ∧ valid) a where
  fault hnot := by
    have hc : ¬c := fun hc => hnot fun hnc => absurd hc hnc
    rw [if_neg hc]
    exact (h hc).fault fun hsafe => hnot fun _ => hsafe
  ok := by
    rintro hsafe ⟨hc, hvalid⟩
    rw [if_neg hc]
    exact (h hc).ok (hsafe hc) hvalid
  error hsafe hnot := by
    by_cases hc : c
    · exact ⟨e, if_pos hc⟩
    · rw [if_neg hc]
      exact (h hc).error (hsafe hc) fun hvalid => hnot ⟨hc, hvalid⟩

/-- An error that is reported in other words, or is found to be not allowed. -/
theorem rescue (h : Spec x safe valid a) {E' : Type} {f : E → Outcome E' A} {kept : Prop}
    (hvalid : valid → kept) (hkept : ∀ e, x = .error e → kept → ∃ e', f e = .error e')
    (hlost : ∀ e, x = .error e → ¬kept → f e = .fault) : Spec (x.rescue f) (safe ∧ kept) valid a where
  fault hnot := by
    by_cases hsafe : safe
    · have hkept : ¬kept := fun hkept => hnot ⟨hsafe, hkept⟩
      obtain ⟨e, he⟩ := h.error hsafe (mt hvalid hkept)
      rw [he]
      exact hlost e he hkept
    · rw [h.fault hsafe]
      rfl
  ok := by
    intro hsafe hv
    rw [h.ok hsafe.1 hv]
    rfl
  error := by
    intro hsafe hv
    obtain ⟨e, he⟩ := h.error hsafe.1 hv
    rw [he]
    exact hkept e he hsafe.2

/-- The same conditions in other words. -/
theorem congr (h : Spec x safe valid a) {safe' valid' : Prop} {a' : A} (hsafe : safe ↔ safe')
    (hvalid : safe → (valid ↔ valid')) (ha : safe → valid → a = a') : Spec x safe' valid' a' where
  fault hnot := h.fault (mt hsafe.mp hnot)
  ok := by
    intro hs hv
    have hs := hsafe.mpr hs
    have hv := (hvalid hs).mpr hv
    rw [h.ok hs hv, ha hs hv]
  error := by
    intro hs hv
    have hs := hsafe.mpr hs
    exact h.error hs (mt (hvalid hs).mp hv)

end Spec

/-! ### Tables of records -/

section Table

variable {R S : Type}

/-- The loop over a table: before each record `full` is tested, where `e` is reported. -/
def table (full : S → Prop) [DecidablePred full] (e : E) (parse : S → Outcome E (R × S)) :
    ℕ → S → Outcome E (List R × S)
  | 0, s => .ok ([], s)
  | n + 1, s =>
    if full s then .error e
    else do
      let r ← parse s
      let rs ← table full e parse n r.2
      return (r.1 :: rs.1, rs.2)

/-- Every record that is come to may be read; all before it were accepted. -/
def TableSafe (full safe valid : S → Prop) (next : S → S) (n : ℕ) (s : S) : Prop :=
  ∀ i < n, (∀ j ≤ i, ¬full (next^[j] s)) → (∀ j < i, valid (next^[j] s)) → safe (next^[i] s)

/-- Every record is accepted. -/
def TableValid (full valid : S → Prop) (next : S → S) (n : ℕ) (s : S) : Prop :=
  ∀ i < n, ¬full (next^[i] s) ∧ valid (next^[i] s)

/-- The records of a table. -/
def tableRecords (record : S → R) (next : S → S) (n : ℕ) (s : S) : List R :=
  (List.range n).map fun i => record (next^[i] s)

/-- The first record of a table. -/
theorem tableRecords_succ (record : S → R) (next : S → S) (n : ℕ) (s : S) :
    tableRecords record next (n + 1) s = record s :: tableRecords record next n (next s) := by
  simp [tableRecords, List.range_succ_eq_map, Function.comp_def]

/-- A table is safe if its first record is, and where that is valid, the rest. -/
theorem tableSafe_succ (full safe valid : S → Prop) (next : S → S) (n : ℕ) (s : S) :
    TableSafe full safe valid next (n + 1) s ↔
      (¬full s → safe s ∧ (valid s → TableSafe full safe valid next n (next s))) := by
  constructor
  · intro h hfull
    constructor
    · apply h 0 (Nat.succ_pos n)
      · intro j hj
        rwa [Nat.le_zero.mp hj]
      · exact fun j hj => absurd hj (Nat.not_lt_zero j)
    · intro hvalid i hi hfulls hvalids
      apply h (i + 1) (Nat.succ_lt_succ hi)
      · intro j hj
        cases j with
        | zero => exact hfull
        | succ j => exact hfulls j (Nat.le_of_succ_le_succ hj)
      · intro j hj
        cases j with
        | zero => exact hvalid
        | succ j => exact hvalids j (Nat.lt_of_succ_lt_succ hj)
  · intro h i hi hfulls hvalids
    have hfirst := h (hfulls 0 (Nat.zero_le i))
    cases i with
    | zero => exact hfirst.1
    | succ i =>
      apply hfirst.2 (hvalids 0 (Nat.succ_pos i)) i (Nat.lt_of_succ_lt_succ hi)
      · exact fun j hj => hfulls (j + 1) (Nat.succ_le_succ hj)
      · exact fun j hj => hvalids (j + 1) (Nat.succ_lt_succ hj)

/-- A table is valid if its first record is, and the rest. -/
theorem tableValid_succ (full valid : S → Prop) (next : S → S) (n : ℕ) (s : S) :
    TableValid full valid next (n + 1) s ↔
      ¬full s ∧ valid s ∧ TableValid full valid next n (next s) := by
  constructor
  · intro h
    have hfirst := h 0 (Nat.succ_pos n)
    exact ⟨hfirst.1, hfirst.2, fun i hi => h (i + 1) (Nat.succ_lt_succ hi)⟩
  · rintro ⟨hfull, hvalid, h⟩ i hi
    cases i with
    | zero => exact ⟨hfull, hvalid⟩
    | succ i => exact h i (Nat.lt_of_succ_lt_succ hi)

/-- A table of records that are specified one by one. -/
theorem Spec.table {full safe valid : S → Prop} [DecidablePred full] {parse : S → Outcome E (R × S)}
    {record : S → R} {next : S → S} (e : E)
    (hparse : ∀ s, ¬full s → Spec (parse s) (safe s) (valid s) (record s, next s)) (n : ℕ) (s : S) :
    Spec (Outcome.table full e parse n s) (TableSafe full safe valid next n s)
      (TableValid full valid next n s) (tableRecords record next n s, next^[n] s) := by
  induction n generalizing s with
  | zero =>
    apply (Spec.value _).congr
    · exact ⟨fun _ i hi => absurd hi (Nat.not_lt_zero i), fun _ => trivial⟩
    · exact fun _ => ⟨fun _ i hi => absurd hi (Nat.not_lt_zero i), fun _ => trivial⟩
    · exact fun _ _ => rfl
  | succ n ih =>
    have hrest (r : R) := (ih (next s)).bind (f := fun rs => .ok (r :: rs.1, rs.2)) (.value _)
    apply (Spec.ite e fun hfull => (hparse s hfull).bind (hrest (record s))).congr
    · rw [tableSafe_succ]
      simp
    · intro _
      rw [tableValid_succ]
      simp
    · intro _ _
      rw [tableRecords_succ]
      rfl

/-- Where all records of a table are accepted, each of them may be read. -/
theorem TableSafe.of_valid {full safe valid : S → Prop} {next : S → S} {n : ℕ} {s : S}
    (h : TableSafe full safe valid next n s) (hvalid : TableValid full valid next n s) :
    ∀ i < n, safe (next^[i] s) := by
  intro i hi
  apply h i hi
  · exact fun j hj => (hvalid j (Nat.lt_of_le_of_lt hj hi)).1
  · exact fun j hj => (hvalid j (Nat.lt_trans hj hi)).2

end Table

end Outcome

end Plptools.Library
