import Mathlib.Data.Nat.Notation
import Mathlib.Data.Int.Notation

/-!
# Loops

A loop with a condition and a body, of which the body may fail. What holds in every state that a loop
reaches is shown for one round. A loop whose body increases a number below a bound ends after as many
rounds as there are numbers left.
-/

namespace Plptools.Library

variable {S : Type*} (cond : S → Prop) (body : S → Option S)

/-- The state behind a loop of at most so many rounds. -/
def loop [DecidablePred cond] : ℕ → S → Option S
  | 0, s => if cond s then none else some s
  | rounds + 1, s => if cond s then (body s).bind (loop rounds) else some s

/-- The states that a loop comes to from `s`. -/
inductive LoopReaches (s : S) : S → Prop
  | start : LoopReaches s s
  | round {t u : S} (h : LoopReaches s t) (hcond : cond t) (hbody : body t = some u) : LoopReaches s u

variable {cond body}

/-- The states behind the first round. -/
theorem LoopReaches.head {s t u : S} (hcond : cond s) (hbody : body s = some t)
    (h : LoopReaches cond body t u) : LoopReaches cond body s u := by
  induction h with
  | start => exact .round .start hcond hbody
  | round _ hcond' hbody' ih => exact .round ih hcond' hbody'

/-- An index does not become smaller than it was if no round makes it smaller. -/
theorem LoopReaches.index_le {index : S → ℤ} {s t : S}
    (hround : ∀ t u, LoopReaches cond body s t → cond t → body t = some u → index s ≤ index t → index t ≤ index u)
    (h : LoopReaches cond body s t) : index s ≤ index t := by
  induction h with
  | start => exact Int.le_refl _
  | round h hcond hbody ih => exact Int.le_trans ih (hround _ _ h hcond hbody ih)

/-- A loop ends if each round increases a number that the condition bounds. -/
theorem loop_eq_some [DecidablePred cond] {index : S → ℤ} {bound : ℤ} (hbound : ∀ t, cond t → index t < bound) {s : S}
    (hround : ∀ t, LoopReaches cond body s t → cond t → ∃ u, body t = some u ∧ index t < index u) {rounds : ℕ}
    (hrounds : bound ≤ index s + rounds) :
    ∃ u, loop cond body rounds s = some u ∧ LoopReaches cond body s u ∧ ¬cond u := by
  induction rounds generalizing s with
  | zero =>
    have hend : ¬cond s := fun hcond => absurd (hbound s hcond) (by omega)
    exact ⟨s, if_neg hend, .start, hend⟩
  | succ rounds ih =>
    by_cases hcond : cond s
    · obtain ⟨t, hbody, hlt⟩ := hround s .start hcond
      obtain ⟨u, hu, hreaches, hend⟩ :=
        ih (fun t' ht' => hround t' (ht'.head hcond hbody)) (by omega)
      refine ⟨u, ?_, hreaches.head hcond hbody, hend⟩
      rw [loop, if_pos hcond, hbody, Option.bind_some, hu]
    · exact ⟨s, if_neg hcond, .start, hcond⟩

end Plptools.Library
