import Mathlib.Data.Nat.Notation
import Mathlib.Data.Int.Notation
import Mathlib.Data.List.Basic
import Mathlib.Data.List.Induction

/-!
# Words with steps up

A word is read from left to right. A letter that is skipped does nothing, a step up removes the
last letter that is left, unless that is itself a step up or nothing is left, and any other letter
is added. What is left in the end is the normal form of the word.
-/

namespace Plptools.Library.NormalForm

variable {A : Type*} [DecidableEq A] (up : A) (skip : A → Bool)

/-- One letter more, when `n` is left of the letters before it. -/
def step (n : List A) (a : A) : List A :=
  if skip a then n
  else if a = up then (if n = [] ∨ n.getLast? = some up then n ++ [a] else n.dropLast)
  else n ++ [a]

/-- What is left after reading the letters of a word. -/
def steps (n w : List A) : List A := w.foldl (step up skip) n

/-- The normal form. -/
def normalWord (w : List A) : List A := steps up skip [] w

/-- The letters added less the steps up, where nothing was removed yet. -/
def height : List A → ℤ
  | [] => 0
  | a :: w => (if skip a then 0 else if a = up then -1 else 1) + height w

variable {up : A} {skip : A → Bool} {n w v : List A} {a b : A}

/-! ## Reading one letter -/

/-- No letters. -/
@[simp] theorem steps_nil : steps up skip n [] = n := rfl

/-- One word after the other. -/
@[simp] theorem steps_append : steps up skip n (v ++ w) = steps up skip (steps up skip n v) w :=
  List.foldl_append

/-- A single letter. -/
theorem steps_singleton : steps up skip n [a] = step up skip n a := rfl

/-- The first letter. -/
theorem steps_cons : steps up skip n (a :: w) = steps up skip (step up skip n a) w := rfl

/-- The empty word. -/
@[simp] theorem normalWord_nil : normalWord up skip [] = [] := rfl

/-- A word goes on from the normal form of the one before. -/
theorem normalWord_append : normalWord up skip (v ++ w) = steps up skip (normalWord up skip v) w := steps_append

/-- A letter goes on from the normal form of the word before. -/
theorem normalWord_concat : normalWord up skip (w ++ [a]) = step up skip (normalWord up skip w) a := steps_append

/-- A letter that is skipped. -/
theorem step_of_skip (ha : skip a = true) : step up skip n a = n := if_pos ha

/-- Another letter is added. -/
theorem step_of_ordinary (ha : skip a = false) (hup : a ≠ up) : step up skip n a = n ++ [a] := by
  simp [step, ha, hup]

/-- There is nothing to go up from. -/
theorem step_up_nil (hup : skip up = false) : step up skip [] up = [up] := by
  simp [step, hup]

/-- Going up takes a letter back. -/
theorem step_up_concat (hup : skip up = false) (hb : b ≠ up) :
    step up skip (n ++ [b]) up = n := by
  simp [step, hup, hb]

/-- Skipped letters can be left out. -/
theorem steps_filter : steps up skip n (w.filter fun a => !skip a) = steps up skip n w := by
  induction w generalizing n with
  | nil => rfl
  | cons a w ih =>
    cases ha : skip a with
    | true => simpa [ha, steps_cons, step_of_skip] using ih
    | false => simpa [ha, steps_cons] using ih

/-- Words that differ in skipped letters only have one normal form. -/
theorem normalWord_congr (h : (v.filter fun a => !skip a) = w.filter fun a => !skip a) :
    normalWord up skip v = normalWord up skip w := by
  rw [normalWord, ← steps_filter, h, steps_filter, normalWord]

/-- Without steps up all letters stay that are not skipped. -/
theorem steps_of_not_mem (h : up ∉ w) :
    steps up skip n w = n ++ w.filter fun a => !skip a := by
  induction w generalizing n with
  | nil => simp
  | cons a w ih =>
    rw [List.mem_cons, not_or] at h
    cases ha : skip a with
    | true => simp [steps_cons, step_of_skip, ha, ih h.2]
    | false => simp [steps_cons, step_of_ordinary ha (Ne.symm h.1), ha, ih h.2]

/-- Without going up, only what is skipped goes. -/
theorem normalWord_of_not_mem (h : up ∉ w) : normalWord up skip w = w.filter fun a => !skip a :=
  steps_of_not_mem h

/-! ## Normal forms -/

/-- No letter of a normal form is skipped. -/
theorem skip_of_mem_normalWord (ha : a ∈ normalWord up skip w) : skip a = false := by
  induction w using List.reverseRecOn with
  | nil => cases ha
  | append_singleton w b ih =>
    rw [normalWord_concat, step] at ha
    split at ha
    · exact ih ha
    next hb =>
      have hlast : a ∈ normalWord up skip w ++ [b] → skip a = false := by
        intro hmem
        rcases List.mem_append.mp hmem with hmem | hmem
        · exact ih hmem
        · rw [List.mem_singleton.mp hmem]
          simpa using hb
      split at ha
      · split at ha
        · exact hlast ha
        · exact ih ((List.dropLast_sublist _).subset ha)
      · exact hlast ha

/-- In a normal form only steps up stand before a step up. -/
theorem normalWord_pairwise : (normalWord up skip w).Pairwise fun a b => b = up → a = up := by
  induction w using List.reverseRecOn with
  | nil => exact List.Pairwise.nil
  | append_singleton w b ih =>
    rw [normalWord_concat, step]
    split
    · exact ih
    · split
      · split
        next hb hup htop =>
          rw [List.pairwise_append]
          refine ⟨ih, List.pairwise_singleton _ _, ?_⟩
          intro x hx _ _ _
          rcases htop with hnil | hlast
          · rw [hnil] at hx
            cases hx
          · obtain ⟨m, hm⟩ := List.getLast?_eq_some_iff.mp hlast
            rw [hm] at ih hx
            rcases List.mem_append.mp hx with hx | hx
            · exact (List.pairwise_append.mp ih).2.2 x hx up (List.mem_singleton_self up) rfl
            · exact List.mem_singleton.mp hx
        · exact ih.sublist (List.dropLast_sublist _)
      next hup =>
        rw [List.pairwise_append]
        refine ⟨ih, List.pairwise_singleton _ _, ?_⟩
        intro x _ y hy hyup
        exact absurd ((List.mem_singleton.mp hy).symm.trans hyup) hup

/-- A step up that is left once is never removed. -/
theorem up_mem_steps (h : up ∈ n) : up ∈ steps up skip n w := by
  induction w generalizing n with
  | nil => exact h
  | cons a w ih =>
    apply ih
    rw [step]
    split
    · exact h
    · split
      · split
        · exact List.mem_append_left _ h
        next hup htop =>
          rw [not_or] at htop
          obtain ⟨m, b, rfl⟩ := (List.eq_nil_or_concat' n).resolve_left htop.1
          simp only [List.getLast?_concat, Option.some.injEq] at htop
          simpa [Ne.symm htop.2] using h
      · exact List.mem_append_left _ h

/-- A word whose own normal form has no step up leaves alone what stands before it. -/
theorem steps_of_not_mem_normalWord (hup : skip up = false) (h : up ∉ normalWord up skip w) :
    steps up skip n w = n ++ normalWord up skip w := by
  induction w using List.reverseRecOn with
  | nil => simp
  | append_singleton w a ih =>
    have hw : up ∉ normalWord up skip w := fun hmem => h (by
      rw [normalWord_append]
      exact up_mem_steps hmem)
    rw [steps_append, ih hw, steps_singleton, normalWord_concat]
    rw [normalWord_concat] at h
    cases ha : skip a with
    | true => rw [step_of_skip ha, step_of_skip ha]
    | false =>
      by_cases haup : a = up
      · subst haup
        rcases List.eq_nil_or_concat (normalWord a skip w) with hnil | ⟨m, b, hm⟩
        · rw [hnil, step_up_nil hup] at h
          exact absurd (List.mem_singleton_self a) h
        · rw [List.concat_eq_append] at hm
          have hb : b ≠ a := by
            rintro rfl
            exact hw (by simp [hm])
          rw [hm, ← List.append_assoc, step_up_concat hup hb, step_up_concat hup hb]
      · rw [step_of_ordinary ha haup, step_of_ordinary ha haup, List.append_assoc]

/-! ## Heights -/

/-- The empty word has no height. -/
@[simp] theorem height_nil : height up skip [] = 0 := rfl

/-- What the first letter adds to the height. -/
theorem height_cons :
    height up skip (a :: w) = (if skip a then 0 else if a = up then -1 else 1) + height up skip w :=
  rfl

/-- Heights are added. -/
@[simp] theorem height_append :
    height up skip (v ++ w) = height up skip v + height up skip w := by
  induction v with
  | nil => simp
  | cons a v ih => rw [List.cons_append, height_cons, height_cons, ih, Int.add_assoc]

/-- The height of a letter. -/
theorem height_singleton :
    height up skip [a] = if skip a then 0 else if a = up then -1 else 1 := by
  simp [height]

/-- The normal form has the height of the word: a step up is removed with the letter it removes. -/
theorem height_normalWord : height up skip (normalWord up skip w) = height up skip w := by
  induction w using List.reverseRecOn with
  | nil => rfl
  | append_singleton w a ih =>
    rw [height_append, ← ih, normalWord_concat, step]
    split
    next ha => simp [height_singleton, ha]
    next ha =>
      split
      next hup =>
        split
        next htop => rw [height_append]
        next htop =>
          rw [not_or] at htop
          obtain ⟨m, b, hm⟩ := (List.eq_nil_or_concat' _).resolve_left htop.1
          have hmem : b ∈ normalWord up skip w := by simp [hm]
          have hb : skip b = false := skip_of_mem_normalWord hmem
          have hbup : b ≠ up := fun h => htop.2 (by simp [hm, h])
          rw [hm, List.dropLast_concat, height_append, height_singleton, height_singleton, if_neg ha,
            if_pos hup, if_neg (by simp [hb]), if_neg hbup]
          omega
      next hup => rw [height_append]

end Plptools.Library.NormalForm
