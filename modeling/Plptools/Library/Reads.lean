import Mathlib.Data.List.Basic

/-!
# Reads that stay inside

A read of a block of memory that is given as a list has a value only where all that it reads is inside the block.
A range has a length; a string goes up to a mark.
-/

namespace Plptools.Library

variable {α : Type*}

/-- The `n` elements from `pos` on, one after the other. -/
def readRange (block : List α) : ℕ → ℕ → Option (List α)
  | _, 0 => some []
  | pos, n + 1 => do
    let c ← block[pos]?
    let rest ← readRange block (pos + 1) n
    return c :: rest

/-- The elements up to the first `stop`, which has to be there. -/
def readUntil [DecidableEq α] (stop : α) : List α → Option (List α)
  | [] => none
  | c :: rest => if c = stop then some [] else (readUntil stop rest).map (List.cons c)

/-- A range inside is read. -/
theorem readRange_of_le {block : List α} {pos n : ℕ} (h : pos + n ≤ block.length) :
    readRange block pos n = some ((block.drop pos).take n) := by
  induction n generalizing pos with
  | zero => rw [readRange, List.take_zero]
  | succ n ih =>
    have hpos : pos < block.length := by omega
    have hrest : pos + 1 + n ≤ block.length := by omega
    rw [readRange, List.getElem?_eq_getElem hpos, ih hrest, List.drop_eq_getElem_cons hpos, List.take_succ_cons]
    rfl

/-- A range that has a value is inside, unless it is empty. -/
theorem le_of_readRange {block : List α} {pos n : ℕ} {s : List α} (h : readRange block pos n = some s) :
    n = 0 ∨ pos + n ≤ block.length := by
  induction n generalizing pos s with
  | zero => exact Or.inl rfl
  | succ n ih =>
    obtain ⟨c, hc, h⟩ := Option.bind_eq_some_iff.mp h
    obtain ⟨rest, hrest, -⟩ := Option.bind_eq_some_iff.mp h
    have hpos : pos < block.length := (List.getElem?_eq_some_iff.mp hc).1
    have hrange := ih hrest
    omega

variable [DecidableEq α] {stop : α} {block : List α}

/-- A string that has a value is followed by the mark. -/
theorem readUntil_eq_some_iff {s : List α} :
    readUntil stop block = some s ↔ stop ∉ s ∧ ∃ rest, block = s ++ stop :: rest := by
  induction block generalizing s with
  | nil =>
    refine iff_of_false nofun ?_
    rintro ⟨-, rest, h⟩
    exact absurd h.symm (List.append_ne_nil_of_right_ne_nil s (List.cons_ne_nil stop rest))
  | cons c block ih =>
    by_cases hc : c = stop
    · rw [readUntil, if_pos hc, hc, Option.some_inj]
      constructor
      · rintro rfl
        exact ⟨List.not_mem_nil, block, rfl⟩
      · rintro ⟨hs, rest, h⟩
        cases s with
        | nil => rfl
        | cons d s => exact absurd (List.mem_cons.mpr (Or.inl (List.cons.inj h).1)) hs
    · rw [readUntil, if_neg hc, Option.map_eq_some_iff]
      constructor
      · rintro ⟨s, hs, rfl⟩
        obtain ⟨hstop, rest, rfl⟩ := ih.mp hs
        exact ⟨List.not_mem_cons_of_ne_of_not_mem (Ne.symm hc) hstop, rest, rfl⟩
      · rintro ⟨hstop, rest, h⟩
        cases s with
        | nil => exact absurd (List.cons.inj h).1 hc
        | cons d s =>
          obtain ⟨rfl, hblock⟩ := List.cons.inj h
          exact ⟨s, ih.mpr ⟨fun hs => hstop (List.mem_cons_of_mem c hs), rest, hblock⟩, rfl⟩

/-- There is a string when the mark is there. -/
theorem readUntil_of_mem (h : stop ∈ block) : ∃ s, readUntil stop block = some s := by
  induction block with
  | nil => cases h
  | cons c block ih =>
    by_cases hc : c = stop
    · exact ⟨[], if_pos hc⟩
    · obtain ⟨s, hs⟩ := ih ((List.mem_cons.mp h).resolve_left (Ne.symm hc))
      exact ⟨c :: s, by rw [readUntil, if_neg hc, hs, Option.map_some]⟩

/-- The end was found. -/
theorem mem_of_readUntil {s : List α} (h : readUntil stop block = some s) : stop ∈ block := by
  obtain ⟨-, rest, rfl⟩ := readUntil_eq_some_iff.mp h
  exact List.mem_append_right s List.mem_cons_self

end Plptools.Library
