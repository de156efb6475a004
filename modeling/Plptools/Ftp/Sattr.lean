import Plptools.Library.Flags
import Plptools.Rfsv.RFSV
import Mathlib.Logic.Function.Basic

/-!
# Attribute mode strings

The command `sattr` reads its first argument character by character. A sign chooses one of two masks,
that of the attributes to set or that of those to clear, and a letter puts its attribute into it and
takes it out of the other one. Only the letter `r` takes its attribute out of the mask that it was
put into.
-/

namespace Plptools

open RFSV (PSI_A_RDONLY PSI_A_HIDDEN PSI_A_SYSTEM PSI_A_ARCHIVE PSI_A_READ)
open Plptools.Library

/-- The variables of the loop: the index of the mask, and the two masks. -/
structure SattrState where
  aidx : Fin 2
  attr : Fin 2 → ℕ

namespace SattrState

/-- `attr[i] |= a` -/
def orAt (s : SattrState) (i : Fin 2) (a : ℕ) : SattrState :=
  { s with attr := Function.update s.attr i (s.attr i ||| a) }

/-- `attr[i] &= ~a` -/
def andNotAt (s : SattrState) (i : Fin 2) (a : ℕ) : SattrState :=
  { s with attr := Function.update s.attr i (andNot (s.attr i) a) }

def step (s : SattrState) (c : UInt8) : SattrState :=
  match c with
  | 0x2b => { s with aidx := 0 }
  | 0x2d => { s with aidx := 1 }
  | 0x72 => (s.orAt s.aidx PSI_A_READ).andNotAt s.aidx PSI_A_READ
  | 0x77 => (s.orAt (1 - s.aidx) PSI_A_RDONLY).andNotAt s.aidx PSI_A_RDONLY
  | 0x68 => (s.orAt s.aidx PSI_A_HIDDEN).andNotAt (1 - s.aidx) PSI_A_HIDDEN
  | 0x73 => (s.orAt s.aidx PSI_A_SYSTEM).andNotAt (1 - s.aidx) PSI_A_SYSTEM
  | 0x61 => (s.orAt s.aidx PSI_A_ARCHIVE).andNotAt (1 - s.aidx) PSI_A_ARCHIVE
  | _ => s

end SattrState

/-- The two masks that are passed to `fsetattr`: what to set, and what to clear. -/
def sattr (p : List UInt8) : Fin 2 → ℕ := ((cString p).foldl SattrState.step ⟨0, fun _ => 0⟩).attr

/-! ### What the string says -/

inductive ModeLetter
  | r
  | w
  | h
  | s
  | a
deriving DecidableEq, Repr

namespace ModeLetter

def ofChar : UInt8 → Option ModeLetter
  | 0x72 => some r
  | 0x77 => some w
  | 0x68 => some h
  | 0x73 => some s
  | 0x61 => some a
  | _ => none

def flag : ModeLetter → ℕ
  | r => PSI_A_READ
  | w => PSI_A_RDONLY
  | h => PSI_A_HIDDEN
  | s => PSI_A_SYSTEM
  | a => PSI_A_ARCHIVE

/-- The number of the bit of the attribute. -/
def bit : ModeLetter → ℕ
  | r => 9
  | w => 0
  | h => 1
  | s => 2
  | a => 4

def char : ModeLetter → UInt8
  | r => 0x72
  | w => 0x77
  | h => 0x68
  | s => 0x73
  | a => 0x61

/-- Each flag is one bit. -/
theorem flag_eq (l : ModeLetter) : l.flag = 2 ^ l.bit := by cases l <;> rfl

/-- The bits tell the letters apart. -/
theorem bit_inj {l m : ModeLetter} (h : l.bit = m.bit) : l = m := by
  cases l <;> cases m <;> first | rfl | cases h

/-- A letter is read from its character. -/
theorem ofChar_char (l : ModeLetter) : ofChar l.char = some l := by cases l <;> rfl

/-- The character that a letter was read from. -/
theorem char_of_ofChar {c : UInt8} {l : ModeLetter} (h : ofChar c = some l) : c = l.char := by
  unfold ofChar at h
  split at h
  all_goals cases h
  all_goals rfl

/-- The mask that grants, or revokes, what the letter stands for: to write is not to be read-only. -/
def mask (sign : Fin 2) : ModeLetter → Fin 2
  | w => 1 - sign
  | _ => sign

end ModeLetter

/-- The letters of a string, each with the sign before it. -/
def mentions : Fin 2 → List UInt8 → List (ModeLetter × Fin 2)
  | _, [] => []
  | sign, c :: p =>
    if c = 0x2b then mentions 0 p
    else if c = 0x2d then mentions 1 p
    else match ModeLetter.ofChar c with
      | some l => (l, sign) :: mentions sign p
      | none => mentions sign p

/-- The sign of a letter where it is mentioned last. -/
def lastSign (p : List UInt8) (l : ModeLetter) : Option (Fin 2) :=
  lastMention (fun e => if e.1 = l then some e.2 else none) (mentions 0 (cString p))

/-- Other characters change nothing. -/
theorem step_of_ofChar {c : UInt8} (s : SattrState) (hplus : c ≠ 0x2b) (hminus : c ≠ 0x2d)
    (h : ModeLetter.ofChar c = none) : s.step c = s := by
  unfold ModeLetter.ofChar at h
  unfold SattrState.step
  split at h
  all_goals try cases h
  split
  all_goals first | rfl | contradiction

/-- What a letter does to the masks. -/
def modify (attr : Fin 2 → ℕ) (e : ModeLetter × Fin 2) : Fin 2 → ℕ := (SattrState.step ⟨e.2, attr⟩ e.1.char).attr

/-- A letter changes the attributes by the last sign. -/
theorem step_char (s : SattrState) (l : ModeLetter) : s.step l.char = ⟨s.aidx, modify s.attr (l, s.aidx)⟩ := by
  cases l <;> rfl

/-- The loop does what the letters do one after the other. -/
theorem foldl_step (p : List UInt8) (s : SattrState) :
    (p.foldl SattrState.step s).attr = (mentions s.aidx p).foldl modify s.attr := by
  induction p generalizing s with
  | nil => rfl
  | cons c p ih =>
    rw [List.foldl_cons, ih, mentions]
    by_cases hplus : c = 0x2b
    · rw [if_pos hplus, hplus]
      rfl
    · by_cases hminus : c = 0x2d
      · rw [if_neg hplus, if_pos hminus, hminus]
        rfl
      · rw [if_neg hplus, if_neg hminus]
        cases hletter : ModeLetter.ofChar c with
        | none => rw [step_of_ofChar s hplus hminus hletter]
        | some l =>
          rw [ModeLetter.char_of_ofChar hletter, step_char]
          rfl

/-- There are two signs. -/
theorem other_other : ∀ i : Fin 2, 1 - (1 - i) = i := by decide

/-- A sign is this one or the other. -/
theorem eq_or_other : ∀ k i : Fin 2, k = i ∨ k = 1 - i := by decide

/-- The other sign is another one. -/
theorem other_ne : ∀ i : Fin 2, 1 - i ≠ i := by decide

/-- A flag is put into one mask and taken out of the other. -/
theorem testBit_put (s : SattrState) (i k : Fin 2) (n j : ℕ) :
    (((s.orAt i (2 ^ n)).andNotAt (1 - i) (2 ^ n)).attr k).testBit j =
      if n = j then decide (k = i) else (s.attr k).testBit j := by
  have hne := other_ne i
  obtain rfl | rfl := eq_or_other k i
  · simp only [SattrState.andNotAt, SattrState.orAt, Function.update_of_ne hne.symm, Function.update_self,
      Nat.testBit_or, Nat.testBit_two_pow]
    by_cases hj : n = j <;> simp [hj]
  · simp only [SattrState.andNotAt, SattrState.orAt, Function.update_of_ne hne, Function.update_self,
      testBit_andNot, Nat.testBit_two_pow]
    by_cases hj : n = j <;> simp [hj, hne]

/-- What a letter does to a bit of the masks, unless it is `r`. -/
theorem testBit_modify {l : ModeLetter} (hr : l ≠ .r) (sign k : Fin 2) (attr : Fin 2 → ℕ) (j : ℕ) :
    (modify attr (l, sign) k).testBit j = if l.bit = j then decide (k = l.mask sign) else (attr k).testBit j := by
  have hput := testBit_put ⟨sign, attr⟩ (l.mask sign) k l.bit j
  rw [← hput]
  cases l with
  | r => exact absurd rfl hr
  | w =>
    rw [ModeLetter.mask, other_other]
    rfl
  | h => rfl
  | s => rfl
  | a => rfl

/-- No mask ever has the attribute of `r`. -/
theorem testBit_modify_r (e : ModeLetter × Fin 2) {attr : Fin 2 → ℕ} (h : ∀ k, (attr k).testBit 9 = false)
    (k : Fin 2) : (modify attr e k).testBit 9 = false := by
  obtain ⟨l, sign⟩ := e
  by_cases hr : l = .r
  · subst hr
    by_cases hk : k = sign
    · subst hk
      simp only [modify, ModeLetter.char, SattrState.step, SattrState.andNotAt, SattrState.orAt, Function.update_self,
        testBit_andNot]
      exact Bool.and_false _
    · simp only [modify, ModeLetter.char, SattrState.step, SattrState.andNotAt, SattrState.orAt,
        Function.update_of_ne hk]
      exact h k
  · rw [testBit_modify hr, h k]
    cases l with
    | r => exact absurd rfl hr
    | w | h | s | a => rfl

/-- No attribute is both set and cleared, and the last mention of each letter decides. -/
structure SattrDecides (p : List UInt8) : Prop where
  disjoint : sattr p 0 &&& sattr p 1 = 0
  mentioned : ∀ l sign, lastSign p l = some sign →
    hasFlag (sattr p (l.mask sign)) l.flag = true ∧ hasFlag (sattr p (1 - l.mask sign)) l.flag = false
  unmentioned : ∀ l, lastSign p l = none →
    hasFlag (sattr p 0) l.flag = false ∧ hasFlag (sattr p 1) l.flag = false

/-- A letter that is mentioned has its character in the string. -/
theorem char_mem_of_mentions {p : List UInt8} {sign : Fin 2} {e : ModeLetter × Fin 2} (he : e ∈ mentions sign p) :
    e.1.char ∈ p := by
  induction p generalizing sign with
  | nil => cases he
  | cons c p ih =>
    rw [mentions] at he
    split at he
    · exact List.mem_cons_of_mem _ (ih he)
    · split at he
      · exact List.mem_cons_of_mem _ (ih he)
      · split at he
        case h_1 l hletter =>
          obtain rfl | he := List.mem_cons.mp he
          · rw [ModeLetter.char_of_ofChar hletter]
            exact List.mem_cons_self
          · exact List.mem_cons_of_mem _ (ih he)
        case h_2 => exact List.mem_cons_of_mem _ (ih he)

/-- Each letter of the string is mentioned. -/
theorem exists_mention {p : List UInt8} {l : ModeLetter} (hmem : l.char ∈ p) (sign : Fin 2) :
    ∃ sign', (l, sign') ∈ mentions sign p := by
  induction p generalizing sign with
  | nil => cases hmem
  | cons c p ih =>
    rw [mentions]
    by_cases hc : l.char = c
    · subst hc
      have hplus : l.char ≠ 0x2b := by cases l <;> decide
      have hminus : l.char ≠ 0x2d := by cases l <;> decide
      rw [if_neg hplus, if_neg hminus, ModeLetter.ofChar_char]
      exact ⟨sign, List.mem_cons_self⟩
    · have hrest := ih ((List.mem_cons.mp hmem).resolve_left hc)
      split
      · exact hrest 0
      · split
        · exact hrest 1
        · obtain ⟨sign', h⟩ := hrest sign
          split
          · exact ⟨sign', List.mem_cons_of_mem _ h⟩
          · exact ⟨sign', h⟩

/-- A bit in both masks. -/
def bitOf (j : ℕ) (attr : Fin 2 → ℕ) : Fin 2 → Bool := fun k => (attr k).testBit j

/-- What a letter says of a bit in both masks, unless it is `r`. -/
def saysBit (j : ℕ) (e : ModeLetter × Fin 2) : Option (Fin 2 → Bool) :=
  if e.1.bit = j then some fun k => decide (k = e.1.mask e.2) else none

/-- Without `r`, a bit of the masks is as the last mention of its letter says. -/
theorem bitOf_sattr {p : List UInt8} (hr : 0x72 ∉ cString p) (j : ℕ) :
    bitOf j (sattr p) = (lastMention (saysBit j) (mentions 0 (cString p))).getD fun _ => false := by
  have hstep : ∀ attr, ∀ e ∈ mentions 0 (cString p),
      bitOf j (modify attr e) = (saysBit j e).getD (bitOf j attr) := by
    intro attr e he
    have hletter : e.1 ≠ .r := by
      intro heq
      have hmem := char_mem_of_mentions he
      rw [heq] at hmem
      exact hr hmem
    funext k
    rw [bitOf, testBit_modify hletter, saysBit]
    split <;> rfl
  have hnone : bitOf j (fun _ => 0) = fun _ => false := by
    funext k
    exact Nat.zero_testBit j
  rw [sattr, foldl_step, foldl_lastMention hstep, hnone]

/-- The last mention of a letter is the last word on its bit. -/
theorem saysBit_bit (l : ModeLetter) (p : List UInt8) :
    lastMention (saysBit l.bit) (mentions 0 (cString p)) =
      (lastSign p l).map fun sign k => decide (k = l.mask sign) := by
  rw [lastSign, ← lastMention_map]
  congr 1
  funext e
  rw [saysBit]
  by_cases hl : e.1 = l
  · rw [if_pos (congrArg ModeLetter.bit hl), if_pos hl, hl]
    rfl
  · rw [if_neg (fun h => hl (ModeLetter.bit_inj h)), if_neg hl]
    rfl

/-- Whatever the string is, no mask has the attribute of `r`. -/
theorem testBit_sattr_r (p : List UInt8) (k : Fin 2) : (sattr p k).testBit 9 = false := by
  have hfold (events : List (ModeLetter × Fin 2)) : ∀ k, (events.foldl modify (fun _ => 0) k).testBit 9 = false := by
    induction events using List.reverseRecOn with
    | nil => exact fun _ => Nat.zero_testBit 9
    | append_singleton events e ih =>
      rw [List.foldl_append]
      exact testBit_modify_r e ih
  rw [sattr, foldl_step]
  exact hfold _ k

/-- The last mention of every letter decides just when `r` is not mentioned. -/
theorem sattrDecides_iff (p : List UInt8) : SattrDecides p ↔ 0x72 ∉ cString p := by
  constructor
  · intro h hr
    obtain ⟨sign, hmention⟩ := exists_mention (l := .r) hr 0
    obtain ⟨last, hlast⟩ : ∃ last, lastSign p .r = some last := lastMention_isSome hmention (if_pos rfl)
    have hgranted := (h.mentioned .r last hlast).1
    rw [ModeLetter.flag_eq, hasFlag_two_pow] at hgranted
    exact absurd (hgranted.symm.trans (testBit_sattr_r p _)) Bool.noConfusion
  · intro hr
    have hbit (l : ModeLetter) (k : Fin 2) : hasFlag (sattr p k) l.flag =
        ((lastSign p l).map fun sign k => decide (k = l.mask sign)).getD (fun _ => false) k := by
      rw [ModeLetter.flag_eq, hasFlag_two_pow, ← saysBit_bit, ← bitOf_sattr hr, bitOf]
    refine ⟨and_eq_zero_iff.mpr fun j hset => ?_, fun l sign hlast => ?_, fun l hlast => ?_⟩
    · have hj := bitOf_sattr hr j
      cases hlast : lastMention (saysBit j) (mentions 0 (cString p)) with
      | none =>
        rw [hlast] at hj
        exact congrFun hj 1
      | some f =>
        obtain ⟨e, -, he⟩ := exists_of_lastMention hlast
        rw [saysBit, Option.ite_none_right_eq_some] at he
        obtain rfl := Option.some.inj he.2
        rw [hlast] at hj
        have hzero := of_decide_eq_true ((congrFun hj 0).symm.trans hset)
        refine (congrFun hj 1).trans (decide_eq_false ?_)
        rw [← hzero]
        decide
    · rw [hbit, hbit, hlast]
      exact ⟨decide_eq_true rfl, decide_eq_false (other_ne _)⟩
    · rw [hbit, hbit, hlast]
      exact ⟨rfl, rfl⟩

/-- `+r` sets nothing. -/
theorem not_sattrDecides_read : ¬SattrDecides [0x2b, 0x72] := by
  intro h
  have hlast : lastSign [0x2b, 0x72] .r = some 0 := by decide
  have hnone : hasFlag (sattr [0x2b, 0x72] 0) PSI_A_READ = false := by decide
  exact absurd (hnone.symm.trans (h.mentioned .r 0 hlast).1) Bool.noConfusion

end Plptools
