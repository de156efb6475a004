import Plptools.Rfsv.Status
import Mathlib.Logic.Function.Basic

/-!
# Renaming a mounted file

`plpRename` removes the target before it asks the device to rename the source, whatever comes of that.
The device looks up the names, so that two of them may mean the same file; each of its requests may be
carried out or refused, and its answer may be lost.
-/

namespace Plptools.Fuse

open Plptools.RFSV

def EPERM : ℤ := 1

def ENOENT : ℤ := 2

def EINTR : ℤ := 4

def EIO : ℤ := 5

def EBADF : ℤ := 9

def EACCES : ℤ := 13

def EBUSY : ℤ := 16

def EEXIST : ℤ := 17

def ENODEV : ℤ := 19

def EINVAL : ℤ := 22

def EFBIG : ℤ := 27

def ENOSPC : ℤ := 28

/-- The error of Unix for an error value. -/
def epocerrToErrno (epocerr : Errs) : ℤ :=
  if epocerr < 0 then
    if epocerr = E_PSI_FILE_EXIST then -EEXIST
    else if epocerr ∈ [RFSV.E_PSI_FILE_NXIST, E_PSI_FILE_DIR] then -ENOENT
    else if epocerr ∈ [E_PSI_FILE_WRITE, E_PSI_FILE_READ, E_PSI_FILE_EOF, E_PSI_FILE_ALLOC, E_PSI_FILE_UNKNOWN,
        E_PSI_FILE_DIRFULL] then -EPERM
    else if epocerr = E_PSI_FILE_FULL then -ENOSPC
    else if epocerr ∈ [E_PSI_FILE_NAME, E_PSI_FILE_RECORD, E_PSI_FILE_VOLUME] then -EINVAL
    else if epocerr ∈ [E_PSI_FILE_ACCESS, E_PSI_FILE_LOCKED, E_PSI_FILE_RDONLY, E_PSI_FILE_PROTECT] then -EACCES
    else if epocerr ∈ [E_PSI_GEN_INUSE, E_PSI_FILE_DEVICE, E_PSI_FILE_PENDING, E_PSI_FILE_NOTREADY] then -EBUSY
    else if epocerr = E_PSI_FILE_CANCEL then -EINTR
    else if epocerr ∈ [E_PSI_FILE_DISC, E_PSI_FILE_CONNECT] then -ENODEV
    else if epocerr = E_PSI_FILE_TOOBIG then -EFBIG
    else if epocerr = E_PSI_FILE_HANDLE then -EBADF
    else - EIO
  else epocerr

/-- Neither branch is that. -/
theorem ite_ne {β : Type} {p : Prop} [Decidable p] {a b c : β} (ha : a ≠ c) (hb : b ≠ c) :
    (if p then a else b) ≠ c := by
  split
  case isTrue => exact ha
  case isFalse => exact hb

/-- Only success is no error. -/
theorem epocerrToErrno_eq_zero (epocerr : Errs) : epocerrToErrno epocerr = 0 ↔ epocerr = E_PSI_GEN_NONE := by
  by_cases hneg : epocerr < 0
  · rw [epocerrToErrno, if_pos hneg]
    refine iff_of_false ?_ (Int.ne_of_lt hneg)
    -- every branch is an error of its own
    repeat refine ite_ne (by decide) ?_
    decide
  · rw [epocerrToErrno, if_neg hneg]
    rfl

/-- What comes of a request: it is carried out, or refused with an error, or its answer is lost. -/
inductive Outcome
  | done
  | refused (status : Errs) (error : status ≠ E_PSI_GEN_NONE)
  | lost (carriedOut : Bool)

/-- The device means to carry out the request. -/
def Outcome.carriedOut : Outcome → Bool
  | done => true
  | refused _ _ => false
  | lost carriedOut => carriedOut

/-- What the client is told, where the device finds that it can or cannot be done. -/
def Outcome.status (o : Outcome) (possible : Bool) : Errs :=
  match o with
  | done => if possible then E_PSI_GEN_NONE else RFSV.E_PSI_FILE_NXIST
  | refused status _ => status
  | lost _ => E_PSI_FILE_DISC

variable {K α : Type} [DecidableEq K]

/-- The files of the device, by what their names mean. -/
abbrev Files (K α : Type) : Type := K → Option α

/-- The device removes a file that is there. -/
def remove (o : Outcome) (k : K) (fs : Files K α) : Errs × Files K α :=
  (o.status (fs k).isSome, if o.carriedOut then Function.update fs k none else fs)

/-- The device moves what is at `old` to `new`, in place of what may be there. -/
def rename (o : Outcome) (old new : K) (fs : Files K α) : Errs × Files K α :=
  (o.status (fs old).isSome,
    if o.carriedOut ∧ (fs old).isSome then Function.update (Function.update fs old none) new (fs old) else fs)

section Program

variable (alive : Bool) (locate : List UInt8 → K)

/-- Ask for a file to be removed, if there is a connection. -/
def rfsvRemove (o : Outcome) (file : List UInt8) (fs : Files K α) : ℤ × Files K α :=
  if !alive then (-ENODEV, fs)
  else
    let (res, fs) := remove o (locate file) fs
    (epocerrToErrno res, fs)

def rfsvRename (o : Outcome) (oldname newname : List UInt8) (fs : Files K α) : ℤ × Files K α :=
  if !alive then (-ENODEV, fs)
  else
    let (res, fs) := rename o (locate oldname) (locate newname) fs
    (epocerrToErrno res, fs)

/-- Both paths begin with a slash, which the device is not given. -/
def plpRename (removal move : Outcome) («from» «to» : List UInt8) (fs : Files K α) : ℤ × Files K α :=
  let «from» := «from».drop 1
  let «to» := «to».drop 1
  let (_, fs) := rfsvRemove alive locate removal «to» fs
  rfsvRename alive locate move «from» «to» fs

end Program

/-- Either the content of the source is found under the name of the target, or there is an error and nothing
happened; under its own name a file stays what it is. -/
structure Atomic (old new : K) (fs : Files K α) (r : ℤ × Files K α) : Prop where
  moved : r.1 = 0 → ∃ content, fs old = some content ∧ r.2 new = some content
  unchanged : r.1 ≠ 0 → r.2 = fs
  kept : old = new → r.2 old = fs old

/-- A target that is removed is replaced by another file, and a move whose answer is lost moves nothing. -/
def Recovers (removal move : Outcome) (old new : K) (fs : Files K α) : Prop :=
  if removal.carriedOut ∧ (fs new).isSome then move = .done ∧ old ≠ new ∧ (fs old).isSome
  else move = .lost true → old = new ∨ fs old = none

section Cases

variable {move : Outcome} {old new : K} {fs fs' : Files K α}

/-- Success is reported just for what has been done and was possible. -/
theorem Outcome.status_eq_none_iff (o : Outcome) (possible : Bool) :
    o.status possible = E_PSI_GEN_NONE ↔ o = .done ∧ possible = true := by
  cases o with
  | done => cases possible <;> simp [status, E_PSI_GEN_NONE, RFSV.E_PSI_FILE_NXIST]
  | refused status error => exact iff_of_false error fun h => Outcome.noConfusion h.1
  | lost carriedOut =>
    have hdisc : E_PSI_FILE_DISC ≠ E_PSI_GEN_NONE := by decide
    exact iff_of_false hdisc fun h => Outcome.noConfusion h.1

/-- What a move leaves, as the client is told. -/
def moved (move : Outcome) (old new : K) (fs : Files K α) : ℤ × Files K α :=
  (epocerrToErrno (rename move old new fs).1, (rename move old new fs).2)

/-- A move succeeds just when it has been done and the file was there. -/
theorem moved_eq_zero_iff : (moved move old new fs').1 = 0 ↔ move = .done ∧ (fs' old).isSome = true := by
  rw [moved, epocerrToErrno_eq_zero, rename, Outcome.status_eq_none_iff]

/-- A file that is not there is not moved. -/
theorem moved_of_none (h : fs' old = none) : (moved move old new fs').2 = fs' :=
  if_neg fun hmoved => by rw [h] at hmoved; exact Bool.false_ne_true hmoved.2

/-- A file that is moved has the new name and not the old one. -/
theorem moved_of_some (hmove : move.carriedOut = true) {content : α} (h : fs' old = some content) :
    (moved move old new fs').2 = Function.update (Function.update fs' old none) new (some content) := by
  have hmoved : move.carriedOut = true ∧ (fs' old).isSome = true := ⟨hmove, by rw [h]; rfl⟩
  rw [← h]
  exact if_pos hmoved

/-- With no file in its way a move is all or nothing, unless it is made and the answer is lost. -/
theorem atomic_moved_iff :
    Atomic old new fs (moved move old new fs) ↔ (move = .lost true → old = new ∨ fs old = none) := by
  cases hold : fs old with
  | none =>
    refine iff_of_true ⟨fun h => ?_, fun _ => moved_of_none hold, fun _ =>
      congrFun (moved_of_none hold) old⟩ fun _ => .inr rfl
    rw [moved_eq_zero_iff, hold] at h
    exact absurd h.2 Bool.false_ne_true
  | some content =>
    cases hcarried : move.carriedOut with
    | false =>
      have hsame : (moved move old new fs).2 = fs := if_neg fun h => by
        rw [hcarried] at h
        exact Bool.false_ne_true h.1
      refine iff_of_true ⟨fun h => ?_, fun _ => hsame, fun _ => congrFun hsame old⟩ fun h => ?_
      · rw [(moved_eq_zero_iff.mp h).1] at hcarried
        cases hcarried
      · rw [h] at hcarried
        cases hcarried
    | true =>
      have hmoved : (moved move old new fs).2 = Function.update (Function.update fs old none) new (some content) :=
        moved_of_some hcarried hold
      have hnew : (moved move old new fs).2 new = some content := by rw [hmoved, Function.update_self]
      have hself : old = new → (moved move old new fs).2 = fs := by
        intro heq
        rw [hmoved, ← heq, Function.update_idem, ← hold, Function.update_eq_self]
      constructor
      · intro h hlost
        by_contra hne
        have hsame := h.unchanged fun hzero => by
          have hdone := (moved_eq_zero_iff.mp hzero).1
          rw [hlost] at hdone
          cases hdone
        have hgone : (moved move old new fs).2 old = none := by
          rw [hmoved, Function.update_of_ne fun heq => hne (.inl heq), Function.update_self]
        rw [hsame, hold] at hgone
        cases hgone
      · intro h
        refine ⟨fun _ => ⟨content, hold, hnew⟩, fun herror => ?_, fun heq => congrFun (hself heq) old⟩
        cases move with
        | done => exact absurd (moved_eq_zero_iff.mpr ⟨rfl, by rw [hold]; rfl⟩) herror
        | refused status error => cases hcarried
        | lost carriedOut =>
          obtain rfl : carriedOut = true := hcarried
          exact hself ((h rfl).resolve_right fun hnone => by cases hnone)

/-- Where the target is gone, only a successful move makes up for it. -/
theorem atomic_removed_iff {lost : α} (hlost : fs new = some lost) :
    Atomic old new fs (moved move old new (Function.update fs new none)) ↔
      move = .done ∧ old ≠ new ∧ (fs old).isSome = true := by
  have hgone : (Function.update fs new none) new = none := Function.update_self _ _ _
  have hold (hne : old ≠ new) : (Function.update fs new none) old = fs old := Function.update_of_ne hne _ _
  constructor
  · intro h
    have hdifferent : (moved move old new (Function.update fs new none)).2 ≠ fs := by
      intro hsame
      cases hmoved : (Function.update fs new none) old with
      | none =>
        rw [moved_of_none hmoved] at hsame
        rw [hsame, hlost] at hgone
        cases hgone
      | some content =>
        have hne : old ≠ new := fun heq => by
          rw [heq, hgone] at hmoved
          cases hmoved
        cases hcarried : move.carriedOut with
        | true =>
          have hleft : (moved move old new (Function.update fs new none)).2 old = none := by
            rw [moved_of_some hcarried hmoved, Function.update_of_ne hne, Function.update_self]
          rw [hsame, ← hold hne, hmoved] at hleft
          cases hleft
        | false =>
          have hrefused : (moved move old new (Function.update fs new none)).2 = Function.update fs new none :=
            if_neg fun h => by rw [hcarried] at h; exact Bool.false_ne_true h.1
          rw [hrefused] at hsame
          rw [hsame, hlost] at hgone
          cases hgone
    have hzero : (moved move old new (Function.update fs new none)).1 = 0 :=
      by_contra fun herror => hdifferent (h.unchanged herror)
    obtain ⟨hdone, hsome⟩ := moved_eq_zero_iff.mp hzero
    have hne : old ≠ new := fun heq => by
      rw [heq, hgone] at hsome
      exact Bool.false_ne_true hsome
    rw [hold hne] at hsome
    exact ⟨hdone, hne, hsome⟩
  · rintro ⟨hdone, hne, hsome⟩
    obtain ⟨content, hcontent⟩ := Option.isSome_iff_exists.mp hsome
    have hmoved : (Function.update fs new none) old = some content := (hold hne).trans hcontent
    have hzero : (moved move old new (Function.update fs new none)).1 = 0 :=
      moved_eq_zero_iff.mpr ⟨hdone, by rw [hmoved]; rfl⟩
    refine ⟨fun _ => ⟨content, hcontent, ?_⟩, fun herror => absurd hzero herror, fun heq => absurd heq hne⟩
    rw [moved_of_some (by rw [hdone]; rfl) hmoved, Function.update_self]

end Cases

/-- Renaming is atomic just when a target that is removed is replaced by another file with success, and where the
answer to the move is lost there was nothing to move. -/
theorem plp_rename_atomic_iff (alive : Bool) (locate : List UInt8 → K) (removal move : Outcome)
    («from» «to» : List UInt8) (fs : Files K α) :
    Atomic (locate («from».drop 1)) (locate («to».drop 1)) fs (plpRename alive locate removal move «from» «to» fs) ↔
      (alive = true → Recovers removal move (locate («from».drop 1)) (locate («to».drop 1)) fs) := by
  cases alive with
  | false =>
    have herror : -ENODEV ≠ 0 := by decide
    exact iff_of_true ⟨fun h => absurd h herror, fun _ => rfl, fun _ => rfl⟩ fun h => absurd h Bool.false_ne_true
  | true =>
    rw [imp_iff_right rfl, Recovers]
    change Atomic _ _ _ (moved move _ _ (remove removal (locate («to».drop 1)) fs).2) ↔ _
    rw [remove]
    cases hnew : fs (locate («to».drop 1)) with
    | none =>
      have hsame : (if removal.carriedOut = true then Function.update fs (locate («to».drop 1)) none else fs) =
        fs := by
        rw [← hnew, Function.update_eq_self, ite_self]
      have hnothing : ¬(removal.carriedOut = true ∧ (none : Option α).isSome = true) := fun h =>
        Bool.false_ne_true h.2
      rw [if_neg hnothing, hsame]
      exact atomic_moved_iff
    | some lost =>
      cases hcarried : removal.carriedOut with
      | false =>
        have hnothing : ¬(false = true ∧ (some lost).isSome = true) := fun h => Bool.false_ne_true h.1
        rw [if_neg hnothing, if_neg Bool.false_ne_true]
        exact atomic_moved_iff
      | true =>
        have hremoved : true = true ∧ (some lost).isSome = true := ⟨rfl, rfl⟩
        rw [if_pos hremoved, if_pos rfl]
        exact atomic_removed_iff hnew

/-- A file is in the way, and the device refuses to rename another one, which is in use. -/
theorem not_atomic_inUse : ¬Atomic 0x61 0x62 (fun k : UInt8 => if k = 0x61 ∨ k = 0x62 then some k else none)
    (plpRename true (fun name => name.headD 0) .done (.refused E_PSI_GEN_INUSE (by decide)) [0x2f, 0x61] [0x2f, 0x62]
      (fun k : UInt8 => if k = 0x61 ∨ k = 0x62 then some k else none)) := by
  intro h
  have hunchanged := h.unchanged (by decide)
  have hfile := congrFun hunchanged 0x62
  revert hfile
  decide

end Plptools.Fuse
