import Plptools.Rfsv.Reading
import Plptools.Library.Rounds

/-!
# The loops of the calls

Each loop of a call is made up of rounds: in most of them one command is sent, and the answer decides whether
there is another round; in the others something is read or written by a loop of its own, or nothing is asked for as
long as there are entries left.
-/

namespace Plptools

open Plptools.Library

open Dialogue (IsLoop)

open BufferStore (wordBytes dwordBytes)

namespace RFSV

variable {σ C : Type}

/-- A round of a listing. -/
def dirRound (readdir : RFSVDirHandle → PlpDirent → Client σ C (Errs × RFSVDirHandle × PlpDirent))
    (s : Errs × RFSVDirHandle × List PlpDirent) :
    Client σ C (Option ((Errs × RFSVDirHandle × List PlpDirent) ⊕ (Errs × RFSVDirHandle × List PlpDirent))) := do
  let (res, h, e) ← readdir s.2.1 PlpDirent.new
  return some (.inl (res, h, if res = E_PSI_GEN_NONE then s.2.2 ++ [e] else s.2.2))

/-- A listing is made up of its rounds. -/
theorem dirLoop_isLoop (readdir : RFSVDirHandle → PlpDirent → Client σ C (Errs × RFSVDirHandle × PlpDirent)) :
    IsLoop (fun n s => dirLoop readdir n s.1 s.2.1 s.2.2)
      (fun s => if s.1 = E_PSI_GEN_NONE then none else some s) (dirRound readdir) where
  ends n s a h := by
    split at h
    · cases h
    · rename_i hres
      cases h
      cases n <;> rw [dirLoop, if_neg hres]
  out s h := by
    split at h
    · rename_i hres
      rw [dirLoop, if_pos hres]
    · cases h
  goes n s h := by
    split at h
    · rename_i hres
      rw [dirLoop, if_pos hres]
      rfl
    · cases h

/-- What a copy to a local file does with what it has read. -/
def copyFromStep (cb : CpCallback) (s : ℕ × ℕ × List UInt8) (r : Errs × ℕ × List UInt8) :
    (ℕ × ℕ × List UInt8) ⊕ (Errs × List UInt8) :=
  if r.1 = E_PSI_GEN_NONE then
    let op := s.2.2 ++ r.2.2
    let total := uint32 (s.2.1 + r.2.1)
    let res := report cb s.1 total r.1
    if r.2.1 > 0 ∧ res = E_PSI_GEN_NONE then .inl (s.1 + 1, total, op) else .inr (res, op)
  else .inr (r.1, s.2.2)

def copyFromRound (fread : Client σ C (Option (Errs × ℕ × List UInt8))) (cb : CpCallback)
    (s : ℕ × ℕ × List UInt8) : Client σ C (Option ((ℕ × ℕ × List UInt8) ⊕ (Errs × List UInt8))) := do
  let r ← fread
  return r.map (copyFromStep cb s)

/-- A copy from the device is made up of its rounds. -/
theorem copyFromLoop_isLoop (fread : Client σ C (Option (Errs × ℕ × List UInt8))) (cb : CpCallback) :
    IsLoop (fun n s => copyFromLoop fread cb n s.1 s.2.1 s.2.2) (fun _ => none) (copyFromRound fread cb) where
  ends n s a h := by cases h
  out s h := rfl
  goes n s h := by
    rw [copyFromLoop, copyFromRound, bind_assoc]
    congr 1
    funext r
    rcases r with _ | ⟨res, len, buf⟩
    · rfl
    · dsimp only
      rw [Option.map_some, copyFromStep, pure_bind]
      split
      · dsimp only
        split <;> rfl
      · rfl

/-- What a copy to the device does after it has written something. -/
def copyToStep (cb : CpCallback) (s : Errs × Bool × ℕ × ℕ × List UInt8) (r : Errs × ℕ) :
    Errs × Bool × ℕ × ℕ × List UInt8 :=
  let eof := decide (s.2.2.2.2.length < RFSV_SENDLEN)
  if r.1 = E_PSI_GEN_NONE then
    let total := uint32 (s.2.2.2.1 + r.2)
    (report cb s.2.2.1 total r.1, eof, s.2.2.1 + 1, total, s.2.2.2.2.drop RFSV_SENDLEN)
  else (r.1, eof, s.2.2.1, s.2.2.2.1, s.2.2.2.2.drop RFSV_SENDLEN)

def copyToRound (fwrite : List UInt8 → Client σ C (Option (Errs × ℕ))) (cb : CpCallback)
    (s : Errs × Bool × ℕ × ℕ × List UInt8) : Client σ C (Option ((Errs × Bool × ℕ × ℕ × List UInt8) ⊕ Errs)) := do
  let r ← fwrite (s.2.2.2.2.take RFSV_SENDLEN)
  return r.map fun r => .inl (copyToStep cb s r)

/-- A copy to the device is made up of its rounds. -/
theorem copyToLoop_isLoop (fwrite : List UInt8 → Client σ C (Option (Errs × ℕ))) (cb : CpCallback) :
    IsLoop (fun n s => copyToLoop fwrite cb n s.1 s.2.1 s.2.2.1 s.2.2.2.1 s.2.2.2.2)
      (fun s => if s.1 = E_PSI_GEN_NONE ∧ !s.2.1 then none else some s.1) (copyToRound fwrite cb) where
  ends n s a h := by
    split at h
    · cases h
    · rename_i hover
      cases h
      cases n <;> rw [copyToLoop, if_neg hover]
  out s h := by
    split at h
    · rename_i hmore
      rw [copyToLoop, if_pos hmore]
    · cases h
  goes n s h := by
    split at h
    · rename_i hmore
      rw [copyToLoop, if_pos hmore, copyToRound]
      dsimp only
      rw [bind_assoc]
      congr 1
      funext r
      rcases r with _ | ⟨res, len⟩
      · rfl
      · dsimp only
        rw [Option.map_some, copyToStep, pure_bind]
        split <;> rfl
    · cases h

/-- What `fread` does with an answer. -/
def readStep (failed : Errs → Errs) (len : ℕ) (s : ℕ × List UInt8) :
    Option Response → (ℕ × List UInt8) ⊕ (Errs × ℕ × List UInt8)
  | none => .inr (E_PSI_FILE_DISC, s.1, s.2)
  | some a =>
    if a.status ≠ E_PSI_GEN_NONE then .inr (failed a.status, s.1, s.2)
    else
      let count := uint32 (s.1 + a.data.length)
      let buf := s.2 ++ a.data
      if count < len ∧ a.data.length > 0 then .inl (count, buf) else .inr (a.status, count, buf)

def readRound (ask : ℕ → Client σ C (Option Response)) (failed : Errs → Errs) (len : ℕ) (s : ℕ × List UInt8) :
    Client σ C (Option ((ℕ × List UInt8) ⊕ (Errs × ℕ × List UInt8))) := do
  let r ← ask s.1
  return some (readStep failed len s r)

/-- Reading is made up of its rounds. -/
theorem readLoop_isLoop (ask : ℕ → Client σ C (Option Response)) (failed : Errs → Errs) (len : ℕ) :
    IsLoop (fun n s => readLoop ask failed len n s.1 s.2) (fun _ => none) (readRound ask failed len) where
  ends n s a h := by cases h
  out s h := rfl
  goes n s h := by
    rw [readLoop, readRound, bind_assoc]
    congr 1
    funext r
    cases r with
    | none => rfl
    | some a =>
      dsimp only
      rw [readStep, pure_bind]
      split
      · rfl
      · dsimp only
        split <;> rfl

end RFSV

open RFSV

namespace RFSV16

variable {σ : Type} (answer : Device σ Commands)

/-- What `fwrite` does with an answer to a request to write `nbytes`. -/
def fwriteStep (nbytes : ℕ) (s : Errs × ℕ × List UInt8) : Option Response → (Errs × ℕ × List UInt8) ⊕ (Errs × ℕ)
  | none => .inr (E_PSI_FILE_DISC, s.2.1)
  | some a =>
    if a.status ≠ E_PSI_GEN_NONE then .inr (a.status, s.2.1)
    else .inl (a.status, uint32 (s.2.1 + nbytes), s.2.2.drop nbytes)

def fwriteRound (handle len : ℕ) (s : Errs × ℕ × List UInt8) :
    Client σ Commands (Option ((Errs × ℕ × List UInt8) ⊕ (Errs × ℕ))) := do
  let nbytes := if len - s.2.1 > RFSV16_MAXDATALEN then RFSV16_MAXDATALEN else len - s.2.1
  let r ← sendCommand answer .SIBO_FWRITE (wordBytes handle ++ s.2.2.take nbytes)
  return some (fwriteStep nbytes s r)

/-- Writing is made up of its rounds. -/
theorem fwriteLoop_isLoop (handle len : ℕ) :
    IsLoop (fun n s => fwriteLoop answer handle len n s.1 s.2.1 s.2.2)
      (fun s => if s.2.1 < len then none else some (s.1, s.2.1)) (fwriteRound answer handle len) where
  ends n s a h := by
    split at h
    · cases h
    · rename_i hover
      cases h
      cases n <;> rw [fwriteLoop, if_neg hover]
  out s h := by
    split at h
    · rename_i hmore
      rw [fwriteLoop, if_pos hmore]
    · cases h
  goes n s h := by
    split at h
    · rename_i hmore
      rw [fwriteLoop, if_pos hmore, fwriteRound]
      dsimp only
      rw [bind_assoc]
      congr 1
      funext r
      cases r with
      | none => rfl
      | some a =>
        dsimp only
        rw [fwriteStep, pure_bind]
        split <;> rfl
    · cases h

/-- What a copy on the device does after it has written something. -/
def copyOnStep (cb : CpCallback) (s : ℕ × ℕ) (r : Errs × ℕ) : (ℕ × ℕ) ⊕ Errs :=
  if r.1 = E_PSI_GEN_NONE then
    let total := uint32 (s.2 + r.2)
    let res := report cb s.1 total r.1
    if r.2 > 0 ∧ res = E_PSI_GEN_NONE then .inl (s.1 + 1, total) else .inr res
  else .inr r.1

def copyOnRound (inner handle_from handle_to : ℕ) (cb : CpCallback) (s : ℕ × ℕ) :
    Client σ Commands (Option ((ℕ × ℕ) ⊕ Errs)) := do
  let some (res, len, buf) ← fread answer inner handle_from RFSV_SENDLEN
    | return none
  if res = E_PSI_GEN_NONE ∧ len > 0 then
    let r ← fwrite answer inner handle_to (buf.take len)
    return r.map (copyOnStep cb s)
  else return some (.inr res)

/-- A copy on the device is made up of its rounds. -/
theorem copyOnLoop_isLoop (inner handle_from handle_to : ℕ) (cb : CpCallback) :
    IsLoop (fun n s => copyOnLoop answer inner handle_from handle_to cb n s.1 s.2) (fun _ => none)
      (copyOnRound answer inner handle_from handle_to cb) where
  ends n s a h := by cases h
  out s h := rfl
  goes n s h := by
    rw [copyOnLoop, copyOnRound, bind_assoc]
    congr 1
    funext r
    rcases r with _ | ⟨res, len, buf⟩
    · rfl
    · dsimp only
      split
      · rw [bind_assoc]
        congr 1
        funext r
        rcases r with _ | ⟨res, wlen⟩
        · rfl
        · dsimp only
          rw [Option.map_some, copyOnStep, pure_bind]
          split
          · dsimp only
            split <;> rfl
          · rfl
      · rfl

end RFSV16

namespace RFSV32

variable {σ : Type} (answer : Device σ Commands)

/-- What `dircount` does with an answer. -/
def dircountStep (inner count : ℕ) : Option Response → Option (ℕ ⊕ (Bool × Errs × ℕ))
  | none => some (.inr (true, E_PSI_FILE_DISC, count))
  | some a =>
    if a.status ≠ E_PSI_GEN_NONE then some (.inr (false, a.status, count))
    else (countRecords inner a.data count).map .inl

def dircountRound (inner handle count : ℕ) : Client σ Commands (Option (ℕ ⊕ (Bool × Errs × ℕ))) := do
  let r ← sendCommand answer .READ_DIR (dwordBytes handle)
  return dircountStep inner count r

/-- A count is made up of its rounds. -/
theorem dircountLoop_isLoop (inner handle : ℕ) :
    IsLoop (fun n count => dircountLoop answer inner handle n count) (fun _ => none)
      (dircountRound answer inner handle) where
  ends n s a h := by cases h
  out s h := rfl
  goes n s h := by
    rw [dircountLoop, dircountRound, bind_assoc]
    congr 1
    funext r
    cases r with
    | none => rfl
    | some a =>
      dsimp only
      rw [dircountStep, pure_bind]
      split
      · rfl
      · cases countRecords inner a.data s <;> rfl

/-- What `fwrite` does with an answer to a request to write `l` bytes. -/
def fwriteStep (len l : ℕ) (s : Errs × ℕ × List UInt8) : Option Response → (Errs × ℕ × List UInt8) ⊕ (Errs × ℕ)
  | none => .inr (E_PSI_FILE_DISC, s.2.1)
  | some a =>
    if a.status ≠ E_PSI_GEN_NONE then .inr (a.status, s.2.1)
    else
      let count := uint32 (s.2.1 + l)
      if count < len then .inl (a.status, count, s.2.2.drop l) else .inr (a.status, count)

def fwriteRound (handle len : ℕ) (s : Errs × ℕ × List UInt8) :
    Client σ Commands (Option ((Errs × ℕ × List UInt8) ⊕ (Errs × ℕ))) := do
  let l := if len - s.2.1 > RFSV_SENDLEN then RFSV_SENDLEN else len - s.2.1
  if l > 0 then
    let r ← sendCommand answer .WRITE_FILE (dwordBytes handle ++ s.2.2.take l)
    return some (fwriteStep len l s r)
  else return some (.inr (s.1, s.2.1))

/-- Writing is made up of its rounds. -/
theorem fwriteLoop_isLoop (handle len : ℕ) :
    IsLoop (fun n s => fwriteLoop answer handle len n s.1 s.2.1 s.2.2) (fun _ => none)
      (fwriteRound answer handle len) where
  ends n s a h := by cases h
  out s h := rfl
  goes n s h := by
    rw [fwriteLoop, fwriteRound]
    generalize (if len - s.2.1 > RFSV_SENDLEN then RFSV_SENDLEN else len - s.2.1) = l
    dsimp only
    split
    · rw [bind_assoc]
      congr 1
      funext r
      cases r with
      | none => rfl
      | some a =>
        dsimp only
        rw [fwriteStep, pure_bind]
        split
        · rfl
        · dsimp only
          split <;> rfl
    · rfl

/-- What a copy on the device does with an answer. -/
def copyOnStep (cb : CpCallback) (s : ℕ × ℕ × Errs) : Option Response → (ℕ × ℕ × Errs) ⊕ (Bool × Errs)
  | none => .inr (true, E_PSI_FILE_DISC)
  | some b =>
    if b.status ≠ E_PSI_GEN_NONE then .inr (false, b.status)
    else if b.data.length ≠ 4 then .inr (false, E_PSI_GEN_FAIL)
    else
      let len := getDWord b.data 0
      let total := uint32 (s.2.1 + len)
      let res := report cb s.1 total b.status
      if len ≠ RFSV_SENDLEN * 10 then .inr (false, res) else .inl (s.1 + 1, total, res)

def copyOnRound (handle_from handle_to : ℕ) (cb : CpCallback) (s : ℕ × ℕ × Errs) :
    Client σ Commands (Option ((ℕ × ℕ × Errs) ⊕ (Bool × Errs))) := do
  let r ← sendCommand answer .READ_WRITE_FILE
    (dwordBytes (RFSV_SENDLEN * 10 : ℕ) ++ dwordBytes handle_to ++ dwordBytes handle_from)
  return some (copyOnStep cb s r)

/-- A copy on the device is made up of its rounds. -/
theorem copyOnLoop_isLoop (handle_from handle_to : ℕ) (cb : CpCallback) :
    IsLoop (fun n s => copyOnLoop answer handle_from handle_to cb n s.1 s.2.1 s.2.2)
      (fun s => if s.2.2 = E_PSI_GEN_NONE then none else some (false, s.2.2))
      (copyOnRound answer handle_from handle_to cb) where
  ends n s a h := by
    split at h
    · cases h
    · rename_i hover
      cases h
      cases n <;> rw [copyOnLoop, if_neg hover]
  out s h := by
    split at h
    · rename_i hmore
      rw [copyOnLoop, if_pos hmore]
    · cases h
  goes n s h := by
    split at h
    · rename_i hmore
      rw [copyOnLoop, if_pos hmore, copyOnRound, bind_assoc]
      congr 1
      funext r
      cases r with
      | none => rfl
      | some b =>
        dsimp only
        rw [copyOnStep, pure_bind]
        split
        · rfl
        · split
          · rfl
          · dsimp only
            split <;> rfl
    · cases h

end RFSV32

end Plptools
