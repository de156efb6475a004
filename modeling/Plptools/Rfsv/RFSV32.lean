import Plptools.Rfsv.RFSV

/-!
# The file service of an EPOC device

The functions of `RFSV32`, with the layout of the data of each command. Paths are counted strings,
handles are double words. The status of an answer is the error value that it is translated to.
-/

namespace Plptools

open Plptools.Library

open BufferStore (wordBytes dwordBytes)

namespace RFSV32

open RFSV

/-- The commands that the modelled functions send. -/
inductive Commands where
  | CLOSE_HANDLE
  | OPEN_DIR
  | READ_DIR
  | OPEN_FILE
  | READ_FILE
  | WRITE_FILE
  | SEEK_FILE
  | DELETE
  | REMOTE_ENTRY
  | SET_SIZE
  | READ_WRITE_FILE
  | CREATE_FILE
  | REPLACE_FILE
  | ATT
  | SET_ATT
  | DRIVE_INFO
deriving DecidableEq, Repr

def EPOC_ATTR_HIDDEN : ℕ := 0x0002

def EPOC_ATTR_SYSTEM : ℕ := 0x0004

def EPOC_ATTR_DIRECTORY : ℕ := 0x0010

def EPOC_ATTR_GETUID : ℕ := 0x10000000

def EPOC_OMODE_SHARE_EXCLUSIVE : ℕ := 0x0000

def EPOC_OMODE_SHARE_READERS : ℕ := 0x0001

def EPOC_OMODE_BINARY : ℕ := 0x0000

def EPOC_OMODE_READ_WRITE : ℕ := 0x0200

/-- EPOC attributes as standard attributes. -/
def attr2std (attr : ℕ) : ℕ :=
  attrIf attr 0x0001 PSI_A_RDONLY ||| attrIf attr EPOC_ATTR_HIDDEN PSI_A_HIDDEN |||
    attrIf attr EPOC_ATTR_SYSTEM PSI_A_SYSTEM ||| attrIf attr EPOC_ATTR_DIRECTORY PSI_A_DIR |||
    attrIf attr 0x0020 PSI_A_ARCHIVE ||| attrIf attr 0x0040 PSI_A_VOLUME |||
    attrIf attr 0x0080 PSI_A_NORMAL ||| attrIf attr 0x0100 PSI_A_TEMP |||
    attrIf attr 0x0800 PSI_A_COMPRESSED ||| PSI_A_READ

/-- Standard attributes as EPOC attributes. -/
def std2attr (attr : ℕ) : ℕ :=
  attrIf attr PSI_A_RDONLY 0x0001 ||| attrIf attr PSI_A_HIDDEN EPOC_ATTR_HIDDEN |||
    attrIf attr PSI_A_SYSTEM EPOC_ATTR_SYSTEM ||| attrIf attr PSI_A_DIR EPOC_ATTR_DIRECTORY |||
    attrIf attr PSI_A_ARCHIVE 0x0020 ||| attrIf attr PSI_A_VOLUME 0x0040 |||
    attrIf attr PSI_A_NORMAL 0x0080 ||| attrIf attr PSI_A_TEMP 0x0100 |||
    attrIf attr PSI_A_COMPRESSED 0x0800

/-- A path behind its length. -/
def counted (name : List UInt8) : List UInt8 :=
  let n := convertSlash name
  wordBytes n.length ++ n

/-- The data of a request to open something. -/
def openData (attr : ℕ) (name : List UInt8) : List UInt8 := dwordBytes attr ++ counted name

variable {σ : Type} (answer : Device σ Commands)

/-- The four commands that open something. A handle is taken from an answer of four bytes only;
`handle` is what the caller's variable holds before. -/
def openWith (cc : Commands) (attr : ℕ) (name : List UInt8) (handle : ℕ) :
    Client σ Commands (Errs × ℕ) := do
  let some a ← sendCommand answer cc (openData attr name)
    | return (E_PSI_FILE_DISC, handle)
  if a.status = E_PSI_GEN_NONE ∧ a.data.length = 4 then return (a.status, getDWord a.data 0)
  else return (a.status, handle)

/-- Opening when the device is up. -/
theorem openWith_up {answer : σ → Request Commands → Response × σ} {cc : Commands} {attr : ℕ}
    {name : List UInt8} {s : Session σ (Request Commands) (Option Response)} {a : Response} {d : σ}
    (h : answer s.server ⟨cc, openData attr name⟩ = (a, d)) (handle : ℕ) :
    openWith (up answer) cc attr name handle s =
      ((a.status, if a.status = E_PSI_GEN_NONE ∧ a.data.length = 4 then getDWord a.data 0 else handle),
        ⟨d, s.log ++ [(⟨cc, openData attr name⟩, some a)]⟩) := by
  rw [openWith, Dialogue.bind_apply, sendCommand, Dialogue.ask_apply, up, h]
  dsimp only
  split <;> rfl

def fopen (attr : ℕ) (name : List UInt8) (handle : ℕ) : Client σ Commands (Errs × ℕ) :=
  openWith answer .OPEN_FILE attr name handle

def fcreatefile (attr : ℕ) (name : List UInt8) (handle : ℕ) : Client σ Commands (Errs × ℕ) :=
  openWith answer .CREATE_FILE attr name handle

def freplacefile (attr : ℕ) (name : List UInt8) (handle : ℕ) : Client σ Commands (Errs × ℕ) :=
  openWith answer .REPLACE_FILE attr name handle

def fopendir (attr : ℕ) (name : List UInt8) (handle : ℕ) : Client σ Commands (Errs × ℕ) :=
  openWith answer .OPEN_DIR (attr ||| EPOC_ATTR_GETUID) name handle

def fclose (handle : ℕ) : Client σ Commands Errs := do
  let some a ← sendCommand answer .CLOSE_HANDLE (dwordBytes handle)
    | return E_PSI_FILE_DISC
  return a.status

/-- Closing when the device is up. -/
theorem fclose_up {answer : σ → Request Commands → Response × σ} {handle : ℕ}
    {s : Session σ (Request Commands) (Option Response)} {a : Response} {d : σ}
    (h : answer s.server ⟨.CLOSE_HANDLE, dwordBytes handle⟩ = (a, d)) :
    fclose (up answer) handle s =
      (a.status, ⟨d, s.log ++ [(⟨.CLOSE_HANDLE, dwordBytes handle⟩, some a)]⟩) := by
  rw [fclose, Dialogue.bind_apply, sendCommand, Dialogue.ask_apply, up, h]
  rfl

/-- The attributes of a file; `attr` is what the caller's variable holds before. -/
def fgetattr (name : List UInt8) (attr : ℕ) : Client σ Commands (Errs × ℕ) := do
  let some a ← sendCommand answer .ATT (counted name)
    | return (E_PSI_FILE_DISC, attr)
  if a.status ≠ E_PSI_GEN_NONE then return (a.status, attr)
  else return (a.status, attr2std (getDWord a.data 0))

/-- The data of a request to change attributes. -/
def setattrData (name : List UInt8) (seta unseta : ℕ) : List UInt8 :=
  dwordBytes (std2attr seta) ++ dwordBytes (std2attr unseta) ++ counted name

/-- Set the attributes `seta` of a file and clear `unseta`. -/
def fsetattr (name : List UInt8) (seta unseta : ℕ) : Client σ Commands Errs := do
  let some a ← sendCommand answer .SET_ATT (setattrData name seta unseta)
    | return E_PSI_FILE_DISC
  return a.status

/-- Open a directory. The handle is a local variable that is not initialised: `uninit` is what it
holds. -/
def opendir (attr : ℕ) (name : List UInt8) (uninit : ℕ) :
    Client σ Commands (Errs × RFSVDirHandle) := do
  let (res, handle) ← fopendir answer (std2attr attr) name uninit
  return (res, ⟨handle, [], name⟩)

def closedir (dH : RFSVDirHandle) : Client σ Commands Errs := fclose answer dH.h

/-- The next multiple of four. -/
def align4 (d : ℤ) : ℤ := d + (4 - d % 4) % 4

/-- How long a record is, with its long and its short name. This is computed in 32-bit integers. -/
def recordLen (a : List UInt8) : ℤ :=
  let d := align4 (int32 (36 + getDWord a 32))
  align4 (int32 (d + getDWord a 0))

/-- The next entry of the records that were read, if there is one. Stepping back leaves the records as they are. -/
def nextEntry (res : Errs) (dH : RFSVDirHandle) (e : PlpDirent) : Errs × RFSVDirHandle × PlpDirent :=
  if res = E_PSI_GEN_NONE ∧ dH.b.length > 16 then
    let longLen := getDWord dH.b 32
    (res, { dH with b := dH.b.drop (recordLen dH.b).toNat },
      { size := getDWord dH.b 8
        attr := attr2std (getDWord dH.b 4)
        UID := (getDWord dH.b 20, getDWord dH.b 24, getDWord dH.b 28)
        time := .epoc (getDWord dH.b 16) (getDWord dH.b 12)
        dirname := dH.name
        name := (List.range longLen).map fun i => dH.b.getD (36 + i) 0 })
  else (res, dH, e)

/-- Read the next entry of a directory, asking the device for more when none is left. -/
def readdir (dH : RFSVDirHandle) (e : PlpDirent) :
    Client σ Commands (Errs × RFSVDirHandle × PlpDirent) := do
  if dH.b.length < 17 then
    let some a ← sendCommand answer .READ_DIR (dwordBytes dH.h)
      | return (E_PSI_FILE_DISC, { dH with b := dwordBytes dH.h }, e)
    return nextEntry a.status { dH with b := a.data } e
  else return nextEntry E_PSI_GEN_NONE dH e

/-- List a directory. It is closed whether it could be opened or not. -/
def dir (fuel : ℕ) (name : List UInt8) (uninit : ℕ) :
    Client σ Commands (Option (Errs × List PlpDirent)) := do
  let (res, h) ← opendir answer (PSI_A_HIDDEN ||| PSI_A_SYSTEM ||| PSI_A_DIR) name uninit
  let some (res, h, files) ← dirLoop (readdir answer) fuel res h []
    | return none
  let _ ← closedir answer h
  return some (if res = E_PSI_FILE_EOF then E_PSI_GEN_NONE else res, files)

/-- Count the records of one response. Stepping back, or not at all, leaves the response as it is. -/
def countRecords : ℕ → List UInt8 → ℕ → Option ℕ
  | fuel, a, count =>
    if a.length > 16 then
      match fuel with
      | 0 => none
      | fuel + 1 =>
        countRecords fuel (a.drop (recordLen a).toNat) (uint32 (count + 1))
    else some count

/-- The rounds of `dircount`; the flag tells that a command could not be sent. -/
def dircountLoop (inner handle : ℕ) :
    ℕ → ℕ → Client σ Commands (Option (Bool × Errs × ℕ))
  | 0, _ => return none
  | fuel + 1, count => do
    let some a ← sendCommand answer .READ_DIR (dwordBytes handle)
      | return some (true, E_PSI_FILE_DISC, count)
    if a.status ≠ E_PSI_GEN_NONE then return some (false, a.status, count)
    else
      match countRecords inner a.data count with
      | none => return none
      | some count => dircountLoop inner handle fuel count

/-- Count the entries of a directory. -/
def dircount (fuel : ℕ) (name : List UInt8) (uninit : ℕ) :
    Client σ Commands (Option (Errs × ℕ)) := do
  let (res, handle) ← fopendir answer
    (EPOC_ATTR_HIDDEN ||| EPOC_ATTR_SYSTEM ||| EPOC_ATTR_DIRECTORY) name uninit
  if res ≠ E_PSI_GEN_NONE then return some (res, 0)
  else
    let some (unsent, res, count) ← dircountLoop answer fuel handle fuel 0
      | return none
    if unsent then return some (res, count)
    else
      let _ ← fclose answer handle
      return some (if res = E_PSI_FILE_EOF then E_PSI_GEN_NONE else res, count)

/-- One round of `fread` and those after it: `count` bytes, `buf`, have been read. -/
def freadLoop (handle len : ℕ) :
    ℕ → ℕ → List UInt8 → Client σ Commands (Option (Errs × ℕ × List UInt8))
  | 0, _, _ => return none
  | fuel + 1, count, buf => do
    let some a ← sendCommand answer .READ_FILE (dwordBytes handle ++
        dwordBytes (if len - count > RFSV_SENDLEN then RFSV_SENDLEN else len - count : ℕ))
      | return some (E_PSI_FILE_DISC, count, buf)
    if a.status ≠ E_PSI_GEN_NONE then return some (a.status, count, buf)
    else
      let l := a.data.length
      let count := uint32 (count + l)
      let buf := buf ++ a.data
      if count < len ∧ l > 0 then freadLoop handle len fuel count buf
      else return some (a.status, count, buf)

/-- Read up to `len` bytes: the error, the count, and what was put into the buffer. -/
def fread (fuel handle len : ℕ) : Client σ Commands (Option (Errs × ℕ × List UInt8)) :=
  freadLoop answer handle len fuel 0 []

/-- The rounds of `fwrite`: `count` bytes have been written, `p` are left. -/
def fwriteLoop (handle len : ℕ) :
    ℕ → Errs → ℕ → List UInt8 → Client σ Commands (Option (Errs × ℕ))
  | 0, _, _, _ => return none
  | fuel + 1, res, count, p => do
    let l := if len - count > RFSV_SENDLEN then RFSV_SENDLEN else len - count
    if l > 0 then
      let some a ← sendCommand answer .WRITE_FILE (dwordBytes handle ++ p.take l)
        | return some (E_PSI_FILE_DISC, count)
      if a.status ≠ E_PSI_GEN_NONE then return some (a.status, count)
      else
        let count := uint32 (count + l)
        if count < len then fwriteLoop handle len fuel a.status count (p.drop l)
        else return some (a.status, count)
    else return some (res, count)

/-- Write the bytes of the buffer: the error and the count. The error value starts as none. -/
def fwrite (fuel handle : ℕ) (buf : List UInt8) : Client σ Commands (Option (Errs × ℕ)) :=
  fwriteLoop answer handle buf.length fuel E_PSI_GEN_NONE 0 buf

/-- Copy a file of the device to a local file; `writable` tells whether that can be opened. -/
def copyFromPsion (fuel : ℕ) («from» : List UInt8) (writable : Bool) (cb : CpCallback)
    (uninit : ℕ) : Client σ Commands (Option (Errs × List UInt8)) := do
  let (res, handle) ← fopen answer (EPOC_OMODE_SHARE_READERS ||| EPOC_OMODE_BINARY) «from» uninit
  if res ≠ E_PSI_GEN_NONE then return some (res, [])
  else if !writable then
    let _ ← fclose answer handle
    return some (E_PSI_GEN_FAIL, [])
  else
    let some (res, op) ← copyFromLoop (fread answer fuel handle RFSV_SENDLEN) cb fuel 0 0 []
      | return none
    let _ ← fclose answer handle
    return some (res, op)

/-- The overload for an open file descriptor. -/
def copyFromPsionFd (fuel : ℕ) («from» : List UInt8) (cb : CpCallback) (uninit : ℕ) :
    Client σ Commands (Option (Errs × List UInt8)) := do
  let (res, handle) ← fopen answer (EPOC_OMODE_SHARE_READERS ||| EPOC_OMODE_BINARY) «from» uninit
  if res ≠ E_PSI_GEN_NONE then return some (res, [])
  else
    let some (res, op) ← copyFromLoop (fread answer fuel handle RFSV_SENDLEN) cb fuel 0 0 []
      | return none
    let _ ← fclose answer handle
    return some (res, op)

/-- The mode in which the target of a copy is opened. -/
def targetMode : ℕ := EPOC_OMODE_BINARY ||| EPOC_OMODE_SHARE_EXCLUSIVE ||| EPOC_OMODE_READ_WRITE

/-- Create a file, or replace the one that is there. -/
def createOrReplace (attr : ℕ) (name : List UInt8) (handle : ℕ) :
    Client σ Commands (Errs × ℕ) := do
  let (res, handle) ← fcreatefile answer attr name handle
  if res ≠ E_PSI_GEN_NONE then freplacefile answer attr name handle
  else return (res, handle)

/-- Copy a local file to the device; there is no content when it cannot be opened. -/
def copyToPsion (fuel : ℕ) («from» : Option (List UInt8)) («to» : List UInt8) (cb : CpCallback)
    (uninit : ℕ) : Client σ Commands (Option Errs) := do
  match «from» with
  | none => return some RFSV.E_PSI_FILE_NXIST
  | some ip =>
    let (res, handle) ← createOrReplace answer targetMode «to» uninit
    if res ≠ E_PSI_GEN_NONE then return some res
    else
      let some res ← copyToLoop (fwrite answer fuel handle) cb fuel res false 0 0 ip
        | return none
      let _ ← fclose answer handle
      return some res

/-- Look up the entry of a file. -/
def fgeteattr (name : List UInt8) (e : PlpDirent) : Client σ Commands (Errs × PlpDirent) := do
  let e := { e with name := ((convertSlash name).reverse.takeWhile (· != 0x5c)).reverse }
  let some a ← sendCommand answer .REMOTE_ENTRY (counted name)
    | return (E_PSI_FILE_DISC, e)
  if a.status ≠ E_PSI_GEN_NONE then return (a.status, e)
  else
    return (a.status, { e with
      attr := attr2std (getDWord a.data 4)
      size := getDWord a.data 8
      UID := (getDWord a.data 20, getDWord a.data 24, getDWord a.data 28)
      time := .epoc (getDWord a.data 16) (getDWord a.data 12) })

def remove (name : List UInt8) : Client σ Commands Errs := do
  let some a ← sendCommand answer .DELETE (counted name)
    | return E_PSI_FILE_DISC
  return a.status

/-- The rounds of a copy on the device; the flag tells that a command could not be sent. -/
def copyOnLoop (handle_from handle_to : ℕ) (cb : CpCallback) :
    ℕ → ℕ → ℕ → Errs → Client σ Commands (Option (Bool × Errs))
  | fuel, calls, total, res => do
    if res = E_PSI_GEN_NONE then
      match fuel with
      | 0 => return none
      | fuel + 1 =>
        let some b ← sendCommand answer .READ_WRITE_FILE
            (dwordBytes (RFSV_SENDLEN * 10 : ℕ) ++ dwordBytes handle_to ++ dwordBytes handle_from)
          | return some (true, E_PSI_FILE_DISC)
        if b.status ≠ E_PSI_GEN_NONE then return some (false, b.status)
        else if b.data.length ≠ 4 then return some (false, E_PSI_GEN_FAIL)
        else
          let len := getDWord b.data 0
          let total := uint32 (total + len)
          let res := report cb calls total b.status
          if len ≠ RFSV_SENDLEN * 10 then return some (false, res)
          else copyOnLoop handle_from handle_to cb fuel (calls + 1) total res
    else return some (false, res)

/-- Copy a file of the device to another one. The local variables for the handles are not
initialised. -/
def copyOnPsion (fuel : ℕ) («from» «to» : List UInt8) (cb : CpCallback)
    (uninitFrom uninitTo : ℕ) : Client σ Commands (Option Errs) := do
  let (res, _) ← fgeteattr answer «from» PlpDirent.new
  if res ≠ E_PSI_GEN_NONE then return some res
  else
    let (res, handle_from) ← fopen answer (EPOC_OMODE_SHARE_READERS ||| EPOC_OMODE_BINARY) «from»
      uninitFrom
    if res ≠ E_PSI_GEN_NONE then return some res
    else
      let (res, handle_to) ← createOrReplace answer targetMode «to» uninitTo
      if res ≠ E_PSI_GEN_NONE then
        let _ ← fclose answer handle_from
        return some res
      else
        let some (unsent, res) ← copyOnLoop answer handle_from handle_to cb fuel 0 0 res
          | return none
        if unsent then return some res
        else
          let _ ← fclose answer handle_from
          let _ ← fclose answer handle_to
          if res ≠ E_PSI_GEN_NONE then
            let _ ← remove answer «to»
            return some res
          else return some res

/-- Send a seek request whose data is appended to the content `a` of the buffer. -/
def seekRequest (a : List UInt8) (handle : ℕ) (pos : ℤ) (mode : ℕ) :
    Client σ Commands (Option Response) :=
  sendCommand answer .SEEK_FILE (a ++ dwordBytes pos ++ dwordBytes handle ++ dwordBytes mode)

/-- Set the size of a file. -/
def setSize (handle size : ℕ) : Client σ Commands (Option Response) :=
  sendCommand answer .SET_SIZE (dwordBytes handle ++ dwordBytes size)

/-- The last part of `fseek`, with the position `savpos` that was asked for before. -/
def realSeek (handle : ℕ) (mypos : ℤ) (mode savpos resultpos : ℕ) :
    Client σ Commands (Errs × ℕ) := do
  let some a ← seekRequest answer [] handle mypos mode
    | return (E_PSI_FILE_DISC, resultpos)
  if a.status ≠ E_PSI_GEN_NONE then return (a.status, resultpos)
  else
    let realpos := getDWord a.data 0
    if mode = PSI_SEEK_END then return (a.status, realpos)
    else
      let calcpos := if mode = PSI_SEEK_SET then uint32 mypos else uint32 (savpos + mypos)
      if calcpos > realpos then
        let some a ← setSize answer handle calcpos
          | return (E_PSI_FILE_DISC, resultpos)
        if a.status ≠ E_PSI_GEN_NONE then return (a.status, resultpos)
        else
          -- the request is appended to the answer
          let some a ← seekRequest answer a.data handle calcpos PSI_SEEK_SET
            | return (E_PSI_FILE_DISC, resultpos)
          if a.status ≠ E_PSI_GEN_NONE then return (a.status, resultpos)
          else return (a.status, getDWord a.data 0)
      else return (a.status, realpos)

/-- Expand the file up to the target, and move to its new end. -/
def expandSeek (handle : ℕ) (pos : ℤ) (mode savpos resultpos : ℕ) : Client σ Commands (Errs × ℕ) := do
  let some a ← setSize answer handle (uint32 (savpos + pos))
    | return (E_PSI_FILE_DISC, resultpos)
  if a.status ≠ E_PSI_GEN_NONE then return (a.status, resultpos)
  else realSeek answer handle 0 mode savpos resultpos

/-- Seek like Unix does: the error, and what the caller's `resultpos` holds afterwards. -/
def fseek (handle : ℕ) (pos : ℤ) (mode resultpos : ℕ) : Client σ Commands (Errs × ℕ) :=
  fseekWith (seekRequest answer [] handle 0 mode)
    (fun savpos _ =>
      if mode = PSI_SEEK_END then expandSeek answer handle pos mode savpos resultpos
      else realSeek answer handle pos mode savpos resultpos)
    (realSeek answer handle pos mode 0 resultpos) pos mode resultpos

end RFSV32

end Plptools
