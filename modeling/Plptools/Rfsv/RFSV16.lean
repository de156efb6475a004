import Plptools.Rfsv.RFSV
import Plptools.Library.Flags

/-!
# The file service of a SIBO device

The functions of `RFSV16`, with the layout of the data of each command. Paths are C strings that
end in a zero byte, handles are words.
-/

namespace Plptools

open Plptools.Library

open BufferStore (wordBytes dwordBytes)

namespace RFSV16

open RFSV

/-- The commands that the modelled functions send. -/
inductive Commands where
  | SIBO_FOPEN
  | SIBO_FCLOSE
  | SIBO_FREAD
  | SIBO_FDIRREAD
  | SIBO_FWRITE
  | SIBO_FSEEK
  | SIBO_FSETEOF
  | SIBO_FINFO
  | SIBO_SFSTAT
  | SIBO_PARSE
  | SIBO_STATUSDEVICE
deriving DecidableEq, Repr

def P_FCREATE : ℕ := 0x0001

def P_FREPLACE : ℕ := 0x0002

def P_FSTREAM : ℕ := 0x0000

def P_FDIR : ℕ := 0x0030

def P_FUPDATE : ℕ := 0x0100

def P_FRANDOM : ℕ := 0x0200

def P_FSHARE : ℕ := 0x0400

/-- The most data bytes in one frame. -/
def RFSV16_MAXDATALEN : ℕ := 852

/-- SIBO attributes as standard attributes; the write bit is inverted. -/
def attr2std (attr : ℕ) : ℕ :=
  (if attr &&& 0x0001 = 0 then PSI_A_RDONLY else 0) ||| attrIf attr 0x0002 PSI_A_HIDDEN |||
    attrIf attr 0x0004 PSI_A_SYSTEM ||| attrIf attr 0x0010 PSI_A_DIR |||
    attrIf attr 0x0020 PSI_A_ARCHIVE ||| attrIf attr 0x0008 PSI_A_VOLUME |||
    attrIf attr 0x0100 PSI_A_READ ||| attrIf attr 0x0200 PSI_A_EXEC |||
    attrIf attr 0x0400 PSI_A_STREAM ||| attrIf attr 0x0800 PSI_A_TEXT ||| PSI_A_NORMAL

/-- Standard attributes as SIBO attributes. -/
def std2attr (attr : ℕ) : ℕ :=
  (if attr &&& PSI_A_RDONLY = 0 then 0x0001 else 0) ||| attrIf attr PSI_A_HIDDEN 0x0002 |||
    attrIf attr PSI_A_SYSTEM 0x0004 ||| attrIf attr PSI_A_DIR 0x0010 |||
    attrIf attr PSI_A_ARCHIVE 0x0020 ||| attrIf attr PSI_A_VOLUME 0x0008 |||
    attrIf attr PSI_A_READ 0x0100 ||| attrIf attr PSI_A_EXEC 0x0200 |||
    attrIf attr PSI_A_STREAM 0x0400 ||| attrIf attr PSI_A_TEXT 0x0800

/-- The data of a request to open something; random access is always allowed. -/
def openData (attr : ℕ) (name : List UInt8) : List UInt8 :=
  wordBytes ((P_FRANDOM ||| attr) &&& 0xffff : ℕ) ++ convertSlash name ++ [0]

variable {σ : Type} (answer : Device σ Commands)

/-- Open a file or a directory; `handle` is what the caller's variable holds before. -/
def fopen (attr : ℕ) (name : List UInt8) (handle : ℕ) : Client σ Commands (Errs × ℕ) := do
  let some a ← sendCommand answer .SIBO_FOPEN (openData attr name)
    | return (E_PSI_FILE_DISC, handle)
  if a.status = E_PSI_GEN_NONE then return (E_PSI_GEN_NONE, getWord a.data 0)
  else return (a.status, handle)

/-- Opening when the device is up. -/
theorem fopen_up {answer : σ → Request Commands → Response × σ} {attr : ℕ} {name : List UInt8}
    {s : Session σ (Request Commands) (Option Response)} {a : Response} {d : σ}
    (h : answer s.server ⟨.SIBO_FOPEN, openData attr name⟩ = (a, d)) (handle : ℕ) :
    fopen (up answer) attr name handle s =
      (if a.status = E_PSI_GEN_NONE then (E_PSI_GEN_NONE, getWord a.data 0) else (a.status, handle),
        ⟨d, s.log ++ [(⟨.SIBO_FOPEN, openData attr name⟩, some a)]⟩) := by
  rw [fopen, Dialogue.bind_apply, sendCommand, Dialogue.ask_apply, up, h]
  dsimp only
  split <;> rfl

def fcreatefile (attr : ℕ) (name : List UInt8) (handle : ℕ) : Client σ Commands (Errs × ℕ) :=
  fopen answer (attr ||| P_FCREATE) name handle

def freplacefile (attr : ℕ) (name : List UInt8) (handle : ℕ) : Client σ Commands (Errs × ℕ) :=
  fopen answer (attr ||| P_FREPLACE) name handle

def fopendir (name : List UInt8) (handle : ℕ) : Client σ Commands (Errs × ℕ) :=
  fopen answer P_FDIR name handle

def fclose (fileHandle : ℕ) : Client σ Commands Errs := do
  let some a ← sendCommand answer .SIBO_FCLOSE (wordBytes (fileHandle &&& 0xffff : ℕ))
    | return E_PSI_FILE_DISC
  return a.status

/-- Closing when the device is up. -/
theorem fclose_up {answer : σ → Request Commands → Response × σ} {handle : ℕ}
    {s : Session σ (Request Commands) (Option Response)} {a : Response} {d : σ}
    (h : answer s.server ⟨.SIBO_FCLOSE, wordBytes handle⟩ = (a, d)) :
    fclose (up answer) handle s =
      (a.status, ⟨d, s.log ++ [(⟨.SIBO_FCLOSE, wordBytes handle⟩, some a)]⟩) := by
  rw [fclose, wordBytes_and, Dialogue.bind_apply, sendCommand, Dialogue.ask_apply, up, h]
  rfl

/-- The attributes of a file, where the answer is as long as it should be; `attr` is what the caller's
variable holds before. -/
def fgetattr (name : List UInt8) (attr : ℕ) : Client σ Commands (Errs × ℕ) := do
  let some a ← sendCommand answer .SIBO_FINFO (convertSlash name ++ [0])
    | return (E_PSI_FILE_DISC, attr)
  if a.status ≠ E_PSI_GEN_NONE then return (a.status, attr)
  else if a.data.length = 16 then return (a.status, attr2std (getWord a.data 2))
  else return (E_PSI_GEN_FAIL, attr)

/-- The data of a request to change attributes: the new status word and which of its bits count. -/
def setattrData (name : List UInt8) (seta unseta : ℕ) : List UInt8 :=
  let statusword := andNot (std2attr seta) (std2attr unseta) ^^^ 0x0000001
  let bitmask := std2attr seta ||| std2attr unseta
  wordBytes (statusword &&& 0xffff : ℕ) ++ wordBytes (bitmask &&& 0xffff : ℕ) ++ cString name ++ [0]

/-- Set the attributes `seta` of a file and clear `unseta`. -/
def fsetattr (name : List UInt8) (seta unseta : ℕ) : Client σ Commands Errs := do
  let some a ← sendCommand answer .SIBO_SFSTAT (setattrData name seta unseta)
    | return E_PSI_FILE_DISC
  return a.status

/-- Open a directory. The handle is a local variable that is not initialised: `uninit` is what it
holds. -/
def opendir (name : List UInt8) (uninit : ℕ) : Client σ Commands (Errs × RFSVDirHandle) := do
  let (res, handle) ← fopendir answer name uninit
  return (res, ⟨handle, [], name⟩)

def closedir (dH : RFSVDirHandle) : Client σ Commands Errs := fclose answer dH.h

/-- The next entry of the records that were read, if there is one. -/
def nextEntry (res : Errs) (dH : RFSVDirHandle) (e : PlpDirent) : Errs × RFSVDirHandle × PlpDirent :=
  if res = E_PSI_GEN_NONE ∧ dH.b.length > 16 then
    if getWord dH.b 0 ≠ 2 then (E_PSI_GEN_FAIL, dH, e)
    else
      let name := cString (dH.b.drop 16)
      (res, { dH with b := dH.b.drop (17 + name.length) },
        { e with
          attr := attr2std (getWord dH.b 2)
          size := getDWord dH.b 4
          time := .sibo (getDWord dH.b 8)
          dirname := dH.name
          name := name })
  else (res, dH, e)

/-- Read the next entry of a directory, asking the device for more when none is left. -/
def readdir (dH : RFSVDirHandle) (e : PlpDirent) :
    Client σ Commands (Errs × RFSVDirHandle × PlpDirent) := do
  if dH.b.length < 17 then
    let some a ← sendCommand answer .SIBO_FDIRREAD (wordBytes (dH.h &&& 0xffff : ℕ))
      | return (E_PSI_FILE_DISC, { dH with b := wordBytes (dH.h &&& 0xffff : ℕ) }, e)
    if a.status = E_PSI_GEN_NONE then
      let bufferLen := getWord a.data 0
      let dH := { dH with b := a.data.drop 2 }
      if dH.b.length ≠ bufferLen then return (E_PSI_GEN_FAIL, dH, e)
      else return nextEntry a.status dH e
    else return nextEntry a.status { dH with b := a.data } e
  else return nextEntry E_PSI_GEN_NONE dH e

/-- List a directory. It is closed whether it could be opened or not. -/
def dir (fuel : ℕ) (name : List UInt8) (uninit : ℕ) :
    Client σ Commands (Option (Errs × List PlpDirent)) := do
  let (res, h) ← opendir answer name uninit
  let some (res, h, files) ← dirLoop (readdir answer) fuel res h []
    | return none
  let _ ← closedir answer h
  return some (if res = E_PSI_FILE_EOF then E_PSI_GEN_NONE else res, files)

/-- Count the entries of a directory on top of `count`. -/
def dircount (fuel : ℕ) (name : List UInt8) (uninit count : ℕ) :
    Client σ Commands (Option (Errs × ℕ)) := do
  let (res, h) ← opendir answer name uninit
  let some (res, h, files) ← dirLoop (readdir answer) fuel res h []
    | return none
  let _ ← closedir answer h
  return some (if res = E_PSI_FILE_EOF then E_PSI_GEN_NONE else res, uint32 (count + files.length))

/-- One round of `fread` and those after it: `count` bytes, `buf`, have been read. -/
def freadLoop (handle len : ℕ) :
    ℕ → ℕ → List UInt8 → Client σ Commands (Option (Errs × ℕ × List UInt8))
  | 0, _, _ => return none
  | fuel + 1, count, buf => do
    let some a ← sendCommand answer .SIBO_FREAD (wordBytes handle ++
        wordBytes (if len - count > RFSV16_MAXDATALEN then RFSV16_MAXDATALEN else len - count : ℕ))
      | return some (E_PSI_FILE_DISC, count, buf)
    if a.status ≠ E_PSI_GEN_NONE then
      if a.status = E_PSI_FILE_EOF then return some (E_PSI_GEN_NONE, count, buf)
      else return some (a.status, count, buf)
    else
      let l := a.data.length
      let count := uint32 (count + l)
      let buf := buf ++ a.data
      if count < len ∧ l > 0 then freadLoop handle len fuel count buf
      else return some (a.status, count, buf)

/-- Read up to `len` bytes: the error, the count, and what was put into the buffer. -/
def fread (fuel handle len : ℕ) : Client σ Commands (Option (Errs × ℕ × List UInt8)) :=
  freadLoop answer handle len fuel 0 []

/-- The rounds of `fwrite`: `count` bytes have been written, `p` are left. -/
def fwriteLoop (handle len : ℕ) :
    ℕ → Errs → ℕ → List UInt8 → Client σ Commands (Option (Errs × ℕ))
  | fuel, res, count, p => do
    if count < len then
      match fuel with
      | 0 => return none
      | fuel + 1 =>
        let nbytes := if len - count > RFSV16_MAXDATALEN then RFSV16_MAXDATALEN else len - count
        let some a ← sendCommand answer .SIBO_FWRITE (wordBytes handle ++ p.take nbytes)
          | return some (E_PSI_FILE_DISC, count)
        if a.status ≠ E_PSI_GEN_NONE then return some (a.status, count)
        else fwriteLoop handle len fuel a.status (uint32 (count + nbytes)) (p.drop nbytes)
    else return some (res, count)

/-- Write the bytes of the buffer: the error and the count. The error value starts as none. -/
def fwrite (fuel handle : ℕ) (buf : List UInt8) : Client σ Commands (Option (Errs × ℕ)) :=
  fwriteLoop answer handle buf.length fuel E_PSI_GEN_NONE 0 buf

/-- The end of the file is no error for the caller. -/
def unlessEof (res : Errs) : Errs := if res = E_PSI_FILE_EOF then E_PSI_GEN_NONE else res

/-- Copy a file of the device to a local file; `writable` tells whether that can be opened. -/
def copyFromPsion (fuel : ℕ) («from» : List UInt8) (writable : Bool) (cb : CpCallback)
    (uninit : ℕ) : Client σ Commands (Option (Errs × List UInt8)) := do
  let (res, handle) ← fopen answer (P_FSHARE ||| P_FSTREAM) «from» uninit
  if res ≠ E_PSI_GEN_NONE then return some (res, [])
  else if !writable then
    let _ ← fclose answer handle
    return some (E_PSI_GEN_FAIL, [])
  else
    let some (res, op) ← copyFromLoop (fread answer fuel handle RFSV_SENDLEN) cb fuel 0 0 []
      | return none
    let _ ← fclose answer handle
    return some (unlessEof res, op)

/-- The overload for an open file descriptor. -/
def copyFromPsionFd (fuel : ℕ) («from» : List UInt8) (cb : CpCallback) (uninit : ℕ) :
    Client σ Commands (Option (Errs × List UInt8)) := do
  let (res, handle) ← fopen answer (P_FSHARE ||| P_FSTREAM) «from» uninit
  if res ≠ E_PSI_GEN_NONE then return some (res, [])
  else
    let some (res, op) ← copyFromLoop (fread answer fuel handle RFSV_SENDLEN) cb fuel 0 0 []
      | return none
    let _ ← fclose answer handle
    return some (unlessEof res, op)

/-- Create a file, or replace the one that is there. -/
def createOrReplace (attr : ℕ) (name : List UInt8) (handle : ℕ) :
    Client σ Commands (Errs × ℕ) := do
  let (res, handle) ← fcreatefile answer attr name handle
  if res ≠ E_PSI_GEN_NONE then freplacefile answer attr name handle
  else return (res, handle)

/-- Copy a local file to the device; there is no content when it cannot be opened. -/
def copyToPsion (fuel : ℕ) («from» : Option (List UInt8)) («to» : List UInt8) (cb : CpCallback)
    (uninit : ℕ) : Client σ Commands (Option Errs) := do
  match «from» with
  | none => return some RFSV.E_PSI_FILE_NXIST
  | some ip =>
    let (res, handle) ← createOrReplace answer (P_FSTREAM ||| P_FUPDATE) «to» uninit
    if res ≠ E_PSI_GEN_NONE then return some res
    else
      let some res ← copyToLoop (fwrite answer fuel handle) cb fuel res false 0 0 ip
        | return none
      let _ ← fclose answer handle
      return some res

/-- The rounds of a copy on the device. The length of the last write is looked at only after a
write. -/
def copyOnLoop (inner handle_from handle_to : ℕ) (cb : CpCallback) :
    ℕ → ℕ → ℕ → Client σ Commands (Option Errs)
  | 0, _, _ => return none
  | fuel + 1, calls, total => do
    let some (res, len, buf) ← fread answer inner handle_from RFSV_SENDLEN
      | return none
    if res = E_PSI_GEN_NONE ∧ len > 0 then
      let some (res, wlen) ← fwrite answer inner handle_to (buf.take len)
        | return none
      if res = E_PSI_GEN_NONE then
        let total := uint32 (total + wlen)
        let res := report cb calls total res
        if wlen > 0 ∧ res = E_PSI_GEN_NONE then
          copyOnLoop inner handle_from handle_to cb fuel (calls + 1) total
        else return some res
      else return some res
    else return some res

/-- Copy a file of the device to another one. The local variables for the handles are not
initialised. -/
def copyOnPsion (fuel : ℕ) («from» «to» : List UInt8) (cb : CpCallback)
    (uninitFrom uninitTo : ℕ) : Client σ Commands (Option Errs) := do
  let (res, handle_from) ← fopen answer (P_FSHARE ||| P_FSTREAM) «from» uninitFrom
  if res ≠ E_PSI_GEN_NONE then return some res
  else
    let (res, handle_to) ← createOrReplace answer (P_FSTREAM ||| P_FUPDATE) «to» uninitTo
    if res ≠ E_PSI_GEN_NONE then return some res
    else
      let some res ← copyOnLoop answer fuel handle_from handle_to cb fuel 0 0
        | return none
      let _ ← fclose answer handle_from
      let _ ← fclose answer handle_to
      return some (unlessEof res)

def fsetsize (handle size : ℕ) : Client σ Commands Errs := do
  let some a ← sendCommand answer .SIBO_FSETEOF (wordBytes (handle &&& 0xffff : ℕ) ++ dwordBytes size)
    | return E_PSI_FILE_DISC
  return a.status

/-- Send a seek request whose data is appended to the content `a` of the buffer. -/
def seekRequest (a : List UInt8) (handle : ℕ) (pos : ℤ) (mode : ℕ) :
    Client σ Commands (Option Response) :=
  sendCommand answer .SIBO_FSEEK (a ++ wordBytes handle ++ dwordBytes pos ++ wordBytes mode)

/-- The last part of `fseek`, with the position `savpos` that was asked for before and the content
`a` that this has left in the buffer. -/
def realSeek (handle : ℕ) (pos : ℤ) (mode : ℕ) (savpos : ℕ) (a : List UInt8) (resultpos : ℕ) :
    Client σ Commands (Errs × ℕ) := do
  let some a ← seekRequest answer a handle pos mode
    | return (E_PSI_FILE_DISC, resultpos)
  if a.status ≠ E_PSI_GEN_NONE then return (a.status, resultpos)
  else
    let realpos := getDWord a.data 0
    if mode = PSI_SEEK_END then return (a.status, realpos)
    else
      let calcpos := if mode = PSI_SEEK_SET then uint32 pos else uint32 (savpos + pos)
      if calcpos > realpos then
        let res ← fsetsize answer handle calcpos
        if res ≠ E_PSI_GEN_NONE then return (res, resultpos)
        else
          let some a ← seekRequest answer [] handle calcpos PSI_SEEK_SET
            | return (E_PSI_FILE_DISC, resultpos)
          if a.status ≠ E_PSI_GEN_NONE then return (a.status, resultpos)
          else return (a.status, getDWord a.data 0)
      else return (a.status, realpos)

/-- Seek like Unix does: the error, and what the caller's `resultpos` holds afterwards. The answer
to the request for the position is not removed from the buffer. -/
def fseek (handle : ℕ) (pos : ℤ) (mode resultpos : ℕ) : Client σ Commands (Errs × ℕ) :=
  fseekWith (seekRequest answer [] handle 0 mode)
    (fun savpos a => realSeek answer handle pos mode savpos a resultpos)
    (realSeek answer handle pos mode 0 [] resultpos) pos mode resultpos

end RFSV16

end Plptools
