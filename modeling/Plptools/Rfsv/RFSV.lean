import Plptools.Buffer.Store
import Plptools.Library.Dialogue
import Mathlib.Algebra.Group.Int.Defs
import Mathlib.Algebra.Group.Nat.Defs

/-!
# The remote file service

What the two protocols of the file service share: the error values, the directory entries, and the
loops of the copy and list operations, which differ only in the functions that they call. A command
is sent as its code and the bytes of its data; the device answers with a status and data, or the
command cannot be sent. How the frames are laid out, and how a lost connection is set up again, is
left to the device of the model, whose state is of any type.

A loop of the source that goes on as long as the device lets it has fuel here, and its result is
`none` when that runs out; what was exchanged until then is still in the session.
-/

namespace Plptools

open Plptools.Library

namespace RFSV

/-- The error values are integers. In the source a status that is not a registered value fails an
assertion where it is made an `Enum`. The functions here go on with it: what they do is what the source
does as long as the device answers registered values. -/
abbrev Errs : Type := ℤ

def E_PSI_GEN_NONE : Errs := 0

def E_PSI_GEN_FAIL : Errs := -1

def E_PSI_GEN_ARG : Errs := -2

def E_PSI_FILE_NXIST : Errs := -33

def E_PSI_FILE_EOF : Errs := -36

def E_PSI_FILE_CANCEL : Errs := -48

def E_PSI_FILE_DISC : Errs := -50

def PSI_SEEK_SET : ℕ := 1

def PSI_SEEK_CUR : ℕ := 2

def PSI_SEEK_END : ℕ := 3

/-- The most data that is asked for, or sent, in one request. -/
def RFSV_SENDLEN : ℕ := 2000

/-- The standard file attributes that the two kinds of devices translate to. -/
def PSI_A_RDONLY : ℕ := 0x0001

def PSI_A_HIDDEN : ℕ := 0x0002

def PSI_A_SYSTEM : ℕ := 0x0004

def PSI_A_DIR : ℕ := 0x0008

def PSI_A_ARCHIVE : ℕ := 0x0010

def PSI_A_VOLUME : ℕ := 0x0020

def PSI_A_NORMAL : ℕ := 0x0040

def PSI_A_TEMP : ℕ := 0x0080

def PSI_A_COMPRESSED : ℕ := 0x0100

def PSI_A_READ : ℕ := 0x0200

def PSI_A_EXEC : ℕ := 0x0400

def PSI_A_STREAM : ℕ := 0x0800

def PSI_A_TEXT : ℕ := 0x1000

/-- The value of an unsigned 32-bit variable that an integer is assigned to. -/
def uint32 (a : ℤ) : ℕ := (a % 2 ^ 32).toNat

/-- The value of a signed 32-bit variable that an integer is assigned to. -/
def int32 (a : ℤ) : ℤ := (a + 2 ^ 31) % 2 ^ 32 - 2 ^ 31

/-- It fits in 32 bits. -/
theorem uint32_lt (a : ℤ) : uint32 a < 2 ^ 32 := by
  rw [uint32]
  omega

/-- What fits is not cut off. -/
theorem uint32_of_lt {n : ℕ} (h : n < 2 ^ 32) : uint32 n = n := by
  rw [uint32]
  omega

/-- The byte of a response at `pos`; what lies behind its end reads as zero. -/
def getByte (a : List UInt8) (pos : ℕ) : ℕ := (a.getD pos 0).toNat

/-- The word at `pos`, low byte first. -/
def getWord (a : List UInt8) (pos : ℕ) : ℕ := getByte a pos + 256 * getByte a (pos + 1)

/-- The double word at `pos`, low byte first. -/
def getDWord (a : List UInt8) (pos : ℕ) : ℕ := getWord a pos + 65536 * getWord a (pos + 2)

/-- A word has 16 bits. -/
theorem getWord_lt (a : List UInt8) (pos : ℕ) : getWord a pos < 65536 := by
  have hlow : getByte a pos < 256 := UInt8.toNat_lt _
  have hhigh : getByte a (pos + 1) < 256 := UInt8.toNat_lt _
  rw [getWord]
  omega

/-- A double word has 32 bits. -/
theorem getDWord_lt (a : List UInt8) (pos : ℕ) : getDWord a pos < 2 ^ 32 := by
  have hlow := getWord_lt a pos
  have hhigh := getWord_lt a (pos + 2)
  rw [getDWord]
  omega

/-- The low byte is the remainder. -/
theorem toNat_lowByte (a : ℤ) : ((lowByte a).toNat : ℤ) = a % 256 := by
  have hlt : (a % 256).toNat < 256 := by omega
  rw [lowByte, UInt8.toNat_ofNat_of_lt' hlt]
  omega

/-- A word takes two bytes. -/
@[simp] theorem length_wordBytes (a : ℤ) : (BufferStore.wordBytes a).length = 2 := rfl

/-- A double word takes four bytes. -/
@[simp] theorem length_dwordBytes (a : ℤ) : (BufferStore.dwordBytes a).length = 4 := rfl

/-- A double word is read back. -/
theorem getDWord_dwordBytes (a : ℤ) : getDWord (BufferStore.dwordBytes a) 0 = uint32 a := by
  have h0 := toNat_lowByte a
  have h1 := toNat_lowByte (a >>> (8 : ℕ))
  have h2 := toNat_lowByte (a >>> (16 : ℕ))
  have h3 := toNat_lowByte (a >>> (24 : ℕ))
  simp only [Int.shiftRight_eq_div_pow] at h1 h2 h3
  simp only [getDWord, getWord, getByte, BufferStore.dwordBytes, uint32, Int.shiftRight_eq_div_pow,
    List.getD_cons_zero, List.getD_cons_succ]
  omega

/-- A double word that fits is read back. -/
theorem getDWord_natCast {a : ℕ} (h : a < 2 ^ 32) : getDWord (BufferStore.dwordBytes a) 0 = a := by
  rw [getDWord_dwordBytes, uint32]
  omega

/-- A word is read back. -/
theorem getWord_wordBytes {a : ℕ} (h : a < 65536) : getWord (BufferStore.wordBytes a) 0 = a := by
  have h0 := toNat_lowByte a
  have h1 := toNat_lowByte ((a : ℤ) >>> (8 : ℕ))
  simp only [Int.shiftRight_eq_div_pow] at h1
  simp only [getWord, getByte, BufferStore.wordBytes, Int.shiftRight_eq_div_pow,
    List.getD_cons_zero, List.getD_cons_succ]
  omega

/-- Only the low bytes of a word are sent. -/
theorem wordBytes_and (a : ℕ) :
    BufferStore.wordBytes (a &&& 0xffff : ℕ) = BufferStore.wordBytes a := by
  have hmask : a &&& 0xffff = a % 65536 := Nat.and_two_pow_sub_one_eq_mod a 16
  have hlow : ((a % 65536 : ℕ) : ℤ) % 256 = (a : ℤ) % 256 := by omega
  have hhigh : ((a % 65536 : ℕ) : ℤ) / (2 ^ 8 : ℕ) % 256 = (a : ℤ) / (2 ^ 8 : ℕ) % 256 := by omega
  simp only [hmask, BufferStore.wordBytes, lowByte, Int.shiftRight_eq_div_pow, hlow, hhigh]

/-- The device expects backslashes in a path. -/
def convertSlash (name : List UInt8) : List UInt8 :=
  (cString name).map fun c => if c = 0x2f then 0x5c else c

/-- The attribute `b` if the attribute word has one of the bits of `a`. -/
def attrIf (attr a b : ℕ) : ℕ := if attr &&& a ≠ 0 then b else 0

/-- A modification time as the device reports it. -/
inductive PsiTime where
  | unset
  | sibo (time : ℕ)
  | epoc (hi lo : ℕ)
deriving DecidableEq, Repr

/-- A directory entry. The text of the attributes is determined by `attr` and left out. -/
structure PlpDirent where
  size : ℕ
  attr : ℕ
  UID : ℕ × ℕ × ℕ
  time : PsiTime
  dirname : List UInt8
  name : List UInt8
deriving DecidableEq, Repr

/-- An entry as constructed. -/
def PlpDirent.new : PlpDirent := ⟨0, 0, (0, 0, 0), .unset, [], []⟩

/-- An open directory: its handle, what was read of it and not yet looked at, and its name. -/
structure RFSVDirHandle where
  h : ℕ
  b : List UInt8
  name : List UInt8
deriving DecidableEq, Repr

/-- A command with its data. -/
structure Request (C : Type) where
  command : C
  data : List UInt8
deriving DecidableEq, Repr

/-- An answer of the device, its status translated. -/
structure Response where
  status : Errs
  data : List UInt8
deriving DecidableEq, Repr

/-- How the device and the connection to it answer a command; `none` when it cannot be sent. -/
abbrev Device (σ C : Type) : Type := σ → Request C → Option Response × σ

/-- A program that talks to the device. -/
abbrev Client (σ C α : Type) : Type := Dialogue σ (Request C) (Option Response) α

variable {σ C : Type}

/-- A device that answers every command. -/
def up (answer : σ → Request C → Response × σ) : Device σ C := fun d q =>
  (some (answer d q).1, (answer d q).2)

/-- A device that answers one thing after the other, whatever is asked. -/
def script : Device (List (Option Response)) C
  | [], _ => (none, [])
  | r :: rest, _ => (r, rest)

/-- Send a command and, if that succeeds, receive the answer. -/
def sendCommand (answer : Device σ C) (cc : C) (data : List UInt8) :
    Client σ C (Option Response) :=
  Dialogue.ask answer ⟨cc, data⟩

/-- A device that is up answers a command, and that is all that happens to its state. -/
theorem sendCommand_up (answer : σ → Request C → Response × σ) (q : Request C)
    (s : Session σ (Request C) (Option Response)) :
    ∃ s', sendCommand (up answer) q.command q.data s = (some (answer s.server q).1, s') ∧
      s'.server = (answer s.server q).2 ∧ s'.log = s.log ++ [(q, some (answer s.server q).1)] :=
  ⟨_, rfl, rfl, rfl⟩

/-- The progress callback, if there is one: it is given the bytes copied so far, and cancels by
returning zero. What it returns may depend on how often it was called before. -/
abbrev CpCallback : Type := Option (ℕ → ℕ → Bool)

/-- The result after reporting the progress. -/
def report (cb : CpCallback) (calls total : ℕ) (res : Errs) : Errs :=
  match cb with
  | none => res
  | some cb => if cb calls total then res else E_PSI_FILE_CANCEL

/-- The first part of `fseek`: the mode is checked, and unless the offset is negative, the current
position or that of the end is asked for. `after` goes on with it and the data of the answer,
`direct` without. -/
def fseekWith (ask : Client σ C (Option Response)) (after : ℕ → List UInt8 → Client σ C (Errs × ℕ))
    (direct : Client σ C (Errs × ℕ)) (pos : ℤ) (mode resultpos : ℕ) : Client σ C (Errs × ℕ) := do
  if mode < PSI_SEEK_SET ∨ mode > PSI_SEEK_END then return (E_PSI_GEN_ARG, resultpos)
  else if (mode = PSI_SEEK_CUR ∨ mode = PSI_SEEK_END) ∧ pos ≥ 0 then
    let some a ← ask
      | return (E_PSI_FILE_DISC, resultpos)
    if a.status ≠ E_PSI_GEN_NONE then return (a.status, resultpos)
    else
      let savpos := getDWord a.data 0
      if pos = 0 then return (a.status, savpos) else after savpos a.data
  else direct

/-- List a directory until an error, which may be the end of the directory. -/
def dirLoop (readdir : RFSVDirHandle → PlpDirent → Client σ C (Errs × RFSVDirHandle × PlpDirent)) :
    ℕ → Errs → RFSVDirHandle → List PlpDirent →
      Client σ C (Option (Errs × RFSVDirHandle × List PlpDirent))
  | fuel, res, h, files => do
    if res = E_PSI_GEN_NONE then
      match fuel with
      | 0 => return none
      | fuel + 1 =>
        let (res, h, e) ← readdir h PlpDirent.new
        dirLoop readdir fuel res h (if res = E_PSI_GEN_NONE then files ++ [e] else files)
    else return some (res, h, files)

/-- Copy what is read to the local file `op` until a read is empty or fails, or the callback
cancels. `calls` counts the calls of the callback. -/
def copyFromLoop (fread : Client σ C (Option (Errs × ℕ × List UInt8))) (cb : CpCallback) :
    ℕ → ℕ → ℕ → List UInt8 → Client σ C (Option (Errs × List UInt8))
  | 0, _, _, _ => return none
  | fuel + 1, calls, total, op => do
    let some (res, len, buf) ← fread
      | return none
    if res = E_PSI_GEN_NONE then
      let op := op ++ buf
      let total := uint32 (total + len)
      let res := report cb calls total res
      if len > 0 ∧ res = E_PSI_GEN_NONE then copyFromLoop fread cb fuel (calls + 1) total op
      else return some (res, op)
    else return some (res, op)

/-- Write what is left of the local file `ip`; a read that is cut short sets `eof`. -/
def copyToLoop (fwrite : List UInt8 → Client σ C (Option (Errs × ℕ))) (cb : CpCallback) :
    ℕ → Errs → Bool → ℕ → ℕ → List UInt8 → Client σ C (Option Errs)
  | fuel, res, eof, calls, total, ip => do
    if res = E_PSI_GEN_NONE ∧ !eof then
      match fuel with
      | 0 => return none
      | fuel + 1 =>
        let buff := ip.take RFSV_SENDLEN
        let eof := decide (ip.length < RFSV_SENDLEN)
        let some (res, len) ← fwrite buff
          | return none
        if res = E_PSI_GEN_NONE then
          let total := uint32 (total + len)
          copyToLoop fwrite cb fuel (report cb calls total res) eof (calls + 1) total
            (ip.drop RFSV_SENDLEN)
        else copyToLoop fwrite cb fuel res eof calls total (ip.drop RFSV_SENDLEN)
    else return some res

end RFSV

end Plptools
