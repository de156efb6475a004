import Plptools.Sis.Types

/-!
# The records of a SIS file

The header at the start of a file, and the records of its tables. Each is filled from the file at
`buf`, which is `len` bytes long, at an offset that is given as an int; what it is filled with, and
the offset behind it, is returned. Offsets and lengths in the records are unsigned.
-/

namespace Plptools

open Plptools.Library
open RFSV (uint32 int32)
open Sis

/-- The first part of a SIS file. -/
structure SISFileHeader where
  uid1 : ℕ
  uid2 : ℕ
  uid3 : ℕ
  uid4 : ℕ
  crc : ℕ
  nlangs : ℕ
  nfiles : ℕ
  nreqs : ℕ
  installationLanguage : ℕ
  installationFiles : ℕ
  installationDrive : ℕ
  installerVersion : ℕ
  options : ℕ
  type : ℕ
  major : ℕ
  minor : ℕ
  variant : ℕ
  languagePtr : ℕ
  filesPtr : ℕ
  reqPtr : ℕ
  unknown : ℕ
  componentPtr : ℕ
deriving DecidableEq, Repr

namespace SISFileHeader

def OFF_NUMBER_OF_FILES : ℕ := 26

def OFF_INSTALLATION_DRIVE : ℕ := 28

/-- The header at `base`; its first three numbers are checked, and their checksums are the fourth. -/
def fillFrom (mem : List UInt8) (buf : ℕ) (base : ℤ) (len : ℕ) : Sis (SISFileHeader × ℤ) := do
  let stop ← addInt base 68
  if stop > len then .error .SIS_TRUNCATED
  else
    let start := buf + base
    let uid1 ← read32 mem start
    let uid2 ← read32 mem (start + 4)
    if uid2 ≠ 0x1000006d then .error .SIS_CORRUPTED
    else
      let uid3 ← read32 mem (start + 8)
      if uid3 ≠ 0x10000419 then .error .SIS_CORRUPTED
      else
        let uid4 ← read32 mem (start + 12)
        let crc1 ← readCrc mem [start, start + 2, start + 4, start + 6, start + 8, start + 10] 0
        let crc2 ← readCrc mem [start + 1, start + 3, start + 5, start + 7, start + 9, start + 11] 0
        if crc2.toNat <<< 16 ||| crc1.toNat ≠ uid4 then .error .SIS_CORRUPTED
        else
          let crc ← read16 mem (start + 16)
          let nlangs ← read16 mem (start + 18)
          let nfiles ← read16 mem (start + 20)
          let nreqs ← read16 mem (start + 22)
          let installationLanguage ← read16 mem (start + 24)
          let installationFiles ← read16 mem (start + OFF_NUMBER_OF_FILES)
          let installationDrive ← read32 mem (start + OFF_INSTALLATION_DRIVE)
          let installerVersion ← read32 mem (start + 32)
          let options ← read16 mem (start + 36)
          let type ← read16 mem (start + 38)
          let major ← read16 mem (start + 40)
          let minor ← read16 mem (start + 42)
          let variant ← read32 mem (start + 44)
          let languagePtr ← read32 mem (start + 48)
          let filesPtr ← read32 mem (start + 52)
          let reqPtr ← read32 mem (start + 56)
          let unknown ← read32 mem (start + 60)
          let componentPtr ← read32 mem (start + 64)
          return (⟨uid1, uid2, uid3, uid4, crc, nlangs, nfiles, nreqs, installationLanguage,
            installationFiles, installationDrive, installerVersion, options, type, major, minor, variant,
            languagePtr, filesPtr, reqPtr, unknown, componentPtr⟩, base + 68)

end SISFileHeader

/-- One of the languages of a file, by its number. -/
structure SISLangRecord where
  lang : ℕ
deriving DecidableEq, Repr

/-- Thai is the last language. -/
def SISLangRecord.fillFrom (mem : List UInt8) (buf : ℕ) (base : ℤ) (len : ℕ) : Sis (SISLangRecord × ℤ) := do
  let stop ← addInt base 2
  if stop > len then .error .SIS_TRUNCATED
  else
    let lang ← read16 mem (buf + base)
    if lang > 33 then .error .SIS_CORRUPTED
    else return (⟨lang⟩, base + 2)

/-- The loop that reads `n` double words from `p` on. -/
def read32s (mem : List UInt8) : ℕ → ℤ → Sis (List ℕ)
  | 0, _ => .ok []
  | n + 1, p => do
    let a ← read32 mem p
    let as ← read32s mem n (p + 4)
    return a :: as

/-- Another file that is needed, with its name in each language. -/
structure SISReqRecord where
  uid : ℕ
  major : ℕ
  minor : ℕ
  variant : ℕ
  nameLengths : List ℕ
  namePtrs : List ℕ
deriving DecidableEq, Repr

namespace SISReqRecord

/-- The loop that reads the name offsets; the unsigned end of each name is checked. -/
def fillPtrs (mem : List UInt8) (len : ℕ) : List ℕ → ℤ → Sis (List ℕ)
  | [], _ => .ok []
  | nameLength :: nameLengths, p => do
    let namePtr ← read32 mem p
    if uint32 (namePtr + nameLength) > len then .error .SIS_CORRUPTED
    else
      let namePtrs ← fillPtrs mem len nameLengths (p + 4)
      return namePtr :: namePtrs

def fillFrom (mem : List UInt8) (buf : ℕ) (base : ℤ) (len n : ℕ) : Sis (SISReqRecord × ℤ) := do
  let stop ← addInt base (12 + n * 4 * 2)
  if stop > len then .error .SIS_TRUNCATED
  else
    let p := buf + base
    let uid ← read32 mem p
    let major ← read16 mem (p + 4)
    let minor ← read16 mem (p + 6)
    let variant ← read32 mem (p + 8)
    let nameLengths ← read32s mem n (p + 12)
    let namePtrs ← fillPtrs mem len nameLengths (p + 12 + n * 4)
    return (⟨uid, major, minor, variant, nameLengths, namePtrs⟩, base + (12 + n * 4 * 2))

end SISReqRecord

/-- The name of the component in each language; the names are copied. -/
structure SISComponentNameRecord where
  nameLengths : List ℕ
  namePtrs : List ℕ
  names : List (List UInt8)
deriving DecidableEq, Repr

namespace SISComponentNameRecord

/-- A record that is rejected: the return code, and how many of the offsets of the names are not set yet.
There is no such number while that of the names is not set itself. -/
structure Rejection where
  rc : SisRC
  unset : Option ℕ
deriving DecidableEq, Repr

/-- The loop that reads the name lengths. -/
def fillLengths (mem : List UInt8) (len : ℕ) : ℕ → ℤ → Outcome Rejection (List ℕ)
  | 0, _ => .ok []
  | n + 1, p => do
    let nameLength ← read32 mem p
    if nameLength > len then .error ⟨.SIS_TRUNCATED, none⟩
    else
      let nameLengths ← fillLengths mem len n (p + 4)
      return nameLength :: nameLengths

/-- Copy a name; there is room for a terminating zero, the size of which is counted by an int. -/
def copyName (mem : List UInt8) (p : ℤ) (nameLength : ℕ) : Outcome Rejection (List UInt8) := do
  let size ← addInt (int32 nameLength) 1
  if size ≤ 0 then .fault else readBytes mem p nameLength

/-- The loop that reads the name offsets and copies the names. -/
def fillNames (mem : List UInt8) (buf len : ℕ) : List ℕ → ℤ → Outcome Rejection (List (ℕ × List UInt8))
  | [], _ => .ok []
  | nameLength :: nameLengths, p => do
    let namePtr ← read32 mem p
    if uint32 (namePtr + nameLength) > len then .error ⟨.SIS_TRUNCATED, some nameLengths.length⟩
    else
      let name ← copyName mem (buf + namePtr) nameLength
      let rest ← fillNames mem buf len nameLengths (p + 4)
      return (namePtr, name) :: rest

def fillFrom (mem : List UInt8) (buf : ℕ) (basePos : ℤ) (len n : ℕ) :
    Outcome Rejection (SISComponentNameRecord × ℤ) := do
  let entrySize : ℤ := 8 + n * 4 * 2
  let stop ← addInt basePos entrySize
  if stop > len then .error ⟨.SIS_TRUNCATED, none⟩
  else
    let p := buf + basePos
    let nameLengths ← fillLengths mem len n p
    let names ← fillNames mem buf len nameLengths (p + n * 4)
    return (⟨nameLengths, names.map Prod.fst, names.map Prod.snd⟩, basePos + entrySize)

/-- The largest end of a name; the ends are unsigned. -/
def getLastEnd (r : SISComponentNameRecord) : ℕ :=
  (List.zipWith (fun namePtr nameLength : ℕ => uint32 (namePtr + nameLength)) r.namePtrs r.nameLengths).foldl
    (fun last pos => if last < pos then pos else last) 0

/-- The same for a rejected record, whose return code is reported behind it: the number of the names and
all their offsets are read, whether they are set or not. -/
def Rejection.getLastEnd {A : Type} (r : Rejection) : Sis A := if r.unset = some 0 then .error r.rc else .fault

/-- The name in a language. -/
def getName (r : SISComponentNameRecord) (no : ℕ) : Option (List UInt8) := r.names[no]?

end SISComponentNameRecord

/-- A file of the component, in one or in each language. Where the flags are not known, there are no
lengths and offsets of its data. -/
structure SISFileRecord where
  flags : ℕ
  fileType : ℕ
  fileDetails : ℕ
  sourceLength : ℕ
  sourcePtr : ℕ
  destLength : ℕ
  destPtr : ℕ
  fileLengths : List ℕ
  filePtrs : List ℕ
deriving DecidableEq, Repr

namespace SISFileRecord

def fillFrom (mem : List UInt8) (buf : ℕ) (base : ℤ) (len n : ℕ) : Sis (SISFileRecord × ℤ) := do
  let stop ← addInt base (28 + 4 * 2)
  if stop > len then .error .SIS_TRUNCATED
  else
    let p := buf + base
    let flags ← read32 mem p
    let fileType ← read32 mem (p + 4)
    let fileDetails ← read32 mem (p + 8)
    let sourceLength ← read32 mem (p + 12)
    let sourcePtr ← read32 mem (p + 16)
    let destLength ← read32 mem (p + 20)
    let destPtr ← read32 mem (p + 24)
    let record := SISFileRecord.mk flags fileType fileDetails sourceLength sourcePtr destLength destPtr
    match flags with
    | 0 =>
      let fileLength ← read32 mem (p + 28)
      let filePtr ← read32 mem (p + 32)
      return (record [fileLength] [filePtr], base + 36)
    | 1 =>
      let stop ← addInt base (28 + n * 8)
      if stop > len then .error .SIS_TRUNCATED
      else
        let fileLengths ← read32s mem n (p + 28)
        let filePtrs ← read32s mem n (p + 28 + n * 4)
        return (record fileLengths filePtrs, base + (28 + n * 8))
    | _ => return (record [] [], base + 28)

/-- The destination name, if it begins inside the file. -/
def getDestPtr (r : SISFileRecord) (len : ℕ) : Option ℕ := if r.destPtr < uint32 len then some r.destPtr else none

end SISFileRecord

end Plptools
