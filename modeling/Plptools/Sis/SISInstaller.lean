import Plptools.Sis.SISFile
import Plptools.Buffer.Store

/-!
# The installer

The file records are installed from the last one to the first. Ordinary files are copied to the
device, under a name whose drive may be left open; the drive that is chosen for them, and the number of
records that were come to, are written into the file in memory, and its first bytes are stored on the
device. A later removal reads them again, and removes what the records that were come to name. Records
may hold further SIS files, which are installed in turn.

The device answers according to what was asked of it before; to a request to make, to copy or to remove
it answers only for what is printed, which is left out, with the `sprintf` into `msgbuf`, which has room
for 1024 characters. Paths are without their terminating zeros. Where the record of the component of an
installed or a contained file is rejected, `SISFile::fillFrom` reads members that were never set; it is
taken to come back with the return code. `none` is for an access outside a buffer, a prompt that is never
answered, and too little fuel for SIS files that contain others.
-/

namespace Plptools

open Plptools.Library
open RFSV (uint32 int32)
open Sis

inductive MediaType
  | kNotPresent
  | kUnknown
  | kFloppy
  | kDisk
  | kCompactDisc
  | kRAM
  | kFlashDisk
  | kROM
  | kRemote
deriving DecidableEq, Repr

/-- What is asked of the device. -/
inductive Request
  | mkdir (path : List UInt8)
  | copyToPsion (contents path : List UInt8)
  | remove (path : List UInt8)
deriving DecidableEq, Repr

/-- What the device answers: its drives, where it has them listed, the kind of a drive, and the files of
its install directory that can be read. -/
structure Psion where
  devlist : Option ℕ
  devinfo : UInt8 → Option MediaType
  installed : List (List UInt8)

/-- A file that was read from the install directory, with its buffer. -/
structure SISFileLink where
  mem : List UInt8
  file : SISFile
deriving DecidableEq, Repr

/-- What the installers of a file and of the files in it share: the memory, what the user is going to
type, whether temporary files can be written, the installed files, and what was asked of the device. -/
structure Surroundings where
  mem : List UInt8
  stdin : List UInt8
  tempFiles : List Bool
  installed : List SISFileLink
  requests : List Request
deriving DecidableEq, Repr

/-- An installer, at work on a file with the given header. -/
structure SISInstaller extends Surroundings where
  drive : UInt8
  header : SISFileHeader
deriving DecidableEq, Repr

inductive FileRC
  | FILE_OK
  | FILE_SKIP
  | FILE_ABORT
deriving DecidableEq, Repr

/-- `fgets`, for at most that many characters. Nothing is read at the end of the input only. -/
def fgets : ℕ → List UInt8 → List UInt8 × List UInt8
  | 0, stdin => ([], stdin)
  | _, [] => ([], [])
  | n + 1, c :: stdin =>
    if c = 0x0a then ([c], stdin)
    else
      let (line, stdin) := fgets n stdin
      (c :: line, stdin)

/-- The answer begins with an `N`, or is empty; a zero is found at the end of every string. -/
def answersNo (line : List UInt8) : Bool :=
  match line with
  | [] => true
  | c :: _ => c = 0x4e || c = 0x6e || c = 0

/-- The header of another version of the application is looked at. -/
def SISFileHeader.compareApp (h other : SISFileHeader) : SisRC :=
  if h.uid1 ≠ other.uid1 then .SIS_DIFFERENT_APP
  else if h.major < other.major ∨ h.major = other.major ∧ h.minor < other.minor then .SIS_VER_EARLIER
  else if h.major = other.major ∧ h.minor = other.minor ∧ h.variant ≠ other.variant then .SIS_OTHER_VARIANT
  else .SIS_SAME_OR_LATER

/-- An open drive in the destination name is replaced. -/
def SISFileRecord.setMainDrive (mem : List UInt8) (buf : ℕ) (r : SISFileRecord) (drive : UInt8) :
    Option (List UInt8) := do
  let c ← mem[buf + r.destPtr]?
  return if c = 0x21 then mem.set (buf + r.destPtr) drive else mem

/-- Where the data of a file begin, if that is inside the file. -/
def SISFileRecord.getFilePtr (r : SISFileRecord) (fileNo len : ℕ) : Option (Option ℕ) := do
  let filePtr ← r.filePtrs[fileNo]?
  return if filePtr ≥ uint32 len then none else some filePtr

/-- The file that a record has for a language. -/
def SISFileRecord.fileNo (r : SISFileRecord) (lang : ℕ) : ℕ := if r.flags % 2 = 1 then lang else 0

namespace SISInstaller

/-- A char is stored as an unsigned number, in the file in one byte. -/
def setDrive (buf : ℕ) (drive : UInt8) (s : SISInstaller) : SISInstaller :=
  { s with
    header := { s.header with installationDrive := uint32 drive.toInt8.toInt }
    mem := (((s.mem.set (buf + 28) drive).set (buf + 28 + 1) 0).set (buf + 28 + 2) 0).set (buf + 28 + 3) 0 }

/-- A drive is kept, and set in the header. -/
def useDrive (buf : ℕ) (drive : UInt8) (s : SISInstaller) : SISInstaller := setDrive buf drive { s with drive := drive }

def setFiles (buf nFiles : ℕ) (s : SISInstaller) : SISInstaller :=
  { s with
    header := { s.header with installationFiles := nFiles % 65536 }
    mem := (s.mem.set (buf + 26) (UInt8.ofNat nFiles)).set (buf + 26 + 1) (UInt8.ofNat (nFiles / 256)) }

def request (r : Request) (s : SISInstaller) : SISInstaller := { s with requests := s.requests ++ [r] }

/-- The directory of a path is made; those above it are not. -/
def createDirs (filename : List UInt8) (s : SISInstaller) : SISInstaller :=
  match (List.range filename.length).reverse.find? fun i =>
    0 < i && (filename[i]? == some 0x2f || filename[i]? == some 0x5c) with
  | some i => s.request (.mkdir (filename.take i))
  | none => s

/-- `write`, of bytes from `p` on or from nowhere: what is written, and how many bytes that are. No file
takes more bytes than an int counts. -/
def write (mem : List UInt8) (p : Option ℕ) (len : ℤ) : Option (List UInt8 × ℤ) :=
  if len < 0 then some ([], -1)
  else if len = 0 then some ([], 0)
  else
    match p with
    | none => some ([], -1)
    | some p => if p + len ≤ mem.length then some ((mem.drop p).take len.toNat, len) else none

/-- A file is stored by way of a temporary file. -/
def copyBuf (buf : Option ℕ) (len : ℤ) (name : List UInt8) (s : SISInstaller) : Option SISInstaller := do
  let s := s.createDirs name
  let canWrite := s.tempFiles.headD true
  let s := { s with tempFiles := s.tempFiles.tail }
  if canWrite then
    let (contents, written) ← write s.mem buf len
    return if written = len then s.request (.copyToPsion contents name) else s
  else return s

/-- The drives that files can be installed on. -/
def drivelist (psion : Psion) : List UInt8 :=
  match psion.devlist with
  | none => []
  | some devbits => (List.range 26).filterMap fun i =>
    if devbits.testBit i then
      match psion.devinfo (UInt8.ofNat (i + 65)) with
      | some .kDisk => some (UInt8.ofNat (65 + i))
      | some .kRAM => some (UInt8.ofNat (65 + i))
      | _ => none
    else none

def isLower (c : UInt8) : Bool := 0x61 ≤ c && c ≤ 0x7a

def isUpper (c : UInt8) : Bool := 0x41 ≤ c && c ≤ 0x5a

def toupper (c : UInt8) : UInt8 := if isLower c then c - 0x20 else c

/-- The prompt is repeated until one of the drives is chosen. -/
def chooseDrive (drivelist : List UInt8) : List UInt8 → Option (UInt8 × List UInt8)
  | [] => none
  | ch :: stdin =>
    if (isLower ch || isUpper ch) && drivelist.contains (toupper ch) then some (toupper ch, stdin)
    else chooseDrive drivelist stdin

/-- There is room for 26 drives, or for 25 and a terminating zero. -/
def selectDrive (psion : List Request → Psion) (s : SISInstaller) : Option SISInstaller :=
  match drivelist (psion s.requests) with
  | [] => some { s with drive := 0x43 }
  | [d] => some { s with drive := d }
  | drivelist => do
    if drivelist.length ≥ 26 then none
    else
      let (d, stdin) ← chooseDrive drivelist s.stdin
      return { s with drive := d, stdin := stdin }

/-- The drive for files whose drive is open is selected, if none was before, and set in the header. -/
def selectMainDrive (psion : List Request → Psion) (buf : ℕ) (s : SISInstaller) : Option SISInstaller := do
  let s ← (if s.drive = 0 then selectDrive psion s else some s)
  return s.useDrive buf s.drive

/-- A file whose name begins with a `!` is installed on the chosen drive. -/
def copyFile (psion : List Request → Psion) (buf len fileNo : ℕ) (r : SISFileRecord) (s : SISInstaller) :
    Option SISInstaller :=
  match r.getDestPtr len with
  | none => some s
  | some destPtr => do
    let c ← s.mem[buf + destPtr]?
    let s ← (if c = 0x21 then selectMainDrive psion buf s else some s)
    if r.destLength ≥ 256 ∨ s.mem.length < buf + destPtr + r.destLength then none
    else
      let dest := (s.mem.drop (buf + destPtr)).take r.destLength
      let fileLength ← r.fileLengths[fileNo]?
      let filePtr ← r.getFilePtr fileNo len
      match dest with
      | 0x21 :: rest => do
        let mem ← r.setMainDrive s.mem buf s.drive
        copyBuf (filePtr.map (buf + ·)) (int32 fileLength) (cString (s.drive :: rest)) { s with mem := mem }
      | dest => copyBuf (filePtr.map (buf + ·)) (int32 fileLength) (cString dest) s

/-- An installer for a contained file, with its return code. -/
abbrev Installs : Type := SISFile → ℕ → ℕ → Option SISFileHeader → Surroundings → Option (SisRC × SISInstaller)

/-- What remains of the installer of a contained file. Where there were no installed files, those that it
found were its own. -/
def takeOver (s contained : SISInstaller) : SISInstaller :=
  { s with
    mem := contained.mem
    stdin := contained.stdin
    tempFiles := contained.tempFiles
    installed := if s.installed = [] then [] else contained.installed
    requests := contained.requests }

/-- A contained file at `p` is installed, if it could be read. The drive that is chosen for it is that of
the file around it, if none was before. -/
def installRead (install : Installs) (buf p len : ℕ) (s : SISInstaller) : Sis SISFile → Option SISInstaller
  | .fault => none
  | .error _ => some s
  | .ok sisFile => do
    let (_, contained) ← install sisFile p len (some s.header) s.toSurroundings
    let drive := UInt8.ofNat contained.header.installationDrive
    let s := s.takeOver contained
    return if s.drive = 0 then s.useDrive buf drive else s

/-- A file in memory is parsed; what `getLastEnd` of a rejected component gives is not looked at. -/
def parse (mem : List UInt8) (buf len : ℕ) : Sis SISFile := SISFile.fillFromOr (fun r => .error r.rc) mem buf len

/-- A contained file is read and installed. -/
def installContained (install : Installs) (buf : ℕ) (filePtr : Option ℕ) (len : ℕ) (s : SISInstaller) :
    Option SISInstaller :=
  match filePtr with
  | none => if len < 68 then some s else none
  | some filePtr => installRead install buf (buf + filePtr) len s (parse s.mem (buf + filePtr) len)

/-- A record is installed, according to its type. A text may have the user asked for an answer. -/
def installFile (psion : List Request → Psion) (install : Installs) (buf len fileNo : ℕ) (r : SISFileRecord)
    (s : SISInstaller) : Option (FileRC × SISInstaller) :=
  match r.fileType with
  | 0 => do return (.FILE_OK, ← copyFile psion buf len fileNo r s)
  | 1 =>
    let (line, stdin) := fgets 7 s.stdin
    match r.fileDetails with
    | 0 => some (.FILE_OK, { s with stdin := stdin })
    | 1 => some (if answersNo line then .FILE_SKIP else .FILE_OK, { s with stdin := stdin })
    | 2 => some (if answersNo line then .FILE_ABORT else .FILE_OK, { s with stdin := stdin })
    | _ => some (.FILE_OK, s)
  | 2 => do
    let filePtr ← r.getFilePtr fileNo len
    let fileLength ← r.fileLengths[fileNo]?
    return (.FILE_OK, ← installContained install buf filePtr fileLength s)
  | _ => some (.FILE_OK, s)

end SISInstaller

/-! ### Removing what was installed -/

namespace SISFile

/-- A file of the component is removed. -/
def removeFile (mem : List UInt8) (r : SISFileRecord) : Option (List UInt8) :=
  match r.getDestPtr mem.length with
  | none => if r.destLength = 0 then some [] else none
  | some destPtr =>
    if r.destLength ≥ 256 ∨ mem.length < destPtr + r.destLength then none
    else some (cString ((mem.drop destPtr).take r.destLength))

/-- What is removed for a record. Only ordinary files, and those that the application makes, are. -/
def uninstallFile (mem : List UInt8) (r : SISFileRecord) : Option (List (ℕ × List UInt8)) :=
  match r.fileType with
  | 0 => do return [(0, ← removeFile mem r)]
  | 4 => do return [(4, ← removeFile mem r)]
  | _ => some []

/-- The loop over the records, which sets the drive of each; what is removed, with the type of its
record, and the file then. Nothing more is removed where the buffer is left. -/
def uninstallFiles (drive : UInt8) : List SISFileRecord → List UInt8 → List (ℕ × List UInt8) × Option (List UInt8)
  | [], mem => ([], some mem)
  | r :: rs, mem =>
    match r.setMainDrive mem 0 drive with
    | none => ([], none)
    | some mem =>
      match uninstallFile mem r with
      | none => ([], none)
      | some removed =>
        let (more, mem) := uninstallFiles drive rs mem
        (removed ++ more, mem)

/-- The last records are walked, as many as were come to when the file was installed. -/
def uninstall (mem : List UInt8) (f : SISFile) : List (ℕ × List UInt8) × Option (List UInt8) :=
  if f.header.nfiles < f.header.installationFiles then ([], none)
  else uninstallFiles (UInt8.ofNat f.header.installationDrive)
    (f.fileRecords.drop (f.header.nfiles - f.header.installationFiles)) mem

def compareApp (f other : SISFile) : SisRC := f.header.compareApp other.header

end SISFile

namespace SISInstaller

/-! ### The run of an installer -/

/-- A file of the install directory is parsed. -/
def loadPsionSis (mem : List UInt8) : Option (List SISFileLink) :=
  match parse mem 0 mem.length with
  | .ok file => some [⟨mem, file⟩]
  | .error _ => some []
  | .fault => none

/-- The files of the install directory, each put in front of those that were loaded before. -/
def loadInstalled : List (List UInt8) → List SISFileLink → Option (List SISFileLink)
  | [], installed => some installed
  | mem :: mems, installed => do
    let link ← loadPsionSis mem
    loadInstalled mems (link ++ installed)

/-- The last one in the list that is another version of the application. -/
def oldFile (f : SISFile) : List SISFileLink → Option ℕ
  | [] => none
  | curr :: rest =>
    match oldFile f rest with
    | some i => some (i + 1)
    | none => if curr.file.compareApp f = .SIS_DIFFERENT_APP then none else some 0

/-- Another version is removed first. -/
def uninstallFirst (f : SISFile) (s : Surroundings) : Option Surroundings :=
  match oldFile f s.installed with
  | none => some s
  | some i => do
    let old ← s.installed[i]?
    let removed := SISFile.uninstall old.mem old.file
    let mem ← removed.2
    return { s with
      installed := s.installed.set i { old with mem := mem }
      requests := s.requests ++ removed.1.map fun file => .remove file.2 }

/-- The variables of the install loop. -/
structure Loop where
  skipnext : Bool
  aborted : Bool
  nCopiedFiles : ℕ
  installer : SISInstaller
deriving DecidableEq, Repr

/-- The language, which the user cannot choose. -/
def lang : ℕ := 0

/-- What is done before the install loop. -/
def prepare (psion : List Request → Psion) (file : SISFile) (parent : Option SISFileHeader) (s : Surroundings) :
    Option Loop := do
  let installed ← (if s.installed = [] then loadInstalled (psion s.requests).installed [] else some s.installed)
  let s ← uninstallFirst file { s with installed := installed }
  let drive := match parent with
    | none => 0
    | some header => UInt8.ofNat header.installationDrive
  return ⟨false, false, 0, { s with drive := drive, header := { file.header with installationLanguage := lang } }⟩

/-- The body of the install loop, for one record. -/
def installRecord (psion : List Request → Psion) (install : Installs) (buf len : ℕ) (r : SISFileRecord)
    (l : Loop) : Option Loop :=
  if l.skipnext then some { l with skipnext := false, nCopiedFiles := l.nCopiedFiles + 1 }
  else do
    let (rc, s) ← installFile psion install buf len (r.fileNo lang) r l.installer
    match rc with
    | .FILE_OK => return { l with installer := s, nCopiedFiles := l.nCopiedFiles + 1 }
    | .FILE_SKIP => return { l with skipnext := true, installer := s, nCopiedFiles := l.nCopiedFiles + 1 }
    | .FILE_ABORT => return { l with aborted := true, installer := s }

/-- The install loop, from the last of the first `n` records on. -/
def installFiles (psion : List Request → Psion) (install : Installs) (buf len : ℕ) (records : List SISFileRecord) :
    ℕ → Loop → Option Loop
  | 0, l => some l
  | n + 1, l => do
    let r ← records[n]?
    let l ← installRecord psion install buf len r l
    if l.aborted then some l else installFiles psion install buf len records n l

/-- The name under which the start of the file is stored. -/
def resname (compName : List UInt8) : List UInt8 :=
  [0x43, 0x3a, 0x5c, 0x53, 0x79, 0x73, 0x74, 0x65, 0x6d, 0x5c, 0x49, 0x6e, 0x73, 0x74, 0x61, 0x6c, 0x6c, 0x5c] ++
    (cString compName).takeWhile (· != 0x20) ++ [0x2e, 0x73, 0x69, 0x73]

/-- What is done after the install loop. -/
def finish (file : SISFile) (buf : ℕ) (compName : List UInt8) (l : Loop) : Option (SisRC × SISInstaller) := do
  let s := l.installer.setFiles buf l.nCopiedFiles
  if l.nCopiedFiles = 0 then some (.SIS_ABORTED, s)
  else if (resname compName).length ≥ 256 then none
  else
    let s ← copyBuf (some buf) (int32 file.getResidualEnd) (resname compName) s
    return (if l.aborted then .SIS_ABORTED else .SIS_OK, s)

/-- A file is installed, possibly as part of another one. -/
def runIn (psion : List Request → Psion) : ℕ → Installs
  | 0, _, _, _, _, _ => none
  | fuel + 1, file, buf, len, parent, s => do
    let compName ← file.componentRecord.getName lang
    let l ← prepare psion file parent s
    let l ← installFiles psion (runIn psion fuel) buf len file.fileRecords file.header.nfiles l
    finish file buf compName l

/-- A file that is read into memory is installed. -/
def run (psion : List Request → Psion) (fuel : ℕ) (file : SISFile) (mem stdin : List UInt8)
    (tempFiles : List Bool) : Option (SisRC × SISInstaller) :=
  runIn psion fuel file 0 mem.length none ⟨mem, stdin, tempFiles, [], []⟩

end SISInstaller

end Plptools
