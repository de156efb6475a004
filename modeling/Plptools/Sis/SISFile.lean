import Plptools.Sis.Records

/-!
# SIS files

`fillFrom` reads the tables of a SIS file one after the other, each from the offset that the header
gives for it, and keeps the largest end of what it has read. That much of the file is stored on the
device, for a later removal.
-/

namespace Plptools

open Plptools.Library
open RFSV (uint32 int32)

/-- What is read from a SIS file. -/
structure SISFile where
  header : SISFileHeader
  langRecords : List SISLangRecord
  reqRecords : List SISReqRecord
  componentRecord : SISComponentNameRecord
  fileRecords : List SISFileRecord
  residualEnd : ℕ
deriving DecidableEq, Repr

namespace SISFile

def updateEnd (residualEnd pos : ℕ) : ℕ := if residualEnd < pos then pos else residualEnd

/-- The loop over a table: before each record, the offset must be inside the file. The loop over files
goes on after the return code `SIS_TRUNCATEDDATA`, which no file record gives. -/
def fillRecords {R : Type} (len : ℕ) (fill : ℤ → Sis (R × ℤ)) : ℕ → ℤ → Sis (List R × ℤ) :=
  Outcome.table (fun ix => ix ≥ len) .SIS_TRUNCATED fill

/-- Fill all records from the file at `buf`. `getLastEnd` of the component is called before the return code
of its record is tested; `rejected` is what comes of it where the record was rejected. -/
def fillFromOr (rejected : SISComponentNameRecord.Rejection → Sis (SISComponentNameRecord × ℤ))
    (mem : List UInt8) (buf len : ℕ) : Sis SISFile := do
  let (header, _) ← SISFileHeader.fillFrom mem buf 0 len
  let (langRecords, ix) ← fillRecords len (fun ix => SISLangRecord.fillFrom mem buf ix len)
    header.nlangs (int32 header.languagePtr)
  let residualEnd := updateEnd 0 (uint32 ix)
  let (reqRecords, ix) ← fillRecords len (fun ix => SISReqRecord.fillFrom mem buf ix len header.nlangs)
    header.nreqs (int32 header.reqPtr)
  let residualEnd := updateEnd residualEnd (uint32 ix)
  let (componentRecord, ix) ←
    (SISComponentNameRecord.fillFrom mem buf (int32 header.componentPtr) len header.nlangs).rescue rejected
  let residualEnd := updateEnd residualEnd (uint32 ix)
  let residualEnd := updateEnd residualEnd componentRecord.getLastEnd
  let (fileRecords, ix) ← fillRecords len (fun ix => SISFileRecord.fillFrom mem buf ix len header.nlangs)
    header.nfiles (int32 header.filesPtr)
  let residualEnd := updateEnd residualEnd (uint32 ix)
  return ⟨header, langRecords, reqRecords, componentRecord, fileRecords, residualEnd⟩

/-- Members that are not set must not be read. -/
def fillFrom (mem : List UInt8) (buf len : ℕ) : Sis SISFile :=
  fillFromOr SISComponentNameRecord.Rejection.getLastEnd mem buf len

/-- The number of bytes that are stored on the device. -/
def getResidualEnd (f : SISFile) : ℕ := f.residualEnd

end SISFile

end Plptools
