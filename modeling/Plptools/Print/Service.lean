import Plptools.Rfsv.RFSV

/-!
# The service loop

`service_loop` asks for one packet after the other, and collects the pages of a job from them. The file
of the job is not modelled, only what is done to it: what is called is kept in order. Whether a spool
file can be created is part of what is received.
-/

namespace Plptools

open RFSV (getByte getDWord uint32)

/-- A difference of two variables of type unsigned long. -/
def subULong (a b : ℕ) : ℕ := (((a : ℤ) - b) % 2 ^ 64).toNat

/-- The page that the driver sends when a job is cancelled. -/
def fakePage : List UInt8 :=
  [0x2a, 0x2a, 0x09, 0x00, 0x00, 0x00, 0x82, 0x2e, 0x00, 0x00, 0xc6, 0x41, 0x00, 0x00, 0x00]

/-- What the loop calls. -/
inductive PrintCall
  | openSpool
  | cancelJob
  | convertPage (page : ℕ) (last : Bool) (buf : List UInt8)
  | closeSpool
  | unlink
  | deliver (pages : ℕ)
deriving DecidableEq, Repr

/-- What `getData` returns, and whether a spool file can be created. -/
inductive PrintData
  | disc
  | data (buf : List UInt8) (created : Bool)
deriving DecidableEq, Repr

/-- The variables of the loop, and what it has called. -/
structure ServiceState where
  jobLoop : Bool
  spoolOpen : Bool
  pageStart : Bool
  cancelled : Bool
  plen : ℕ
  pageCount : ℕ
  pageBuf : List UInt8
  calls : List PrintCall
deriving DecidableEq, Repr

namespace ServiceState

/-- `plen` has no value before a spool file is opened, and is not read before. -/
def start : ServiceState := ⟨true, false, true, false, 0, 0, [], []⟩

def call (s : ServiceState) (c : PrintCall) : ServiceState := { s with calls := s.calls ++ [c] }

/-- The page that does not belong to a job. -/
def cancelPage (s : ServiceState) : ServiceState :=
  let s := { s with cancelled := false }
  if s.spoolOpen then (s.call .closeSpool).call .unlink else s

def openSpool (s : ServiceState) (created : Bool) : ServiceState :=
  if !s.spoolOpen && !s.cancelled then
    let s := if created then { s.call .openSpool with spoolOpen := true, pageStart := true, pageCount := 0 }
      else { s with cancelled := true }.call .cancelJob
    { s with plen := 0 }
  else s

def checkType (s : ServiceState) (b : ℕ) : ServiceState :=
  if b ≠ 0x2a ∧ b ≠ 0xff then { s with cancelled := true }.call .cancelJob else s

/-- The header of a page is taken from the packet. -/
def startPage (s : ServiceState) (buf : List UInt8) : ServiceState × List UInt8 :=
  if s.pageStart then
    ({ s with plen := uint32 ((getDWord buf 1 : ℤ) - 8), pageStart := false, pageBuf := [] }, buf.drop (5 + 8))
  else (s, buf)

/-- The rest of a packet is added to the page. -/
def addBuff (s : ServiceState) (jobEnd : Bool) (buf : List UInt8) : ServiceState :=
  let s := { s with pageBuf := s.pageBuf ++ buf, plen := subULong s.plen buf.length }
  if s.plen ≤ 0 then
    { s.call (.convertPage s.pageCount jobEnd s.pageBuf) with
      pageCount := s.pageCount + 1, pageBuf := [], pageStart := true }
  else s

def collect (s : ServiceState) (jobEnd : Bool) (buf : List UInt8) : ServiceState :=
  if !s.cancelled then
    let (s, buf) := s.startPage (buf.drop 1)
    s.addBuff jobEnd buf
  else s

def endJob (s : ServiceState) (jobEnd : Bool) : ServiceState :=
  if jobEnd then
    let s := if s.spoolOpen then s.call .closeSpool else s
    let s := if !s.cancelled then if s.pageCount > 0 then s.call (.deliver s.pageCount) else s else s.call .unlink
    { s with spoolOpen := false }
  else s

/-- One round of the loop. -/
def step (s : ServiceState) (received : PrintData) : ServiceState :=
  if s.jobLoop then
    match received with
    | .disc => { s with jobLoop := false }
    | .data buf created =>
      if buf = fakePage then s.cancelPage
      else
        let s := s.openSpool created
        let b := getByte buf 0
        let s := s.checkType b
        let jobEnd := b == 0xff
        (s.collect jobEnd buf).endJob jobEnd
  else s

end ServiceState

end Plptools
