import Plptools.DataLink.Crc
import Plptools.Library.Ring
import Mathlib.Data.Int.Notation

/-!
# The serial data link

The state of `DataLink` that framing reads and writes: the input ring with the state of the
parser, and the output ring. The indices of the rings are kept below `BUFLEN`, except inside the
header search, which compares an index with the write index before it is normalised. Loops carry
a fuel and answer `none` when it runs out.

Logging is left out, and so is the serial device itself.
-/

namespace Plptools

open Plptools.Library

/-- The size of both rings. -/
def BUFLEN : ℕ := 4096

/-- Reduce an index to the ring; `BUFLEN` is a power of two and `BUFMASK` its mask. -/
def normalize (idx : ℕ) : ℕ := idx % BUFLEN

/-- Advance an index by one cell. -/
def inc1 (idx : ℕ) : ℕ := (idx + 1) % BUFLEN

/-- The members of `DataLink` for reading from and writing to the serial line. -/
structure DataLink where
  esc : Bool
  justStarted : Bool
  rcv : List UInt8
  startPkt : ℤ
  lastSYN : ℤ
  crcIn : UInt16
  inCRCstate : ℕ
  receivedCRC : UInt16
  inBuffer : ℕ → UInt8
  inWrite : ℕ
  inRead : ℕ
  isCancelled : Bool
  outBuffer : ℕ → UInt8
  outWrite : ℕ
  outRead : ℕ

/-- The bytes that stand for one payload byte on the line. -/
def stuffByte (isEPOC : Bool) (c : UInt8) : List UInt8 :=
  if c = 0x03 then (if isEPOC then [0x10, 0x04] else [c])
  else if c = 0x10 then [0x10, 0x10]
  else [c]

/-- The message that `send` assembles for a payload. -/
def frameMessage (b : List UInt8) (isEPOC : Bool) : List UInt8 :=
  ([0x16, 0x10, 0x02] : List UInt8) ++ b.flatMap (stuffByte isEPOC) ++
    ([0x10, 0x03, (crcOf b >>> 8).toUInt8, (crcOf b &&& 0xff).toUInt8] : List UInt8)

namespace DataLink

/-- The free cells of the output ring. -/
def outFree (d : DataLink) : ℕ := (d.outRead + BUFLEN - d.outWrite - 1) % BUFLEN

/-- Store one byte in the output ring. -/
def putOut (d : DataLink) (c : UInt8) : DataLink :=
  { d with outBuffer := Function.update d.outBuffer d.outWrite c, outWrite := inc1 d.outWrite }

/-- Send a buffer: the message enters the output ring as a whole, once there is space for it, or
is dropped when shutting down. While there is no space the call has not returned. -/
def send (d : DataLink) (b : List UInt8) (isEPOC : Bool) : Option DataLink :=
  let message := frameMessage b isEPOC
  if d.isCancelled then some d
  else if d.outFree ≥ message.length then some (message.foldl putOut d)
  else none

/-- The pump writes to the line, at most `n` bytes and not across the end of the ring: the bytes
written and the new state. -/
def writeOutput (n : ℕ) (d : DataLink) : List UInt8 × DataLink :=
  let count := if d.outWrite < d.outRead then BUFLEN - d.outRead else d.outWrite - d.outRead
  let res := min n count
  (ringSlice BUFLEN d.outBuffer d.outRead res, { d with outRead := (d.outRead + res) % BUFLEN })

/-- The pump stores one byte that it has read from the line. -/
def putIn (d : DataLink) (c : UInt8) : DataLink :=
  { d with inBuffer := Function.update d.inBuffer d.inWrite c, inWrite := inc1 d.inWrite }

/-- The pump reads some bytes from the line. -/
def readInput (d : DataLink) (bytes : List UInt8) : DataLink := bytes.foldl putIn d

/-- The pump selects the serial port for reading only while this holds. -/
def hasSpace (d : DataLink) : Bool := (d.inWrite + 1) % BUFLEN != d.inRead

/-- How many bytes the pump asks for: the cells up to the read index, or up to the end of the
ring. -/
def readCount (d : DataLink) : ℕ :=
  if d.inRead ≤ d.inWrite then BUFLEN - d.inWrite else d.inRead - d.inWrite

/-- There is unread input. -/
def hasInputData (d : DataLink) : Bool := d.inWrite != d.inRead

/-- The header search. The index `p` is compared with `inw` as it stands at the top of the loop,
where it can be `BUFLEN`. Returns the state and the index at which the loop was left. -/
def searchHeader (inw : ℕ) : ℕ → DataLink → ℕ → Option (DataLink × ℕ)
  | 0, _, _ => none
  | fuel + 1, d, p =>
    if p = inw then some (d, p)
    else
      let p := normalize p
      if d.inBuffer p ≠ 0x16 then searchHeader inw fuel d (p + 1)
      else
        let d := { d with lastSYN := p }
        let p := normalize (p + 1)
        if p = inw then some (d, p)
        else if d.inBuffer p ≠ 0x10 then searchHeader inw fuel d (p + 1)
        else
          let p := normalize (p + 1)
          if p = inw then some (d, p)
          else if d.inBuffer p ≠ 0x02 then searchHeader inw fuel d (p + 1)
          else
            let p := normalize (p + 1)
            some ({ d with
              lastSYN := p, startPkt := p, crcIn := 0, inCRCstate := 0, rcv := [], esc := false }, p)

/-- A byte between the header and the end of the packet. -/
def packetByte (d : DataLink) (c : UInt8) : DataLink :=
  if d.esc then
    if c = 0x03 then { d with esc := false, inCRCstate := 1 }
    else
      let c := if c = 0x04 then 0x03 else c
      { d with esc := false, crcIn := addToCrc c d.crcIn, rcv := d.rcv ++ [c] }
  else if c = 0x10 then { d with esc := true }
  else { d with crcIn := addToCrc c d.crcIn, rcv := d.rcv ++ [c] }

/-- How the packet loop is left: at the end of the input, or at the end of a packet, which is
handed over unless its checksum is wrong. -/
inductive PacketExit where
  | inputEnd (d : DataLink) (p : ℕ)
  | packetEnd (d : DataLink) (packet : Option (List UInt8))

/-- The packet loop. -/
def readPacket (inw : ℕ) : ℕ → DataLink → ℕ → Option PacketExit
  | 0, _, _ => none
  | fuel + 1, d, p =>
    if p = inw then some (.inputEnd d p)
    else
      let c := d.inBuffer p
      match d.inCRCstate with
      | 0 => readPacket inw fuel (d.packetByte c) (inc1 p)
      | 1 => readPacket inw fuel { d with receivedCRC := c.toUInt16 <<< 8, inCRCstate := 2 } (inc1 p)
      | 2 =>
        let receivedCRC := d.receivedCRC ||| c.toUInt16
        some (.packetEnd
          { d with
            receivedCRC := receivedCRC, inRead := inc1 p, startPkt := -1, lastSYN := -1
            inCRCstate := 0, rcv := [] }
          (if receivedCRC ≠ d.crcIn then none else some d.rcv))
      | _ => readPacket inw fuel d (inc1 p)

/-- How much has been received since the parser last consumed anything. -/
def rxAmount (d : DataLink) : ℕ :=
  if d.inWrite > d.inRead then d.inWrite - d.inRead else BUFLEN - d.inRead + d.inWrite

/-- The outer loop. After the `i`-th packet of the call the output ring is looked at, and the
call returns when there is something to send. -/
def processFrom (inw fuel : ℕ) (hasOutputData : ℕ → Bool) :
    ℕ → ℕ → DataLink → List (List UInt8) → Option (Bool × DataLink × List (List UInt8))
  | 0, _, _, _ => none
  | rounds + 1, i, d, receivedData =>
    let p := if d.lastSYN ≥ 0 then d.lastSYN.toNat else d.inRead
    match (if d.startPkt < 0 then searchHeader inw fuel d p else some (d, p)) with
    | none => none
    | some (d, p) =>
      if d.startPkt ≥ 0 then
        match readPacket inw fuel { d with justStarted := false } p with
        | none => none
        | some (.inputEnd d p) => some (true, { d with lastSYN := p }, receivedData)
        | some (.packetEnd d packet) =>
          let receivedData := receivedData ++ packet.toList
          if hasOutputData i then some (true, d, receivedData)
          else processFrom inw fuel hasOutputData rounds (i + 1) d receivedData
      else if d.justStarted ∧ d.rxAmount > 15 then some (false, d, receivedData)
      else some (true, d, receivedData)

/-- Read the incoming data and process frames: whether the link is stable, the new state, and
the packets pushed to `receivedData`. -/
def processInputData (fuel : ℕ) (hasOutputData : ℕ → Bool) (d : DataLink) :
    Option (Bool × DataLink × List (List UInt8)) :=
  processFrom d.inWrite fuel hasOutputData fuel 0 d []

/-- What the pump does when the link is unstable, as far as the rings and the parser go. -/
def internalReset (d : DataLink) : DataLink :=
  { d with
    outRead := 0, outWrite := 0, inRead := 0, inWrite := 0, esc := false, lastSYN := -1
    startPkt := -1, crcIn := 0, justStarted := true }

/-- A data link whose rings are empty at the given position, over whatever the cells hold. -/
def atPosition (position : ℕ) (inBuffer outBuffer : ℕ → UInt8) (justStarted : Bool) : DataLink where
  esc := false
  justStarted := justStarted
  rcv := []
  startPkt := -1
  lastSYN := -1
  crcIn := 0
  inCRCstate := 0
  receivedCRC := 0
  inBuffer := inBuffer
  inWrite := position
  inRead := position
  isCancelled := false
  outBuffer := outBuffer
  outWrite := position
  outRead := position

end DataLink

end Plptools
