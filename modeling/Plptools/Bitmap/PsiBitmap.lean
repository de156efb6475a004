import Plptools.Rfsv.RFSV

/-!
# Psion bitmaps

`encodeBitmap` packs grey levels into pixels of two bits, four to a byte, and fills every row up to
a multiple of four bytes. `decodeBitmap` reads bitmaps of one to eight bits a pixel, with or without
run lengths, and writes one grey level for each pixel.

Buffers are the lists of bytes that they are observed as. The decoder is given a pointer only: a
read behind the bytes there are, a division by zero and a shift by too many bits give nothing. Its
counters are ints, which is enough for fewer than `2 ^ 31` bytes on either side.
-/

namespace Plptools

open BufferStore (dwordBytes)
open RFSV (uint32 int32 getDWord)

/-! ### Encoding -/

/-- The local variables of the loop over a row, and the rows packed so far. -/
structure RowState where
  ov : ℕ
  shift : ℕ
  bc : ℕ
  rawBuf : List UInt8
deriving DecidableEq, Repr

namespace RowState

/-- The start of a row. -/
def start (rawBuf : List UInt8) : RowState := ⟨0, 0, 0, rawBuf⟩

/-- One round of the loop over a row: `v` is the pixel, a grey level over 85. -/
def addPixel (s : RowState) (v : ℕ) : RowState :=
  let ov := s.ov ||| v <<< s.shift
  if s.shift = 6 then ⟨0, 0, s.bc + 1, s.rawBuf ++ [lowByte ov]⟩
  else { s with ov := ov, shift := s.shift + 2 }

/-- Flush a byte that is not full. -/
def flush (s : RowState) : RowState :=
  if s.shift ≠ 0 then ⟨0, 0, s.bc + 1, s.rawBuf ++ [lowByte s.ov]⟩ else s

/-- The loop `while (bc % 4)`; the fuel bounds its rounds. -/
def pad : ℕ → RowState → RowState
  | 0, s => s
  | fuel + 1, s =>
    if s.bc % 4 ≠ 0 then pad fuel { s with bc := s.bc + 1, rawBuf := s.rawBuf ++ [0] } else s

end RowState

/-- The rows packed so far, and row `y`. Three rounds fill a row up. -/
def encodeRow (width : ℕ) (getPixel : ℕ → ℕ → ℕ) (rawBuf : List UInt8) (y : ℕ) : List UInt8 :=
  let s := (List.range width).foldl (fun s x => s.addPixel (getPixel x y / 85)) (RowState.start rawBuf)
  (s.flush.pad 3).rawBuf

/-- Append a bitmap to `out`. The flag for run lengths is not used. -/
def encodeBitmap (width height : ℕ) (getPixel : ℕ → ℕ → ℕ) (_rle : Bool) (out : List UInt8) :
    List UInt8 :=
  let header := dwordBytes 0x00000028 ++ dwordBytes width ++ dwordBytes height ++ dwordBytes 0 ++
    dwordBytes 0 ++ dwordBytes 2 ++ dwordBytes 0 ++ dwordBytes 0 ++ dwordBytes 0
  let rawBuf := (List.range height).foldl (encodeRow width getPixel) []
  let ib := header ++ rawBuf
  out ++ dwordBytes (ib.length + 4 : ℕ) ++ ib

/-! ### Decoding -/

/-- What is computed from the header, `linelen` apart. -/
structure Format where
  datlen : ℕ
  xPixels : ℕ
  yPixels : ℕ
  bitsPerPixel : ℕ
  RLEflag : ℕ
deriving DecidableEq, Repr

namespace Format

def picsize (f : Format) : ℕ := uint32 (f.xPixels * f.yPixels)

def pixelsPerByte (f : Format) : ℕ := 8 / f.bitsPerPixel

def nColors (f : Format) : ℕ := 1 <<< f.bitsPerPixel

def grayVal (f : Format) : ℕ := 255 / (f.nColors - 1)

/-- The quotient of unsigned numbers is kept as an int. -/
def bytesPerLine (f : Format) : ℤ := int32 (uint32 (f.xPixels + f.pixelsPerByte - 1) / f.pixelsPerByte)

def mask (f : Format) : ℕ := (f.bitsPerPixel <<< 1) - 1

end Format

/-- The local variables of the decoding loops, and the output. -/
structure DecodeState where
  oidx : ℕ
  x : ℕ
  out : List UInt8
deriving DecidableEq, Repr

namespace DecodeState

/-- The pixels of a byte from the `j`-th on, `left` of them. The flag is false where the decoder
returns false. -/
def splitPixels (f : Format) : ℕ → ℕ → ℕ → DecodeState → Bool × DecodeState
  | 0, _, _, s => (true, s)
  | left + 1, j, v, s =>
    if j ≠ 0 ∧ s.oidx % f.xPixels = 0 then (true, s)
    else if s.oidx ≥ f.picsize then (false, s)
    else splitPixels f left (j + 1) (v >>> f.bitsPerPixel)
      ⟨s.oidx + 1, s.x, s.out ++ [lowByte ((v &&& f.mask) * f.grayVal : ℕ)]⟩

/-- Split one byte; the columns behind those that hold pixels are skipped. -/
def splitByte (f : Format) (linelen : ℕ) (v : UInt8) (s : DecodeState) : Bool × DecodeState :=
  let r := if s.x < f.bytesPerLine then splitPixels f f.pixelsPerByte 0 v.toNat s else (true, s)
  if r.1 then (true, { r.2 with x := if r.2.x + 1 ≥ linelen then 0 else r.2.x + 1 }) else r

/-- The loop over bytes without run lengths: `left` bytes from `offset` on. -/
def splitBytes (f : Format) (linelen : ℕ) (p : List UInt8) :
    ℕ → ℕ → DecodeState → Option (Bool × DecodeState)
  | 0, _, s => some (true, s)
  | left + 1, offset, s => do
    let b ← p[offset]?
    let r := s.splitByte f linelen b
    if r.1 then splitBytes f linelen p left (offset + 1) r.2 else return r

/-- Split the byte `b2` several times. -/
def splitRun (f : Format) (linelen : ℕ) (b2 : UInt8) : ℕ → DecodeState → Bool × DecodeState
  | 0, s => (true, s)
  | left + 1, s =>
    let r := s.splitByte f linelen b2
    if r.1 then splitRun f linelen b2 left r.2 else r

/-- The bytes of a literal run, of which the data may hold too few; the offset behind them. -/
def splitLiteral (f : Format) (linelen : ℕ) (p : List UInt8) :
    ℕ → ℕ → DecodeState → Option (Bool × ℕ × DecodeState)
  | 0, offset, s => some (true, offset, s)
  | left + 1, offset, s =>
    if offset ≥ f.datlen then some (false, offset, s)
    else do
      let b2 ← p[offset]?
      let r := s.splitByte f linelen b2
      if r.1 then splitLiteral f linelen p left (offset + 1) r.2 else return (false, offset, r.2)

/-- The loop over runs; each round takes a byte, so that the fuel bounds the rounds. -/
def splitRuns (f : Format) (linelen : ℕ) (p : List UInt8) :
    ℕ → ℕ → DecodeState → Option (Bool × DecodeState)
  | 0, _, s => some (true, s)
  | fuel + 1, offset, s =>
    if offset < f.datlen then do
      let b ← p[offset]?
      let offset := offset + 1
      if b ≥ 0x80 then
        let (more, offset, s) ← splitLiteral f linelen p (0x100 - b.toNat) offset s
        if more then splitRuns f linelen p fuel offset s else return (false, s)
      else if offset ≥ f.datlen then return (false, s)
      else
        let b2 ← p[offset]?
        let r := s.splitRun f linelen b2 (b.toNat + 1)
        if r.1 then splitRuns f linelen p fuel (offset + 1) r.2 else return r
    else return (true, s)

end DecodeState

/-- The number of bytes that the runs stand for, counted by their first bytes. -/
def countRuns (f : Format) (p : List UInt8) : ℕ → ℕ → ℕ → Option ℕ
  | 0, _, i => some i
  | fuel + 1, offset, i =>
    if offset < f.datlen then do
      let b ← p[offset]?
      if b ≥ 0x80 then countRuns f p fuel (offset + (0x100 - b.toNat) + 1) (i + (0x100 - b.toNat))
      else countRuns f p fuel (offset + 2) (i + b.toNat + 1)
    else return i

/-- What `decodeBitmap` returns, also through its references. -/
structure Decoded where
  ok : Bool
  width : ℤ
  height : ℤ
  out : List UInt8
deriving DecidableEq, Repr

/-- The double word at `pos`, as a little-endian machine reads it. -/
def readDWord (p : List UInt8) (pos : ℕ) : Option ℕ :=
  if pos + 4 ≤ p.length then some (getDWord p pos) else none

/-- The numbers of the header; two lengths, four that are not used. -/
def readFormat (p : List UInt8) : Option Format := do
  let totlen ← readDWord p 0
  let hdrlen ← readDWord p 4
  let xPixels ← readDWord p 8
  let yPixels ← readDWord p 12
  let _xTwips ← readDWord p 16
  let _yTwips ← readDWord p 20
  let bitsPerPixel ← readDWord p 24
  let _unknown1 ← readDWord p 28
  let _unknown2 ← readDWord p 32
  let RLEflag ← readDWord p 36
  return ⟨uint32 (totlen - hdrlen), xPixels, yPixels, bitsPerPixel, RLEflag⟩

/-- Decode the bitmap at `p`, appending its pixels to `out`. -/
def decodeBitmap (p out : List UInt8) : Option Decoded := do
  let f ← readFormat p
  if f.bitsPerPixel = 0 ∨ 8 < f.bitsPerPixel ∨ f.yPixels = 0 then none
  else
    let p := p.drop 40
    let s : DecodeState := ⟨0, 0, out⟩
    let (ok, s) ←
      if f.RLEflag ≠ 0 then do
        let i ← countRuns f p f.datlen 0 0
        DecodeState.splitRuns f (i / f.yPixels) p f.datlen 0 s
      else DecodeState.splitBytes f (f.datlen / f.yPixels) p f.datlen 0 s
    return ⟨ok, int32 f.xPixels, int32 f.yPixels, s.out⟩

end Plptools
