import Plptools.Library.Loop
import Plptools.Bitmap.Ints

/-!
# Pages

`convertPage` reads the commands of a page one after the other. Nothing is checked of the lengths in
them: what is read behind the page is what the memory holds there. Where an int overflows there is
nothing, and neither is there where a bitmap cannot be decoded or holds fewer pixels than are printed.
-/

namespace Plptools

open RFSV (int32 uint32)

/-! ### Reading -/

def byteAt (mem : ℤ → UInt8) (i : ℤ) : ℕ := (mem i).toNat

def wordAt (mem : ℤ → UInt8) (i : ℤ) : ℕ := byteAt mem i + 256 * byteAt mem (i + 1)

def dwordAt (mem : ℤ → UInt8) (i : ℤ) : ℕ := wordAt mem i + 65536 * wordAt mem (i + 2)

def bytesAt (mem : ℤ → UInt8) : ℕ → ℤ → List UInt8
  | 0, _ => []
  | n + 1, i => mem i :: bytesAt mem n (i + 1)

/-- Two double words for each segment of a polygon. -/
def pointsAt (mem : ℤ → UInt8) : ℕ → ℤ → List (ℕ × ℕ)
  | 0, _ => []
  | count + 1, o => (dwordAt mem o, dwordAt mem (o + 4)) :: pointsAt mem count (o + 8)

/-- The length of the string behind the opcode at `i`, and where it begins. -/
def stringAt (mem : ℤ → UInt8) (i : ℤ) : ℕ × ℤ :=
  if byteAt mem (i + 1) &&& 1 ≠ 0 then (wordAt mem (i + 1) >>> 3, i + 3) else (byteAt mem (i + 1) >>> 2, i + 2)

/-- The bytes of a bitmap that `decodeBitmap` can read: its header, and as many as that says. -/
def bitmapAt (mem : ℤ → UInt8) (buf : ℤ) : List UInt8 :=
  bytesAt mem (40 + uint32 (dwordAt mem buf - dwordAt mem (buf + 4))) buf

/-- Decode a bitmap, and print its pixels row by row; of a corrupted one nothing is printed. The loops
do not ask how many pixels there are. -/
def psBitmap (p : List UInt8) : Option (Option (ℤ × ℤ × List UInt8)) :=
  (decodeBitmapInt p []).bind fun d =>
    if d.ok then
      if d.width.toNat * d.height.toNat ≤ d.out.length then
        some (some (d.width, d.height, d.out.take (d.width.toNat * d.height.toNat)))
      else none
    else some none

/-- Adding to an index. -/
def advance (i : ℤ) (n : ℕ) : Option ℤ := if i + n < 2 ^ 31 then some (i + n) else none

/-- A command, with what is read of it. -/
inductive Command
  | startOfSection (sect pagenr : ℕ)
  | endOfPage
  | drawingMode (drwmode : ℕ)
  | boundingBox (left top right bottom : ℕ)
  | cancelClippingRect
  | u06 (a b : ℕ)
  | font (fname : List UInt8) (screenfont basesize style fontsize boffset : ℕ)
  | endFont
  | underline (a : ℕ)
  | strikethru (a : ℕ)
  | newline (a b : ℕ)
  | cr (a b : ℕ)
  | foreground (a b c : ℕ)
  | penStyle (pstyle : ℕ)
  | penThickness (x y : ℕ)
  | background (a b c : ℕ)
  | brushStyle (bstyle : ℕ)
  | u17 (a b : ℕ)
  | line (a b c d : ℕ)
  | u1b (a b : ℕ)
  | ellipse (a b c d : ℕ)
  | rectangle (a b c d : ℕ)
  | polygon (points : List (ℕ × ℕ)) (frule : ℕ)
  | bitmap (llx lly urx ury : ℕ) (image : Option (ℤ × ℤ × List UInt8))
  | bitmapAndMore (llx lly urx ury : ℕ) (image : Option (ℤ × ℤ × List UInt8)) (u1 u2 u3 u4 : ℕ)
  | label (text : List UInt8) (x y : ℕ)
  | justifiedText (text : List UInt8) (left top right bottom baseline align amargin : ℕ)
  | unhandled (opcode : UInt8)
deriving DecidableEq, Repr

/-- The command at `i`, and the index behind it. No index on the way there is larger than this one,
but for the bitmaps, whose length is added to an unsigned long. -/
def readCommand (mem : ℤ → UInt8) (len i : ℤ) : Option (Command × ℤ) :=
  match mem i with
  | 0x00 => (advance i 5).map (.startOfSection (dwordAt mem (i + 1) &&& 3) (dwordAt mem (i + 1) >>> 2), ·)
  | 0x01 => (advance len 1).map (.endOfPage, ·)
  | 0x03 => (advance i 2).map (.drawingMode (byteAt mem (i + 1)), ·)
  | 0x04 => (advance i 17).map (.boundingBox (dwordAt mem (i + 1)) (dwordAt mem (i + 5)) (dwordAt mem (i + 9))
      (dwordAt mem (i + 13)), ·)
  | 0x05 => (advance i 1).map (.cancelClippingRect, ·)
  | 0x06 => (advance i 6).map (.u06 (byteAt mem (i + 1)) (dwordAt mem (i + 2)), ·)
  | 0x07 =>
    let (namelen, ofs) := stringAt mem i
    let fname := bytesAt mem namelen ofs
    let ofs := ofs + namelen
    (advance ofs 15).map (.font fname (byteAt mem ofs) (wordAt mem (ofs + 1)) (dwordAt mem (ofs + 3))
      (dwordAt mem (ofs + 7)) (dwordAt mem (ofs + 11)), ·)
  | 0x08 => (advance i 1).map (.endFont, ·)
  | 0x09 => (advance i 2).map (.underline (byteAt mem (i + 1)), ·)
  | 0x0a => (advance i 2).map (.strikethru (byteAt mem (i + 1)), ·)
  | 0x0b => (advance i 9).map (.newline (dwordAt mem (i + 1)) (dwordAt mem (i + 5)), ·)
  | 0x0c => (advance i 9).map (.cr (dwordAt mem (i + 1)) (dwordAt mem (i + 5)), ·)
  | 0x0d => (advance i 4).map (.foreground (byteAt mem (i + 1)) (byteAt mem (i + 2)) (byteAt mem (i + 3)), ·)
  | 0x0e => (advance i 2).map (.penStyle (byteAt mem (i + 1)), ·)
  | 0x0f => (advance i 9).map (.penThickness (dwordAt mem (i + 1)) (dwordAt mem (i + 5)), ·)
  | 0x10 => (advance i 4).map (.background (byteAt mem (i + 1)) (byteAt mem (i + 2)) (byteAt mem (i + 3)), ·)
  | 0x11 => (advance i 2).map (.brushStyle (byteAt mem (i + 1)), ·)
  | 0x17 => (advance i 9).map (.u17 (dwordAt mem (i + 1)) (dwordAt mem (i + 5)), ·)
  | 0x19 => (advance i 17).map (.line (dwordAt mem (i + 1)) (dwordAt mem (i + 5)) (dwordAt mem (i + 9))
      (dwordAt mem (i + 13)), ·)
  | 0x1b => (advance i 9).map (.u1b (dwordAt mem (i + 1)) (dwordAt mem (i + 5)), ·)
  | 0x1f => (advance i 17).map (.ellipse (dwordAt mem (i + 1)) (dwordAt mem (i + 5)) (dwordAt mem (i + 9))
      (dwordAt mem (i + 13)), ·)
  | 0x20 => (advance i 17).map (.rectangle (dwordAt mem (i + 1)) (dwordAt mem (i + 5)) (dwordAt mem (i + 9))
      (dwordAt mem (i + 13)), ·)
  | 0x23 =>
    let count := dwordAt mem (i + 1)
    let o := i + 5 + (8 * count : ℕ)
    (advance o 1).map (.polygon (pointsAt mem count (i + 5)) (byteAt mem o), ·)
  | 0x25 => do
    let buf ← advance i 17
    let blen := dwordAt mem buf
    let image ← psBitmap (bitmapAt mem buf)
    return (.bitmap (dwordAt mem (i + 1)) (dwordAt mem (i + 13)) (dwordAt mem (i + 9)) (dwordAt mem (i + 5)) image,
      int32 (i + (17 + blen : ℕ)))
  | 0x26 => do
    let buf ← advance i 17
    let blen := dwordAt mem buf
    let image ← psBitmap (bitmapAt mem buf)
    return (.bitmapAndMore (dwordAt mem (i + 1)) (dwordAt mem (i + 13)) (dwordAt mem (i + 9)) (dwordAt mem (i + 5))
      image (dwordAt mem (buf + blen)) (dwordAt mem (buf + blen + 4)) (dwordAt mem (buf + blen + 8))
      (dwordAt mem (buf + blen + 12)), int32 (i + (17 + blen + 16 : ℕ)))
  | 0x27 =>
    let (tlen, ofs) := stringAt mem i
    let text := bytesAt mem tlen ofs
    let ofs := ofs + tlen
    (advance ofs 8).map (.label text (dwordAt mem ofs) (dwordAt mem (ofs + 4)), ·)
  | 0x28 =>
    let (tlen, ofs) := stringAt mem i
    let text := bytesAt mem tlen ofs
    let ofs := ofs + tlen
    (advance ofs 25).map (.justifiedText text (dwordAt mem ofs) (dwordAt mem (ofs + 4)) (dwordAt mem (ofs + 8))
      (dwordAt mem (ofs + 12)) (dwordAt mem (ofs + 16)) (byteAt mem (ofs + 20)) (dwordAt mem (ofs + 21)), ·)
  | opcode => (advance i 1).map (.unhandled opcode, ·)

/-- The variables of the loop: the index and the commands so far. -/
structure PageState where
  i : ℤ
  out : List Command
deriving DecidableEq, Repr

/-- One round of the loop. -/
def PageState.step (mem : ℤ → UInt8) (len : ℤ) (s : PageState) : Option PageState :=
  (readCommand mem len s.i).map fun c => ⟨c.2, s.out ++ [c.1]⟩

/-- A page of `size` bytes, in at most so many rounds. -/
def convertPage (mem : ℤ → UInt8) (size rounds : ℕ) : Option PageState :=
  Library.loop (fun s => s.i < int32 size) (PageState.step mem (int32 size)) rounds ⟨0, []⟩

end Plptools
