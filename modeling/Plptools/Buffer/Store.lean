import Mathlib.Algebra.Group.Int.Defs
import Mathlib.Algebra.Group.Nat.Defs
import Mathlib.Data.Int.Notation
import Mathlib.Data.List.Basic

/-!
# The growable byte buffer

`BufferStore` is a window `[start, len)` into an allocated block. Appending writes at `len`,
discarding moves `start`, and prepending shifts the whole block, the discarded bytes
included. Lengths and counts are natural numbers: every operation is modelled for the
non-negative arguments it is given in this repository. Only the length of a string is computed
here, and put into an `int`: when that is negative, `memcpy` leaves the block, and there is no
store behind the operation.

A block is the list of its bytes. What `malloc` and `realloc` leave undefined is zero here;
no operation reads a byte that was not written first.
-/

namespace Plptools

/-- The smallest block that is allocated. -/
def MIN_LEN : ℕ := 300

/-- The bytes of a block after copying `bytes` to position `pos`. -/
def memcpy (block : List UInt8) (pos : ℕ) (bytes : List UInt8) : List UInt8 :=
  block.take pos ++ bytes ++ block.drop (pos + bytes.length)

/-- The block after resizing it to `size` bytes. -/
def realloc (block : List UInt8) (size : ℕ) : List UInt8 :=
  block.take size ++ List.replicate (size - block.length) 0

/-- The low byte of a machine integer, `a & 0xff`. -/
def lowByte (a : ℤ) : UInt8 := UInt8.ofNat (a % 256).toNat

/-- The low byte of a number below 256. -/
theorem lowByte_natCast {n : ℕ} (h : n < 256) : lowByte n = UInt8.ofNat n := by
  have hmod : ((n : ℤ) % 256).toNat = n := by omega
  rw [lowByte, hmod]

/-- The characters of a C string, up to its terminating zero. -/
def cString (s : List UInt8) : List UInt8 := s.takeWhile (· != 0)

/-- The value of an `int` that a length is assigned to. -/
def intOf (n : ℕ) : ℤ := ((n : ℤ) + 2 ^ 31) % 2 ^ 32 - 2 ^ 31

/-- A length below 2³¹ is kept. -/
theorem intOf_eq {n : ℕ} (h : n < 2 ^ 31) : intOf n = n := by
  rw [intOf]
  omega

/-- A length from 2³¹ on is not: what is left of it is smaller. -/
theorem intOf_lt {n : ℕ} (h : 2 ^ 31 ≤ n) : intOf n < n := by
  rw [intOf]
  omega

/-- The four members of `BufferStore`. -/
structure BufferStore where
  len : ℕ
  lenAllocd : ℕ
  start : ℕ
  buff : List UInt8
deriving DecidableEq, Repr

namespace BufferStore

/-- The default constructor allocates nothing. -/
def new : BufferStore := ⟨0, 0, 0, []⟩

/-- The observable length. -/
def getLen (b : BufferStore) : ℕ := if b.start > b.len then 0 else b.len - b.start

/-- The byte at `pos`, counted from the start of the window. -/
def getByte (b : BufferStore) (pos : ℕ) : UInt8 := b.buff.getD (pos + b.start) 0

/-- The difference of the two `long` members is compared with zero. -/
def empty (b : BufferStore) : Bool := decide ((b.len : ℤ) - b.start = 0)

/-- The first `n` bytes that `getString(0)` points at. -/
def getString (b : BufferStore) (n : ℕ) : List UInt8 := (b.buff.drop b.start).take n

/-- Copying constructor from a memory area. -/
def newFrom (bytes : List UInt8) : BufferStore :=
  let lenAllocd := if bytes.length > MIN_LEN then bytes.length else MIN_LEN
  ⟨bytes.length, lenAllocd, 0, memcpy (List.replicate lenAllocd 0) 0 bytes⟩

/-- Copying constructor from another store. -/
def newCopy (a : BufferStore) : BufferStore :=
  let lenAllocd := if a.getLen > MIN_LEN then a.getLen else MIN_LEN
  ⟨a.getLen, lenAllocd, 0, memcpy (List.replicate lenAllocd 0) 0 (a.getString a.getLen)⟩

/-- One round of the growth loop. -/
def doubled (lenAllocd : ℕ) : ℕ := if lenAllocd < MIN_LEN then MIN_LEN else lenAllocd * 2

/-- Double the allocation while it is not above `newLen`; the fuel bounds the rounds. -/
def grow (newLen : ℕ) : ℕ → ℕ → ℕ
  | 0, lenAllocd => lenAllocd
  | fuel + 1, lenAllocd =>
    if newLen ≥ lenAllocd then grow newLen fuel (doubled lenAllocd) else lenAllocd

/-- Make room for `newLen` bytes. Each round adds at least one byte, so `newLen + 1` rounds
are enough. -/
def checkAllocd (b : BufferStore) (newLen : ℕ) : BufferStore :=
  let lenAllocd := grow newLen (newLen + 1) b.lenAllocd
  { b with lenAllocd := lenAllocd, buff := realloc b.buff lenAllocd }

/-- Copy assignment between two different stores. -/
def assign (b a : BufferStore) : BufferStore :=
  let b := b.checkAllocd a.getLen
  { b with len := a.getLen, buff := memcpy b.buff 0 (a.getString a.getLen), start := 0 }

/-- Remove all content. -/
def init (b : BufferStore) : BufferStore := { b with start := 0, len := 0 }

/-- Replace the content by the given bytes. -/
def initFrom (b : BufferStore) (bytes : List UInt8) : BufferStore :=
  let b := b.checkAllocd bytes.length
  { b with start := 0, len := bytes.length, buff := memcpy b.buff 0 bytes }

/-- Drop bytes from the front by moving `start`. -/
def discardFirstBytes (b : BufferStore) (n : ℕ) : BufferStore :=
  { b with start := if b.start + n > b.len then b.len else b.start + n }

/-- Append bytes at `len`. -/
def addBytes (b : BufferStore) (bytes : List UInt8) : BufferStore :=
  let b := b.checkAllocd (b.len + bytes.length)
  { b with buff := memcpy b.buff b.len bytes, len := b.len + bytes.length }

/-- Append one byte. -/
def addByte (b : BufferStore) (cc : UInt8) : BufferStore := b.addBytes [cc]

/-- Append the characters of a string, as many as the `int` tells. A negative one is a huge count for
`memcpy`, which then writes behind the block. -/
def addString (b : BufferStore) (s : List UInt8) : Option BufferStore :=
  let l := intOf (cString s).length
  if 0 ≤ l then some (b.addBytes ((cString s).take l.toNat)) else none

/-- Append a string with its terminating zero. -/
def addStringT (b : BufferStore) (s : List UInt8) : Option BufferStore := (b.addString s).map (·.addByte 0)

/-- The two bytes of a word, low byte first. -/
def wordBytes (a : ℤ) : List UInt8 := [lowByte a, lowByte (a >>> (8 : ℕ))]

/-- Append a word, low byte first. -/
def addWord (b : BufferStore) (a : ℤ) : BufferStore := b.addBytes (wordBytes a)

/-- The four bytes of a double word, low byte first. -/
def dwordBytes (a : ℤ) : List UInt8 :=
  [lowByte a, lowByte (a >>> (8 : ℕ)), lowByte (a >>> (16 : ℕ)), lowByte (a >>> (24 : ℕ))]

/-- Append a double word, low byte first. -/
def addDWord (b : BufferStore) (a : ℤ) : BufferStore := b.addBytes (dwordBytes a)

/-- The number of bytes that `addBuff` takes from a store of length `l`. -/
def buffCount (l : ℕ) (maxLen : ℤ) : ℕ := if maxLen ≥ 0 ∧ maxLen < l then maxLen.toNat else l

/-- Append the content of another store, at most `maxLen` bytes of it unless that is negative.
Room is made for the whole content before it is cut; resizing keeps the bytes of the block,
so a store can be appended to itself. -/
def addBuff (b s : BufferStore) (maxLen : ℤ) : BufferStore :=
  let l := s.getLen
  let b := b.checkAllocd (b.len + l)
  let l := buffCount l maxLen
  if l > 0 then { b with buff := memcpy b.buff b.len (s.getString l), len := b.len + l } else b

/-- Cut the window at block position `newLen`. -/
def truncate (b : BufferStore) (newLen : ℕ) : BufferStore :=
  if newLen < b.len then { b with len := newLen } else b

/-- Shift the whole block and put `bytes` at its beginning. -/
def prependBytes (b : BufferStore) (bytes : List UInt8) : BufferStore :=
  let b := b.checkAllocd (b.len + bytes.length)
  { b with
    buff := memcpy (memcpy b.buff bytes.length (b.buff.take b.len)) 0 bytes
    len := b.len + bytes.length }

/-- Put one byte in front. -/
def prependByte (b : BufferStore) (cc : UInt8) : BufferStore := b.prependBytes [cc]

/-- Put a word in front, low byte first. -/
def prependWord (b : BufferStore) (a : ℤ) : BufferStore := b.prependBytes (wordBytes a)

end BufferStore

end Plptools
