import Plptools.Library.Outcome
import Plptools.Library.Packing
import Plptools.DataLink.Crc
import Plptools.Rfsv.RFSV

/-!
# Reading from a SIS file

A SIS file is parsed in memory. Positions are integers, since offsets from the file are kept as ints:
reading at a position outside the memory, and an addition that overflows an int, are faults. At the
default log level nothing is printed while a file is parsed; the messages are left out.
-/

namespace Plptools

open Plptools.Library
open RFSV (getWord getDWord getByte uint32 int32)

/-- The return codes. -/
inductive SisRC
  | SIS_OK
  | SIS_TRUNCATED
  | SIS_TRUNCATEDDATA
  | SIS_CORRUPTED
  | SIS_FAILED
  | SIS_ABORTED
  | SIS_DIFFERENT_APP
  | SIS_VER_EARLIER
  | SIS_SAME_OR_LATER
  | SIS_OTHER_VARIANT
deriving DecidableEq, Repr

/-- A return code other than `SIS_OK`, a value, or a fault. -/
abbrev Sis (A : Type) : Type := Outcome SisRC A

namespace Sis

variable {E : Type}

/-- Adding ints. -/
def addInt (a b : ℤ) : Outcome E ℤ := if -2 ^ 31 ≤ a + b ∧ a + b < 2 ^ 31 then .ok (a + b) else .fault

/-- The byte at `p`. -/
def read8 (mem : List UInt8) (p : ℤ) : Outcome E ℕ :=
  if 0 ≤ p ∧ p < mem.length then .ok (getByte mem p.toNat) else .fault

def read16 (mem : List UInt8) (p : ℤ) : Outcome E ℕ := do
  let p0 ← read8 mem p
  let p1 ← read8 mem (p + 1)
  return p0 ||| p1 <<< 8

def read32 (mem : List UInt8) (p : ℤ) : Outcome E ℕ := do
  let p0 ← read8 mem p
  let p1 ← read8 mem (p + 1)
  let p2 ← read8 mem (p + 2)
  let p3 ← read8 mem (p + 3)
  return p0 ||| p1 <<< 8 ||| p2 <<< 16 ||| p3 <<< 24

/-- Copying `n` bytes from `p` on; no bytes may be copied from anywhere. -/
def readBytes (mem : List UInt8) (p : ℤ) (n : ℕ) : Outcome E (List UInt8) :=
  if n = 0 then .ok []
  else if 0 ≤ p ∧ p + n ≤ mem.length then .ok ((mem.drop p.toNat).take n) else .fault

/-- `createCRCTable` fills the table the way that of the data link is filled. -/
def sCrcTable : List UInt16 := crcTable

def updateCrc (crc : UInt16) (value : UInt8) : UInt16 :=
  (crc <<< 8) ^^^ sCrcTable.getD (((crc >>> 8) ^^^ value.toUInt16) &&& 0xff).toNat 0

/-- The checksum of the bytes at the given positions. -/
def readCrc (mem : List UInt8) : List ℤ → UInt16 → Sis UInt16
  | [], crc => .ok crc
  | p :: ps, crc => do
    let value ← read8 mem p
    readCrc mem ps (updateCrc crc (UInt8.ofNat value))

/-! ### What is read inside the memory -/

/-- The value of a word. -/
def word (mem : List UInt8) (p : ℤ) : ℕ := getWord mem p.toNat

/-- The value of a double word. -/
def dword (mem : List UInt8) (p : ℤ) : ℕ := getDWord mem p.toNat

/-- A double word has 32 bits. -/
theorem dword_lt (mem : List UInt8) (p : ℤ) : dword mem p < 2 ^ 32 := RFSV.getDWord_lt _ _

/-- A sum that an int holds. -/
theorem addInt_of_range {a b : ℤ} (hlow : -2 ^ 31 ≤ a + b) (hhigh : a + b < 2 ^ 31) :
    (addInt a b : Outcome E ℤ) = .ok (a + b) := if_pos ⟨hlow, hhigh⟩

/-- A byte inside is read. -/
theorem read8_inside {mem : List UInt8} {p : ℤ} (hlow : 0 ≤ p) (hhigh : p + 1 ≤ mem.length) :
    (read8 mem p : Outcome E ℕ) = .ok (getByte mem p.toNat) := if_pos ⟨hlow, by omega⟩

/-- No byte before the file is read. -/
theorem read8_neg {mem : List UInt8} {p : ℤ} (h : p < 0) : (read8 mem p : Outcome E ℕ) = .fault :=
  if_neg fun hinside => absurd hinside.1 (not_le.mpr h)

/-- A byte has 8 bits. -/
theorem getByte_lt (mem : List UInt8) (i : ℕ) : getByte mem i < 256 := UInt8.toNat_lt _

/-- A word inside is read. -/
theorem read16_inside {mem : List UInt8} {p : ℤ} (hlow : 0 ≤ p) (hhigh : p + 2 ≤ mem.length) :
    (read16 mem p : Outcome E ℕ) = .ok (word mem p) := by
  obtain ⟨i, rfl⟩ := Int.eq_ofNat_of_zero_le hlow
  have hor := ofDigits_or_shiftLeft (k := 8) (g := [getByte mem i]) (by decide)
    (by simpa using getByte_lt mem i) (getByte mem (i + 1))
  rw [Nat.ofDigits_singleton] at hor
  have hvalue : Nat.ofDigits (2 ^ 8) ([getByte mem i] ++ [getByte mem (i + 1)]) = getWord mem i := by
    simp only [List.cons_append, List.nil_append, Nat.ofDigits_cons, Nat.ofDigits_nil, getWord]
    omega
  have htoNat : ((i : ℤ) + 1).toNat = i + 1 := by omega
  rw [read16, read8_inside hlow (by omega), read8_inside (by omega) (by omega), htoNat,
    word, Int.toNat_natCast]
  exact congrArg Outcome.ok (hor.trans hvalue)

/-- A double word inside is read. -/
theorem read32_inside {mem : List UInt8} {p : ℤ} (hlow : 0 ≤ p) (hhigh : p + 4 ≤ mem.length) :
    (read32 mem p : Outcome E ℕ) = .ok (dword mem p) := by
  obtain ⟨i, rfl⟩ := Int.eq_ofNat_of_zero_le hlow
  have hbyte (j : ℕ) : getByte mem j < 2 ^ 8 := getByte_lt mem j
  have h1 := ofDigits_or_shiftLeft (k := 8) (g := [getByte mem i]) (by decide) (by simpa using hbyte i)
    (getByte mem (i + 1))
  have h2 := ofDigits_or_shiftLeft (k := 8) (g := [getByte mem i, getByte mem (i + 1)]) (by decide)
    (by simp [getByte_lt]) (getByte mem (i + 2))
  have h3 := ofDigits_or_shiftLeft (k := 8) (g := [getByte mem i, getByte mem (i + 1), getByte mem (i + 2)])
    (by decide) (by simp [getByte_lt]) (getByte mem (i + 3))
  have hvalue : Nat.ofDigits (2 ^ 8) ([getByte mem i, getByte mem (i + 1), getByte mem (i + 2)] ++
      [getByte mem (i + 3)]) = getDWord mem i := by
    simp only [List.cons_append, List.nil_append, Nat.ofDigits_cons, Nat.ofDigits_nil, getDWord, getWord,
      Nat.add_assoc, Nat.reduceAdd]
    omega
  have hor : getByte mem i ||| getByte mem (i + 1) <<< 8 ||| getByte mem (i + 2) <<< 16 |||
      getByte mem (i + 3) <<< 24 = getDWord mem i := by
    rw [Nat.ofDigits_singleton] at h1
    calc getByte mem i ||| getByte mem (i + 1) <<< 8 ||| getByte mem (i + 2) <<< 16 ||| getByte mem (i + 3) <<< 24
      _ = Nat.ofDigits (2 ^ 8) [getByte mem i, getByte mem (i + 1)] ||| getByte mem (i + 2) <<< 16 |||
          getByte mem (i + 3) <<< 24 := congrArg (· ||| _ ||| _) h1
      _ = Nat.ofDigits (2 ^ 8) [getByte mem i, getByte mem (i + 1), getByte mem (i + 2)] |||
          getByte mem (i + 3) <<< 24 := congrArg (· ||| _) h2
      _ = getDWord mem i := h3.trans hvalue
  have htoNat1 : ((i : ℤ) + 1).toNat = i + 1 := by omega
  have htoNat2 : ((i : ℤ) + 2).toNat = i + 2 := by omega
  have htoNat3 : ((i : ℤ) + 3).toNat = i + 3 := by omega
  rw [read32, read8_inside hlow (by omega), read8_inside (by omega) (by omega),
    read8_inside (by omega) (by omega), read8_inside (by omega) (by omega), htoNat1, htoNat2, htoNat3,
    dword, Int.toNat_natCast]
  exact congrArg Outcome.ok hor

/-- No word before the file is read. -/
theorem read16_neg {mem : List UInt8} {p : ℤ} (h : p < 0) : (read16 mem p : Outcome E ℕ) = .fault := by
  rw [read16, read8_neg h, Outcome.fault_bind]

/-- No double word before the file is read. -/
theorem read32_neg {mem : List UInt8} {p : ℤ} (h : p < 0) : (read32 mem p : Outcome E ℕ) = .fault := by
  rw [read32, read8_neg h, Outcome.fault_bind]

end Sis

end Plptools
