import Mathlib.Data.Nat.Notation

/-!
# The frame checksum

The table is filled the way the `DataLink` constructor does it, two entries in each of 128
rounds; a round reads an entry that an earlier round has written.
-/

namespace Plptools

/-- One round of the constructor's loop. -/
def fillCrcTable (crc_table : List UInt16) (i : ℕ) : List UInt16 :=
  let carry := crc_table.getD i 0 &&& 0x8000
  let tmp := crc_table.getD i 0 <<< 1
  (crc_table.set (i * 2 + if carry ≠ 0 then 0 else 1) (tmp ^^^ 0x1021)).set
    (i * 2 + if carry ≠ 0 then 1 else 0) tmp

/-- The table after all rounds. -/
def crcTable : List UInt16 := (List.range 128).foldl fillCrcTable (List.replicate 256 0)

/-- Advance the checksum by one byte. -/
def addToCrc (a : UInt8) (crc : UInt16) : UInt16 :=
  (crc <<< 8) ^^^ crcTable.getD (((crc >>> 8) ^^^ a.toUInt16) &&& 0xff).toNat 0

/-- The checksum of a payload, from the initial value zero. -/
def crcOf (payload : List UInt8) : UInt16 := payload.foldl (fun crc c => addToCrc c crc) 0

/-- The checksum is accumulated byte by byte. -/
theorem crcOf_append_singleton (payload : List UInt8) (c : UInt8) :
    crcOf (payload ++ [c]) = addToCrc c (crcOf payload) := by
  simp [crcOf]

/-- The two bytes of a checksum, put together again, are the checksum. -/
theorem crc_bytes_join (crc : UInt16) :
    ((crc >>> 8).toUInt8.toUInt16 <<< 8) ||| (crc &&& 0xff).toUInt8.toUInt16 = crc := by
  apply UInt16.toNat_inj.mp
  have hcrc : crc.toNat < 65536 := crc.toNat_lt
  have hlow : crc.toNat &&& 255 = crc.toNat % 256 := Nat.and_two_pow_sub_one_eq_mod crc.toNat 8
  have hhigh : crc.toNat >>> 8 = crc.toNat / 256 := Nat.shiftRight_eq_div_pow crc.toNat 8
  have hjoin := Nat.shiftLeft_add_eq_or_of_lt 
    (show crc.toNat % 256 < 2 ^ 8 from Nat.mod_lt _ (by decide)) (crc.toNat / 256)
  have hshift : (crc.toNat / 256) <<< 8 = crc.toNat / 256 * 256 := Nat.shiftLeft_eq _ _
  simp only [UInt16.toNat_or, UInt16.toNat_shiftLeft, UInt8.toNat_toUInt16, UInt16.toNat_toUInt8,
    UInt16.toNat_shiftRight, UInt16.toNat_and, UInt16.reduceToNat, Nat.reduceMod, Nat.reducePow,
    hlow, hhigh]
  rw [Nat.mod_eq_of_lt (show crc.toNat / 256 < 256 by omega), Nat.mod_mod, hshift,
    Nat.mod_eq_of_lt (by omega), ← hshift, ← hjoin, hshift]
  omega

end Plptools
