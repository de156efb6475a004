import Plptools.DataLink.Checksum
import Plptools.Sis.Types

/-!
# The checksum of installation files

`createCRCTable` and `calcCRC` compute in words of 32 bits and keep 16. What they keep is the table and
the checksum of the data link.
-/

namespace Plptools.Sis

/-- One round of the loop of `createCRCTable`. -/
def fillSisCrcTable (sCrcTable : List UInt32) (index : ℕ) : List UInt32 :=
  let carry := sCrcTable.getD index 0 &&& 0x8000
  let temp := (sCrcTable.getD index 0 <<< 1) &&& 0xffff
  (sCrcTable.set (index * 2 + if carry ≠ 0 then 0 else 1) (temp ^^^ 0x1021)).set
    (index * 2 + if carry ≠ 0 then 1 else 0) temp

/-- The table after all rounds. -/
def createCRCTable : List UInt32 := (List.range 128).foldl fillSisCrcTable (List.replicate 256 0)

/-- The checksum of some data. -/
def calcCRC (data : List UInt8) : UInt16 :=
  data.foldl (fun crc value => ((crc.toUInt32 <<< 8) ^^^
    createCRCTable.getD (((crc.toUInt32 >>> 8) ^^^ value.toUInt32) &&& 0xff).toNat 0).toUInt16) 0

/-- An entry of the widened table is the widened entry. -/
theorem getD_map_toUInt32 (table : List UInt16) (i : ℕ) :
    (table.map UInt16.toUInt32).getD i 0 = (table.getD i 0).toUInt32 := by
  rw [List.getD_eq_getElem?_getD, List.getD_eq_getElem?_getD, List.getElem?_map]
  cases table[i]? <;> rfl

/-- A round does to the words what it does to the halves that are kept. -/
theorem fillSisCrcTable_map (table : List UInt16) (i : ℕ) :
    fillSisCrcTable (table.map UInt16.toUInt32) i = (fillCrcTable table i).map UInt16.toUInt32 := by
  have hcarry (e : UInt16) : e.toUInt32 &&& 0x8000 ≠ 0 ↔ e &&& 0x8000 ≠ 0 := by
    have hword : e.toUInt32 &&& 0x8000 = (e &&& 0x8000).toUInt32 := by simp
    rw [hword]
    exact not_congr (UInt16.toUInt32_inj (b := 0))
  have hshift (e : UInt16) : (e.toUInt32 <<< 1) &&& (0xffff : UInt32) = (e <<< 1).toUInt32 := by
    rw [UInt16.toUInt32_shiftLeft]
    apply UInt32.toNat_inj.mp
    rw [UInt32.toNat_and, UInt32.toNat_mod]
    exact Nat.and_two_pow_sub_one_eq_mod _ 16
  unfold fillSisCrcTable fillCrcTable
  simp only [getD_map_toUInt32, hcarry, hshift, List.map_set]
  rfl

/-- The tables hold the same entries. -/
theorem createCRCTable_eq : createCRCTable = sCrcTable.map UInt16.toUInt32 := by
  have hrounds (rounds : List ℕ) (table : List UInt16) :
      rounds.foldl fillSisCrcTable (table.map UInt16.toUInt32) =
        (rounds.foldl fillCrcTable table).map UInt16.toUInt32 := by
    induction rounds generalizing table with
    | nil => rfl
    | cons i rest ih => rw [List.foldl_cons, List.foldl_cons, fillSisCrcTable_map, ih]
  have hzero : (0 : UInt32) = UInt16.toUInt32 0 := rfl
  rw [createCRCTable, sCrcTable, crcTable, hzero, ← List.map_replicate, hrounds]

/-- What is kept of a word is what a step of the data link keeps. -/
theorem calcCRC_eq (data : List UInt8) : calcCRC data = data.foldl updateCrc 0 := by
  have hstep (crc : UInt16) (value : UInt8) : ((crc.toUInt32 <<< 8) ^^^
      createCRCTable.getD (((crc.toUInt32 >>> 8) ^^^ value.toUInt32) &&& 0xff).toNat 0).toUInt16 =
        updateCrc crc value := by
    have hindex : (((crc.toUInt32 >>> 8) ^^^ value.toUInt32) &&& 0xff).toNat =
        (((crc >>> 8) ^^^ value.toUInt16) &&& 0xff).toNat := by simp
    rw [hindex, createCRCTable_eq, updateCrc, getD_map_toUInt32]
    simp
  unfold calcCRC
  congr 1
  funext crc value
  exact hstep crc value

/-- The checksums of the data link and of installation files are the one that is computed bit by bit. -/
theorem checksums_agree (payload : List UInt8) :
    crcOf payload = bitwiseCrc payload ∧ payload.foldl updateCrc 0 = bitwiseCrc payload ∧
      calcCRC payload = bitwiseCrc payload := by
  have hsis : payload.foldl updateCrc 0 = crcOf payload := rfl
  rw [calcCRC_eq, hsis, crcOf_eq_bitwiseCrc]
  exact ⟨rfl, rfl, rfl⟩

end Plptools.Sis
