import Plptools.Sis.Layout

/-!
# Whether parsing stays inside the file

Offsets and lengths come from the file. An offset of `2 ^ 31` or more becomes a negative int, which
passes every check against the length of the file; the end of a name is checked as an unsigned sum,
which wraps; the names and the data of file records are not checked at all. Where the record of the
component is rejected, the ends of its names are asked for before its members are set. Where none of
this happens, nothing outside the file is read, and everything that is recorded lies inside it.
-/

namespace Plptools

open BufferStore (wordBytes dwordBytes)
open Plptools.Library
open RFSV (uint32 int32)
open Sis

/-- The names and the data of a file record. -/
def SISFileRecord.ranges (r : SISFileRecord) : List (ℕ × ℕ) :=
  (r.sourcePtr, r.sourceLength) :: (r.destPtr, r.destLength) :: r.filePtrs.zip r.fileLengths

namespace SISFile

/-- All offsets that are recorded, each with its length. -/
def ranges (f : SISFile) : List (ℕ × ℕ) :=
  f.reqRecords.flatMap SISReqRecord.nameRanges ++ f.componentRecord.nameRanges ++
    f.fileRecords.flatMap SISFileRecord.ranges

/-- Parsing does nothing that is not allowed, and what it records lies inside the file. -/
def StaysInside (mem : List UInt8) : Prop :=
  fillFrom mem 0 mem.length ≠ .fault ∧
    ∀ f, fillFrom mem 0 mem.length = .ok f → ∀ range ∈ f.ranges, range.1 + range.2 ≤ mem.length

/-- The names of requisites, and the names and data of files, end inside the file. -/
def RangesEnd (mem : List UInt8) : Prop :=
  (∀ r ∈ reqsAt mem, ∀ name ∈ r.nameRanges, name.1 + name.2 ≤ mem.length) ∧
    ∀ r ∈ filesAt mem, ∀ range ∈ r.ranges, range.1 + range.2 ≤ mem.length

/-- Names that were copied and whose ends were checked lie inside the file. -/
theorem names_inside {mem : List UInt8} {names : List (ℕ × ℕ)} (hsmall : ∀ name ∈ names, name.1 < 2 ^ 32)
    (hsafe : NamesSafe mem names) (hchecked : ∀ name ∈ names, NameChecked mem name) :
    ∀ name ∈ names, name.1 + name.2 ≤ mem.length := by
  induction names with
  | nil => exact fun _ h => absurd h List.not_mem_nil
  | cons name names ih =>
    rw [List.forall_mem_cons] at hsmall hchecked ⊢
    obtain ⟨hreadable, hrest⟩ := hsafe hchecked.1
    constructor
    · cases hreadable.2 with
      | inl hempty =>
        have hend := hchecked.1
        have hptr := hsmall.1
        rw [NameChecked, hempty, uint32] at hend
        omega
      | inr hinside => exact hinside
    · exact ih hsmall.2 hrest hchecked.2

/-- The names of a component that was read lie inside the file. -/
theorem component_inside {mem : List UInt8} {n : ℕ} {b : ℤ} (hsafe : ComponentSafe mem n b)
    (hvalid : ComponentValid mem n b) :
    ∀ name ∈ (componentRecordAt mem n b).nameRanges, name.1 + name.2 ≤ mem.length := by
  obtain ⟨hfits, hlengths, hchecked⟩ := hvalid
  by_cases hn : n = 0
  · intro name hname
    rw [hn] at hname
    exact absurd hname List.not_mem_nil
  · apply names_inside _ ((hsafe.2 hfits hn).2 hlengths) hchecked
    intro name hname
    exact dwords_lt (List.of_mem_zip hname).1

/-- Parsing stays inside the file exactly where no part that is come to is read outside of it and,
where all parts are accepted, the requisites and files name nothing behind it. -/
theorem staysInside_iff (mem : List UInt8) : StaysInside mem ↔ Safe mem ∧ (Valid mem → RangesEnd mem) := by
  have hspec := fillFrom_spec mem
  rw [StaysInside, hspec.ne_fault_iff]
  apply and_congr_right
  intro hsafe
  constructor
  · intro hinside hvalid
    have hranges := hinside (contents mem) ((hspec.eq_ok_iff _).mpr ⟨hsafe, hvalid, rfl⟩)
    constructor
    · intro r hr name hname
      apply hranges
      exact List.mem_append_left _ (List.mem_append_left _ (List.mem_flatMap.mpr ⟨r, hr, hname⟩))
    · intro r hr range hrange
      apply hranges
      exact List.mem_append_right _ (List.mem_flatMap.mpr ⟨r, hr, hrange⟩)
  · intro hends f hf range hrange
    obtain ⟨-, hvalid, rfl⟩ := (hspec.eq_ok_iff f).mp hf
    obtain ⟨hreqs, hfiles⟩ := hends hvalid
    have hcomponent := component_inside (((hsafe hvalid.header).2 hvalid.langs).2 hvalid.reqs).1.1 hvalid.component
    rw [ranges, List.mem_append, List.mem_append, List.mem_flatMap, List.mem_flatMap] at hrange
    rcases hrange with (⟨r, hr, hname⟩ | hname) | ⟨r, hr, hrange⟩
    · exact hreqs r hr range hname
    · exact hcomponent range hname
    · exact hfiles r hr range hrange

/-- A header with valid numbers, the given counts and the given offsets. -/
def sampleHeader (nlangs nfiles nreqs languagePtr filesPtr reqPtr componentPtr : ℕ) : List UInt8 :=
  dwordBytes 0 ++ dwordBytes 0x1000006d ++ dwordBytes 0x10000419 ++ dwordBytes 0x9d96d9bf ++ wordBytes 0 ++
    wordBytes nlangs ++ wordBytes nfiles ++ wordBytes nreqs ++ wordBytes 0 ++ wordBytes 0 ++ dwordBytes 0 ++
    dwordBytes 0 ++ wordBytes 0 ++ wordBytes 0 ++ wordBytes 1 ++ wordBytes 0 ++ dwordBytes 0 ++
    dwordBytes languagePtr ++ dwordBytes filesPtr ++ dwordBytes reqPtr ++ dwordBytes 0 ++ dwordBytes componentPtr

/-- A file whose one language is at offset `0xfffffff0`: sixteen bytes before the file are read. -/
theorem reads_before_file : ¬∀ mem : List UInt8, mem.length < 2 ^ 31 → StaysInside mem := by
  intro h
  exact (h (sampleHeader 1 0 0 0xfffffff0 0 0 0) (by decide)).1 (by decide +kernel)

end SISFile

end Plptools
