import Plptools.Sis.Frame
import Plptools.Sis.Bounds

/-!
# The residual of a file

The installer stores the first `getResidualEnd` bytes of a file on the device. That end is the largest
of the ends of the tables and of the names of the component; the names of requisites and the
destination names of files do not count. What is stored can be read again, with the same records, where
that end reaches far enough.
-/

namespace Plptools

open BufferStore (wordBytes dwordBytes)
open Plptools.Library
open RFSV (uint32 int32)
open Sis

namespace SISFile

/-- The names of requisites and of the component, and the destination names of files. -/
def names (f : SISFile) : List (ℕ × ℕ) :=
  f.reqRecords.flatMap SISReqRecord.nameRanges ++ f.componentRecord.nameRanges ++
    f.fileRecords.map fun r => (r.destPtr, r.destLength)

/-- The residual of a file can be read, holds the same records, and their names unchanged. -/
def ResidualReadable (mem : List UInt8) (f : SISFile) : Prop :=
  f.getResidualEnd ≤ mem.length ∧
    (∃ g, fillFrom (mem.take f.getResidualEnd) 0 f.getResidualEnd = .ok g ∧ g.header = f.header ∧
      g.langRecords = f.langRecords ∧ g.reqRecords = f.reqRecords ∧ g.componentRecord = f.componentRecord ∧
      g.fileRecords = f.fileRecords) ∧
    ∀ name ∈ f.names, name.1 + name.2 ≤ f.getResidualEnd ∧
      nameAt (mem.take f.getResidualEnd) name = nameAt mem name

/-- The largest of the ends that are kept is inside the file and behind the header, all names, and the
36 bytes that are checked for every file record. -/
structure EndCovers (mem : List UInt8) : Prop where
  header : 68 ≤ endAt mem
  inside : endAt mem ≤ mem.length
  names : ∀ name ∈ (contents mem).names, name.1 + name.2 ≤ endAt mem
  files : ∀ i < (headerAt mem).nfiles, (nextFile mem)^[i] (fileStart mem) + 36 ≤ endAt mem

/-- The end is no earlier than it was. -/
theorem le_updateEnd_left (last pos : ℕ) : last ≤ updateEnd last pos := by
  unfold updateEnd
  split <;> omega

/-- The end is no earlier than the position. -/
theorem le_updateEnd_right (last pos : ℕ) : pos ≤ updateEnd last pos := by
  unfold updateEnd
  split <;> omega

/-- The languages end before the end. -/
theorem langsEnd_le (mem : List UInt8) : uint32 (langsEnd mem) ≤ endAt mem :=
  (le_updateEnd_right _ _).trans <| (le_updateEnd_left _ _).trans <| (le_updateEnd_left _ _).trans <|
    (le_updateEnd_left _ _).trans (le_updateEnd_left _ _)

/-- The requisites end before the end. -/
theorem reqsEnd_le (mem : List UInt8) : uint32 (reqsEnd mem) ≤ endAt mem :=
  (le_updateEnd_right _ _).trans <| (le_updateEnd_left _ _).trans <| (le_updateEnd_left _ _).trans
    (le_updateEnd_left _ _)

/-- The component ends before the end. -/
theorem componentEnd_le (mem : List UInt8) : uint32 (componentEnd mem) ≤ endAt mem :=
  (le_updateEnd_right _ _).trans <| (le_updateEnd_left _ _).trans (le_updateEnd_left _ _)

/-- The files end before the end. -/
theorem filesEnd_le (mem : List UInt8) : uint32 (filesEnd mem) ≤ endAt mem := le_updateEnd_right _ _

/-- A file that is read as `contents`, part by part. -/
structure Parsed (mem : List UInt8) : Prop extends Valid mem where
  langsSafe : LangsSafe mem
  reqsSafe : ReqsSafe mem
  componentSafe : ComponentSafe mem (headerAt mem).nlangs (componentStart mem)
  filesSafe : FilesSafe mem

/-- What is read where a file is accepted. -/
theorem fillFrom_eq_ok_iff (mem : List UInt8) (f : SISFile) :
    fillFrom mem 0 mem.length = .ok f ↔ Parsed mem ∧ f = contents mem := by
  rw [(fillFrom_spec mem).eq_ok_iff]
  constructor
  · rintro ⟨hsafe, hvalid, rfl⟩
    obtain ⟨hlangs, hrest⟩ := hsafe hvalid.header
    obtain ⟨hreqs, hrest⟩ := hrest hvalid.langs
    obtain ⟨hcomponent, hfiles⟩ := hrest hvalid.reqs
    exact ⟨⟨hvalid, hlangs, hreqs, hcomponent.1, hfiles hvalid.component⟩, rfl⟩
  · rintro ⟨h, rfl⟩
    exact ⟨fun _ => ⟨h.langsSafe, fun _ => ⟨h.reqsSafe, fun _ =>
      ⟨⟨h.componentSafe, h.component.set⟩, fun _ => h.filesSafe⟩⟩⟩, h.toValid, rfl⟩

/-! ### The parts of a residual -/

section Cut

variable {mem : List UInt8}

/-- The residual of a file. -/
def cut (mem : List UInt8) : List UInt8 := mem.take (endAt mem)

/-- What is left is as long as it says. -/
theorem length_cut (h : endAt mem ≤ mem.length) : (cut mem).length = endAt mem := List.length_take_of_le h

/-- What is left is as it was. -/
theorem agree_cut (mem : List UInt8) : Agree mem (cut mem) 0 (endAt mem) := Agree.take mem (endAt mem)

/-- The header is left. -/
theorem header_cut (h : 68 ≤ endAt mem) : headerAt (cut mem) = headerAt mem :=
  ((agree_cut mem).mono (le_refl 0) (by omega)).header

/-- The header of a residual is accepted. -/
theorem headerValid_cut (hcovers : EndCovers mem) (h : HeaderValid mem) : HeaderValid (cut mem) := by
  have hagree := agree_cut mem
  have hheader := hcovers.header
  have hbyte {p : ℕ} (hp : p < 68) : (cut mem).getD p 0 = mem.getD p 0 := hagree p (by omega) (by omega)
  have hcrc {ps : List ℕ} (hps : ∀ p ∈ ps, p < 68) : crcAt (cut mem) ps = crcAt mem ps := by
    apply List.foldl_ext
    intro crc p hp
    rw [hbyte (hps p hp)]
  constructor
  · rw [length_cut hcovers.inside]
    exact hheader
  · rw [hagree.dword (by omega) (by omega) (by omega)]
    exact h.uid2
  · rw [hagree.dword (by omega) (by omega) (by omega)]
    exact h.uid3
  · rw [hagree.dword (by omega) (by omega) (by omega), hcrc (by decide), hcrc (by decide)]
    exact h.uid4

/-- Where every record of a table may be read, those that are come to may be. -/
theorem tableSafe_of_forall {full safe valid : ℤ → Prop} {next : ℤ → ℤ} {n : ℕ} {b : ℤ}
    (h : ∀ i < n, safe (next^[i] b)) : Outcome.TableSafe full safe valid next n b := fun i hi _ _ => h i hi

/-- The languages of a residual. -/
theorem langs_cut (hcovers : EndCovers mem) (h : Parsed mem) :
    LangsSafe (cut mem) ∧ LangsValid (cut mem) ∧ langsAt (cut mem) = langsAt mem := by
  have hagree := agree_cut mem
  have hheader := header_cut hcovers.header
  have hlength := length_cut hcovers.inside
  have hsafe := Outcome.TableSafe.of_valid h.langsSafe h.langs
  have hstep : ∀ i < (headerAt mem).nlangs, 0 ≤ nextLang^[i] (langStart mem) ∧
      nextLang^[i] (langStart mem) ≤ nextLang^[i + 1] (langStart mem) ∧
      nextLang^[i + 1] (langStart mem) < 2 ^ 31 := by
    intro i hi
    obtain ⟨hint, hpos⟩ := hsafe i hi
    have hpos := hpos (h.langs i hi).2.1
    have hhigh := hint.2
    rw [Function.iterate_succ_apply', nextLang]
    omega
  have hinside : ∀ i < (headerAt mem).nlangs, nextLang^[i] (langStart mem) + 2 ≤ endAt mem := by
    intro i hi
    have hend := le_keptEnd hstep (langsEnd_le mem) hi
    rwa [Function.iterate_succ_apply', nextLang] at hend
  rw [LangsSafe, LangsValid, langsAt, langsAt, langStart, hheader, ← langStart]
  refine ⟨tableSafe_of_forall fun i hi => ⟨(hsafe i hi).1, fun _ => (hstep i hi).1⟩, fun i hi => ?_, ?_⟩
  · have hend := hinside i hi
    have hlow := (hstep i hi).1
    rw [Behind, LangValid, hlength, hagree.word hlow hlow hend]
    exact ⟨by omega, hend, (h.langs i hi).2.2⟩
  · apply tableRecords_congr fun _ _ => rfl
    intro i hi
    rw [hagree.word (hstep i hi).1 (hstep i hi).1 (hinside i hi)]

/-- A name of a file lies inside its residual. -/
theorem nameChecked_cut (hcovers : EndCovers mem) {name : ℕ × ℕ} (hname : name ∈ (contents mem).names) :
    NameChecked (cut mem) name := by
  have hend := hcovers.names name hname
  rw [NameChecked, length_cut hcovers.inside, uint32]
  omega

/-- The requisites of a residual. -/
theorem reqs_cut (hcovers : EndCovers mem) (h : Parsed mem) :
    ReqsSafe (cut mem) ∧ ReqsValid (cut mem) ∧ reqsAt (cut mem) = reqsAt mem := by
  have hagree := agree_cut mem
  have hheader := header_cut hcovers.header
  have hlength := length_cut hcovers.inside
  have hsafe := Outcome.TableSafe.of_valid h.reqsSafe h.reqs
  have hstep : ∀ i < (headerAt mem).nreqs, 0 ≤ (nextReq mem)^[i] (reqStart mem) ∧
      (nextReq mem)^[i] (reqStart mem) ≤ (nextReq mem)^[i + 1] (reqStart mem) ∧
      (nextReq mem)^[i + 1] (reqStart mem) < 2 ^ 31 := by
    intro i hi
    obtain ⟨hint, hpos⟩ := hsafe i hi
    have hpos := hpos (h.reqs i hi).2.1
    have hhigh := hint.2
    rw [Function.iterate_succ_apply', nextReq]
    rw [reqSize] at *
    omega
  have hinside : ∀ i < (headerAt mem).nreqs,
      (nextReq mem)^[i] (reqStart mem) + reqSize (headerAt mem).nlangs ≤ endAt mem := by
    intro i hi
    have hend := le_keptEnd hstep (reqsEnd_le mem) hi
    rwa [Function.iterate_succ_apply', nextReq] at hend
  have hrecord : ∀ i < (headerAt mem).nreqs,
      reqRecordAt (cut mem) (headerAt mem).nlangs ((nextReq mem)^[i] (reqStart mem)) =
        reqRecordAt mem (headerAt mem).nlangs ((nextReq mem)^[i] (reqStart mem)) :=
    fun i hi => hagree.reqRecord (hstep i hi).1 (hstep i hi).1 (hinside i hi)
  rw [ReqsSafe, ReqsValid, reqsAt, reqsAt, reqStart, nextReq_eq hheader, hheader, ← reqStart]
  refine ⟨tableSafe_of_forall fun i hi => ⟨(hsafe i hi).1, fun _ => (hstep i hi).1⟩, fun i hi => ?_, ?_⟩
  · have hend := hinside i hi
    rw [Behind, ReqValid, hlength, hheader, hrecord i hi]
    refine ⟨?_, hend, fun name hname => nameChecked_cut hcovers ?_⟩
    · rw [reqSize] at hend
      omega
    · apply List.mem_append_left
      apply List.mem_append_left
      exact List.mem_flatMap.mpr ⟨_, List.mem_map.mpr ⟨i, List.mem_range.mpr hi, rfl⟩, hname⟩
  · exact tableRecords_congr (fun _ _ => rfl) hrecord

/-- Names that were copied and whose ends were checked. -/
theorem readable_of_safe {names : List (ℕ × ℕ)} (hsafe : NamesSafe mem names)
    (hchecked : ∀ name ∈ names, NameChecked mem name) : ∀ name ∈ names, NameReadable mem name := by
  induction names with
  | nil => exact fun _ h => absurd h List.not_mem_nil
  | cons name names ih =>
    rw [List.forall_mem_cons] at hchecked ⊢
    obtain ⟨hreadable, hrest⟩ := hsafe hchecked.1
    exact ⟨hreadable, ih hrest hchecked.2⟩

/-- Names that can be read are safe. -/
theorem namesSafe_of_forall {names : List (ℕ × ℕ)} (h : ∀ name ∈ names, NameReadable mem name) :
    NamesSafe mem names := by
  induction names with
  | nil => trivial
  | cons name names ih =>
    rw [List.forall_mem_cons] at h
    exact fun _ => ⟨h.1, ih h.2⟩

/-- A name that can be copied from one file and lies inside another. -/
theorem NameReadable.of_inside (mem' : List UInt8) {name : ℕ × ℕ} (h : NameReadable mem name)
    (hinside : name.1 + name.2 ≤ mem'.length) : NameReadable mem' name :=
  And.intro (And.left h) (Or.inr hinside)

/-- A length that is read for a component belongs to one of its names. -/
theorem exists_name_of_length {n : ℕ} {b : ℤ} {nameLength : ℕ} (h : nameLength ∈ dwords mem b n) :
    ∃ name ∈ (componentRecordAt mem n b).nameRanges, name.2 = nameLength := by
  have hzip : (componentRecordAt mem n b).nameRanges.map Prod.snd = dwords mem b n :=
    List.map_snd_zip (by simp [componentRecordAt])
  rw [← hzip] at h
  obtain ⟨name, hname, heq⟩ := List.mem_map.mp h
  exact ⟨name, hname, heq⟩

/-- The component of a residual. -/
theorem component_cut (hcovers : EndCovers mem) (h : Parsed mem) :
    ComponentSafe (cut mem) (headerAt (cut mem)).nlangs (componentStart (cut mem)) ∧
      ComponentValid (cut mem) (headerAt (cut mem)).nlangs (componentStart (cut mem)) ∧
      componentAt (cut mem) = componentAt mem := by
  have hagree := agree_cut mem
  have hheader := header_cut hcovers.header
  have hlength := length_cut hcovers.inside
  have hkept := componentEnd_le mem
  have hnames : ∀ name ∈ (componentAt mem).nameRanges, name.1 + name.2 ≤ endAt mem := fun name hname =>
    hcovers.names name (List.mem_append_left _ (List.mem_append_right _ hname))
  obtain ⟨hint, hsafe⟩ := h.componentSafe
  obtain ⟨hfits, hlengths, hchecked⟩ := h.component
  rw [componentAt, componentAt, componentStart, hheader, ← componentStart]
  rw [componentAt] at hnames
  rw [componentEnd, uint32] at hkept
  have hend : componentStart mem + componentSize (headerAt mem).nlangs ≤ endAt mem := by
    obtain ⟨hlow, hhigh⟩ := hint
    by_cases hneg : componentStart mem + componentSize (headerAt mem).nlangs < 0
    · omega
    · omega
  by_cases hn : (headerAt mem).nlangs = 0
  · rw [hn] at hint hend ⊢
    refine ⟨⟨hint, fun _ h => absurd rfl h⟩, ⟨by rw [hlength]; exact hend, ?_, ?_⟩, ?_⟩
    · simp [dwords]
    · simp [componentRecordAt, SISComponentNameRecord.nameRanges, dwords]
    · simp [componentRecordAt, dwords]
  · obtain ⟨hlow, hsafe⟩ := hsafe hfits hn
    have hreadable := readable_of_safe (hsafe hlengths) hchecked
    have hdwords : dwords (cut mem) (componentStart mem) (headerAt mem).nlangs =
        dwords mem (componentStart mem) (headerAt mem).nlangs :=
      hagree.dwords hlow hlow (by rw [componentSize] at hend; omega)
    have hrecord : componentRecordAt (cut mem) (headerAt mem).nlangs (componentStart mem) =
        componentRecordAt mem (headerAt mem).nlangs (componentStart mem) := by
      have hptrs : dwords (cut mem) (componentStart mem + (headerAt mem).nlangs * 4) (headerAt mem).nlangs =
          dwords mem (componentStart mem + (headerAt mem).nlangs * 4) (headerAt mem).nlangs :=
        hagree.dwords (by omega) (by omega) (by rw [componentSize] at hend; omega)
      rw [componentRecordAt, componentRecordAt, hdwords, hptrs]
      congr 1
      apply List.map_congr_left
      intro name hname
      have hinside := hnames name hname
      have hfile := hcovers.inside
      exact hagree.name (by omega) (by rw [hlength]) (by omega) (by omega)
    have hshort : ∀ nameLength ∈ dwords mem (componentStart mem) (headerAt mem).nlangs,
        nameLength ≤ endAt mem := by
      intro nameLength hmem
      obtain ⟨name, hname, rfl⟩ := exists_name_of_length hmem
      exact (Nat.le_add_left _ _).trans (hnames name hname)
    refine ⟨⟨hint, fun _ _ => ⟨hlow, fun _ => ?_⟩⟩, ⟨?_, ?_, ?_⟩, hrecord⟩
    · rw [hrecord]
      apply namesSafe_of_forall
      intro name hname
      exact NameReadable.of_inside (cut mem) (hreadable name hname) (by rw [hlength]; exact hnames name hname)
    · rw [hlength]
      exact hend
    · rw [hdwords, hlength]
      exact hshort
    · rw [hrecord]
      intro name hname
      exact nameChecked_cut hcovers (List.mem_append_left _ (List.mem_append_right _ hname))

/-- The file records of a residual. -/
theorem files_cut (hcovers : EndCovers mem) (h : Parsed mem) :
    FilesSafe (cut mem) ∧ FilesValid (cut mem) ∧ filesAt (cut mem) = filesAt mem := by
  have hagree := agree_cut mem
  have hheader := header_cut hcovers.header
  have hlength := length_cut hcovers.inside
  have hsafe := Outcome.TableSafe.of_valid h.filesSafe h.files
  have hstep := files_inside h.filesSafe h.files
  have hinside : ∀ i < (headerAt mem).nfiles,
      (nextFile mem)^[i] (fileStart mem) +
        fileSize (dword mem ((nextFile mem)^[i] (fileStart mem))) (headerAt mem).nlangs ≤ endAt mem := by
    intro i hi
    have hend := le_keptEnd (fun i hi => ⟨(hstep i hi).1, by have := (hstep i hi).2.1; omega, (hstep i hi).2.2⟩)
      (filesEnd_le mem) hi
    rwa [Function.iterate_succ_apply', nextFile] at hend
  have hflags : ∀ i < (headerAt mem).nfiles, dword (cut mem) ((nextFile mem)^[i] (fileStart mem)) =
      dword mem ((nextFile mem)^[i] (fileStart mem)) := by
    intro i hi
    have := hcovers.files i hi
    exact hagree.dword (hstep i hi).1 (hstep i hi).1 (by omega)
  have hnext : ∀ i < (headerAt mem).nfiles, nextFile (cut mem) ((nextFile mem)^[i] (fileStart mem)) =
      nextFile mem ((nextFile mem)^[i] (fileStart mem)) := fun i hi =>
    nextFile_eq (by rw [hheader]) (hflags i hi)
  rw [FilesSafe, FilesValid, filesAt, filesAt, fileStart, hheader, ← fileStart]
  refine ⟨tableSafe_of_forall fun i hi => ?_, fun i hi => ?_, ?_⟩
  · rw [iterate_congr hnext (Nat.le_of_lt hi), FileSafe, hflags i hi]
    obtain ⟨⟨hint, -⟩, hagain⟩ := hsafe i hi
    exact ⟨⟨hint, fun _ => (hstep i hi).1⟩, fun _ => hagain (h.files i hi).2.1⟩
  · rw [iterate_congr hnext (Nat.le_of_lt hi), Behind, FileValid, hflags i hi, hlength]
    have hcovered := hcovers.files i hi
    have hend := hinside i hi
    refine ⟨by omega, hcovered, fun hone => ?_⟩
    rw [hone] at hend
    exact hend
  · exact tableRecords_congr hnext fun i hi => hagree.fileRecord (hstep i hi).1 (hstep i hi).1 (hinside i hi)

/-- The file records lie where they do in a file whose residual can be read. -/
theorem files_of_cut (hinside : endAt mem ≤ mem.length) (hheader : headerAt (cut mem) = headerAt mem)
    (h : Parsed mem) (hcut : FilesValid (cut mem)) :
    ∀ i < (headerAt mem).nfiles, (nextFile mem)^[i] (fileStart mem) + 36 ≤ endAt mem := by
  have hagree := agree_cut mem
  have hlength := length_cut hinside
  have hstep := files_inside h.filesSafe h.files
  rw [FilesValid, fileStart, hheader, ← fileStart] at hcut
  have hsame : ∀ i ≤ (headerAt mem).nfiles,
      (nextFile (cut mem))^[i] (fileStart mem) = (nextFile mem)^[i] (fileStart mem) := by
    intro i hi
    apply iterate_eq _ hi
    intro j hj hbefore
    have hvalid := (hcut j hj).2.1
    have hlow := (hstep j hj).1
    rw [hbefore, hlength] at hvalid
    exact nextFile_eq (by rw [hheader]) (hagree.dword hlow hlow (by omega))
  intro i hi
  have hvalid := (hcut i hi).2.1
  rw [hsame i (Nat.le_of_lt hi), hlength] at hvalid
  exact hvalid

end Cut

/-- What is asked of a residual, in terms of what the file holds. -/
theorem residualReadable_contents (mem : List UInt8) : ResidualReadable mem (contents mem) ↔
    endAt mem ≤ mem.length ∧
      (∃ g, fillFrom (cut mem) 0 (endAt mem) = .ok g ∧ g.header = headerAt mem ∧ g.langRecords = langsAt mem ∧
        g.reqRecords = reqsAt mem ∧ g.componentRecord = componentAt mem ∧ g.fileRecords = filesAt mem) ∧
      ∀ name ∈ (contents mem).names, name.1 + name.2 ≤ endAt mem ∧ nameAt (cut mem) name = nameAt mem name := by
  rw [ResidualReadable, getResidualEnd]
  exact Iff.rfl

/-- A residual can be read, with the same records, exactly where its end covers them. -/
theorem residualReadable_iff {mem : List UInt8} {f : SISFile} (hf : fillFrom mem 0 mem.length = .ok f) :
    ResidualReadable mem f ↔ EndCovers mem := by
  obtain ⟨hparsed, rfl⟩ := (fillFrom_eq_ok_iff mem f).mp hf
  rw [residualReadable_contents]
  constructor
  · rintro ⟨hinside, ⟨g, hg, hheader, -⟩, hnames⟩
    rw [← length_cut hinside] at hg
    obtain ⟨hcut, rfl⟩ := (fillFrom_eq_ok_iff (cut mem) g).mp hg
    have hsize := hcut.header.size
    rw [length_cut hinside] at hsize
    exact ⟨hsize, hinside, fun name hname => (hnames name hname).1,
      files_of_cut hinside hheader hparsed hcut.files⟩
  · intro hcovers
    obtain ⟨hlangsSafe, hlangs, hlangsEq⟩ := langs_cut hcovers hparsed
    obtain ⟨hreqsSafe, hreqs, hreqsEq⟩ := reqs_cut hcovers hparsed
    obtain ⟨hcomponentSafe, hcomponent, hcomponentEq⟩ := component_cut hcovers hparsed
    obtain ⟨hfilesSafe, hfiles, hfilesEq⟩ := files_cut hcovers hparsed
    have hcut : Parsed (cut mem) := ⟨⟨headerValid_cut hcovers hparsed.header, hlangs, hreqs, hcomponent, hfiles⟩,
      hlangsSafe, hreqsSafe, hcomponentSafe, hfilesSafe⟩
    have hg := (fillFrom_eq_ok_iff (cut mem) _).mpr ⟨hcut, rfl⟩
    rw [length_cut hcovers.inside] at hg
    have hnames : ∀ name ∈ (contents mem).names,
        name.1 + name.2 ≤ endAt mem ∧ nameAt (cut mem) name = nameAt mem name := by
      intro name hname
      have hend := hcovers.names name hname
      have hfile := hcovers.inside
      exact ⟨hend, (agree_cut mem).name (by omega) (by rw [length_cut hfile]) (by omega) (by omega)⟩
    refine ⟨hcovers.inside, ⟨contents (cut mem), hg, ?_⟩, hnames⟩
    rw [contents, hlangsEq, hreqsEq, hcomponentEq, hfilesEq, header_cut hcovers.header]
    exact ⟨rfl, rfl, rfl, rfl, rfl⟩

/-- A file with one language and one file `C:x`, whose name begins at `destPtr`; the name of the
component is behind the file record. -/
def sampleFile (destPtr : ℕ) (rest : List UInt8) : List UInt8 :=
  sampleHeader 1 1 0 68 70 0 106 ++ wordBytes 1 ++ dwordBytes 0 ++ dwordBytes 0 ++ dwordBytes 0 ++ dwordBytes 0 ++
    dwordBytes 0 ++ dwordBytes 3 ++ dwordBytes destPtr ++ dwordBytes 0 ++ dwordBytes 0 ++
    dwordBytes 1 ++ dwordBytes 125 ++ dwordBytes 0 ++ dwordBytes 0 ++ rest

/-- The destination name is before the name of the component. -/
theorem residualReadable_name_before :
    ResidualReadable (sampleFile 122 [0x43, 0x3a, 0x78, 0x41]) (contents (sampleFile 122 [0x43, 0x3a, 0x78, 0x41])) :=
  (residualReadable_iff (by decide +kernel)).mpr
    ⟨by decide +kernel, by decide +kernel, by decide +kernel, by decide +kernel⟩

/-- The destination name is behind all that counts: it is not part of the residual. -/
theorem residual_lacks_name :
    ¬∀ mem f, fillFrom mem 0 mem.length = .ok f → ResidualReadable mem f := by
  intro h
  have hnames := (h (sampleFile 126 [0x2d, 0x2d, 0x2d, 0x41, 0x43, 0x3a, 0x78])
    (contents (sampleFile 126 [0x2d, 0x2d, 0x2d, 0x41, 0x43, 0x3a, 0x78])) (by decide +kernel)).2.2
  exact absurd (hnames (126, 3) (by decide +kernel)).1 (by decide +kernel)

end SISFile

end Plptools
