import Plptools.Sis.Installing
import Plptools.Sis.Residual

/-!
# What a later removal removes

The residual of an installed file is parsed again, and its last records, as many as the install loop
came to, are removed. They name what was copied where nothing that is written into the file changes its
record table or the rest of a name, and where each ordinary file that the loop came to was copied: one
that the user chose to skip counts as well.
-/

namespace Plptools

open BufferStore (wordBytes dwordBytes)
open Plptools.Library
open RFSV (getByte getWord getDWord uint32 int32)
open Sis SISInstaller

namespace SISFile

/-- The destination name of a record begins at `p`, with an open drive. -/
def OpenDrive (mem : List UInt8) (p : ℕ) : Prop := mem.getD p 0 = 0x21 ∧ ∃ r ∈ filesAt mem, r.destPtr = p

/-- Where installing may write: to the number of files and the drive in the header, and to open drives. -/
def Patched (mem : List UInt8) (p : ℕ) : Prop := 26 ≤ p ∧ p < 32 ∨ OpenDrive mem p

/-- What is written into a file is apart from its record table, and from the names of ordinary files
but for their own drives; contained files are behind the residual. -/
structure PatchesApart (mem : List UInt8) : Prop where
  table : 0 < (headerAt mem).nfiles → 32 ≤ fileStart mem
  drives : ∀ r ∈ filesAt mem, mem.getD r.destPtr 0 = 0x21 →
    68 ≤ r.destPtr ∧ (r.destPtr < fileStart mem ∨ filesEnd mem ≤ r.destPtr)
  names : ∀ r ∈ filesAt mem, r.fileType = 0 → (r.destPtr + r.destLength ≤ 26 ∨ 32 ≤ r.destPtr) ∧
    ∀ r' ∈ filesAt mem, mem.getD r'.destPtr 0 = 0x21 →
      r'.destPtr ≤ r.destPtr ∨ r.destPtr + r.destLength ≤ r'.destPtr
  contained : ∀ r ∈ filesAt mem, r.fileType = 2 → ∀ p ∈ r.filePtrs.head?, endAt mem ≤ p

/-- The residual part of a file in memory, with `drive` for some of the open drives. -/
structure PatchedBy (mem : List UInt8) (drive : UInt8) (m : List UInt8) : Prop where
  same : ∀ p < endAt mem, ¬Patched mem p → m.getD p 0 = mem.getD p 0
  drives : ∀ p < endAt mem, OpenDrive mem p → m.getD p 0 = 0x21 ∨ m.getD p 0 = drive

/-- What is seen at open drives: the drive, if there is one yet. -/
def shown (drive : UInt8) : UInt8 := if drive = 0 then 0x21 else drive

/-- An open drive is behind the header. -/
theorem OpenDrive.le {mem : List UInt8} (hapart : PatchesApart mem) {p : ℕ} (h : OpenDrive mem p) : 68 ≤ p := by
  obtain ⟨hopen, r, hr, rfl⟩ := h
  exact (hapart.drives r hr hopen).1

namespace PatchedBy

variable {mem m m' : List UInt8} {drive : UInt8}

/-- Nothing is written. -/
theorem refl (mem : List UInt8) (drive : UInt8) : PatchedBy mem drive mem :=
  ⟨fun _ _ _ => rfl, fun _ _ hopen => Or.inl hopen.1⟩

/-- Where no drive is filled in, any drive will do. -/
theorem of_open (h : PatchedBy mem 0x21 m) (drive : UInt8) : PatchedBy mem drive m :=
  ⟨h.same, fun p hp hopen => Or.inl (or_self_iff.mp (h.drives p hp hopen))⟩

/-- What is written for the drive that is shown. -/
theorem of_shown (h : PatchedBy mem (shown drive) m) : PatchedBy mem drive m := by
  rw [shown] at h
  split at h
  · exact h.of_open drive
  · exact h

/-- The bytes of the residual part are what matters. -/
theorem congr (h : PatchedBy mem drive m) (hsame : ∀ p < endAt mem, m'.getD p 0 = m.getD p 0) :
    PatchedBy mem drive m' :=
  ⟨fun p hp hapart => (hsame p hp).trans (h.same p hp hapart), fun p hp hopen => by
    rw [hsame p hp]
    exact h.drives p hp hopen⟩

/-- Writing to the number of files and the drive in the header. -/
theorem header (hapart : PatchesApart mem) (h : PatchedBy mem drive m)
    (hsame : ∀ p, p < 26 ∨ 32 ≤ p → m'.getD p 0 = m.getD p 0) : PatchedBy mem drive m' where
  same p hp hpatched := by
    have hout : p < 26 ∨ 32 ≤ p := by
      by_contra hin
      exact hpatched (Or.inl (by omega))
    exact (hsame p hout).trans (h.same p hp hpatched)
  drives p hp hopen := by
    rw [hsame p (Or.inr (by have := hopen.le hapart; omega))]
    exact h.drives p hp hopen

/-- Filling in a drive where one is open. -/
theorem set (h : PatchedBy mem drive m) {r : SISFileRecord} (hr : r ∈ filesAt mem)
    (hopen : m.getD r.destPtr 0 = 0x21) : PatchedBy mem drive (m.set r.destPtr drive) where
  same p hp hpatched := by
    have hne : r.destPtr ≠ p := by
      rintro rfl
      have hsame := h.same _ hp hpatched
      exact hpatched (Or.inr ⟨hsame ▸ hopen, r, hr, rfl⟩)
    rw [getD_set_ne _ _ hne]
    exact h.same p hp hpatched
  drives p hp hp' := by
    by_cases heq : r.destPtr = p
    · rw [← heq]
      by_cases hin : r.destPtr < m.length
      · exact Or.inr (getD_set_self _ _ hin)
      · rw [List.set_eq_of_length_le (not_lt.mp hin)]
        exact Or.inl hopen
    · rw [getD_set_ne _ _ heq]
      exact h.drives p hp hp'

/-- Setting the drive of a name, which is then that drive, or is not open. -/
theorem setMainDrive (h : PatchedBy mem drive m) {r : SISFileRecord} (hr : r ∈ filesAt mem)
    (hset : r.setMainDrive m 0 drive = some m') :
    PatchedBy mem drive m' ∧ m'.length = m.length ∧ (m'.getD r.destPtr 0 = 0x21 → drive = 0x21) := by
  obtain ⟨hin, ⟨hopen, rfl⟩ | ⟨hclosed, rfl⟩⟩ := r.setMainDrive_cases hset
  · rw [Nat.zero_add] at hin hopen ⊢
    refine ⟨h.set hr hopen, List.length_set, ?_⟩
    rw [getD_set_self _ _ hin]
    exact id
  · rw [Nat.zero_add] at hclosed
    exact ⟨h, rfl, fun hopen => absurd hopen hclosed⟩

end PatchedBy

/-! ### Names -/

/-- The first byte of a name. -/
theorem nameAt_succ (m : List UInt8) {p : ℕ} (n : ℕ) (hp : p < m.length) :
    nameAt m (p, n + 1) = m.getD p 0 :: nameAt m (p + 1, n) := by
  rw [nameAt, nameAt, List.drop_eq_getElem_cons hp, List.take_succ_cons, List.getD_eq_getElem?_getD,
    List.getElem?_eq_getElem hp, Option.getD_some]

/-- A name that is not open is the same with any drive. -/
theorem withDrive_of_closed {drive : UInt8} {name : List UInt8} (h : name.head? = some 0x21 → drive = 0x21) :
    withDrive drive name = name := by
  cases name with
  | nil => rfl
  | cons c rest =>
    rw [withDrive]
    by_cases hc : c = 0x21
    · rw [if_pos hc, h (by rw [hc]; rfl), hc]
    · rw [if_neg hc]

/-- The names of ordinary files, with their drives, can be read from the patched file. -/
theorem PatchedBy.name {mem m : List UInt8} {drive : UInt8} (hapart : PatchesApart mem) (h : PatchedBy mem drive m)
    {r : SISFileRecord} (hr : r ∈ filesAt mem) (htype : r.fileType = 0)
    (hend : r.destPtr + r.destLength ≤ endAt mem) (hmem : r.destPtr + r.destLength ≤ mem.length)
    (hm : r.destPtr + r.destLength ≤ m.length) :
    withDrive drive (nameAt m (r.destPtr, r.destLength)) = withDrive drive (nameAt mem (r.destPtr, r.destLength)) := by
  obtain ⟨hheader, hothers⟩ := hapart.names r hr htype
  cases hlength : r.destLength with
  | zero => rfl
  | succ n =>
    rw [hlength] at hheader hend hmem hm hothers
    have hagree : Agree mem m (r.destPtr + 1 : ℕ) (r.destPtr + (n + 1) : ℕ) := by
      intro p hlow hhigh
      have hlow := Int.ofNat_le.mp hlow
      have hhigh := Int.ofNat_lt.mp hhigh
      apply h.same p (by omega)
      rintro (hin | ⟨hopen, r', hr', rfl⟩)
      · omega
      · have := hothers r' hr' hopen
        omega
    have htail : nameAt m (r.destPtr + 1, n) = nameAt mem (r.destPtr + 1, n) :=
      hagree.name (by omega) (by omega) (Int.ofNat_le.mpr (Nat.le_refl _)) (by dsimp only; omega)
    rw [nameAt_succ _ _ (by omega), nameAt_succ _ _ (by omega), htail, withDrive, withDrive]
    congr 1
    by_cases hopen : mem.getD r.destPtr 0 = 0x21
    · rw [if_pos hopen]
      rcases h.drives r.destPtr (by omega) ⟨hopen, r, hr, rfl⟩ with heq | heq
      · rw [if_pos heq]
      · rw [heq, ite_self]
    · have hsame : m.getD r.destPtr 0 = mem.getD r.destPtr 0 := by
        apply h.same _ (by omega)
        rintro (hin | hdrive)
        · omega
        · exact hopen hdrive.1
      rw [hsame]

/-! ### The install loop -/

/-- The path of a record, on a drive. -/
def destName (mem : List UInt8) (drive : UInt8) (r : SISFileRecord) : List UInt8 :=
  cString (withDrive drive (nameAt mem (r.destPtr, r.destLength)))

/-- The drive of a record is open. -/
def StartsOpen (mem : List UInt8) (r : SISFileRecord) : Prop :=
  (nameAt mem (r.destPtr, r.destLength)).head? = some 0x21

/-- The name starts with the mark of an open drive. -/
theorem StartsOpen.getD {mem : List UInt8} {r : SISFileRecord} (h : StartsOpen mem r) :
    mem.getD r.destPtr 0 = 0x21 := by
  rw [StartsOpen, nameAt, List.head?_take] at h
  split at h
  · cases h
  · rw [List.head?_drop] at h
    rw [List.getD_eq_getElem?_getD, h, Option.getD_some]

/-- Without that mark the drive makes no difference. -/
theorem destName_of_closed {mem : List UInt8} {r : SISFileRecord} (h : ¬StartsOpen mem r) (drive drive' : UInt8) :
    destName mem drive r = destName mem drive' r := by
  rw [destName, destName, withDrive_of_closed fun hopen => absurd hopen h,
    withDrive_of_closed fun hopen => absurd hopen h]

/-- A record was copied, under its path on the drive, which is known if it was open. -/
structure Requested (mem : List UInt8) (s : SISInstaller) (r : SISFileRecord) : Prop where
  drive : StartsOpen mem r → s.drive ≠ 0
  copied : ∃ data, Request.copyToPsion data (destName mem s.drive r) ∈ s.requests

/-- What has been requested stays requested. -/
theorem Requested.mono {mem : List UInt8} {s s' : SISInstaller} {r : SISFileRecord} (h : Requested mem s r)
    (hrequests : s.requests <+: s'.requests) (hdrive : s.drive = 0 ∨ s'.drive = s.drive) : Requested mem s' r := by
  obtain ⟨data, hdata⟩ := h.copied
  by_cases hopen : StartsOpen mem r
  · have hsame : s'.drive = s.drive := hdrive.resolve_left (h.drive hopen)
    exact ⟨fun _ => hsame ▸ h.drive hopen, data, hsame ▸ hrequests.mem hdata⟩
  · exact ⟨fun h => absurd h hopen, data, destName_of_closed hopen s.drive s'.drive ▸ hrequests.mem hdata⟩

/-- The install loop has come to the records from `n` on: the drive is in the header and in open names,
and the ordinary files among them were copied. -/
structure Walked (mem : List UInt8) (n : ℕ) (s : SISInstaller) : Prop where
  length : s.mem.length = mem.length
  patched : PatchedBy mem (shown s.drive) s.mem
  drive : s.drive ≠ 0 → s.mem.getD 28 0 = s.drive
  requested : ∀ i ≥ n, ∀ r, (filesAt mem)[i]? = some r → r.fileType = 0 → r.destPtr + r.destLength ≤ endAt mem →
    Requested mem s r

namespace Walked

variable {mem : List UInt8} {n : ℕ} {s s' : SISInstaller}

/-- What leaves the residual part and the drive alone. -/
theorem of_grows (h : Walked mem n s) (hend : 68 ≤ endAt mem)
    (hgrows : Grows (endAt mem) s.toSurroundings s'.toSurroundings) (hdrive : s'.drive = s.drive) :
    Walked mem n s' where
  length := hgrows.length.trans h.length
  patched := by
    rw [hdrive]
    exact h.patched.congr hgrows.below
  drive hne := by
    rw [hgrows.below 28 (by omega), hdrive]
    exact h.drive (hdrive ▸ hne)
  requested i hi r hr htype hin := (h.requested i hi r hr htype hin).mono hgrows.requests (Or.inr hdrive)

/-- Setting a drive, if there was none or it is the same. -/
theorem useDrive (h : Walked mem n s) (hapart : PatchesApart mem) (hlength : 68 ≤ mem.length) {d : UInt8}
    (hdrive : s.drive = 0 ∨ d = s.drive) : Walked mem n (s.useDrive 0 d) where
  length := (useDrive_grows 0 d s).length.trans h.length
  patched := by
    have hpatched : PatchedBy mem (shown d) s.mem := by
      rcases hdrive with hzero | rfl
      · have hopen := h.patched
        rw [hzero, shown, if_pos rfl] at hopen
        exact hopen.of_open _
      · exact h.patched
    exact hpatched.header hapart fun p hp => setDrive_byte 0 d { s with drive := d } (by omega)
  drive _ := setDrive_drive d { s with drive := d } (by have := h.length; dsimp only; omega)
  requested i hi r hr htype hin :=
    (h.requested i hi r hr htype hin).mono (useDrive_grows 0 d s).requests (by
      rcases hdrive with hzero | rfl
      · exact Or.inl hzero
      · exact Or.inr rfl)

/-- Setting the drive of a name. -/
theorem setMainDrive (h : Walked mem n s) (hdrive : s.drive ≠ 0) {r : SISFileRecord} (hr : r ∈ filesAt mem)
    {m : List UInt8} (hset : r.setMainDrive s.mem 0 s.drive = some m) : Walked mem n { s with mem := m } := by
  have hshown : shown s.drive = s.drive := if_neg hdrive
  have hpatched := h.patched
  rw [hshown] at hpatched
  obtain ⟨hm, hlength, -⟩ := hpatched.setMainDrive hr hset
  refine ⟨hlength.trans h.length, by rw [hshown]; exact hm, fun hne => ?_, fun i hi r' hr' htype hin =>
    (h.requested i hi r' hr' htype hin).mono (List.prefix_refl _) (Or.inr rfl)⟩
  have hbyte := h.drive hne
  obtain ⟨hin, ⟨hopen, rfl⟩ | ⟨-, rfl⟩⟩ := r.setMainDrive_cases hset
  · by_cases heq : 0 + r.destPtr = 28
    · rw [heq] at hin ⊢
      exact getD_set_self _ _ hin
    · dsimp only
      rw [getD_set_ne _ _ heq, hbyte]
  · exact hbyte

/-- The loop goes on to the record before. -/
theorem next (h : Walked mem (n + 1) s) {r : SISFileRecord} (hr : (filesAt mem)[n]? = some r)
    (hrequested : r.fileType = 0 → r.destPtr + r.destLength ≤ endAt mem → Requested mem s r) : Walked mem n s where
  length := h.length
  patched := h.patched
  drive := h.drive
  requested i hi r' hr' htype hin := by
    rcases Nat.eq_or_lt_of_le hi with rfl | hlt
    · obtain rfl := Option.some.inj (hr.symm.trans hr')
      exact hrequested htype hin
    · exact h.requested i hlt r' hr' htype hin

end Walked

/-! ### Whether a file is copied -/

/-- All data of a file go into its temporary file. -/
def DataWritten (mem : List UInt8) (fileNo : ℕ) (r : SISFileRecord) : Prop :=
  ∀ fileLength ∈ r.fileLengths[fileNo]?, ∀ filePtr ∈ r.getFilePtr fileNo mem.length,
    ∀ written ∈ write mem filePtr (int32 fileLength), written.2 = int32 fileLength

/-- An ordinary file that the loop comes to is not skipped, its name and its data can be found, and a
temporary file can be written. -/
def CopiesFile (mem : List UInt8) (r : SISFileRecord) (l : Loop) : Prop :=
  r.fileType = 0 → l.skipnext = false ∧ r.getDestPtr mem.length ≠ none ∧ l.installer.tempFiles.headD true = true ∧
    DataWritten mem (r.fileNo lang) r

/-- Each state of the install loop copies the file that it comes to. -/
def CopiesFiles (psion : List Request → Psion) (install : Installs) (mem : List UInt8)
    (records : List SISFileRecord) : ℕ → Loop → Prop
  | 0, _ => True
  | n + 1, l => ∀ r ∈ records[n]?, CopiesFile mem r l ∧
      ∀ l' ∈ installRecord psion install 0 mem.length r l, l'.aborted = false → CopiesFiles psion install mem records n l'

instance (mem : List UInt8) (fileNo : ℕ) (r : SISFileRecord) : Decidable (DataWritten mem fileNo r) := by
  unfold DataWritten
  infer_instance

instance (mem : List UInt8) (r : SISFileRecord) (l : Loop) : Decidable (CopiesFile mem r l) := by
  unfold CopiesFile
  infer_instance

/-- Whether each state copies its file can be computed. -/
instance CopiesFiles.decidable (psion : List Request → Psion) (install : Installs) (mem : List UInt8)
    (records : List SISFileRecord) : ∀ n l, Decidable (CopiesFiles psion install mem records n l)
  | 0, _ => isTrue trivial
  | n + 1, l =>
    have := CopiesFiles.decidable psion install mem records n
    inferInstanceAs (Decidable (∀ r ∈ records[n]?, CopiesFile mem r l ∧
      ∀ l' ∈ installRecord psion install 0 mem.length r l, l'.aborted = false →
        CopiesFiles psion install mem records n l'))

/-- How many bytes are written depends on the length of the memory only. -/
theorem write_count {mem m : List UInt8} (hlength : m.length = mem.length) (p : Option ℕ) (len : ℤ) :
    (write m p len).map Prod.snd = (write mem p len).map Prod.snd := by
  unfold write
  cases p with
  | none => rfl
  | some p =>
    dsimp only
    rw [hlength]
    split_ifs
    · rfl
    · rfl
    · rfl
    · rfl

/-- Data that go into their temporary file are stored on the device. -/
theorem copyBuf_copies {p : Option ℕ} {size : ℤ} {name : List UInt8} {s s' : SISInstaller}
    (h : copyBuf p size name s = some s') (htemp : s.tempFiles.headD true = true)
    (hwritten : ∀ written ∈ write s.mem p size, written.2 = size) :
    ∃ data, Request.copyToPsion data name ∈ s'.requests := by
  have hdirs : (s.createDirs name).tempFiles = s.tempFiles ∧ (s.createDirs name).mem = s.mem := by
    rcases createDirs_eq name s with heq | ⟨path, heq⟩
    · rw [heq]
      exact ⟨rfl, rfl⟩
    · rw [heq]
      exact ⟨rfl, rfl⟩
  rw [copyBuf] at h
  simp only [hdirs.1, htemp, if_true] at h
  obtain ⟨⟨data, count⟩, hwrite, h⟩ := Option.bind_eq_some_iff.mp h
  rw [hdirs.2] at hwrite
  have hcount : count = size := hwritten _ hwrite
  simp only [hcount, if_true] at h
  obtain rfl := Option.some.inj h
  exact ⟨data, List.mem_append_right _ (List.mem_singleton_self _)⟩

/-! ### What the install loop preserves -/

namespace Walked

variable {psion : List Request → Psion} {install : Installs} {mem : List UInt8} {n fileNo : ℕ} {r : SISFileRecord}
  {s s' : SISInstaller}

/-- What is neither memory nor the drive may change, and there may be more requests. -/
theorem of_mem (h : Walked mem n s) (hmem : s'.mem = s.mem) (hdrive : s'.drive = s.drive)
    (hrequests : s.requests <+: s'.requests) : Walked mem n s' where
  length := hmem ▸ h.length
  patched := by
    rw [hmem, hdrive]
    exact h.patched
  drive hne := by
    rw [hmem, hdrive]
    exact h.drive (hdrive ▸ hne)
  requested i hi r hr htype hin := (h.requested i hi r hr htype hin).mono hrequests (Or.inr hdrive)

/-- Selecting a drive goes on with the walk. -/
theorem driveSelected (h : Walked mem n s) (hapart : PatchesApart mem) (hlength : 68 ≤ mem.length) {destPtr : ℕ}
    (hselected : DriveSelected 0 destPtr s s') : Walked mem n s' := by
  rcases hselected with ⟨-, rfl⟩ | ⟨-, d, stdin, -, hdrive, rfl⟩
  · exact h
  · have hstdin : Walked mem n { s with stdin := stdin } := h.of_mem rfl rfl (List.prefix_refl _)
    exact hstdin.useDrive hapart hlength hdrive

/-- An ordinary file is copied. -/
theorem copyFile (h : Walked mem (n + 1) s) (hapart : PatchesApart mem) (hlength : 68 ≤ mem.length)
    (hr : (filesAt mem)[n]? = some r) (htype : r.fileType = 0)
    (hdest : r.getDestPtr mem.length ≠ none) (htemp : s.tempFiles.headD true = true)
    (hdata : DataWritten mem fileNo r) (hcopy : copyFile psion 0 mem.length fileNo r s = some s') :
    Walked mem n s' := by
  have hmem : r ∈ filesAt mem := List.mem_of_getElem? hr
  have hfound : r.getDestPtr mem.length = some r.destPtr := by
    rw [SISFileRecord.getDestPtr] at hdest ⊢
    split at hdest
    · exact if_pos ‹_›
    · exact absurd rfl hdest
  obtain ⟨s₁, m, fileLength, filePtr, hselected, hfits, hfileLength, hfilePtr, hname, hbuf⟩ :=
    copyFile_steps hfound hcopy
  rw [Nat.zero_add] at hfits hname hbuf
  have h₁ := h.driveSelected hapart hlength hselected
  have hopen₁ : s₁.mem.getD r.destPtr 0 = 0x21 → s₁.drive ≠ 0 := by
    intro hopen
    rcases hselected with ⟨hclosed, rfl⟩ | ⟨-, d, stdin, hd, -, rfl⟩
    · exact absurd (by rwa [Nat.zero_add]) hclosed
    · exact hd
  have htemp₁ : s₁.tempFiles = s.tempFiles := by
    rcases hselected with ⟨-, rfl⟩ | ⟨-, d, stdin, -, -, rfl⟩
    · rfl
    · rfl
  have h₂ : Walked mem (n + 1) { s₁ with mem := m } := by
    rcases hname with ⟨hhead, hset⟩ | ⟨-, rfl⟩
    · exact h₁.setMainDrive (hopen₁ (StartsOpen.getD hhead)) hmem hset
    · exact h₁
  obtain ⟨requests, hs'⟩ := copyBuf_eq hbuf
  have h₃ : Walked mem (n + 1) s' := by
    rw [hs']
    exact h₂.of_mem rfl rfl (List.prefix_append _ _)
  have hdrive : s'.drive = s₁.drive := by rw [hs']
  rw [h₁.length] at hfits
  refine h₃.next hr fun _ hin => ⟨fun hopen hzero => ?_, ?_⟩
  · have hpatched := h₁.patched
    rw [← hdrive, hzero, shown, if_pos rfl] at hpatched
    have hpos : r.destLength ≠ 0 := by
      intro hempty
      rw [StartsOpen, hempty] at hopen
      exact nomatch hopen
    have hdrives := hpatched.drives r.destPtr (by omega) ⟨hopen.getD, r, hmem, rfl⟩
    exact hopen₁ (or_self_iff.mp hdrives) (hdrive ▸ hzero)
  · have hsame := h₁.patched.of_shown.name hapart hmem htype hin hfits (by rw [h₁.length]; exact hfits)
    have hstart : filePtr.map (0 + ·) = filePtr := by simp
    rw [hdrive, destName, ← hsame]
    apply copyBuf_copies hbuf (by rw [← htemp₁] at htemp; exact htemp)
    intro written hwritten
    have hcount := write_count h₂.length (filePtr.map (0 + ·)) (int32 fileLength)
    rw [Option.mem_def.mp hwritten] at hcount
    obtain ⟨written', hwritten', heq⟩ := Option.map_eq_some_iff.mp hcount.symm
    rw [hstart] at hwritten'
    exact heq ▸ hdata fileLength hfileLength filePtr hfilePtr written' hwritten'

/-- A contained file is installed. -/
theorem installContained (h : Walked mem n s) (hapart : PatchesApart mem) (hend : 68 ≤ endAt mem)
    (hlength : 68 ≤ mem.length) (hfront : LeavesFront install) {filePtr : Option ℕ} {len : ℕ}
    (hbehind : ∀ p ∈ filePtr, endAt mem ≤ p) (hcontained : installContained install 0 filePtr len s = some s') :
    Walked mem n s' := by
  rcases installContained_cases hfront hcontained with rfl | ⟨p, hp, s₁, hgrows, hdrive, hs'⟩
  · exact h
  · have hbelow : endAt mem ≤ 0 + p := by
      rw [Nat.zero_add]
      exact hbehind p hp
    have h₁ : Walked mem n s₁ := h.of_grows hend (hgrows.mono hbelow) hdrive
    rcases hs' with rfl | ⟨hzero, d, rfl⟩
    · exact h₁
    · exact h₁.useDrive hapart hlength (Or.inl (hdrive.trans hzero))

/-- A record is installed. -/
theorem installFile (h : Walked mem (n + 1) s) (hapart : PatchesApart mem) (hend : 68 ≤ endAt mem)
    (hlength : 68 ≤ mem.length) (hfront : LeavesFront install) (hr : (filesAt mem)[n]? = some r)
    (hcopies : r.fileType = 0 → r.getDestPtr mem.length ≠ none ∧ s.tempFiles.headD true = true ∧
      DataWritten mem (r.fileNo lang) r) {rc : FileRC}
    (hinstall : installFile psion install 0 mem.length (r.fileNo lang) r s = some (rc, s')) :
    Walked mem n s' := by
  have hother (hne : r.fileType ≠ 0) (hmem : s'.mem = s.mem) (hdrive : s'.drive = s.drive)
      (hrequests : s'.requests = s.requests) : Walked mem n s' :=
    (h.of_mem hmem hdrive (hrequests ▸ List.prefix_refl _)).next hr fun htype => absurd htype hne
  rw [SISInstaller.installFile] at hinstall
  split at hinstall
  · rename_i htype
    obtain ⟨s₁, hcopy, hs'⟩ := Option.bind_eq_some_iff.mp hinstall
    obtain ⟨rfl, rfl⟩ := Prod.mk.inj (Option.some.inj hs')
    obtain ⟨hdest, htemp, hdata⟩ := hcopies htype
    exact h.copyFile hapart hlength hr htype hdest htemp hdata hcopy
  · rename_i htype
    have hne : r.fileType ≠ 0 := by omega
    dsimp only at hinstall
    split at hinstall
    all_goals
      obtain ⟨-, rfl⟩ := Prod.mk.inj (Option.some.inj hinstall)
      exact hother hne rfl rfl rfl
  · rename_i htype
    obtain ⟨filePtr, hfilePtr, hinstall⟩ := Option.bind_eq_some_iff.mp hinstall
    obtain ⟨fileLength, -, hinstall⟩ := Option.bind_eq_some_iff.mp hinstall
    obtain ⟨s₁, hcontained, hs'⟩ := Option.bind_eq_some_iff.mp hinstall
    obtain ⟨rfl, rfl⟩ := Prod.mk.inj (Option.some.inj hs')
    refine (h.installContained hapart hend hlength hfront ?_ hcontained).next hr fun htype' => ?_
    · intro p hp
      obtain ⟨p', hp', heq⟩ := Option.bind_eq_some_iff.mp hfilePtr
      obtain rfl := Option.some.inj heq
      rw [SISFileRecord.fileNo, lang, ite_self, ← List.head?_eq_getElem?] at hp'
      split at hp
      · cases hp
      · obtain rfl := Option.some.inj hp
        exact hapart.contained r (List.mem_of_getElem? hr) htype _ hp'
    · omega
  · rename_i hzero _ _
    obtain ⟨rfl, rfl⟩ := Prod.mk.inj (Option.some.inj hinstall)
    exact hother hzero rfl rfl rfl

/-- The whole install loop: the records that it came to are those that are counted. -/
theorem installFiles (hapart : PatchesApart mem) (hend : 68 ≤ endAt mem) (hlength : 68 ≤ mem.length)
    (hfront : LeavesFront install) {l l' : Loop} (h : Walked mem n l.installer) (habort : l.aborted = false)
    (hn : l.nCopiedFiles + n = (filesAt mem).length)
    (hcopies : CopiesFiles psion install mem (filesAt mem) n l)
    (hloop : installFiles psion install 0 mem.length (filesAt mem) n l = some l') :
    ∃ k, l'.nCopiedFiles + k = (filesAt mem).length ∧ Walked mem k l'.installer := by
  induction n generalizing l with
  | zero =>
    obtain rfl := Option.some.inj hloop
    exact ⟨0, hn, h⟩
  | succ n ih =>
    obtain ⟨r, hr, hloop⟩ := Option.bind_eq_some_iff.mp hloop
    obtain ⟨l₁, hrecord, hloop⟩ := Option.bind_eq_some_iff.mp hloop
    obtain ⟨hcopy, hrest⟩ := hcopies r hr
    rcases installRecord_cases hrecord with ⟨hskip, rfl⟩ | ⟨hskip, rc, s', hinstall, rfl, hcount⟩
    · have hnext : Walked mem n l.installer := h.next hr fun htype => by
        rw [(hcopy htype).1] at hskip
        exact nomatch hskip
      rw [if_neg (by rw [habort]; exact Bool.false_ne_true)] at hloop
      exact ih (l := { l with skipnext := false, nCopiedFiles := l.nCopiedFiles + 1 }) hnext habort
        (by dsimp only; omega) (hrest _ hrecord habort) hloop
    · have hwalked := h.installFile hapart hend hlength hfront hr (fun htype => (hcopy htype).2) hinstall
      rcases hcount with ⟨-, habort₁, hcount⟩ | ⟨-, habort₁, hcount⟩
      · -- the record at which the installation is ended is not counted
        rw [if_pos habort₁] at hloop
        obtain rfl := Option.some.inj hloop
        have hbefore : Walked mem (n + 1) l₁.installer :=
          { hwalked with requested := fun i hi => hwalked.requested i (Nat.le_of_succ_le hi) }
        exact ⟨n + 1, by omega, hbefore⟩
      · rw [habort] at habort₁
        rw [if_neg (by rw [habort₁]; exact Bool.false_ne_true)] at hloop
        exact ih hwalked habort₁ (by omega) (hrest _ hrecord habort₁) hloop

end Walked

/-! ### The residual -/

/-- An end that is kept is unsigned. -/
theorem endAt_lt (mem : List UInt8) : endAt mem < 2 ^ 32 := by
  have huint (a : ℤ) : uint32 a < 2 ^ 32 := by
    unfold uint32
    omega
  have hupdate {last pos : ℕ} (hlast : last < 2 ^ 32) (hpos : pos < 2 ^ 32) : updateEnd last pos < 2 ^ 32 := by
    unfold updateEnd
    split
    · exact hpos
    · exact hlast
  have hlastEnd : (componentAt mem).getLastEnd < 2 ^ 32 := by
    rw [SISComponentNameRecord.getLastEnd]
    refine List.foldlRecOn (motive := fun last => last < 2 ^ 32) _ _ (by decide) fun last hlast pos hpos => ?_
    rw [← List.map_uncurry_zip_eq_zipWith] at hpos
    obtain ⟨name, -, rfl⟩ := List.mem_map.mp hpos
    split
    · exact huint _
    · exact hlast
  exact hupdate (hupdate (hupdate (hupdate (hupdate (by decide) (huint _)) (huint _)) (huint _)) hlastEnd) (huint _)

/-- The residual has a directory, which is made first. -/
theorem createDirs_resname (compName : List UInt8) (s : SISInstaller) :
    ∃ path, s.createDirs (resname compName) = s.request (.mkdir path) := by
  rw [createDirs]
  split
  · exact ⟨_, rfl⟩
  · rename_i hnone
    have hfound := List.find?_eq_none.mp hnone 2 (by simp [resname])
    exact absurd (by simp [resname]) hfound

/-- What is stored last, of what is stored after the install loop, is the start of the memory. -/
theorem residual_of_copyBuf {compName : List UInt8} {size : ℤ} {s s' : SISInstaller}
    (h : copyBuf (some 0) size (resname compName) s = some s') {data path : List UInt8}
    (hlast : s'.requests.getLast? = some (.copyToPsion data path)) :
    data = [] ∨ 0 < size ∧ size ≤ s.mem.length ∧ data = s.mem.take size.toNat := by
  obtain ⟨dir, hdir⟩ := createDirs_resname compName s
  rw [copyBuf, hdir] at h
  have hmkdir (requests : List Request) : (requests ++ [Request.mkdir dir]).getLast? ≠ some (.copyToPsion data path) := by
    rw [List.getLast?_concat]
    intro heq
    cases heq
  split at h
  · obtain ⟨⟨data', count⟩, hwrite, h⟩ := Option.bind_eq_some_iff.mp h
    by_cases hall : count = size
    · simp only [hall, if_true] at h
      obtain rfl := Option.some.inj h
      obtain ⟨rfl, -⟩ := Request.copyToPsion.inj (Option.some.inj (List.getLast?_concat.symm.trans hlast))
      rw [write.eq_def] at hwrite
      split at hwrite
      · exact Or.inl (Prod.mk.inj (Option.some.inj hwrite)).1.symm
      · split at hwrite
        · exact Or.inl (Prod.mk.inj (Option.some.inj hwrite)).1.symm
        · dsimp only at hwrite
          split at hwrite
          · rename_i hneg hzero hfits
            rw [Nat.cast_zero, zero_add] at hfits
            exact Or.inr ⟨by omega, hfits, (Prod.mk.inj (Option.some.inj hwrite)).1.symm⟩
          · cases hwrite
    · simp only [hall, if_false] at h
      obtain rfl := Option.some.inj h
      exact absurd hlast (hmkdir _)
  · obtain rfl := Option.some.inj h
    exact absurd hlast (hmkdir _)

/-! ### What is read of the residual -/

namespace PatchedBy

variable {mem m : List UInt8} {drive : UInt8}

/-- Bytes that are not written to are those of the file. -/
theorem agree (h : PatchedBy mem drive m) {lo hi : ℤ} (hhi : hi ≤ endAt mem)
    (hapart : ∀ p : ℕ, lo ≤ p → (p : ℤ) < hi → ¬Patched mem p) : Agree mem m lo hi :=
  fun p hlow hhigh => h.same p (by omega) (hapart p hlow hhigh)

/-- The counts of the header, and where the file records begin. -/
theorem headerAt_eq (h : PatchedBy mem drive m) (hapart : PatchesApart mem) (hend : 68 ≤ endAt mem) :
    (headerAt m).nlangs = (headerAt mem).nlangs ∧ (headerAt m).nfiles = (headerAt mem).nfiles ∧
      fileStart m = fileStart mem := by
  have hlow : Agree mem m 0 26 := h.agree (by omega) fun p _ hp hpatched => by
    rcases hpatched with hin | hopen
    · omega
    · have := hopen.le hapart
      omega
  have hhigh : Agree mem m 32 68 := h.agree (by omega) fun p hp hp' hpatched => by
    rcases hpatched with hin | hopen
    · omega
    · have := hopen.le hapart
      omega
  refine ⟨hlow.word (by decide) (by decide) (by decide), hlow.word (by decide) (by decide) (by decide), ?_⟩
  have hptr : (headerAt m).filesPtr = (headerAt mem).filesPtr :=
    hhigh.dword (by decide) (by decide) (by decide)
  rw [fileStart, hptr, fileStart]

/-- The file records. -/
theorem filesAt_eq (h : PatchedBy mem drive m) (hapart : PatchesApart mem) (hend : 68 ≤ endAt mem)
    (hparsed : Parsed mem) : filesAt m = filesAt mem := by
  obtain ⟨hnlangs, hnfiles, hstart⟩ := h.headerAt_eq hapart hend
  have hstep := files_inside hparsed.filesSafe hparsed.files
  have hmono : ∀ i < (headerAt mem).nfiles,
      (nextFile mem)^[i] (fileStart mem) ≤ (nextFile mem)^[i + 1] (fileStart mem) := fun i hi => by
    have := (hstep i hi).2.1
    omega
  have hagree : ∀ i < (headerAt mem).nfiles, Agree mem m ((nextFile mem)^[i] (fileStart mem))
      ((nextFile mem)^[i + 1] (fileStart mem)) := by
    intro i hi
    have hfirst : (nextFile mem)^[0] (fileStart mem) ≤ (nextFile mem)^[i] (fileStart mem) :=
      le_tableEnd (fun j hj => hmono j (hj.trans hi)) (Nat.zero_le i)
    rw [Function.iterate_zero_apply] at hfirst
    have hlast : (nextFile mem)^[i + 1] (fileStart mem) ≤ filesEnd mem := le_tableEnd hmono hi
    apply h.agree
    · exact le_keptEnd (fun j hj => ⟨(hstep j hj).1, hmono j hj, (hstep j hj).2.2⟩) (filesEnd_le mem) hi
    · rintro p hlow hhigh (hin | ⟨hopen, r, hr, rfl⟩)
      · have := hapart.table (by omega)
        omega
      · have := (hapart.drives r hr hopen).2
        omega
  have hsize : ∀ i < (headerAt mem).nfiles, (nextFile mem)^[i] (fileStart mem) +
      fileSize (dword mem ((nextFile mem)^[i] (fileStart mem))) (headerAt mem).nlangs =
        (nextFile mem)^[i + 1] (fileStart mem) := fun i _ => by
    rw [Function.iterate_succ_apply', nextFile]
  rw [filesAt, filesAt, hnlangs, hnfiles, hstart]
  apply tableRecords_congr
  · intro i hi
    have hlow := (hstep i hi).1
    have hnext := (hstep i hi).2.1
    exact nextFile_eq hnlangs ((hagree i hi).dword hlow (le_refl _) (by omega))
  · intro i hi
    exact (hagree i hi).fileRecord (hstep i hi).1 (le_refl _) (hsize i hi).le

/-- What is removed for an ordinary file is the path with the drive. -/
theorem removeFile_eq (h : PatchedBy mem drive m) (hapart : PatchesApart mem) (hmem : m.length ≤ mem.length)
    (hend : m.length ≤ endAt mem) {r : SISFileRecord} (hr : r ∈ filesAt mem) (htype : r.fileType = 0)
    (hin : r.destPtr < m.length) (hdrive : m.getD r.destPtr 0 = 0x21 → drive = 0x21) {path : List UInt8}
    (hremove : removeFile m r = some path) :
    r.destPtr + r.destLength ≤ endAt mem ∧ path = destName mem drive r := by
  have hfound : r.getDestPtr m.length = some r.destPtr := by
    have hlength := endAt_lt mem
    rw [SISFileRecord.getDestPtr, if_pos]
    rw [uint32]
    omega
  rw [removeFile, hfound] at hremove
  dsimp only at hremove
  split at hremove
  · cases hremove
  · obtain rfl := Option.some.inj hremove
    have hfits : r.destPtr + r.destLength ≤ m.length := by omega
    refine ⟨hfits.trans hend, ?_⟩
    rw [destName, ← h.name hapart hr htype (hfits.trans hend) (hfits.trans hmem) hfits]
    rw [withDrive_of_closed fun hopen => hdrive (StartsOpen.getD hopen), nameAt]

/-- What is removed with the type of an ordinary file is one. -/
theorem uninstallFile_ordinary {m : List UInt8} {r : SISFileRecord} {removed : List (ℕ × List UInt8)} {path : List UInt8}
    (h : uninstallFile m r = some removed) (hpath : (0, path) ∈ removed) :
    r.fileType = 0 ∧ removeFile m r = some path := by
  rw [uninstallFile] at h
  split at h
  · rename_i htype
    obtain ⟨path', hremove, h⟩ := Option.bind_eq_some_iff.mp h
    obtain rfl := Option.some.inj h
    obtain ⟨-, rfl⟩ := Prod.mk.inj (List.mem_singleton.mp hpath)
    exact ⟨htype, hremove⟩
  · obtain ⟨path', -, h⟩ := Option.bind_eq_some_iff.mp h
    obtain rfl := Option.some.inj h
    exact nomatch (Prod.mk.inj (List.mem_singleton.mp hpath)).1
  · obtain rfl := Option.some.inj h
    exact absurd hpath List.not_mem_nil

/-- What a removal of records removes for ordinary files. -/
theorem removed (h : PatchedBy mem drive m) (hapart : PatchesApart mem) (hmem : m.length ≤ mem.length)
    (hend : m.length ≤ endAt mem) {rs : List SISFileRecord} (hrs : ∀ r ∈ rs, r ∈ filesAt mem) {path : List UInt8}
    (hremoved : (0, path) ∈ (uninstallFiles drive rs m).1) :
    ∃ r ∈ rs, r.fileType = 0 ∧ r.destPtr + r.destLength ≤ endAt mem ∧ path = destName mem drive r := by
  induction rs generalizing m with
  | nil => exact absurd hremoved List.not_mem_nil
  | cons r rs ih =>
    have hr := hrs r List.mem_cons_self
    rw [uninstallFiles] at hremoved
    cases hset : r.setMainDrive m 0 drive with
    | none =>
      rw [hset] at hremoved
      exact absurd hremoved List.not_mem_nil
    | some m' =>
      rw [hset] at hremoved
      dsimp only at hremoved
      obtain ⟨h', hlength, hdrive⟩ := h.setMainDrive hr hset
      have hin := (r.setMainDrive_cases hset).1
      rw [Nat.zero_add, ← hlength] at hin
      cases hfile : uninstallFile m' r with
      | none =>
        rw [hfile] at hremoved
        exact absurd hremoved List.not_mem_nil
      | some first =>
        rw [hfile] at hremoved
        rcases List.mem_append.mp hremoved with hfirst | hrest
        · obtain ⟨htype, hremove⟩ := uninstallFile_ordinary hfile hfirst
          obtain ⟨hfits, heq⟩ := h'.removeFile_eq hapart (hlength.trans_le hmem) (hlength.trans_le hend) hr htype
            hin hdrive hremove
          exact ⟨r, List.mem_cons_self, htype, hfits, heq⟩
        · obtain ⟨r', hr', hrest⟩ := ih h' (hlength.trans_le hmem) (hlength.trans_le hend)
            (fun r hr => hrs r (List.mem_cons_of_mem _ hr)) hrest
          exact ⟨r', List.mem_cons_of_mem _ hr', hrest⟩

end PatchedBy

/-! ### Installing and removing -/

/-- What a removal of the residual removes for ordinary files was copied: the residual is what was stored
last. -/
def RemovesWhatWasCopied (s : SISInstaller) : Prop :=
  ∀ residual path, s.requests.getLast? = some (.copyToPsion residual path) →
    ∀ g, fillFrom residual 0 residual.length = .ok g → ∀ removed, (0, removed) ∈ (uninstall residual g).1 →
      ∃ data, Request.copyToPsion data removed ∈ s.requests

/-- Each state of the install loop of a run copies the file that it comes to. -/
def CopiesEach (psion : List Request → Psion) (fuel : ℕ) (f : SISFile) (mem stdin : List UInt8)
    (tempFiles : List Bool) : Prop :=
  ∀ l ∈ prepare psion f none ⟨mem, stdin, tempFiles, [], []⟩,
    CopiesFiles psion (runIn psion (fuel - 1)) mem f.fileRecords f.header.nfiles l

instance (psion : List Request → Psion) (fuel : ℕ) (f : SISFile) (mem stdin : List UInt8) (tempFiles : List Bool) :
    Decidable (CopiesEach psion fuel f mem stdin tempFiles) := by
  unfold CopiesEach
  infer_instance

/-- The low byte of a double word. -/
theorem ofNat_dword (m : List UInt8) (p : ℕ) : UInt8.ofNat (dword m p) = m.getD p 0 := by
  apply UInt8.toNat_inj.mp
  rw [UInt8.toNat_ofNat', dword, Int.toNat_natCast, getDWord, getWord, getByte]
  have := (m.getD p 0).toNat_lt
  omega

/-- There are as many files as the header says. -/
theorem length_filesAt (mem : List UInt8) : (filesAt mem).length = (headerAt mem).nfiles := by
  simp [filesAt, Outcome.tableRecords]

/-- The two bytes of the number of files. -/
theorem setFiles_count (nFiles : ℕ) (s : SISInstaller) (hlength : 28 ≤ s.mem.length) :
    (s.setFiles 0 nFiles).mem.getD 26 0 = UInt8.ofNat nFiles ∧
      (s.setFiles 0 nFiles).mem.getD (26 + 1) 0 = UInt8.ofNat (nFiles / 256) := by
  rw [setFiles]
  constructor
  · rw [getD_set_ne _ _ (by decide)]
    exact getD_set_self _ _ (by omega)
  · exact getD_set_self _ _ (by rw [List.length_set]; omega)

/-- The removal of a file that was parsed, in terms of its bytes. -/
theorem uninstall_contents {m : List UInt8} (h : word m 26 ≤ (headerAt m).nfiles) :
    uninstall m (contents m) =
      uninstallFiles (m.getD 28 0) ((filesAt m).drop ((headerAt m).nfiles - word m 26)) m := by
  have hdrive : UInt8.ofNat (contents m).header.installationDrive = m.getD 28 0 := ofNat_dword m 28
  have hfiles : ¬(contents m).header.nfiles < (contents m).header.installationFiles := not_lt.mpr h
  rw [uninstall, if_neg hfiles, hdrive]
  rfl

/-- After an install loop that copied the files it came to, what a removal of the start of the file
removes was copied. -/
theorem Walked.removed_copied {mem m : List UInt8} (hapart : PatchesApart mem) (hparsed : Parsed mem) {k nCopiedFiles : ℕ}
    {s : SISInstaller} (h : Walked mem k s) (hk : nCopiedFiles + k = (filesAt mem).length)
    (hm : m = (s.setFiles 0 nCopiedFiles).mem.take (endAt mem)) (hend : endAt mem ≤ mem.length) {g : SISFile}
    (hg : fillFrom m 0 m.length = .ok g) {path : List UInt8} (hremoved : (0, path) ∈ (uninstall m g).1) :
    ∃ data, Request.copyToPsion data path ∈ s.requests := by
  obtain ⟨hparsed', rfl⟩ := (fillFrom_eq_ok_iff m g).mp hg
  have hgrows := setFiles_grows 0 nCopiedFiles s
  have hlength : m.length = endAt mem := by
    rw [hm, List.length_take_of_le (by rw [hgrows.length, h.length]; exact hend)]
  have hsize : 68 ≤ endAt mem := hlength ▸ hparsed'.header.size
  have hbyte : ∀ p < endAt mem, m.getD p 0 = (s.setFiles 0 nCopiedFiles).mem.getD p 0 := fun p hp => by
    rw [hm]
    exact Agree.take _ _ p (Int.natCast_nonneg p) (Int.ofNat_lt.mpr hp)
  have hcount : nCopiedFiles ≤ (headerAt mem).nfiles := by
    rw [← length_filesAt]
    omega
  -- the numbers that are read again from the header
  have hdrive : m.getD 28 0 = s.mem.getD 28 0 := by
    rw [hbyte 28 (by omega), setFiles_byte 0 _ _ (by omega)]
  have hfiles : word m 26 = nCopiedFiles := by
    obtain ⟨hlow, hhigh⟩ := setFiles_count nCopiedFiles s (by rw [h.length]; omega)
    have hsmall : (headerAt mem).nfiles < 65536 := RFSV.getWord_lt _ _
    have hword : word m 26 = getWord m 26 := rfl
    rw [hword, getWord, getByte, getByte, hbyte 26 (by omega), hbyte (26 + 1) (by omega), hlow, hhigh,
      UInt8.toNat_ofNat', UInt8.toNat_ofNat']
    omega
  have hpatched : PatchedBy mem (shown s.drive) m :=
    (h.patched.header hapart fun p hp => setFiles_byte 0 nCopiedFiles s (by omega)).congr hbyte
  have hpatched' : PatchedBy mem (m.getD 28 0) m := by
    by_cases hzero : s.drive = 0
    · rw [hzero, shown, if_pos rfl] at hpatched
      exact hpatched.of_open _
    · rw [hdrive, h.drive hzero]
      exact hpatched.of_shown
  obtain ⟨-, hnfiles, -⟩ := hpatched.headerAt_eq hapart hsize
  have hrecords := hpatched.filesAt_eq hapart hsize hparsed
  have hk' : (headerAt mem).nfiles - nCopiedFiles = k := by
    rw [← length_filesAt]
    omega
  rw [uninstall_contents (by rw [hfiles, hnfiles]; exact hcount), hfiles, hnfiles, hrecords, hk'] at hremoved
  obtain ⟨r, hr, htype, hin, rfl⟩ := hpatched'.removed hapart (hlength.trans_le hend) hlength.le
    (fun r hr => List.mem_of_mem_drop hr) hremoved
  obtain ⟨i, hi⟩ := List.mem_iff_getElem?.mp hr
  rw [List.getElem?_drop] at hi
  obtain ⟨hopen, data, hdata⟩ := h.requested (k + i) (Nat.le_add_right _ _) r hi htype hin
  by_cases hstarts : StartsOpen mem r
  · rw [hdrive, h.drive (hopen hstarts)]
    exact ⟨data, hdata⟩
  · rw [destName_of_closed hstarts _ s.drive]
    exact ⟨data, hdata⟩

/-- What is stored after the install loop. -/
theorem residual_of_finish {f : SISFile} {compName : List UInt8} {l : Loop} {rc : SisRC} {s : SISInstaller}
    (hnone : l.nCopiedFiles = 0 → ∀ q ∈ l.installer.requests, ∃ path, q = .remove path)
    (h : finish f 0 compName l = some (rc, s)) {residual path : List UInt8}
    (hlast : s.requests.getLast? = some (.copyToPsion residual path)) :
    residual = [] ∨ 0 < int32 f.residualEnd ∧ int32 f.residualEnd ≤ l.installer.mem.length ∧
      residual = (l.installer.setFiles 0 l.nCopiedFiles).mem.take (int32 f.residualEnd).toNat := by
  rw [finish] at h
  split at h
  · rename_i hzero
    obtain ⟨-, rfl⟩ := Prod.mk.inj (Option.some.inj h)
    obtain ⟨removed, hremoved⟩ := hnone hzero _ (List.mem_of_getLast? hlast)
    cases hremoved
  · split at h
    · cases h
    · obtain ⟨s₁, hcopy, h⟩ := Option.bind_eq_some_iff.mp h
      obtain ⟨-, rfl⟩ := Prod.mk.inj (Option.some.inj h)
      have hresidual := residual_of_copyBuf hcopy hlast
      rwa [(setFiles_grows 0 l.nCopiedFiles l.installer).length, SISFile.getResidualEnd] at hresidual

/-- Where each ordinary file that the install loop comes to is copied, a later removal of the residual
removes for ordinary files what was copied. -/
theorem removes_what_was_copied (psion : List Request → Psion) (fuel : ℕ) (f : SISFile) (mem stdin : List UInt8)
    (tempFiles : List Bool) (hf : fillFrom mem 0 mem.length = .ok f) (hapart : PatchesApart mem)
    (hcopies : CopiesEach psion fuel f mem stdin tempFiles) (rc : SisRC) (s : SISInstaller)
    (hrun : run psion fuel f mem stdin tempFiles = some (rc, s)) : RemovesWhatWasCopied s := by
  intro residual path hlast g hg removed hremoved
  obtain ⟨hparsed, rfl⟩ := (fillFrom_eq_ok_iff mem f).mp hf
  cases fuel with
  | zero => exact nomatch hrun
  | succ fuel =>
    obtain ⟨compName, -, hrun⟩ := Option.bind_eq_some_iff.mp hrun
    obtain ⟨l, hprepare, hrun⟩ := Option.bind_eq_some_iff.mp hrun
    obtain ⟨l', hloop, hfinish⟩ := Option.bind_eq_some_iff.mp hrun
    have hcopiesFrom := hcopies l hprepare
    obtain ⟨-, habort, hcount, hmem, hdrive, paths, hrequests⟩ := prepare_eq hprepare
    have hnone : l'.nCopiedFiles = 0 → ∀ q ∈ l'.installer.requests, ∃ path, q = .remove path := by
      intro hzero q hq
      rw [(installFiles_count hloop).2 (hzero.trans hcount.symm), hrequests] at hq
      obtain ⟨path, -, rfl⟩ := List.mem_map.mp hq
      exact ⟨path, rfl⟩
    have hlength : l'.installer.mem.length = mem.length :=
      (installFiles_grows (runIn_leavesFront psion fuel) hloop).length.trans (congrArg List.length hmem)
    have hend : (contents mem).residualEnd = endAt mem := rfl
    have hresidual := residual_of_finish hnone hfinish hlast
    rw [hlength, hend] at hresidual
    rcases hresidual with rfl | ⟨hpos, hinside, hresidual⟩
    · exact absurd ((fillFrom_eq_ok_iff [] g).mp hg).1.header.size (by decide)
    · have hbound := endAt_lt mem
      have hvalue : int32 (endAt mem) = endAt mem := by
        rw [int32] at hpos ⊢
        omega
      rw [hvalue] at hinside hresidual
      rw [Int.toNat_natCast] at hresidual
      have hinside := Int.ofNat_le.mp hinside
      have hsize : 68 ≤ endAt mem := by
        have hheader := ((fillFrom_eq_ok_iff residual g).mp hg).1.header.size
        rw [hresidual, List.length_take] at hheader
        omega
      have hstart : Walked mem (headerAt mem).nfiles l.installer := by
        refine ⟨congrArg List.length hmem, ?_, fun hne => absurd (hdrive rfl) hne, fun i hi r hr _ _ => ?_⟩
        · rw [hmem]
          exact PatchedBy.refl mem _
        · rw [List.getElem?_eq_none (by rw [length_filesAt]; exact hi)] at hr
          exact nomatch hr
      obtain ⟨k, hk, hwalked⟩ := hstart.installFiles hapart hsize (hsize.trans hinside)
        (runIn_leavesFront psion fuel) habort (by rw [hcount, length_filesAt, Nat.zero_add]) hcopiesFrom hloop
      obtain ⟨data, hdata⟩ := hwalked.removed_copied hapart hparsed hk hresidual hinside hg hremoved
      exact ⟨data, (finish_grows hfinish).requests.mem hdata⟩

/-- A file record for one language. -/
def sampleRecord (fileType fileDetails destLength destPtr fileLength filePtr : ℕ) : List UInt8 :=
  dwordBytes 0 ++ dwordBytes fileType ++ dwordBytes fileDetails ++ dwordBytes 0 ++ dwordBytes 0 ++
    dwordBytes destLength ++ dwordBytes destPtr ++ dwordBytes fileLength ++ dwordBytes filePtr

/-- A file with an ordinary file, named with the given drive, and a text that asks whether to install it. -/
def sampleInstallation (drive : UInt8) : List UInt8 :=
  sampleHeader 1 2 0 68 70 0 142 ++ wordBytes 1 ++ sampleRecord 0 0 3 158 1 163 ++ sampleRecord 1 1 0 158 1 162 ++
    dwordBytes 1 ++ dwordBytes 161 ++ dwordBytes 0 ++ dwordBytes 0 ++ [drive, 0x3a, 0x78, 0x41, 0x3f, 0x64]

/-- A device with two drives, and nothing installed. -/
def sampleDevice (_ : List Request) : Psion := ⟨some 6, fun _ => some .kRAM, []⟩

/-- The user answers yes, and after a drive that there is not, `b`. -/
theorem removes_after_yes : ∃ result, run sampleDevice 1 (contents (sampleInstallation 0x21))
    (sampleInstallation 0x21) [0x59, 0x0a, 0x61, 0x62] [] = some result ∧ RemovesWhatWasCopied result.2 := by
  obtain ⟨result, hrun⟩ := Option.isSome_iff_exists.mp (show (run sampleDevice 1
    (contents (sampleInstallation 0x21)) (sampleInstallation 0x21) [0x59, 0x0a, 0x61, 0x62] []).isSome from
      by decide +kernel)
  exact ⟨result, hrun, removes_what_was_copied sampleDevice 1 (contents (sampleInstallation 0x21))
    (sampleInstallation 0x21) [0x59, 0x0a, 0x61, 0x62] [] (by decide +kernel)
    ⟨by decide +kernel, by decide +kernel, by decide +kernel, by decide +kernel⟩ (by decide +kernel)
    result.1 result.2 hrun⟩

/-- The user answers no: the file is skipped, and is removed later. -/
theorem skipped_file_removed :
    ¬∀ psion fuel f mem stdin tempFiles rc s, fillFrom mem 0 mem.length = .ok f →
      run psion fuel f mem stdin tempFiles = some (rc, s) → RemovesWhatWasCopied s := by
  intro h
  have hrequests : (run sampleDevice 1 (contents (sampleInstallation 0x43)) (sampleInstallation 0x43)
      [0x4e, 0x0a] []).map (fun result => result.2.requests) =
        some [.mkdir ((resname [0x41]).take 17),
          .copyToPsion (((sampleInstallation 0x43).set 26 2).take 162) (resname [0x41])] := by decide +kernel
  obtain ⟨⟨rc, s⟩, hrun, hrequests⟩ := Option.map_eq_some_iff.mp hrequests
  have hremoves := h sampleDevice 1 (contents (sampleInstallation 0x43)) (sampleInstallation 0x43) [0x4e, 0x0a] []
    rc s (by decide +kernel) hrun
  rw [RemovesWhatWasCopied, hrequests] at hremoves
  obtain ⟨data, hdata⟩ := hremoves _ _ rfl (contents (((sampleInstallation 0x43).set 26 2).take 162))
    (by decide +kernel) [0x43, 0x3a, 0x78] (by decide +kernel)
  rcases List.mem_pair.mp hdata with hmkdir | hcopy
  · exact nomatch hmkdir
  · exact absurd (Request.copyToPsion.inj hcopy).2 (by decide)

end SISFile

end Plptools
