import Plptools.Sis.SISInstaller

/-!
# What installing leaves alone

An installer writes into the file that it installs: the drive and the number of files into the header,
and the drive into destination names. It does not write in front of its file, so that a contained file
leaves what is in front of it as it is; the length of the memory stays, and requests are only added.
-/

namespace Plptools

open RFSV (uint32 int32)

/-- From one state to another, bytes in front of `b` do not change, and requests are only added. -/
structure Grows (b : ℕ) (s s' : Surroundings) : Prop where
  length : s'.mem.length = s.mem.length
  below : ∀ p < b, s'.mem.getD p 0 = s.mem.getD p 0
  requests : s.requests <+: s'.requests

namespace Grows

variable {b : ℕ} {s s' s'' : Surroundings}

/-- Nothing is done. -/
@[refl] theorem refl (b : ℕ) (s : Surroundings) : Grows b s s := ⟨rfl, fun _ _ => rfl, List.prefix_refl _⟩

/-- One step after the other. -/
theorem trans (h : Grows b s s') (h' : Grows b s' s'') : Grows b s s'' :=
  ⟨h'.length.trans h.length, fun p hp => (h'.below p hp).trans (h.below p hp), h.requests.trans h'.requests⟩

/-- Less of the memory is looked at. -/
theorem mono (h : Grows b s s') {b' : ℕ} (hle : b' ≤ b) : Grows b' s s' :=
  ⟨h.length, fun p hp => h.below p (Nat.lt_of_lt_of_le hp hle), h.requests⟩

/-- Only what is not memory changes, and requests are added. -/
theorem of_append {requests : List Request} (hmem : s'.mem = s.mem) (hrequests : s'.requests = s.requests ++ requests) :
    Grows b s s' := by
  refine ⟨by rw [hmem], fun p _ => by rw [hmem], ?_⟩
  rw [hrequests]
  exact List.prefix_append _ _

end Grows

/-- Writing a byte leaves the others. -/
theorem getD_set_ne (mem : List UInt8) {p q : ℕ} (c : UInt8) (hne : p ≠ q) : (mem.set p c).getD q 0 = mem.getD q 0 := by
  rw [List.getD_eq_getElem?_getD, List.getD_eq_getElem?_getD, List.getElem?_set_ne hne]

/-- The byte that is written. -/
theorem getD_set_self (mem : List UInt8) {p : ℕ} (c : UInt8) (hp : p < mem.length) : (mem.set p c).getD p 0 = c := by
  rw [List.getD_eq_getElem?_getD, List.getElem?_set_self hp, Option.getD_some]

/-- Setting the drive of a destination name changes its first character, if that is open. -/
theorem SISFileRecord.setMainDrive_cases {mem mem' : List UInt8} {buf : ℕ} {r : SISFileRecord} {drive : UInt8}
    (h : r.setMainDrive mem buf drive = some mem') :
    buf + r.destPtr < mem.length ∧
      (mem.getD (buf + r.destPtr) 0 = 0x21 ∧ mem' = mem.set (buf + r.destPtr) drive ∨
        mem.getD (buf + r.destPtr) 0 ≠ 0x21 ∧ mem' = mem) := by
  rw [setMainDrive] at h
  cases hc : mem[buf + r.destPtr]? with
  | none => rw [hc] at h; exact nomatch h
  | some c =>
    have hinside : buf + r.destPtr < mem.length := (List.getElem?_eq_some_iff.mp hc).1
    rw [hc] at h
    rw [List.getD_eq_getElem?_getD, hc, Option.getD_some]
    refine ⟨hinside, ?_⟩
    by_cases hopen : c = 0x21
    · exact Or.inl ⟨hopen, by simpa [hopen] using h.symm⟩
    · exact Or.inr ⟨hopen, by simpa [hopen] using h.symm⟩

namespace SISInstaller

variable {psion : List Request → Psion} {install : Installs} {buf len fileNo : ℕ} {r : SISFileRecord}
  {s s' : SISInstaller}

/-- Bytes other than the four of the drive. -/
theorem setDrive_byte (buf : ℕ) (drive : UInt8) (s : SISInstaller) {p : ℕ} (hp : p < buf + 28 ∨ buf + 32 ≤ p) :
    (s.setDrive buf drive).mem.getD p 0 = s.mem.getD p 0 := by
  rw [setDrive, getD_set_ne _ _ (by omega), getD_set_ne _ _ (by omega), getD_set_ne _ _ (by omega),
    getD_set_ne _ _ (by omega)]

/-- A drive is written inside. -/
theorem setDrive_length (buf : ℕ) (drive : UInt8) (s : SISInstaller) :
    (s.setDrive buf drive).mem.length = s.mem.length := by
  simp [setDrive]

/-- The byte of the drive. -/
theorem setDrive_drive (drive : UInt8) (s : SISInstaller) (hlength : 28 < s.mem.length) :
    (s.setDrive 0 drive).mem.getD 28 0 = drive := by
  rw [setDrive, getD_set_ne _ _ (by decide), getD_set_ne _ _ (by decide), getD_set_ne _ _ (by decide)]
  exact getD_set_self _ _ hlength

/-- A drive is written into the file. -/
theorem setDrive_grows (buf : ℕ) (drive : UInt8) (s : SISInstaller) :
    Grows buf s.toSurroundings (s.setDrive buf drive).toSurroundings :=
  ⟨setDrive_length buf drive s, fun _ hp => setDrive_byte buf drive s (by omega), List.prefix_refl _⟩

/-- A drive is written into the file, and remembered. -/
theorem useDrive_grows (buf : ℕ) (drive : UInt8) (s : SISInstaller) :
    Grows buf s.toSurroundings (s.useDrive buf drive).toSurroundings :=
  setDrive_grows buf drive { s with drive := drive }

/-- Bytes other than the two of the number of files. -/
theorem setFiles_byte (buf nFiles : ℕ) (s : SISInstaller) {p : ℕ} (hp : p < buf + 26 ∨ buf + 28 ≤ p) :
    (s.setFiles buf nFiles).mem.getD p 0 = s.mem.getD p 0 := by
  rw [setFiles, getD_set_ne _ _ (by omega), getD_set_ne _ _ (by omega)]

/-- The number of files is written into the file. -/
theorem setFiles_grows (buf nFiles : ℕ) (s : SISInstaller) :
    Grows buf s.toSurroundings (s.setFiles buf nFiles).toSurroundings :=
  ⟨by simp [setFiles], fun _ hp => setFiles_byte buf nFiles s (by omega), List.prefix_refl _⟩

/-- At most a directory is made. -/
theorem createDirs_eq (name : List UInt8) (s : SISInstaller) :
    s.createDirs name = s ∨ ∃ path, s.createDirs name = s.request (.mkdir path) := by
  rw [createDirs]
  split
  · exact Or.inr ⟨_, rfl⟩
  · exact Or.inl rfl

/-- Storing a file changes nothing but what temporary files there can be, and what was requested. -/
theorem copyBuf_eq {p : Option ℕ} {size : ℤ} {name : List UInt8} (h : copyBuf p size name s = some s') :
    ∃ requests, s' = { s with tempFiles := s.tempFiles.tail, requests := s.requests ++ requests } := by
  have hdirs : ∃ requests, s.createDirs name = { s with requests := s.requests ++ requests } := by
    rcases createDirs_eq name s with heq | ⟨path, heq⟩
    · exact ⟨[], by rw [heq, List.append_nil]⟩
    · exact ⟨[.mkdir path], heq⟩
  obtain ⟨requests, hdirs⟩ := hdirs
  rw [copyBuf, hdirs] at h
  cases hcan : s.tempFiles.headD true with
  | false =>
    simp only [hcan, Bool.false_eq_true, if_false] at h
    exact ⟨requests, (Option.some.inj h).symm⟩
  | true =>
    simp only [hcan, if_true] at h
    obtain ⟨⟨contents, written⟩, -, h⟩ := Option.bind_eq_some_iff.mp h
    by_cases hall : written = size
    · simp only [hall, if_true] at h
      exact ⟨requests ++ [.copyToPsion contents name], by rw [← List.append_assoc]; exact (Option.some.inj h).symm⟩
    · simp only [hall, if_false] at h
      exact ⟨requests, (Option.some.inj h).symm⟩

/-- A copied buffer is written to the device. -/
theorem copyBuf_grows {p : Option ℕ} {size : ℤ} {name : List UInt8} (b : ℕ) (h : copyBuf p size name s = some s') :
    Grows b s.toSurroundings s'.toSurroundings := by
  obtain ⟨requests, rfl⟩ := copyBuf_eq h
  exact Grows.of_append rfl rfl

/-- The letters of the drives that can be listed. -/
theorem ne_zero_of_mem_drivelist {p : Psion} {d : UInt8} (h : d ∈ drivelist p) : d ≠ 0 := by
  have hletters : ∀ i < 26, UInt8.ofNat (65 + i) ≠ 0 := by decide
  rw [drivelist] at h
  split at h
  · exact absurd h List.not_mem_nil
  · obtain ⟨i, hi, hdrive⟩ := List.mem_filterMap.mp h
    have hletter := hletters i (List.mem_range.mp hi)
    split at hdrive
    · split at hdrive
      · exact Option.some.inj hdrive ▸ hletter
      · exact Option.some.inj hdrive ▸ hletter
      · exact nomatch hdrive
    · exact nomatch hdrive

/-- The drive that is chosen is one of those offered. -/
theorem mem_of_chooseDrive {drives stdin rest : List UInt8} {d : UInt8}
    (h : chooseDrive drives stdin = some (d, rest)) : d ∈ drives := by
  induction stdin with
  | nil => exact nomatch h
  | cons ch stdin ih =>
    rw [chooseDrive] at h
    split at h
    · rename_i hchosen
      obtain ⟨rfl, -⟩ := Prod.mk.inj (Option.some.inj h)
      exact List.contains_iff_mem.mp (Bool.and_eq_true_iff.mp hchosen).2
    · exact ih h

/-- A drive is selected. -/
theorem selectDrive_eq (h : selectDrive psion s = some s') :
    ∃ d stdin, d ≠ 0 ∧ s' = { s with drive := d, stdin := stdin } := by
  rw [selectDrive] at h
  split at h
  · exact ⟨0x43, s.stdin, by decide, (Option.some.inj h).symm⟩
  · rename_i d hlist
    exact ⟨d, s.stdin, ne_zero_of_mem_drivelist (hlist ▸ List.mem_singleton_self d), (Option.some.inj h).symm⟩
  · split at h
    · exact nomatch h
    · obtain ⟨⟨d, stdin⟩, hchoose, h⟩ := Option.bind_eq_some_iff.mp h
      exact ⟨d, stdin, ne_zero_of_mem_drivelist (mem_of_chooseDrive hchoose), (Option.some.inj h).symm⟩

/-- A name, the drive of which is filled in if it is open. -/
def withDrive (drive : UInt8) : List UInt8 → List UInt8
  | [] => []
  | c :: rest => (if c = 0x21 then drive else c) :: rest

/-- A drive is selected for a name whose drive is open. -/
def DriveSelected (buf destPtr : ℕ) (s s' : SISInstaller) : Prop :=
  s.mem.getD (buf + destPtr) 0 ≠ 0x21 ∧ s' = s ∨
    s.mem.getD (buf + destPtr) 0 = 0x21 ∧ ∃ d stdin, d ≠ 0 ∧ (s.drive = 0 ∨ d = s.drive) ∧
      s' = useDrive buf d { s with stdin := stdin }

/-- Looking at the first character of a name selects a drive for it. -/
theorem driveSelected_of_select {destPtr : ℕ} {c : UInt8} (hc : s.mem[buf + destPtr]? = some c)
    (h : (if c = 0x21 then selectMainDrive psion buf s else some s) = some s') : DriveSelected buf destPtr s s' := by
  rw [DriveSelected, List.getD_eq_getElem?_getD, hc, Option.getD_some]
  by_cases hopen : c = 0x21
  · rw [if_pos hopen, selectMainDrive] at h
    obtain ⟨s₂, hdrive, hset⟩ := Option.bind_eq_some_iff.mp h
    obtain rfl := Option.some.inj hset
    refine Or.inr ⟨hopen, ?_⟩
    by_cases hzero : s.drive = 0
    · rw [if_pos hzero] at hdrive
      obtain ⟨d, stdin, hd, rfl⟩ := selectDrive_eq hdrive
      exact ⟨d, stdin, hd, Or.inl hzero, rfl⟩
    · rw [if_neg hzero] at hdrive
      obtain rfl := Option.some.inj hdrive
      exact ⟨s.drive, s.stdin, hzero, Or.inr rfl, rfl⟩
  · rw [if_neg hopen] at h
    exact Or.inl ⟨hopen, (Option.some.inj h).symm⟩

/-- The steps of copying a file: selecting the drive, setting it in the name, and storing the data. -/
theorem copyFile_steps {destPtr : ℕ} (hdest : r.getDestPtr len = some destPtr)
    (h : copyFile psion buf len fileNo r s = some s') :
    ∃ (s₁ : SISInstaller) (mem : List UInt8) (fileLength : ℕ) (filePtr : Option ℕ),
      DriveSelected buf destPtr s s₁ ∧ buf + destPtr + r.destLength ≤ s₁.mem.length ∧
      r.fileLengths[fileNo]? = some fileLength ∧ r.getFilePtr fileNo len = some filePtr ∧
      (((s₁.mem.drop (buf + destPtr)).take r.destLength).head? = some 0x21 ∧
          r.setMainDrive s₁.mem buf s₁.drive = some mem ∨
        ((s₁.mem.drop (buf + destPtr)).take r.destLength).head? ≠ some 0x21 ∧ mem = s₁.mem) ∧
      copyBuf (filePtr.map (buf + ·)) (int32 fileLength)
        (cString (withDrive s₁.drive ((s₁.mem.drop (buf + destPtr)).take r.destLength)))
        { s₁ with mem := mem } = some s' := by
  rw [copyFile, hdest] at h
  obtain ⟨c, hc, h⟩ := Option.bind_eq_some_iff.mp h
  obtain ⟨s₁, hselect, h⟩ := Option.bind_eq_some_iff.mp h
  have hselected := driveSelected_of_select hc hselect
  split at h
  · exact nomatch h
  · rename_i hfits
    obtain ⟨fileLength, hlength, h⟩ := Option.bind_eq_some_iff.mp h
    obtain ⟨filePtr, hptr, h⟩ := Option.bind_eq_some_iff.mp h
    split at h
    · rename_i rest hname
      obtain ⟨mem, hmem, h⟩ := Option.bind_eq_some_iff.mp h
      refine ⟨s₁, mem, fileLength, filePtr, hselected, by omega, hlength, hptr, Or.inl ⟨by rw [hname]; rfl, hmem⟩, ?_⟩
      rw [hname]
      exact h
    · rename_i hclosed
      refine ⟨s₁, s₁.mem, fileLength, filePtr, hselected, by omega, hlength, hptr, Or.inr ⟨?_, rfl⟩, ?_⟩
      · intro hhead
        obtain ⟨rest, hrest⟩ := List.head?_eq_some_iff.mp hhead
        exact hclosed rest hrest
      · cases hname : (s₁.mem.drop (buf + destPtr)).take r.destLength with
        | nil => rwa [hname] at h
        | cons c rest =>
          have hc : c ≠ 0x21 := by
            rintro rfl
            exact hclosed rest hname
          rw [withDrive, if_neg hc]
          rwa [hname] at h

/-- The drive is written into the file. -/
theorem DriveSelected.grows {destPtr : ℕ} (h : DriveSelected buf destPtr s s') :
    Grows buf s.toSurroundings s'.toSurroundings := by
  rcases h with ⟨-, rfl⟩ | ⟨-, d, stdin, -, -, rfl⟩
  · exact Grows.refl buf _
  · have hgrows := useDrive_grows buf d { s with stdin := stdin }
    exact ⟨hgrows.length, hgrows.below, hgrows.requests⟩

/-- A copied file is written to the device. -/
theorem copyFile_grows (h : copyFile psion buf len fileNo r s = some s') :
    Grows buf s.toSurroundings s'.toSurroundings := by
  cases hdest : r.getDestPtr len with
  | none =>
    rw [copyFile, hdest] at h
    rw [Option.some.inj h]
  | some destPtr =>
    obtain ⟨s₁, mem, fileLength, filePtr, hselected, -, -, -, hmem, hcopy⟩ := copyFile_steps hdest h
    have hname : Grows buf s₁.toSurroundings { s₁.toSurroundings with mem := mem } := by
      rcases hmem with ⟨-, hset⟩ | ⟨-, rfl⟩
      · obtain ⟨-, ⟨-, rfl⟩ | ⟨-, rfl⟩⟩ := r.setMainDrive_cases hset
        · refine ⟨List.length_set, fun p hp => getD_set_ne _ _ ?_, List.prefix_refl _⟩
          omega
        · exact Grows.refl buf _
      · exact Grows.refl buf _
    exact hselected.grows.trans (hname.trans (copyBuf_grows buf hcopy))

/-- Installers that leave alone what is in front of their file. -/
def LeavesFront (install : Installs) : Prop :=
  ∀ file buf len parent s rc s', install file buf len parent s = some (rc, s') → Grows buf s s'.toSurroundings

/-- Where a contained file is installed, the installer of the file around it only sets a drive. -/
theorem installContained_cases (hfront : LeavesFront install) {filePtr : Option ℕ}
    (h : installContained install buf filePtr len s = some s') :
    s' = s ∨ ∃ p ∈ filePtr, ∃ s₁ : SISInstaller, Grows (buf + p) s.toSurroundings s₁.toSurroundings ∧
      s₁.drive = s.drive ∧ (s' = s₁ ∨ s.drive = 0 ∧ ∃ d, s' = s₁.useDrive buf d) := by
  cases filePtr with
  | none =>
    rw [installContained] at h
    split at h
    · exact Or.inl (Option.some.inj h).symm
    · exact nomatch h
  | some p =>
    rw [installContained] at h
    cases hfill : parse s.mem (buf + p) len with
    | fault =>
      rw [hfill] at h
      exact nomatch h
    | error e =>
      rw [hfill] at h
      exact Or.inl (Option.some.inj h).symm
    | ok sisFile =>
      rw [hfill] at h
      obtain ⟨⟨rc, contained⟩, hinstall, h⟩ := Option.bind_eq_some_iff.mp h
      have hgrows := hfront _ _ _ _ _ _ _ hinstall
      obtain rfl := Option.some.inj h
      refine Or.inr ⟨p, rfl, s.takeOver contained, ⟨hgrows.length, hgrows.below, hgrows.requests⟩, rfl, ?_⟩
      by_cases hzero : s.drive = 0
      · exact Or.inr ⟨hzero, UInt8.ofNat contained.header.installationDrive, if_pos hzero⟩
      · exact Or.inl (if_neg hzero)

/-- A contained file goes behind what is there. -/
theorem installContained_grows (hfront : LeavesFront install) {filePtr : Option ℕ}
    (h : installContained install buf filePtr len s = some s') :
    Grows buf s.toSurroundings s'.toSurroundings := by
  rcases installContained_cases hfront h with rfl | ⟨p, -, s₁, hgrows, -, rfl | ⟨-, d, rfl⟩⟩
  · exact Grows.refl buf _
  · exact hgrows.mono (Nat.le_add_right _ _)
  · exact (hgrows.mono (Nat.le_add_right _ _)).trans (useDrive_grows buf d s₁)

/-- One file of the list. -/
theorem installFile_grows (hfront : LeavesFront install) {rc : FileRC}
    (h : installFile psion install buf len fileNo r s = some (rc, s')) :
    Grows buf s.toSurroundings s'.toSurroundings := by
  rw [installFile] at h
  split at h
  · obtain ⟨s₁, hcopy, h⟩ := Option.bind_eq_some_iff.mp h
    obtain ⟨-, rfl⟩ := Prod.mk.inj (Option.some.inj h)
    exact copyFile_grows hcopy
  · dsimp only at h
    split at h
    all_goals
      obtain ⟨-, rfl⟩ := Prod.mk.inj (Option.some.inj h)
      exact Grows.of_append rfl (List.append_nil _).symm
  · obtain ⟨filePtr, -, h⟩ := Option.bind_eq_some_iff.mp h
    obtain ⟨fileLength, -, h⟩ := Option.bind_eq_some_iff.mp h
    obtain ⟨s₁, hcontained, h⟩ := Option.bind_eq_some_iff.mp h
    obtain ⟨-, rfl⟩ := Prod.mk.inj (Option.some.inj h)
    exact installContained_grows hfront hcontained
  · obtain ⟨-, rfl⟩ := Prod.mk.inj (Option.some.inj h)
    exact Grows.refl buf _

/-- What the body of the install loop does. -/
theorem installRecord_cases {l l' : Loop} (h : installRecord psion install buf len r l = some l') :
    l.skipnext = true ∧ l' = { l with skipnext := false, nCopiedFiles := l.nCopiedFiles + 1 } ∨
      l.skipnext = false ∧ ∃ rc s', installFile psion install buf len (r.fileNo lang) r l.installer = some (rc, s') ∧
        l'.installer = s' ∧ (rc = .FILE_ABORT ∧ l'.aborted = true ∧ l'.nCopiedFiles = l.nCopiedFiles ∨
          rc ≠ .FILE_ABORT ∧ l'.aborted = l.aborted ∧ l'.nCopiedFiles = l.nCopiedFiles + 1) := by
  rw [installRecord] at h
  cases hskip : l.skipnext with
  | true =>
    rw [hskip, if_pos rfl] at h
    exact Or.inl ⟨rfl, (Option.some.inj h).symm⟩
  | false =>
    rw [hskip, if_neg Bool.false_ne_true] at h
    obtain ⟨⟨rc, s'⟩, hinstall, h⟩ := Option.bind_eq_some_iff.mp h
    refine Or.inr ⟨rfl, rc, s', hinstall, ?_⟩
    cases rc with
    | FILE_OK =>
      obtain rfl := Option.some.inj h
      exact ⟨rfl, Or.inr ⟨nofun, rfl, rfl⟩⟩
    | FILE_SKIP =>
      obtain rfl := Option.some.inj h
      exact ⟨rfl, Or.inr ⟨nofun, rfl, rfl⟩⟩
    | FILE_ABORT =>
      obtain rfl := Option.some.inj h
      exact ⟨rfl, Or.inl ⟨rfl, rfl, rfl⟩⟩

/-- An installation is ended by a text, for which nothing is requested. -/
theorem installFile_abort (h : installFile psion install buf len fileNo r s = some (.FILE_ABORT, s')) :
    s'.requests = s.requests := by
  rw [installFile] at h
  split at h
  · obtain ⟨s₁, -, h⟩ := Option.bind_eq_some_iff.mp h
    exact nomatch (Prod.mk.inj (Option.some.inj h)).1
  · dsimp only at h
    split at h
    all_goals
      obtain ⟨-, rfl⟩ := Prod.mk.inj (Option.some.inj h)
      rfl
  · obtain ⟨filePtr, -, h⟩ := Option.bind_eq_some_iff.mp h
    obtain ⟨fileLength, -, h⟩ := Option.bind_eq_some_iff.mp h
    obtain ⟨s₁, -, h⟩ := Option.bind_eq_some_iff.mp h
    exact nomatch (Prod.mk.inj (Option.some.inj h)).1
  · exact nomatch (Prod.mk.inj (Option.some.inj h)).1

/-- Where no record is counted, nothing is requested. -/
theorem installFiles_count {records : List SISFileRecord} {n : ℕ} {l l' : Loop}
    (h : installFiles psion install buf len records n l = some l') :
    l.nCopiedFiles ≤ l'.nCopiedFiles ∧
      (l'.nCopiedFiles = l.nCopiedFiles → l'.installer.requests = l.installer.requests) := by
  induction n generalizing l with
  | zero =>
    obtain rfl := Option.some.inj h
    exact ⟨Nat.le_refl _, fun _ => rfl⟩
  | succ n ih =>
    obtain ⟨r, -, h⟩ := Option.bind_eq_some_iff.mp h
    obtain ⟨l₁, hrecord, h⟩ := Option.bind_eq_some_iff.mp h
    have hstep : l₁.nCopiedFiles = l.nCopiedFiles + 1 ∨
        l₁.aborted = true ∧ l₁.nCopiedFiles = l.nCopiedFiles ∧ l₁.installer.requests = l.installer.requests := by
      rcases installRecord_cases hrecord with ⟨-, rfl⟩ | ⟨-, rc, s', hfile, rfl, ⟨rfl, habort, hcount⟩ | ⟨-, -, hcount⟩⟩
      · exact Or.inl rfl
      · exact Or.inr ⟨habort, hcount, installFile_abort hfile⟩
      · exact Or.inl hcount
    split at h
    · obtain rfl := Option.some.inj h
      rcases hstep with hcount | ⟨-, hcount, hrequests⟩
      · exact ⟨by omega, fun heq => by omega⟩
      · exact ⟨hcount.ge, fun _ => hrequests⟩
    · rename_i hgoes
      rcases hstep with hcount | ⟨habort, -⟩
      · have hrest := (ih h).1
        exact ⟨by omega, fun heq => by omega⟩
      · exact absurd habort hgoes

/-- All files of the list. -/
theorem installFiles_grows (hfront : LeavesFront install) {records : List SISFileRecord} {n : ℕ} {l l' : Loop}
    (h : installFiles psion install buf len records n l = some l') :
    Grows buf l.installer.toSurroundings l'.installer.toSurroundings := by
  induction n generalizing l with
  | zero => rw [Option.some.inj h]
  | succ n ih =>
    obtain ⟨r, -, h⟩ := Option.bind_eq_some_iff.mp h
    obtain ⟨l₁, hrecord, h⟩ := Option.bind_eq_some_iff.mp h
    have hstep : Grows buf l.installer.toSurroundings l₁.installer.toSurroundings := by
      rcases installRecord_cases hrecord with ⟨-, rfl⟩ | ⟨-, rc, s', hfile, rfl, -⟩
      · exact Grows.refl buf _
      · exact installFile_grows hfront hfile
    split at h
    · exact Option.some.inj h ▸ hstep
    · exact hstep.trans (ih h)

/-- What is removed first is only requested. -/
theorem uninstallFirst_eq {file : SISFile} {s s' : Surroundings} (h : uninstallFirst file s = some s') :
    ∃ (paths : List (List UInt8)) (installed : List SISFileLink),
      s' = { s with installed := installed, requests := s.requests ++ paths.map Request.remove } := by
  rw [uninstallFirst] at h
  split at h
  · exact ⟨[], s.installed, by rw [List.map_nil, List.append_nil]; exact (Option.some.inj h).symm⟩
  · obtain ⟨old, -, h⟩ := Option.bind_eq_some_iff.mp h
    obtain ⟨mem, -, h⟩ := Option.bind_eq_some_iff.mp h
    obtain rfl := Option.some.inj h
    exact ⟨(SISFile.uninstall old.mem old.file).1.map Prod.snd, _, by rw [List.map_map]; rfl⟩

/-- The install loop begins with the file as it is, and after requests to remove. -/
theorem prepare_eq {file : SISFile} {parent : Option SISFileHeader} {s : Surroundings} {l : Loop}
    (h : prepare psion file parent s = some l) :
    l.skipnext = false ∧ l.aborted = false ∧ l.nCopiedFiles = 0 ∧ l.installer.mem = s.mem ∧
      (parent = none → l.installer.drive = 0) ∧
      ∃ paths : List (List UInt8), l.installer.requests = s.requests ++ paths.map Request.remove := by
  obtain ⟨loaded, -, h⟩ := Option.bind_eq_some_iff.mp h
  obtain ⟨s₁, hfirst, h⟩ := Option.bind_eq_some_iff.mp h
  obtain ⟨paths, installed, rfl⟩ := uninstallFirst_eq hfirst
  obtain rfl := Option.some.inj h
  refine ⟨rfl, rfl, rfl, rfl, ?_, paths, rfl⟩
  rintro rfl
  rfl

/-- After the install loop, the number of files is set, and the start of the file may be stored. -/
theorem finish_grows {file : SISFile} {compName : List UInt8} {l : Loop} {rc : SisRC}
    (h : finish file buf compName l = some (rc, s')) :
    Grows buf l.installer.toSurroundings s'.toSurroundings := by
  have hset := setFiles_grows buf l.nCopiedFiles l.installer
  rw [finish] at h
  split at h
  · obtain ⟨-, rfl⟩ := Prod.mk.inj (Option.some.inj h)
    exact hset
  · split at h
    · exact nomatch h
    · obtain ⟨s₁, hcopy, h⟩ := Option.bind_eq_some_iff.mp h
      obtain ⟨-, rfl⟩ := Prod.mk.inj (Option.some.inj h)
      exact hset.trans (copyBuf_grows buf hcopy)

/-- An installer leaves alone what is in front of its file. -/
theorem runIn_leavesFront (psion : List Request → Psion) (fuel : ℕ) : LeavesFront (runIn psion fuel) := by
  induction fuel with
  | zero => exact fun _ _ _ _ _ _ _ h => nomatch h
  | succ fuel ih =>
    intro file buf len parent s rc s' h
    obtain ⟨compName, -, h⟩ := Option.bind_eq_some_iff.mp h
    obtain ⟨l, hprepare, h⟩ := Option.bind_eq_some_iff.mp h
    obtain ⟨l', hloop, h⟩ := Option.bind_eq_some_iff.mp h
    obtain ⟨-, -, -, hmem, -, paths, hrequests⟩ := prepare_eq hprepare
    exact (Grows.of_append hmem hrequests).trans ((installFiles_grows ih hloop).trans (finish_grows h))

end SISInstaller

end Plptools
