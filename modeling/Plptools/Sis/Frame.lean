import Plptools.Sis.Layout

/-!
# Files that agree on some bytes

What a record holds depends on its own bytes only, and a table on its records. Two files that agree on
the bytes of a table, and on the header, hold the same table.
-/

namespace Plptools

open Plptools.Library
open RFSV (getByte getWord getDWord uint32 int32)
open Sis

/-- The files have the same bytes from `lo` up to `hi`. -/
def Agree (mem mem' : List UInt8) (lo hi : ℤ) : Prop :=
  ∀ i : ℕ, lo ≤ i → (i : ℤ) < hi → mem'.getD i 0 = mem.getD i 0

namespace Agree

variable {mem mem' : List UInt8} {lo hi : ℤ}

/-- The first bytes of a file. -/
theorem take (mem : List UInt8) (n : ℕ) : Agree mem (mem.take n) 0 n := by
  intro i _ hi
  simp only [List.getD_eq_getElem?_getD, List.getElem?_take_of_lt (Int.ofNat_lt.mp hi)]

/-- A part of what is the same is the same. -/
theorem mono (h : Agree mem mem' lo hi) {lo' hi' : ℤ} (hlo : lo ≤ lo') (hhi : hi' ≤ hi) : Agree mem mem' lo' hi' :=
  fun i hlow hhigh => h i (hlo.trans hlow) (lt_of_lt_of_le hhigh hhi)

/-- The same byte is read. -/
theorem byte (h : Agree mem mem' lo hi) {p : ℤ} (hpos : 0 ≤ p) (hlow : lo ≤ p) (hhigh : p + 1 ≤ hi) :
    getByte mem' p.toNat = getByte mem p.toNat := by
  rw [getByte, getByte, h p.toNat (by omega) (by omega)]

/-- The same word is read. -/
theorem word (h : Agree mem mem' lo hi) {p : ℤ} (hpos : 0 ≤ p) (hlow : lo ≤ p) (hhigh : p + 2 ≤ hi) :
    Sis.word mem' p = Sis.word mem p := by
  have h0 := h.byte hpos hlow (by omega)
  have h1 := h.byte (p := p + 1) (by omega) (by omega) (by omega)
  have htoNat : (p + 1).toNat = p.toNat + 1 := by omega
  rw [htoNat] at h1
  rw [Sis.word, Sis.word, getWord, getWord, h0, h1]

/-- The same double word is read. -/
theorem dword (h : Agree mem mem' lo hi) {p : ℤ} (hpos : 0 ≤ p) (hlow : lo ≤ p) (hhigh : p + 4 ≤ hi) :
    Sis.dword mem' p = Sis.dword mem p := by
  have h0 := h.word hpos hlow (by omega)
  have h2 := h.word (p := p + 2) (by omega) (by omega) (by omega)
  have htoNat : (p + 2).toNat = p.toNat + 2 := by omega
  rw [Sis.word, Sis.word, htoNat] at h2
  rw [Sis.dword, Sis.dword, getDWord, getDWord, ← Sis.word, ← Sis.word, h0, h2]

/-- The same double words are read. -/
theorem dwords (h : Agree mem mem' lo hi) {p : ℤ} {n : ℕ} (hpos : 0 ≤ p) (hlow : lo ≤ p) (hhigh : p + 4 * n ≤ hi) :
    Plptools.dwords mem' p n = Plptools.dwords mem p n := by
  apply List.map_congr_left
  intro i hi
  have := List.mem_range.mp hi
  exact h.dword (by omega) (by omega) (by omega)

/-- The characters of a name. -/
theorem name (h : Agree mem mem' lo hi) (hlength : hi ≤ mem.length) (hlength' : hi ≤ mem'.length) {range : ℕ × ℕ}
    (hlow : lo ≤ range.1) (hhigh : range.1 + range.2 ≤ hi) : nameAt mem' range = nameAt mem range := by
  apply List.ext_getElem?
  intro i
  by_cases hi : i < range.2
  · have hbyte := h (range.1 + i) (by omega) (by omega)
    have hin : range.1 + i < mem.length := by omega
    have hin' : range.1 + i < mem'.length := by omega
    rw [List.getD_eq_getElem?_getD, List.getD_eq_getElem?_getD, List.getElem?_eq_getElem hin,
      List.getElem?_eq_getElem hin', Option.getD_some, Option.getD_some] at hbyte
    rw [nameAt, nameAt, List.getElem?_take_of_lt hi, List.getElem?_take_of_lt hi, List.getElem?_drop,
      List.getElem?_drop, List.getElem?_eq_getElem hin, List.getElem?_eq_getElem hin', hbyte]
  · rw [nameAt, nameAt, List.getElem?_take_eq_none (Nat.not_lt.mp hi), List.getElem?_take_eq_none (Nat.not_lt.mp hi)]

/-- The header. -/
theorem header (h : Agree mem mem' 0 68) : headerAt mem' = headerAt mem := by
  have hword {p : ℤ} (hlow : 0 ≤ p) (hhigh : p + 2 ≤ 68) : Sis.word mem' p = Sis.word mem p :=
    h.word hlow hlow hhigh
  have hdword {p : ℤ} (hlow : 0 ≤ p) (hhigh : p + 4 ≤ 68) : Sis.dword mem' p = Sis.dword mem p :=
    h.dword hlow hlow hhigh
  simp [headerAt, hword, hdword]

/-- A requisite. -/
theorem reqRecord (h : Agree mem mem' lo hi) {n : ℕ} {b : ℤ} (hpos : 0 ≤ b) (hlow : lo ≤ b)
    (hhigh : b + reqSize n ≤ hi) : reqRecordAt mem' n b = reqRecordAt mem n b := by
  rw [reqSize] at hhigh
  rw [reqRecordAt, reqRecordAt, h.dword hpos hlow (by omega), h.word (by omega) (by omega) (by omega),
    h.word (by omega) (by omega) (by omega), h.dword (by omega) (by omega) (by omega),
    h.dwords (by omega) (by omega) (by omega), h.dwords (by omega) (by omega) (by omega)]

/-- A file record has its fixed part. -/
theorem le_fileSize (flags n : ℕ) : 28 ≤ fileSize flags n := by
  unfold fileSize
  split <;> omega

/-- A file record. -/
theorem fileRecord (h : Agree mem mem' lo hi) {n : ℕ} {b : ℤ} (hpos : 0 ≤ b) (hlow : lo ≤ b)
    (hhigh : b + fileSize (Sis.dword mem b) n ≤ hi) : fileRecordAt mem' n b = fileRecordAt mem n b := by
  have hsize := le_fileSize (Sis.dword mem b) n
  have hflags := h.dword hpos hlow (by omega)
  rw [fileRecordAt, fileRecordAt, hflags, h.dword (by omega) (by omega) (by omega),
    h.dword (by omega) (by omega) (by omega), h.dword (by omega) (by omega) (by omega),
    h.dword (by omega) (by omega) (by omega), h.dword (by omega) (by omega) (by omega),
    h.dword (by omega) (by omega) (by omega)]
  cases hf : Sis.dword mem b with
  | zero =>
    rw [hf, fileSize] at hhigh
    simp only [h.dword (p := b + 28) (by omega) (by omega) (by omega),
      h.dword (p := b + 32) (by omega) (by omega) (by omega)]
  | succ flags =>
    cases flags with
    | zero =>
      rw [hf, fileSize] at hhigh
      simp only [h.dwords (p := b + 28) (n := n) (by omega) (by omega) (by omega),
        h.dwords (p := b + 28 + n * 4) (n := n) (by omega) (by omega) (by omega)]
    | succ flags => rfl

end Agree

/-! ### Tables -/

/-- Going from record to record in two files, each of which agrees on a record that both come to. -/
theorem iterate_eq {next next' : ℤ → ℤ} {n : ℕ} {b : ℤ}
    (h : ∀ i < n, next'^[i] b = next^[i] b → next' (next^[i] b) = next (next^[i] b)) {i : ℕ} (hi : i ≤ n) :
    next'^[i] b = next^[i] b := by
  induction i with
  | zero => rfl
  | succ i ih =>
    have hbefore := ih (Nat.le_of_succ_le hi)
    rw [Function.iterate_succ_apply', hbefore, h i hi hbefore, Function.iterate_succ_apply']

/-- Going from record to record in two files that agree on them. -/
theorem iterate_congr {next next' : ℤ → ℤ} {n : ℕ} {b : ℤ}
    (h : ∀ i < n, next' (next^[i] b) = next (next^[i] b)) {i : ℕ} (hi : i ≤ n) : next'^[i] b = next^[i] b :=
  iterate_eq (fun i hi _ => h i hi) hi

/-- The records of two files that agree on them. -/
theorem tableRecords_congr {R : Type} {record record' : ℤ → R} {next next' : ℤ → ℤ} {n : ℕ} {b : ℤ}
    (hnext : ∀ i < n, next' (next^[i] b) = next (next^[i] b))
    (hrecord : ∀ i < n, record' (next^[i] b) = record (next^[i] b)) :
    Outcome.tableRecords record' next' n b = Outcome.tableRecords record next n b := by
  apply List.map_congr_left
  intro i hi
  have hi := List.mem_range.mp hi
  rw [iterate_congr hnext (Nat.le_of_lt hi), hrecord i hi]

/-- A record ends before the table does. -/
theorem le_tableEnd {next : ℤ → ℤ} {n : ℕ} {b : ℤ} (hstep : ∀ i < n, next^[i] b ≤ next^[i + 1] b) {i : ℕ}
    (hi : i ≤ n) : next^[i] b ≤ next^[n] b := by
  induction n with
  | zero => rw [Nat.le_zero.mp hi]
  | succ n ih =>
    cases Nat.lt_or_ge n i with
    | inl hlast => rw [Nat.le_antisymm hi hlast]
    | inr hle => exact (ih (fun j hj => hstep j (Nat.lt_succ_of_lt hj)) hle).trans (hstep n (Nat.lt_succ_self n))

/-- The records of a table whose end, as an unsigned number, is kept, end at most there. -/
theorem le_keptEnd {next : ℤ → ℤ} {n kept : ℕ} {b : ℤ}
    (hstep : ∀ i < n, 0 ≤ next^[i] b ∧ next^[i] b ≤ next^[i + 1] b ∧ next^[i + 1] b < 2 ^ 31)
    (hkept : uint32 (next^[n] b) ≤ kept) {i : ℕ} (hi : i < n) : next^[i + 1] b ≤ kept := by
  have hle := le_tableEnd (fun j hj => (hstep j hj).2.1) (show i + 1 ≤ n from hi)
  obtain ⟨m, rfl⟩ : ∃ m, n = m + 1 := ⟨n - 1, by omega⟩
  have hlast := hstep m (Nat.lt_succ_self m)
  have hvalue : (uint32 (next^[m + 1] b) : ℤ) = next^[m + 1] b := by
    unfold uint32
    omega
  omega

namespace SISFile

/-- The same header leads to the same next requisite. -/
theorem nextReq_eq {mem mem' : List UInt8} (hheader : headerAt mem' = headerAt mem) :
    nextReq mem' = nextReq mem := by
  funext b
  rw [nextReq, nextReq, hheader]

/-- Going on from a file record, in a file that agrees on the flags. -/
theorem nextFile_eq {mem mem' : List UInt8} (hnlangs : (headerAt mem').nlangs = (headerAt mem).nlangs) {b : ℤ}
    (hflags : dword mem' b = dword mem b) : nextFile mem' b = nextFile mem b := by
  rw [nextFile, nextFile, hflags, hnlangs]

/-- The next file record is behind the fixed part of this one. -/
theorem le_nextFile (mem : List UInt8) (b : ℤ) : b + 28 ≤ nextFile mem b := by
  have := Agree.le_fileSize (dword mem b) (headerAt mem).nlangs
  rw [nextFile]
  omega

/-- Where the file records may be read and are accepted: where each of them lies. -/
theorem files_inside {mem : List UInt8} (hsafe : FilesSafe mem) (hvalid : FilesValid mem) :
    ∀ i < (headerAt mem).nfiles, 0 ≤ (nextFile mem)^[i] (fileStart mem) ∧
      (nextFile mem)^[i] (fileStart mem) + 28 ≤ (nextFile mem)^[i + 1] (fileStart mem) ∧
      (nextFile mem)^[i + 1] (fileStart mem) < 2 ^ 31 := by
  intro i hi
  have hrecord : FileSafe mem (headerAt mem).nlangs ((nextFile mem)^[i] (fileStart mem)) :=
    Outcome.TableSafe.of_valid hsafe hvalid i hi
  obtain ⟨-, hfits, hagain⟩ := hvalid i hi
  obtain ⟨⟨hint, hpos⟩, hintAgain⟩ := hrecord
  have hle := le_nextFile mem ((nextFile mem)^[i] (fileStart mem))
  rw [Function.iterate_succ_apply']
  refine ⟨hpos hfits, hle, ?_⟩
  rw [nextFile]
  cases hflags : dword mem ((nextFile mem)^[i] (fileStart mem)) with
  | zero =>
    rw [fileSize]
    exact hint.2
  | succ flags =>
    cases flags with
    | zero =>
      rw [fileSize]
      exact (hintAgain hfits hflags).2
    | succ flags =>
      have := hint.2
      simp only [fileSize]
      omega

end SISFile

end Plptools
