import Plptools.Sis.SISFile

/-!
# What a SIS file holds

For a file that is the whole memory, each of the parsers is specified: where it may be called, when it
accepts, and which record it gives, as a function of the bytes of the file.
-/

namespace Plptools

open Plptools.Library
open RFSV (getByte uint32 int32)
open Sis

/-! ### The header -/

/-- The checksum of the bytes at the given positions. -/
def crcAt (mem : List UInt8) (ps : List ℕ) : UInt16 :=
  ps.foldl (fun crc p => updateCrc crc (mem.getD p 0)) 0

/-- The header of a file. -/
def headerAt (mem : List UInt8) : SISFileHeader where
  uid1 := dword mem 0
  uid2 := dword mem 4
  uid3 := dword mem 8
  uid4 := dword mem 12
  crc := word mem 16
  nlangs := word mem 18
  nfiles := word mem 20
  nreqs := word mem 22
  installationLanguage := word mem 24
  installationFiles := word mem 26
  installationDrive := dword mem 28
  installerVersion := dword mem 32
  options := word mem 36
  type := word mem 38
  major := word mem 40
  minor := word mem 42
  variant := dword mem 44
  languagePtr := dword mem 48
  filesPtr := dword mem 52
  reqPtr := dword mem 56
  unknown := dword mem 60
  componentPtr := dword mem 64

/-- What the header is checked for. -/
structure HeaderValid (mem : List UInt8) : Prop where
  size : 68 ≤ mem.length
  uid2 : dword mem 4 = 0x1000006d
  uid3 : dword mem 8 = 0x10000419
  uid4 : (crcAt mem [1, 3, 5, 7, 9, 11]).toNat <<< 16 ||| (crcAt mem [0, 2, 4, 6, 8, 10]).toNat = dword mem 12

/-- A checksum of bytes inside the memory. -/
theorem readCrc_inside {mem : List UInt8} {ps : List ℕ} (h : ∀ p ∈ ps, p < mem.length) (crc : UInt16) :
    readCrc mem (ps.map (fun p : ℕ => (p : ℤ))) crc =
      .ok (ps.foldl (fun crc p => updateCrc crc (mem.getD p 0)) crc) := by
  induction ps generalizing crc with
  | nil => rfl
  | cons p ps ih =>
    have hp : p < mem.length := h p List.mem_cons_self
    rw [List.map_cons, readCrc, read8_inside (by omega) (by omega), Outcome.ok_bind, Int.toNat_natCast,
      List.foldl_cons, getByte, UInt8.ofNat_toNat, ih fun q hq => h q (List.mem_cons_of_mem _ hq)]

/-- The header is read inside the file, and accepted if it is valid. -/
theorem SISFileHeader.fillFrom_spec (mem : List UInt8) :
    (SISFileHeader.fillFrom mem 0 0 mem.length).Spec True (HeaderValid mem) (headerAt mem, 68) := by
  have hadd : (addInt 0 68 : Sis ℤ) = .ok 68 := by decide
  have hword {p : ℤ} (hlow : 0 ≤ p) (hhigh : p + 2 ≤ 68) (hsize : 68 ≤ mem.length) :
      (read16 mem p : Sis ℕ) = .ok (word mem p) := read16_inside hlow (by omega)
  have hdword {p : ℤ} (hlow : 0 ≤ p) (hhigh : p + 4 ≤ 68) (hsize : 68 ≤ mem.length) :
      (read32 mem p : Sis ℕ) = .ok (dword mem p) := read32_inside hlow (by omega)
  have hcrc (ps : List ℕ) (hps : ∀ p ∈ ps, p < 68) (hsize : 68 ≤ mem.length) :
      readCrc mem (ps.map (fun p : ℕ => (p : ℤ))) 0 = .ok (crcAt mem ps) :=
    readCrc_inside (fun p hp => Nat.lt_of_lt_of_le (hps p hp) hsize) 0
  by_cases hsize : 68 ≤ mem.length
  · have hfits : ¬(68 : ℤ) > mem.length := by omega
    have hcrc1 := hcrc [0, 2, 4, 6, 8, 10] (by decide) hsize
    have hcrc2 := hcrc [1, 3, 5, 7, 9, 11] (by decide) hsize
    simp only [List.map_cons, List.map_nil, Nat.cast_ofNat, Nat.cast_zero, Nat.cast_one] at hcrc1 hcrc2
    have hrun : SISFileHeader.fillFrom mem 0 0 mem.length =
        if dword mem 4 ≠ 0x1000006d then .error .SIS_CORRUPTED
        else if dword mem 8 ≠ 0x10000419 then .error .SIS_CORRUPTED
        else if (crcAt mem [1, 3, 5, 7, 9, 11]).toNat <<< 16 ||| (crcAt mem [0, 2, 4, 6, 8, 10]).toNat ≠
          dword mem 12 then .error .SIS_CORRUPTED
        else .ok (headerAt mem, 68) := by
      simp [SISFileHeader.fillFrom, hadd, hfits, hword, hdword, hsize, hcrc1, hcrc2, OFF_NUMBER_OF_FILES,
        OFF_INSTALLATION_DRIVE, headerAt]
    rw [hrun]
    apply (Outcome.Spec.ite _ fun _ => .ite _ fun _ => .ite _ fun _ => .value _).congr
    · simp
    · intro _
      constructor
      · rintro ⟨huid2, huid3, huid4, -⟩
        exact ⟨hsize, not_not.mp huid2, not_not.mp huid3, not_not.mp huid4⟩
      · rintro ⟨-, huid2, huid3, huid4⟩
        exact ⟨not_not.mpr huid2, not_not.mpr huid3, not_not.mpr huid4, trivial⟩
    · exact fun _ _ => rfl
  · have hshort : (68 : ℤ) > mem.length := by omega
    have hrun : SISFileHeader.fillFrom mem 0 0 mem.length = .error .SIS_TRUNCATED := by
      simp [SISFileHeader.fillFrom, hadd, hshort]
    exact ⟨fun h => absurd trivial h, fun _ hvalid => absurd hvalid.size hsize, fun _ _ => ⟨_, hrun⟩⟩

/-! ### The parts of the records -/

/-- The value of an int. -/
def FitsInt (a : ℤ) : Prop := -2 ^ 31 ≤ a ∧ a < 2 ^ 31

/-- A record whose size is checked: the sum must not overflow, and the record must not begin before
the file. -/
def RecordSafe (mem : List UInt8) (size b : ℤ) : Prop :=
  FitsInt (b + size) ∧ (b + size ≤ mem.length → 0 ≤ b)

/-- The double words from `p` on. -/
def dwords (mem : List UInt8) (p : ℤ) (n : ℕ) : List ℕ := (List.range n).map fun i : ℕ => dword mem (p + 4 * i)

/-- The first double word. -/
theorem dwords_succ (mem : List UInt8) (p : ℤ) (n : ℕ) :
    dwords mem p (n + 1) = dword mem p :: dwords mem (p + 4) n := by
  simp only [dwords, List.range_succ_eq_map, List.map_cons, List.map_map, Nat.cast_zero, Int.mul_zero,
    Int.add_zero, List.cons.injEq, true_and]
  apply List.map_congr_left
  intro i _
  simp only [Function.comp_apply, Nat.cast_succ]
  congr 1
  ring

/-- As many double words as are asked for. -/
@[simp] theorem length_dwords (mem : List UInt8) (p : ℤ) (n : ℕ) : (dwords mem p n).length = n := by
  simp [dwords]

/-- Each of them has 32 bits. -/
theorem dwords_lt {mem : List UInt8} {p : ℤ} {n a : ℕ} (h : a ∈ dwords mem p n) : a < 2 ^ 32 := by
  obtain ⟨i, -, rfl⟩ := List.mem_map.mp h
  exact dword_lt mem _

/-- A test of the size of a record, and what is done with a record that fits. -/
theorem sized_spec {E A : Type} {e : E} {mem : List UInt8} {size b : ℤ} {body : Outcome E A} (safe valid : Prop)
    {a : A} (hbody : b + size ≤ mem.length → body.Spec safe valid a) :
    (do let stop ← addInt b size; if stop > mem.length then .error e else body : Outcome E A).Spec
      (FitsInt (b + size) ∧ (b + size ≤ mem.length → safe)) (b + size ≤ mem.length ∧ valid) a := by
  have hadd : (addInt b size : Outcome E ℤ).Spec (FitsInt (b + size)) True (b + size) :=
    ⟨fun h => if_neg h, fun h _ => if_pos h, fun _ h => absurd trivial h⟩
  apply (hadd.bind (f := fun stop : ℤ => if stop > mem.length then .error e else body)
    (.ite _ fun hfits => hbody (not_lt.mp hfits))).congr
  · simp
  · simp
  · exact fun _ _ => rfl

/-- Reading at a position that is not before the file, inside it. -/
theorem inside_spec {E A : Type} (b : ℤ) {body : Outcome E A} (safe : Prop) {valid : Prop} {a : A}
    (hneg : b < 0 → body = .fault) (hbody : 0 ≤ b → body.Spec safe valid a) :
    body.Spec (0 ≤ b ∧ safe) valid a where
  fault hnot := by
    by_cases hb : 0 ≤ b
    · exact (hbody hb).fault fun hsafe => hnot ⟨hb, hsafe⟩
    · exact hneg (not_le.mp hb)
  ok := fun hsafe hvalid => (hbody hsafe.1).ok hsafe.2 hvalid
  error := fun hsafe hvalid => (hbody hsafe.1).error hsafe.2 hvalid

/-- Double words inside are read. -/
theorem read32s_inside {mem : List UInt8} {n : ℕ} {p : ℤ} (hlow : 0 ≤ p) (hhigh : p + 4 * n ≤ mem.length) :
    read32s mem n p = .ok (dwords mem p n) := by
  induction n generalizing p with
  | zero => rfl
  | succ n ih =>
    rw [read32s, read32_inside hlow (by omega), Outcome.ok_bind, ih (by omega) (by omega), dwords_succ]
    rfl

/-! ### Languages and requisites -/

/-- A language. -/
theorem SISLangRecord.fillFrom_spec (mem : List UInt8) (b : ℤ) :
    (SISLangRecord.fillFrom mem 0 b mem.length).Spec (RecordSafe mem 2 b)
      (b + 2 ≤ mem.length ∧ word mem b ≤ 33) (⟨word mem b⟩, b + 2) := by
  apply (sized_spec _ _ fun hfits => inside_spec b True ?_ fun hb => ?_).congr
  · simp [RecordSafe]
  · exact fun _ => Iff.rfl
  · exact fun _ _ => rfl
  · intro hneg
    rw [Nat.cast_zero, zero_add, read16_neg hneg, Outcome.fault_bind]
  · rw [Nat.cast_zero, zero_add, read16_inside hb hfits, Outcome.ok_bind]
    apply (Outcome.Spec.ite _ fun _ => .value _).congr
    · simp
    · simp
    · exact fun _ _ => rfl

/-- The end of a name as it is checked, which is unsigned. -/
def NameChecked (mem : List UInt8) (name : ℕ × ℕ) : Prop := uint32 (name.1 + name.2) ≤ mem.length

/-- The names of a requisite are checked. -/
theorem SISReqRecord.fillPtrs_spec (mem : List UInt8) (nameLengths : List ℕ) {p : ℤ} (hlow : 0 ≤ p)
    (hhigh : p + 4 * nameLengths.length ≤ mem.length) :
    (SISReqRecord.fillPtrs mem mem.length nameLengths p).Spec True
      (∀ name ∈ (dwords mem p nameLengths.length).zip nameLengths, NameChecked mem name)
      (dwords mem p nameLengths.length) := by
  induction nameLengths generalizing p with
  | nil =>
    apply (Outcome.Spec.value _).congr
    · exact Iff.rfl
    · simp
    · exact fun _ _ => rfl
  | cons nameLength nameLengths ih =>
    rw [List.length_cons] at hhigh
    rw [SISReqRecord.fillPtrs, read32_inside hlow (by omega), Outcome.ok_bind]
    have hrest := ih (p := p + 4) (by omega) (by omega)
    apply (Outcome.Spec.ite _ fun _ => hrest.bind (f := fun namePtrs => .ok (dword mem p :: namePtrs))
      (.value _)).congr
    · simp
    · intro _
      rw [List.length_cons, dwords_succ, List.zip_cons_cons, List.forall_mem_cons, not_lt, and_true]
      rfl
    · exact fun _ _ => (dwords_succ _ _ _).symm

/-- The size of a requisite. -/
def reqSize (n : ℕ) : ℤ := 12 + n * 4 * 2

/-- The requisite at `b`. -/
def reqRecordAt (mem : List UInt8) (n : ℕ) (b : ℤ) : SISReqRecord where
  uid := dword mem b
  major := word mem (b + 4)
  minor := word mem (b + 6)
  variant := dword mem (b + 8)
  nameLengths := dwords mem (b + 12) n
  namePtrs := dwords mem (b + 12 + n * 4) n

/-- The names of a requisite. -/
def SISReqRecord.nameRanges (r : SISReqRecord) : List (ℕ × ℕ) := r.namePtrs.zip r.nameLengths

/-- A requisite. -/
theorem SISReqRecord.fillFrom_spec (mem : List UInt8) (n : ℕ) (b : ℤ) :
    (SISReqRecord.fillFrom mem 0 b mem.length n).Spec (RecordSafe mem (reqSize n) b)
      (b + reqSize n ≤ mem.length ∧ ∀ name ∈ (reqRecordAt mem n b).nameRanges, NameChecked mem name)
      (reqRecordAt mem n b, b + reqSize n) := by
  apply (sized_spec _ _ fun hfits => inside_spec b True ?_ fun hb => ?_).congr
  · simp [RecordSafe, reqSize]
  · exact fun _ => Iff.rfl
  · exact fun _ _ => rfl
  · intro hneg
    simp only [Nat.cast_zero, zero_add, read32_neg hneg, Outcome.fault_bind]
  · have hptrs := SISReqRecord.fillPtrs_spec mem (dwords mem (b + 12) n) (p := b + 12 + n * 4) (by omega)
      (by rw [length_dwords]; omega)
    rw [length_dwords] at hptrs
    simp only [Nat.cast_zero, zero_add]
    rw [read32_inside hb (by omega), Outcome.ok_bind,
      read16_inside (by omega) (by omega), Outcome.ok_bind, read16_inside (by omega) (by omega),
      Outcome.ok_bind, read32_inside (by omega) (by omega), Outcome.ok_bind,
      read32s_inside (by omega) (by omega), Outcome.ok_bind]
    apply (hptrs.bind (f := fun namePtrs => .ok (SISReqRecord.mk (dword mem b) (word mem (b + 4))
      (word mem (b + 6)) (dword mem (b + 8)) (dwords mem (b + 12) n) namePtrs, b + (12 + n * 4 * 2)))
        (.value _)).congr
    · simp
    · intro _
      exact iff_of_eq (and_true _)
    · exact fun _ _ => rfl

/-! ### The component -/

/-- The lengths of the names of a component are checked. -/
theorem SISComponentNameRecord.fillLengths_spec (mem : List UInt8) {n : ℕ} {p : ℤ} (hlow : 0 ≤ p)
    (hhigh : p + 4 * n ≤ mem.length) :
    (SISComponentNameRecord.fillLengths mem mem.length n p).Spec True
      (∀ nameLength ∈ dwords mem p n, nameLength ≤ mem.length) (dwords mem p n) := by
  induction n generalizing p with
  | zero =>
    apply (Outcome.Spec.value _).congr
    · exact Iff.rfl
    · simp [dwords]
    · exact fun _ _ => rfl
  | succ n ih =>
    rw [SISComponentNameRecord.fillLengths, read32_inside hlow (by omega), Outcome.ok_bind]
    have hrest := ih (p := p + 4) (by omega) (by omega)
    apply (Outcome.Spec.ite _ fun _ => hrest.bind (f := fun nameLengths => .ok (dword mem p :: nameLengths))
      (.value _)).congr
    · simp
    · intro _
      rw [dwords_succ, List.forall_mem_cons, not_lt, and_true]
    · exact fun _ _ => (dwords_succ _ _ _).symm

/-- The characters of a name. -/
def nameAt (mem : List UInt8) (name : ℕ × ℕ) : List UInt8 := (mem.drop name.1).take name.2

/-- A name that can be copied. -/
def NameReadable (mem : List UInt8) (name : ℕ × ℕ) : Prop :=
  name.2 < 2 ^ 31 - 1 ∧ (name.2 = 0 ∨ name.1 + name.2 ≤ mem.length)

/-- Every name that is come to can be copied; the ends of those before it, and its own, were checked. -/
def NamesSafe (mem : List UInt8) : List (ℕ × ℕ) → Prop
  | [] => True
  | name :: names => NameChecked mem name → NameReadable mem name ∧ NamesSafe mem names

/-- Making room for a name and copying it. -/
theorem SISComponentNameRecord.copyName_spec (mem : List UInt8) (name : ℕ × ℕ) (hlength : name.2 < 2 ^ 32) :
    (copyName mem name.1 name.2).Spec (NameReadable mem name) True (nameAt mem name) where
  fault hnot := by
    unfold NameReadable at hnot
    rw [copyName]
    by_cases hsmall : name.2 < 2 ^ 31 - 1
    · have hint : int32 name.2 = name.2 := by unfold int32; omega
      have hbehind : ¬(0 ≤ (name.1 : ℤ) ∧ (name.1 : ℤ) + name.2 ≤ mem.length) := by omega
      rw [hint, addInt_of_range (by omega) (by omega), Outcome.ok_bind, if_neg (by omega), readBytes,
        if_neg (by omega), if_neg hbehind]
    · by_cases hlast : name.2 = 2 ^ 31 - 1
      · have hint : int32 name.2 = 2 ^ 31 - 1 := by unfold int32; omega
        rw [hint]
        rfl
      · have hint : int32 name.2 = name.2 - 2 ^ 32 := by unfold int32; omega
        rw [hint, addInt_of_range (by omega) (by omega), Outcome.ok_bind, if_pos (by omega)]
  ok hreadable _ := by
    obtain ⟨hsmall, hinside⟩ := hreadable
    have hint : int32 name.2 = name.2 := by unfold int32; omega
    rw [copyName, hint, addInt_of_range (by omega) (by omega), Outcome.ok_bind, if_neg (by omega), readBytes]
    by_cases hempty : name.2 = 0
    · rw [if_pos hempty, nameAt, hempty, List.take_zero]
    · rw [if_neg hempty, if_pos (by omega)]
      rfl
  error := fun _ h => absurd trivial h

/-- The names of a component are checked and read. -/
theorem SISComponentNameRecord.fillNames_spec (mem : List UInt8) (nameLengths : List ℕ)
    (hlengths : ∀ nameLength ∈ nameLengths, nameLength < 2 ^ 32) {p : ℤ} (hlow : 0 ≤ p)
    (hhigh : p + 4 * nameLengths.length ≤ mem.length) :
    (SISComponentNameRecord.fillNames mem 0 mem.length nameLengths p).Spec
      (NamesSafe mem ((dwords mem p nameLengths.length).zip nameLengths))
      (∀ name ∈ (dwords mem p nameLengths.length).zip nameLengths, NameChecked mem name)
      (((dwords mem p nameLengths.length).zip nameLengths).map fun name => (name.1, nameAt mem name)) := by
  induction nameLengths generalizing p with
  | nil =>
    apply (Outcome.Spec.value _).congr
    · simp [NamesSafe]
    · simp
    · exact fun _ _ => rfl
  | cons nameLength nameLengths ih =>
    rw [List.length_cons] at hhigh
    have hlength : nameLength < 2 ^ 32 := hlengths nameLength List.mem_cons_self
    have hcopy := copyName_spec mem (dword mem p, nameLength) hlength
    have hrest := ih (p := p + 4) (fun l hl => hlengths l (List.mem_cons_of_mem _ hl)) (by omega) (by omega)
    simp only [fillNames, read32_inside hlow (show p + 4 ≤ mem.length by omega), Outcome.ok_bind, Nat.cast_zero,
      zero_add]
    rw [List.length_cons, dwords_succ, List.zip_cons_cons]
    apply (Outcome.Spec.ite _ fun _ => hcopy.bind (f := fun name =>
      fillNames mem 0 mem.length nameLengths (p + 4) >>= fun rest => .ok ((dword mem p, name) :: rest))
        (hrest.bind (f := fun rest => .ok ((dword mem p, nameAt mem (dword mem p, nameLength)) :: rest))
          (.value _))).congr
    · simp [NamesSafe, NameChecked]
    · intro _
      rw [List.forall_mem_cons, not_lt, and_true, true_and]
      rfl
    · exact fun _ _ => rfl

/-- The size of the record of the component, and the part of it that is read. -/
def componentSize (n : ℕ) : ℤ := 8 + n * 4 * 2

/-- The record of the component at `b`. -/
def componentRecordAt (mem : List UInt8) (n : ℕ) (b : ℤ) : SISComponentNameRecord where
  nameLengths := dwords mem b n
  namePtrs := dwords mem (b + n * 4) n
  names := ((dwords mem (b + n * 4) n).zip (dwords mem b n)).map (nameAt mem)

/-- The names of the component. -/
def SISComponentNameRecord.nameRanges (r : SISComponentNameRecord) : List (ℕ × ℕ) := r.namePtrs.zip r.nameLengths

/-- Reading the record of the component: without a language, nothing is read. -/
def ComponentSafe (mem : List UInt8) (n : ℕ) (b : ℤ) : Prop :=
  FitsInt (b + componentSize n) ∧ (b + componentSize n ≤ mem.length → n ≠ 0 → 0 ≤ b ∧
    ((∀ nameLength ∈ dwords mem b n, nameLength ≤ mem.length) →
      NamesSafe mem (componentRecordAt mem n b).nameRanges))

def ComponentValid (mem : List UInt8) (n : ℕ) (b : ℤ) : Prop :=
  b + componentSize n ≤ mem.length ∧ (∀ nameLength ∈ dwords mem b n, nameLength ≤ mem.length) ∧
    ∀ name ∈ (componentRecordAt mem n b).nameRanges, NameChecked mem name

/-- The component. -/
theorem SISComponentNameRecord.fillFrom_spec (mem : List UInt8) (n : ℕ) (b : ℤ) :
    (SISComponentNameRecord.fillFrom mem 0 b mem.length n).Spec (ComponentSafe mem n b) (ComponentValid mem n b)
      (componentRecordAt mem n b, b + componentSize n) := by
  apply (sized_spec (n ≠ 0 → 0 ≤ b ∧ ((∀ nameLength ∈ dwords mem b n, nameLength ≤ mem.length) →
      NamesSafe mem (componentRecordAt mem n b).nameRanges))
    ((∀ nameLength ∈ dwords mem b n, nameLength ≤ mem.length) ∧
      ∀ name ∈ (componentRecordAt mem n b).nameRanges, NameChecked mem name) fun hfits => ?_).congr
  · exact Iff.rfl
  · exact fun _ => Iff.rfl
  · exact fun _ _ => rfl
  · simp only [Nat.cast_zero, zero_add]
    cases n with
    | zero =>
      apply (Outcome.Spec.value _).congr
      · simp
      · simp [dwords, componentRecordAt, nameRanges]
      · exact fun _ _ => rfl
    | succ n =>
      apply (inside_spec b ((∀ nameLength ∈ dwords mem b (n + 1), nameLength ≤ mem.length) →
        NamesSafe mem (componentRecordAt mem (n + 1) b).nameRanges) ?_ fun hb => ?_).congr
      · simp
      · exact fun _ => Iff.rfl
      · exact fun _ _ => rfl
      · intro hneg
        rw [fillLengths, read32_neg hneg, Outcome.fault_bind, Outcome.fault_bind]
      · have hlengths := fillLengths_spec mem (n := n + 1) hb (by omega)
        have hnames := fillNames_spec mem (dwords mem b (n + 1))
          (p := b + (n + 1 : ℕ) * 4) (fun _ hl => dwords_lt hl) (by omega) (by rw [length_dwords]; omega)
        rw [length_dwords] at hnames
        let record (nameLengths : List ℕ) (names : List (ℕ × List UInt8)) : SISComponentNameRecord × ℤ :=
          (⟨nameLengths, names.map Prod.fst, names.map Prod.snd⟩, b + (8 + (n + 1 : ℕ) * 4 * 2))
        apply (hlengths.bind (f := fun nameLengths =>
          fillNames mem 0 mem.length nameLengths (b + (n + 1 : ℕ) * 4) >>= fun names =>
            .ok (record nameLengths names))
          (hnames.bind (f := fun names => .ok (record (dwords mem b (n + 1)) names)) (.value _))).congr
        · simp [componentRecordAt, nameRanges]
        · intro _
          rw [and_true]
          exact Iff.rfl
        · intro _ _
          have hptrs : (((dwords mem (b + (n + 1 : ℕ) * 4) (n + 1)).zip (dwords mem b (n + 1))).map
              fun name => (name.1, nameAt mem name)).map Prod.fst = dwords mem (b + (n + 1 : ℕ) * 4) (n + 1) := by
            rw [List.map_map]
            exact List.map_fst_zip (by simp)
          simp only [record, hptrs, List.map_map]
          rfl

/-- A record that is rejected for the length of a name has no number of names yet. -/
theorem SISComponentNameRecord.fillLengths_error {mem : List UInt8} {n : ℕ} {p : ℤ} {e : Rejection} (hlow : 0 ≤ p)
    (hhigh : p + 4 * n ≤ mem.length) (h : fillLengths mem mem.length n p = .error e) : e.unset = none := by
  induction n generalizing p with
  | zero => cases h
  | succ n ih =>
    rw [fillLengths, read32_inside hlow (by omega), Outcome.ok_bind] at h
    split at h
    · cases h
      rfl
    · obtain hrest | ⟨_, _, hdone⟩ := Outcome.bind_eq_error_iff.mp h
      · exact ih (by omega) (by omega) hrest
      · cases hdone

/-- A record that is rejected for the end of a name has all its offsets if it is the last name. -/
theorem SISComponentNameRecord.fillNames_error {mem : List UInt8} {nameLengths : List ℕ}
    (hlengths : ∀ nameLength ∈ nameLengths, nameLength < 2 ^ 32) {p : ℤ} {e : Rejection} (hlow : 0 ≤ p)
    (hhigh : p + 4 * nameLengths.length ≤ mem.length)
    (h : fillNames mem 0 mem.length nameLengths p = .error e) :
    e.unset = some 0 ↔ ∀ name ∈ ((dwords mem p nameLengths.length).zip nameLengths).dropLast, NameChecked mem name := by
  induction nameLengths generalizing p with
  | nil => cases h
  | cons nameLength nameLengths ih =>
    rw [List.length_cons] at hhigh
    rw [fillNames, read32_inside hlow (by omega), Outcome.ok_bind] at h
    rw [List.length_cons, dwords_succ, List.zip_cons_cons]
    split at h
    · rename_i hbehind
      cases h
      cases nameLengths with
      | nil => simp
      | cons next nameLengths =>
        rw [List.length_cons, dwords_succ, List.zip_cons_cons, List.dropLast_cons_cons, List.forall_mem_cons]
        constructor
        · exact fun hnone => absurd (Option.some.inj hnone) (Nat.succ_ne_zero _)
        · exact fun hchecked => absurd hchecked.1 (not_le.mpr hbehind)
    · rename_i hchecked
      have hcopy := copyName_spec mem (dword mem p, nameLength) (hlengths nameLength List.mem_cons_self)
      rw [Nat.cast_zero, zero_add] at h
      obtain hname | ⟨name, -, hrest⟩ := Outcome.bind_eq_error_iff.mp h
      · -- copying a name rejects nothing
        by_cases hreadable : NameReadable mem (dword mem p, nameLength)
        · exact nomatch hname.symm.trans (hcopy.ok hreadable trivial)
        · exact nomatch hname.symm.trans (hcopy.fault hreadable)
      · obtain hrest | ⟨_, _, hdone⟩ := Outcome.bind_eq_error_iff.mp hrest
        · rw [ih (fun l hl => hlengths l (List.mem_cons_of_mem _ hl)) (by omega) (by omega) hrest]
          cases nameLengths with
          | nil => cases hrest
          | cons next nameLengths =>
            rw [List.length_cons, dwords_succ, List.zip_cons_cons, List.dropLast_cons_cons, List.forall_mem_cons]
            exact (and_iff_right (not_lt.mp hchecked)).symm
        · cases hdone

/-- All that `getLastEnd` reads is set: nothing is rejected but the end of the last name. -/
def ComponentSet (mem : List UInt8) (n : ℕ) (b : ℤ) : Prop :=
  b + componentSize n ≤ mem.length ∧ (∀ nameLength ∈ dwords mem b n, nameLength ≤ mem.length) ∧
    ∀ name ∈ (componentRecordAt mem n b).nameRanges.dropLast, NameChecked mem name

/-- Where the record is accepted everything is set. -/
theorem ComponentValid.set {mem : List UInt8} {n : ℕ} {b : ℤ} (h : ComponentValid mem n b) : ComponentSet mem n b :=
  ⟨h.1, h.2.1, fun name hname => h.2.2 name (List.dropLast_subset _ hname)⟩

/-- Where a record is rejected, everything is set just when the end of the last name is what is wrong. -/
theorem SISComponentNameRecord.fillFrom_error {mem : List UInt8} {n : ℕ} {b : ℤ} {e : Rejection}
    (h : SISComponentNameRecord.fillFrom mem 0 b mem.length n = .error e) :
    e.unset = some 0 ↔ ComponentSet mem n b := by
  rw [fillFrom] at h
  obtain hadd | ⟨stop, hadd, h⟩ := Outcome.bind_eq_error_iff.mp h
  · rw [addInt] at hadd
    split at hadd <;> cases hadd
  have hstop : stop = b + componentSize n := by
    rw [addInt] at hadd
    split at hadd
    · exact (Outcome.ok.inj hadd).symm
    · cases hadd
  split at h
  · rename_i hbehind
    cases h
    exact iff_of_false (fun hnone => nomatch hnone) fun hset => absurd hset.1 (not_le.mpr (hstop ▸ hbehind))
  · rename_i hfits
    rw [hstop, componentSize, not_lt] at hfits
    simp only [Nat.cast_zero, zero_add] at h
    cases n with
    | zero => cases h
    | succ n =>
      by_cases hb : 0 ≤ b
      · have hspec := fillLengths_spec mem (n := n + 1) hb (by omega)
        obtain hlengths | ⟨nameLengths, hlengths, h⟩ := Outcome.bind_eq_error_iff.mp h
        · have hnone : e.unset = none := fillLengths_error hb (by omega) hlengths
          rw [hnone]
          apply iff_of_false (fun hnone => nomatch hnone)
          intro hset
          exact nomatch hlengths.symm.trans (hspec.ok trivial hset.2.1)
        · obtain ⟨-, hchecked, rfl⟩ := (hspec.eq_ok_iff nameLengths).mp hlengths
          obtain hnames | ⟨_, _, hdone⟩ := Outcome.bind_eq_error_iff.mp h
          · rw [fillNames_error (fun _ hl => dwords_lt hl) (by omega) (by rw [length_dwords]; omega) hnames,
              length_dwords, ComponentSet, componentSize, and_iff_right hfits, and_iff_right hchecked]
            rfl
          · cases hdone
      · rw [fillLengths, read32_neg (not_le.mp hb)] at h
        cases h

/-- The component, with the call of `getLastEnd` that follows. -/
theorem SISComponentNameRecord.getLastEnd_spec (mem : List UInt8) (n : ℕ) (b : ℤ) :
    ((SISComponentNameRecord.fillFrom mem 0 b mem.length n).rescue Rejection.getLastEnd).Spec
      (ComponentSafe mem n b ∧ ComponentSet mem n b) (ComponentValid mem n b)
      (componentRecordAt mem n b, b + componentSize n) := by
  apply (fillFrom_spec mem n b).rescue ComponentValid.set
  · intro e he hset
    exact ⟨e.rc, if_pos ((fillFrom_error he).mpr hset)⟩
  · intro e he hset
    exact if_neg (mt (fillFrom_error he).mp hset)

/-! ### Files -/

/-- The size of a file record with given flags. -/
def fileSize (flags n : ℕ) : ℤ :=
  match flags with
  | 0 => 36
  | 1 => 28 + n * 8
  | _ => 28

/-- The file record at `b`. -/
def fileRecordAt (mem : List UInt8) (n : ℕ) (b : ℤ) : SISFileRecord where
  flags := dword mem b
  fileType := dword mem (b + 4)
  fileDetails := dword mem (b + 8)
  sourceLength := dword mem (b + 12)
  sourcePtr := dword mem (b + 16)
  destLength := dword mem (b + 20)
  destPtr := dword mem (b + 24)
  fileLengths :=
    match dword mem b with
    | 0 => [dword mem (b + 28)]
    | 1 => dwords mem (b + 28) n
    | _ => []
  filePtrs :=
    match dword mem b with
    | 0 => [dword mem (b + 32)]
    | 1 => dwords mem (b + 28 + n * 4) n
    | _ => []

/-- A file record, whose size is checked again where there is a file for each language. -/
def FileSafe (mem : List UInt8) (n : ℕ) (b : ℤ) : Prop :=
  RecordSafe mem 36 b ∧ (b + 36 ≤ mem.length → dword mem b = 1 → FitsInt (b + (28 + n * 8)))

def FileValid (mem : List UInt8) (n : ℕ) (b : ℤ) : Prop :=
  b + 36 ≤ mem.length ∧ (dword mem b = 1 → b + (28 + n * 8) ≤ mem.length)

/-- A file. -/
theorem SISFileRecord.fillFrom_spec (mem : List UInt8) (n : ℕ) (b : ℤ) :
    (SISFileRecord.fillFrom mem 0 b mem.length n).Spec (FileSafe mem n b) (FileValid mem n b)
      (fileRecordAt mem n b, b + fileSize (dword mem b) n) := by
  apply (sized_spec (0 ≤ b ∧ (dword mem b = 1 → FitsInt (b + (28 + n * 8))))
    (dword mem b = 1 → b + (28 + n * 8) ≤ mem.length) fun hfits => inside_spec _ _ ?_ fun hb => ?_).congr
  · unfold FileSafe RecordSafe
    tauto
  · exact fun _ => Iff.rfl
  · exact fun _ _ => rfl
  · intro hneg
    simp only [Nat.cast_zero, zero_add, read32_neg hneg, Outcome.fault_bind]
  · simp only [Nat.cast_zero, zero_add]
    rw [read32_inside hb (by omega), Outcome.ok_bind, read32_inside (by omega) (by omega), Outcome.ok_bind,
      read32_inside (by omega) (by omega), Outcome.ok_bind, read32_inside (by omega) (by omega), Outcome.ok_bind,
      read32_inside (by omega) (by omega), Outcome.ok_bind, read32_inside (by omega) (by omega), Outcome.ok_bind,
      read32_inside (by omega) (by omega), Outcome.ok_bind]
    cases hflags : dword mem b with
    | zero =>
      rw [read32_inside (by omega) (by omega), Outcome.ok_bind, read32_inside (by omega) (by omega), Outcome.ok_bind]
      apply (Outcome.Spec.value _).congr
      · simp
      · simp
      · intro _ _
        simp [fileRecordAt, fileSize, hflags]
    | succ flags =>
      cases flags with
      | zero =>
        apply (sized_spec True True fun hfits' => ?_).congr
        · simp
        · simp
        · exact fun _ _ => rfl
        · rw [read32s_inside (by omega) (by omega), Outcome.ok_bind, read32s_inside (by omega) (by omega),
            Outcome.ok_bind]
          simp only [fileRecordAt, fileSize, hflags]
          exact .value _
      | succ flags =>
        apply (Outcome.Spec.value _).congr
        · simp
        · simp
        · intro _ _
          simp [fileRecordAt, fileSize, hflags]

/-! ### The tables -/

namespace SISFile

/-- An offset from which no record is read. -/
def Behind (mem : List UInt8) (b : ℤ) : Prop := b ≥ mem.length

instance (mem : List UInt8) : DecidablePred (Behind mem) := fun b => inferInstanceAs (Decidable (b ≥ mem.length))

/-- The offset behind a language. -/
def nextLang (b : ℤ) : ℤ := b + 2

/-- The offset behind a requisite. -/
def nextReq (mem : List UInt8) (b : ℤ) : ℤ := b + reqSize (headerAt mem).nlangs

/-- The offset behind a file record. -/
def nextFile (mem : List UInt8) (b : ℤ) : ℤ := b + fileSize (dword mem b) (headerAt mem).nlangs

/-- A language that is accepted. -/
def LangValid (mem : List UInt8) (b : ℤ) : Prop := b + 2 ≤ mem.length ∧ word mem b ≤ 33

/-- A requisite that is accepted. -/
def ReqValid (mem : List UInt8) (b : ℤ) : Prop :=
  b + reqSize (headerAt mem).nlangs ≤ mem.length ∧
    ∀ name ∈ (reqRecordAt mem (headerAt mem).nlangs b).nameRanges, NameChecked mem name

def langStart (mem : List UInt8) : ℤ := int32 (headerAt mem).languagePtr

def reqStart (mem : List UInt8) : ℤ := int32 (headerAt mem).reqPtr

def componentStart (mem : List UInt8) : ℤ := int32 (headerAt mem).componentPtr

def fileStart (mem : List UInt8) : ℤ := int32 (headerAt mem).filesPtr

/-- The languages that are come to may be read. -/
def LangsSafe (mem : List UInt8) : Prop :=
  Outcome.TableSafe (Behind mem) (RecordSafe mem 2) (LangValid mem) nextLang (headerAt mem).nlangs (langStart mem)

def LangsValid (mem : List UInt8) : Prop :=
  Outcome.TableValid (Behind mem) (LangValid mem) nextLang (headerAt mem).nlangs (langStart mem)

/-- The requisites that are come to may be read. -/
def ReqsSafe (mem : List UInt8) : Prop :=
  Outcome.TableSafe (Behind mem) (RecordSafe mem (reqSize (headerAt mem).nlangs)) (ReqValid mem) (nextReq mem)
    (headerAt mem).nreqs (reqStart mem)

def ReqsValid (mem : List UInt8) : Prop :=
  Outcome.TableValid (Behind mem) (ReqValid mem) (nextReq mem) (headerAt mem).nreqs (reqStart mem)

/-- The file records that are come to may be read. -/
def FilesSafe (mem : List UInt8) : Prop :=
  Outcome.TableSafe (Behind mem) (FileSafe mem (headerAt mem).nlangs) (FileValid mem (headerAt mem).nlangs)
    (nextFile mem) (headerAt mem).nfiles (fileStart mem)

def FilesValid (mem : List UInt8) : Prop :=
  Outcome.TableValid (Behind mem) (FileValid mem (headerAt mem).nlangs) (nextFile mem) (headerAt mem).nfiles
    (fileStart mem)

/-- The parts of a file that are come to may be read: each part is come to where those before it are
accepted. -/
def Safe (mem : List UInt8) : Prop :=
  HeaderValid mem → LangsSafe mem ∧ (LangsValid mem → ReqsSafe mem ∧ (ReqsValid mem →
    (ComponentSafe mem (headerAt mem).nlangs (componentStart mem) ∧
      ComponentSet mem (headerAt mem).nlangs (componentStart mem)) ∧
        (ComponentValid mem (headerAt mem).nlangs (componentStart mem) → FilesSafe mem)))

/-- All parts of a file are accepted. -/
structure Valid (mem : List UInt8) : Prop where
  header : HeaderValid mem
  langs : LangsValid mem
  reqs : ReqsValid mem
  component : ComponentValid mem (headerAt mem).nlangs (componentStart mem)
  files : FilesValid mem

/-- The languages of a file. -/
def langsAt (mem : List UInt8) : List SISLangRecord :=
  Outcome.tableRecords (fun b => ⟨word mem b⟩) nextLang (headerAt mem).nlangs (langStart mem)

/-- The requisites of a file. -/
def reqsAt (mem : List UInt8) : List SISReqRecord :=
  Outcome.tableRecords (reqRecordAt mem (headerAt mem).nlangs) (nextReq mem) (headerAt mem).nreqs (reqStart mem)

/-- The component of a file. -/
def componentAt (mem : List UInt8) : SISComponentNameRecord :=
  componentRecordAt mem (headerAt mem).nlangs (componentStart mem)

/-- The file records of a file. -/
def filesAt (mem : List UInt8) : List SISFileRecord :=
  Outcome.tableRecords (fileRecordAt mem (headerAt mem).nlangs) (nextFile mem) (headerAt mem).nfiles (fileStart mem)

/-- The end of the languages. -/
def langsEnd (mem : List UInt8) : ℤ := nextLang^[(headerAt mem).nlangs] (langStart mem)

/-- The end of the requisites. -/
def reqsEnd (mem : List UInt8) : ℤ := (nextReq mem)^[(headerAt mem).nreqs] (reqStart mem)

/-- The end of the record of the component. -/
def componentEnd (mem : List UInt8) : ℤ := componentStart mem + componentSize (headerAt mem).nlangs

/-- The end of the file records. -/
def filesEnd (mem : List UInt8) : ℤ := (nextFile mem)^[(headerAt mem).nfiles] (fileStart mem)

/-- The largest of the ends that are kept. -/
def endAt (mem : List UInt8) : ℕ :=
  updateEnd (updateEnd (updateEnd (updateEnd (updateEnd 0 (uint32 (langsEnd mem))) (uint32 (reqsEnd mem)))
    (uint32 (componentEnd mem))) (componentAt mem).getLastEnd) (uint32 (filesEnd mem))

/-- What a file holds. -/
def contents (mem : List UInt8) : SISFile :=
  ⟨headerAt mem, langsAt mem, reqsAt mem, componentAt mem, filesAt mem, endAt mem⟩

/-- A table of a file. -/
theorem fillRecords_spec {R : Type} (mem : List UInt8) {fill : ℤ → Sis (R × ℤ)} {safe valid : ℤ → Prop}
    {record : ℤ → R} {next : ℤ → ℤ} (hfill : ∀ b, (fill b).Spec (safe b) (valid b) (record b, next b)) (n : ℕ)
    (b : ℤ) :
    (fillRecords mem.length fill n b).Spec (Outcome.TableSafe (Behind mem) safe valid next n b)
      (Outcome.TableValid (Behind mem) valid next n b) (Outcome.tableRecords record next n b, next^[n] b) :=
  Outcome.Spec.table SisRC.SIS_TRUNCATED (fun b _ => hfill b) n b

/-- A file that is the whole memory. -/
theorem fillFrom_spec (mem : List UInt8) :
    (fillFrom mem 0 mem.length).Spec (Safe mem) (Valid mem) (contents mem) := by
  have hlangs := fillRecords_spec mem (SISLangRecord.fillFrom_spec mem) (headerAt mem).nlangs
    (int32 (headerAt mem).languagePtr)
  have hreqs := fillRecords_spec mem (SISReqRecord.fillFrom_spec mem (headerAt mem).nlangs) (headerAt mem).nreqs
    (int32 (headerAt mem).reqPtr)
  have hcomponent := SISComponentNameRecord.getLastEnd_spec mem (headerAt mem).nlangs
    (int32 (headerAt mem).componentPtr)
  have hfiles := fillRecords_spec mem (SISFileRecord.fillFrom_spec mem (headerAt mem).nlangs) (headerAt mem).nfiles
    (int32 (headerAt mem).filesPtr)
  rw [fillFrom, fillFromOr]
  apply Outcome.Spec.congr
  · apply (SISFileHeader.fillFrom_spec mem).bind
    dsimp only
    apply hlangs.bind
    dsimp only
    apply hreqs.bind
    dsimp only
    apply hcomponent.bind
    dsimp only
    apply hfiles.bind
    exact .value _
  · simp only [true_and, and_true, implies_true]
    exact Iff.rfl
  · intro _
    constructor
    · rintro ⟨hheader, hlangs, hreqs, hcomponent, hfiles, -⟩
      exact ⟨hheader, hlangs, hreqs, hcomponent, hfiles⟩
    · rintro ⟨hheader, hlangs, hreqs, hcomponent, hfiles⟩
      exact ⟨hheader, hlangs, hreqs, hcomponent, hfiles, trivial⟩
  · exact fun _ _ => rfl

end SISFile

end Plptools
