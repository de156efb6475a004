import Plptools.Rfsv.RFSV16
import Plptools.Rfsv.RFSV32
import Plptools.Library.Flags

/-!
# Changes of attributes

The attribute words of the two kinds of devices have different bits, and on a SIBO device that for
read-only is inverted. `RFSV16::fsetattr` inverts it once more, and as every set of attributes without
read-only has the write bit, each of its requests sets or clears that bit. It is also the one function
that sends a name as it is, with its slashes; what a device does with such a name is left open.
-/

namespace Plptools

open Plptools.Library

open BufferStore (wordBytes dwordBytes)

namespace RFSV

/-- The attributes that both kinds of devices have. -/
inductive FileFlag
  | rdonly
  | hidden
  | system
  | archive
deriving DecidableEq, Repr

namespace FileFlag

def std : FileFlag → ℕ
  | rdonly => PSI_A_RDONLY
  | hidden => PSI_A_HIDDEN
  | system => PSI_A_SYSTEM
  | archive => PSI_A_ARCHIVE

def stdBit : FileFlag → ℕ
  | rdonly => 0
  | hidden => 1
  | system => 2
  | archive => 4

/-- Each standard flag is one bit. -/
theorem std_eq (f : FileFlag) : f.std = 2 ^ f.stdBit := by cases f <;> rfl

/-- A SIBO device has a bit for files that can be written to. -/
def inverted : FileFlag → Bool
  | rdonly => true
  | _ => false

/-- An attribute as its bit, or the other way round. -/
def invert (f : FileFlag) (b : Bool) : Bool := bif f.inverted then !b else b

/-- The bit in the words of the devices. -/
def bit : FileFlag → ℕ
  | rdonly => 0
  | hidden => 1
  | system => 2
  | archive => 5

end FileFlag

/-- All four of them. -/
def fileFlags : ℕ := PSI_A_RDONLY ||| PSI_A_HIDDEN ||| PSI_A_SYSTEM ||| PSI_A_ARCHIVE

/-- The arguments of a call: some of the four attributes to set, and others to clear. -/
structure AttrChange where
  seta : ℕ
  unseta : ℕ
  disjoint : seta &&& unseta = 0
  flags : andNot (seta ||| unseta) fileFlags = 0

/-- What a call says of an attribute. -/
def AttrChange.mention (f : FileFlag) (c : AttrChange) : Option Bool :=
  if hasFlag c.seta f.std then some true else if hasFlag c.unseta f.std then some false else none

/-- An attribute after some calls, as the last one that mentions it left it. -/
def leftBy (calls : List AttrChange) (initial : ℕ) (f : FileFlag) : Bool :=
  (lastMention (AttrChange.mention f) calls).getD (hasFlag initial f.std)

/-- The attributes that are read back: the four as they were mentioned, and all others as they were. -/
structure ReadsAsMentioned (initial : ℕ) (calls : List AttrChange) (r : Errs × ℕ) : Prop where
  status : r.1 = E_PSI_GEN_NONE
  flags : ∀ f : FileFlag, hasFlag r.2 f.std = leftBy calls initial f
  others : ∀ i, (∀ f : FileFlag, f.stdBit ≠ i) → r.2.testBit i = initial.testBit i

variable {σ C : Type}

/-- One call after the other. -/
def changeAll (fsetattr : ℕ → ℕ → Client σ C Errs) : List AttrChange → Client σ C Unit
  | [] => return ()
  | c :: calls => do
    let _ ← fsetattr c.seta c.unseta
    changeAll fsetattr calls

/-- What a call does to a word of the device, it does call by call. -/
theorem changeAll_word {fsetattr : ℕ → ℕ → Client σ C Errs} {word : σ → ℕ} {change : ℕ → AttrChange → ℕ}
    (h : ∀ c s, word (fsetattr c.seta c.unseta s).2.server = change (word s.server) c) (calls : List AttrChange)
    (s : Session σ (Request C) (Option Response)) :
    word (changeAll fsetattr calls s).2.server = calls.foldl change (word s.server) := by
  induction calls generalizing s with
  | nil => rfl
  | cons c calls ih =>
    rw [List.foldl_cons, ← h c s]
    exact ih _

/-- The bits that are set if the attribute is. -/
theorem testBit_attrIf (attr a b i : ℕ) : (attrIf attr a b).testBit i = (hasFlag attr a && b.testBit i) := by
  rw [attrIf, hasFlag]
  by_cases h : attr &&& a = 0 <;> simp [h]

/-- An attribute that a bit stands for which is not set. -/
theorem testBit_attrUnless (attr a b i : ℕ) :
    (if attr &&& a = 0 then b else 0).testBit i = (!hasFlag attr a && b.testBit i) := by
  rw [hasFlag]
  by_cases h : attr &&& a = 0 <;> simp [h]

/-- No call mentions any other attribute. -/
theorem AttrChange.not_mentioned (c : AttrChange) {i : ℕ} (hi : ∀ f : FileFlag, f.stdBit ≠ i) :
    hasFlag c.seta (2 ^ i) = false ∧ hasFlag c.unseta (2 ^ i) = false := by
  have hbit : (andNot (c.seta ||| c.unseta) fileFlags).testBit i = false := by
    rw [c.flags, Nat.zero_testBit]
  have hfour : fileFlags.testBit i = false := by
    rw [fileFlags, Nat.testBit_or, Nat.testBit_or, Nat.testBit_or, Bool.or_eq_false_iff, Bool.or_eq_false_iff,
      Bool.or_eq_false_iff]
    have hnot (f : FileFlag) : f.std.testBit i = false := by
      rw [f.std_eq, Nat.testBit_two_pow]
      exact decide_eq_false (hi f)
    exact ⟨⟨⟨hnot .rdonly, hnot .hidden⟩, hnot .system⟩, hnot .archive⟩
  rw [testBit_andNot, hfour, Bool.not_false, Bool.and_true, Nat.testBit_or, Bool.or_eq_false_iff] at hbit
  rw [hasFlag_two_pow, hasFlag_two_pow]
  exact hbit

/-- What is set is not cleared. -/
theorem AttrChange.not_both (c : AttrChange) {f : FileFlag} (h : hasFlag c.seta f.std = true) :
    hasFlag c.unseta f.std = false := by
  rw [f.std_eq, hasFlag_two_pow] at h ⊢
  exact and_eq_zero_iff.mp c.disjoint _ h

/-- What is cleared is what a call says is not to be. -/
theorem AttrChange.hasFlag_unseta (c : AttrChange) (f : FileFlag) :
    hasFlag c.unseta f.std = (c.mention f).elim false (!·) := by
  have hboth := c.not_both (f := f)
  rw [mention]
  cases hseta : hasFlag c.seta f.std with
  | true => exact hboth hseta
  | false => cases hasFlag c.unseta f.std <;> rfl

end RFSV

open RFSV

/-! ### SIBO -/

namespace RFSV16

/-- Both translations of attributes invert the bit for read-only. -/
theorem hasFlag_attr2std (attr : ℕ) (f : FileFlag) :
    hasFlag (attr2std attr) f.std = f.invert (attr.testBit f.bit) := by
  rw [f.std_eq, hasFlag_two_pow, ← hasFlag_two_pow attr, Bool.eq_iff_iff]
  cases f
  all_goals simp +decide only [attr2std, Nat.testBit_or, testBit_attrIf, testBit_attrUnless, Bool.or_eq_true,
    Bool.and_eq_true, and_false, and_true, or_false, false_or]
  all_goals exact Iff.rfl

/-- The flags of a set, as the device has them. -/
theorem testBit_std2attr (attr : ℕ) (f : FileFlag) :
    (std2attr attr).testBit f.bit = f.invert (hasFlag attr f.std) := by
  rw [Bool.eq_iff_iff]
  cases f
  all_goals simp +decide only [std2attr, Nat.testBit_or, testBit_attrIf, testBit_attrUnless, Bool.or_eq_true,
    Bool.and_eq_true, and_false, and_true, or_false, false_or]
  all_goals exact Iff.rfl

/-- Attributes other than the four come from bits other than theirs. -/
theorem testBit_attr2std_congr {a b : ℕ} (h : ∀ j, (∀ f : FileFlag, f.bit ≠ j) → a.testBit j = b.testBit j) {i : ℕ}
    (hi : ∀ f : FileFlag, f.stdBit ≠ i) : (attr2std a).testBit i = (attr2std b).testBit i := by
  have hfour (f : FileFlag) : f.std.testBit i = false := by
    rw [f.std_eq, Nat.testBit_two_pow]
    exact decide_eq_false (hi f)
  have hother (j : ℕ) (hj : ∀ f : FileFlag, f.bit ≠ j) : hasFlag a (2 ^ j) = hasFlag b (2 ^ j) := by
    rw [hasFlag_two_pow, hasFlag_two_pow]
    exact h j hj
  have hrdonly : PSI_A_RDONLY.testBit i = false := hfour .rdonly
  have hhidden : PSI_A_HIDDEN.testBit i = false := hfour .hidden
  have hsystem : PSI_A_SYSTEM.testBit i = false := hfour .system
  have harchive : PSI_A_ARCHIVE.testBit i = false := hfour .archive
  have hvolume : hasFlag a 0x0008 = hasFlag b 0x0008 := hother 3 fun f => by cases f <;> decide
  have hdir : hasFlag a 0x0010 = hasFlag b 0x0010 := hother 4 fun f => by cases f <;> decide
  have hread : hasFlag a 0x0100 = hasFlag b 0x0100 := hother 8 fun f => by cases f <;> decide
  have hexec : hasFlag a 0x0200 = hasFlag b 0x0200 := hother 9 fun f => by cases f <;> decide
  have hstream : hasFlag a 0x0400 = hasFlag b 0x0400 := hother 10 fun f => by cases f <;> decide
  have htext : hasFlag a 0x0800 = hasFlag b 0x0800 := hother 11 fun f => by cases f <;> decide
  simp only [attr2std, Nat.testBit_or, testBit_attrIf, testBit_attrUnless, hrdonly, hhidden, hsystem, harchive,
    hvolume, hdir, hread, hexec, hstream, htext, Bool.and_false, Bool.false_or]

/-- What a request to change attributes is to do. -/
def sfstat (word status mask : ℕ) : ℕ := andNot word mask ||| (status &&& mask)

/-- The word of a file after a call. -/
def change (word : ℕ) (c : AttrChange) : ℕ :=
  sfstat word ((andNot (std2attr c.seta) (std2attr c.unseta) ^^^ 0x0000001) &&& 0xffff)
    ((std2attr c.seta ||| std2attr c.unseta) &&& 0xffff)

/-- The attributes that a call mentions have no bits but those of the four, and the write bit is one
of them. -/
theorem testBit_std2attr_other {attr j : ℕ} (hattr : ∀ i, (∀ f : FileFlag, f.stdBit ≠ i) → hasFlag attr (2 ^ i) = false)
    (hj : ∀ f : FileFlag, f.bit ≠ j) : (std2attr attr).testBit j = false := by
  have hfour (f : FileFlag) : (2 ^ f.bit).testBit j = false := by
    rw [Nat.testBit_two_pow]
    exact decide_eq_false (hj f)
  have hwrite : Nat.testBit 0x0001 j = false := hfour .rdonly
  have hhidden : Nat.testBit 0x0002 j = false := hfour .hidden
  have hsystem : Nat.testBit 0x0004 j = false := hfour .system
  have hmod : Nat.testBit 0x0020 j = false := hfour .archive
  have hdir : hasFlag attr PSI_A_DIR = false := hattr 3 fun f => by cases f <;> decide
  have hvolume : hasFlag attr PSI_A_VOLUME = false := hattr 5 fun f => by cases f <;> decide
  have hread : hasFlag attr PSI_A_READ = false := hattr 9 fun f => by cases f <;> decide
  have hexec : hasFlag attr PSI_A_EXEC = false := hattr 10 fun f => by cases f <;> decide
  have hstream : hasFlag attr PSI_A_STREAM = false := hattr 11 fun f => by cases f <;> decide
  have htext : hasFlag attr PSI_A_TEXT = false := hattr 12 fun f => by cases f <;> decide
  simp only [std2attr, Nat.testBit_or, testBit_attrIf, testBit_attrUnless, hwrite, hhidden, hsystem, hmod, hdir,
    hvolume, hread, hexec, hstream, htext, Bool.and_false, Bool.false_and, Bool.or_false]

/-- A call changes no other bit of the word. -/
theorem testBit_change {j : ℕ} (hj : ∀ f : FileFlag, f.bit ≠ j) (word : ℕ) (c : AttrChange) :
    (change word c).testBit j = word.testBit j := by
  have hseta := testBit_std2attr_other (fun i hi => (c.not_mentioned hi).1) hj
  have hunseta := testBit_std2attr_other (fun i hi => (c.not_mentioned hi).2) hj
  simp only [change, sfstat, Nat.testBit_or, Nat.testBit_and, testBit_andNot, hseta, hunseta, Bool.or_false,
    Bool.false_and, Bool.not_false, Bool.and_true, Bool.and_false]

/-- An attribute as it is read back. -/
def reads (f : FileFlag) (word : ℕ) : Bool := hasFlag (attr2std word) f.std

/-- After a call read-only is set just where it was to be cleared. -/
theorem reads_change (f : FileFlag) (word : ℕ) (c : AttrChange) :
    reads f (change word c) =
      if f = .rdonly then hasFlag c.unseta f.std else (c.mention f).getD (reads f word) := by
  have hlow : Nat.testBit 0xffff f.bit = true := by cases f <;> rfl
  have hone : Nat.testBit 0x0000001 f.bit = f.inverted := by cases f <;> rfl
  have hboth := c.not_both (f := f)
  rw [reads, reads, hasFlag_attr2std, hasFlag_attr2std, change, sfstat, AttrChange.mention]
  simp only [Nat.testBit_or, Nat.testBit_and, Nat.testBit_xor, testBit_andNot, testBit_std2attr, hlow, hone]
  cases hseta : hasFlag c.seta f.std with
  | true =>
    rw [hboth hseta]
    cases f <;> simp [FileFlag.invert, FileFlag.inverted]
  | false =>
    cases hunseta : hasFlag c.unseta f.std <;> cases f <;> simp [FileFlag.invert, FileFlag.inverted]

/-- After some calls read-only is as the last one has it. -/
theorem reads_rdonly (calls : List AttrChange) (word : ℕ) :
    reads .rdonly (calls.foldl change word) =
      (lastMention (fun c => some (hasFlag c.unseta PSI_A_RDONLY)) calls).getD (reads .rdonly word) := by
  have hstep : ∀ word, ∀ c ∈ calls, reads .rdonly (change word c) =
      (some (hasFlag c.unseta PSI_A_RDONLY)).getD (reads .rdonly word) := fun word c _ => by
    rw [reads_change, if_pos rfl]
    rfl
  exact foldl_lastMention hstep word

/-- The other attributes are as they are mentioned. -/
theorem reads_foldl {f : FileFlag} (hf : f ≠ .rdonly) (calls : List AttrChange) (word : ℕ) :
    reads f (calls.foldl change word) = leftBy calls (attr2std word) f := by
  have hstep : ∀ word, ∀ c ∈ calls, reads f (change word c) = (c.mention f).getD (reads f word) :=
    fun word c _ => by rw [reads_change, if_neg hf]
  exact foldl_lastMention hstep word

/-- Attributes other than the four are as they were. -/
theorem others_foldl (calls : List AttrChange) (word : ℕ) {i : ℕ} (hi : ∀ f : FileFlag, f.stdBit ≠ i) :
    (attr2std (calls.foldl change word)).testBit i = (attr2std word).testBit i := by
  refine testBit_attr2std_congr (fun j hj => ?_) hi
  induction calls generalizing word with
  | nil => rfl
  | cons c calls ih => exact (ih (change word c)).trans (testBit_change hj word c)

/-- A device, as far as the attributes of one file go, which it knows by its name with backslashes. -/
structure AttrServer {σ : Type} (name : List UInt8) (answer : σ → Request Commands → Response × σ) where
  word : σ → ℕ
  set : ∀ d (status mask : ℕ), status < 2 ^ 16 → mask < 2 ^ 16 →
    word (answer d ⟨.SIBO_SFSTAT, wordBytes status ++ wordBytes mask ++ convertSlash name ++ [0]⟩).2 =
      sfstat (word d) status mask
  get : ∀ d, (answer d ⟨.SIBO_FINFO, convertSlash name ++ [0]⟩).1.status = E_PSI_GEN_NONE ∧
    (answer d ⟨.SIBO_FINFO, convertSlash name ++ [0]⟩).1.data.length = 16 ∧
    getWord (answer d ⟨.SIBO_FINFO, convertSlash name ++ [0]⟩).1.data 2 = word d

variable {σ : Type} {name : List UInt8} {answer : σ → Request Commands → Response × σ}

/-- The attributes behind a sequence of calls. -/
def attrAfter (answer : Device σ Commands) (name : List UInt8) (calls : List AttrChange) :
    Client σ Commands (Errs × ℕ) := do
  changeAll (fsetattr answer name) calls
  fgetattr answer name 0

/-- The word that is there behind the calls is read back. -/
theorem attrAfter_word (server : AttrServer name answer) (calls : List AttrChange)
    (s : Session σ (Request Commands) (Option Response)) {word : ℕ}
    (hword : server.word (changeAll (fsetattr (up answer) name) calls s).2.server = word) :
    (attrAfter (up answer) name calls s).1 = (E_PSI_GEN_NONE, attr2std word) := by
  obtain ⟨hstatus, hlength, hget⟩ := server.get (changeAll (fsetattr (up answer) name) calls s).2.server
  rw [attrAfter, Dialogue.bind_apply, ← hword, ← hget, fgetattr, Dialogue.bind_apply, sendCommand,
    Dialogue.ask_apply, up]
  dsimp only
  rw [hstatus, if_neg (not_not_intro rfl), if_pos hlength]
  rfl

/-- A name without slashes is sent as it is. -/
theorem convertSlash_of_not_mem (hslash : 0x2f ∉ cString name) : convertSlash name = cString name := by
  rw [convertSlash]
  refine (List.map_congr_left fun c hc => ?_).trans (List.map_id _)
  have hne : c ≠ 0x2f := fun h => hslash (h ▸ hc)
  rw [if_neg hne, id]

/-- The device does what the calls ask for, and its word is read back. -/
theorem attrAfter_eq (server : AttrServer name answer) (hslash : 0x2f ∉ cString name) (calls : List AttrChange)
    (s : Session σ (Request Commands) (Option Response)) :
    (attrAfter (up answer) name calls s).1 =
      (E_PSI_GEN_NONE, attr2std (calls.foldl change (server.word s.server))) := by
  have hcall (c : AttrChange) (s : Session σ (Request Commands) (Option Response)) :
      server.word (fsetattr (up answer) name c.seta c.unseta s).2.server = change (server.word s.server) c := by
    have hset := server.set s.server
      ((andNot (std2attr c.seta) (std2attr c.unseta) ^^^ 0x0000001) &&& 0xffff)
      ((std2attr c.seta ||| std2attr c.unseta) &&& 0xffff)
      (Nat.and_lt_two_pow _ (by decide)) (Nat.and_lt_two_pow _ (by decide))
    rw [convertSlash_of_not_mem hslash] at hset
    exact hset
  exact attrAfter_word server calls s (changeAll_word hcall calls s)

/-- The last call, if there is one, does not mention read-only, and before it read-only was left, or was
from the beginning, not set. -/
def LeavesReadOnly (initial : ℕ) (calls : List AttrChange) : Prop :=
  ∀ c ∈ calls.getLast?, c.mention .rdonly = none ∧ leftBy calls initial .rdonly = false

/-- Read-only is as it was mentioned where nothing happened to it. -/
theorem reads_rdonly_iff (calls : List AttrChange) (word : ℕ) :
    reads .rdonly (calls.foldl change word) = leftBy calls (attr2std word) .rdonly ↔
      LeavesReadOnly (attr2std word) calls := by
  rw [reads_rdonly, LeavesReadOnly]
  obtain rfl | ⟨before, c, rfl⟩ := calls.eq_nil_or_concat
  · exact ⟨fun _ c hc => (by cases hc), fun _ => rfl⟩
  · have hunseta := c.hasFlag_unseta .rdonly
    simp only [List.concat_eq_append, leftBy, lastMention_concat, List.getLast?_concat, Option.mem_def,
      Option.some.injEq, forall_eq', Option.some_or, Option.getD_some]
    change hasFlag c.unseta FileFlag.rdonly.std = _ ↔ _
    rw [hunseta]
    cases c.mention .rdonly with
    | none => exact eq_comm.trans (and_iff_right rfl).symm
    | some b => cases b <;> exact ⟨fun h => absurd h Bool.noConfusion, fun h => absurd h.1 (Option.some_ne_none _)⟩

/-- The attributes are read back as they are mentioned just when read-only is never touched. -/
theorem readsAsMentioned_iff (server : AttrServer name answer) (hslash : 0x2f ∉ cString name)
    (calls : List AttrChange) (s : Session σ (Request Commands) (Option Response)) :
    ReadsAsMentioned (attr2std (server.word s.server)) calls (attrAfter (up answer) name calls s).1 ↔
      LeavesReadOnly (attr2std (server.word s.server)) calls := by
  rw [attrAfter_eq server hslash]
  have hflags : ReadsAsMentioned (attr2std (server.word s.server)) calls
        (E_PSI_GEN_NONE, attr2std (calls.foldl change (server.word s.server))) ↔
      ∀ f, reads f (calls.foldl change (server.word s.server)) =
        leftBy calls (attr2std (server.word s.server)) f :=
    ⟨fun h => h.flags, fun h => ⟨rfl, h, fun _ hi => others_foldl calls _ hi⟩⟩
  rw [hflags]
  have hiff : (∀ f, reads f (calls.foldl change (server.word s.server)) =
        leftBy calls (attr2std (server.word s.server)) f) ↔
      reads .rdonly (calls.foldl change (server.word s.server)) =
        leftBy calls (attr2std (server.word s.server)) .rdonly := by
    constructor
    · exact fun h => h .rdonly
    · intro h f
      by_cases hf : f = .rdonly
      · rw [hf]
        exact h
      · exact reads_foldl hf calls _
  exact hiff.trans (reads_rdonly_iff calls _)

end RFSV16

/-! ### EPOC -/

namespace RFSV32

/-- The flags that are read. -/
theorem hasFlag_attr2std (attr : ℕ) (f : FileFlag) : hasFlag (attr2std attr) f.std = attr.testBit f.bit := by
  rw [f.std_eq, hasFlag_two_pow, ← hasFlag_two_pow attr, Bool.eq_iff_iff]
  cases f
  all_goals simp +decide only [attr2std, Nat.testBit_or, testBit_attrIf, Bool.or_eq_true, Bool.and_eq_true, and_false,
    and_true, or_false, false_or]
  all_goals exact Iff.rfl

/-- The flags of a set, as the device has them. -/
theorem testBit_std2attr (attr : ℕ) (f : FileFlag) : (std2attr attr).testBit f.bit = hasFlag attr f.std := by
  rw [Bool.eq_iff_iff]
  cases f
  all_goals simp +decide only [std2attr, Nat.testBit_or, testBit_attrIf, Bool.or_eq_true, Bool.and_eq_true, and_false,
    and_true, or_false, false_or]
  all_goals exact Iff.rfl

/-- Attributes other than the four come from bits other than theirs. -/
theorem testBit_attr2std_congr {a b : ℕ} (h : ∀ j, (∀ f : FileFlag, f.bit ≠ j) → a.testBit j = b.testBit j) {i : ℕ}
    (hi : ∀ f : FileFlag, f.stdBit ≠ i) : (attr2std a).testBit i = (attr2std b).testBit i := by
  have hfour (f : FileFlag) : f.std.testBit i = false := by
    rw [f.std_eq, Nat.testBit_two_pow]
    exact decide_eq_false (hi f)
  have hother (j : ℕ) (hj : ∀ f : FileFlag, f.bit ≠ j) : hasFlag a (2 ^ j) = hasFlag b (2 ^ j) := by
    rw [hasFlag_two_pow, hasFlag_two_pow]
    exact h j hj
  have hrdonly : PSI_A_RDONLY.testBit i = false := hfour .rdonly
  have hhidden : PSI_A_HIDDEN.testBit i = false := hfour .hidden
  have hsystem : PSI_A_SYSTEM.testBit i = false := hfour .system
  have harchive : PSI_A_ARCHIVE.testBit i = false := hfour .archive
  have hdir : hasFlag a EPOC_ATTR_DIRECTORY = hasFlag b EPOC_ATTR_DIRECTORY := hother 4 fun f => by cases f <;> decide
  have hvolume : hasFlag a 0x0040 = hasFlag b 0x0040 := hother 6 fun f => by cases f <;> decide
  have hnormal : hasFlag a 0x0080 = hasFlag b 0x0080 := hother 7 fun f => by cases f <;> decide
  have htemp : hasFlag a 0x0100 = hasFlag b 0x0100 := hother 8 fun f => by cases f <;> decide
  have hcompressed : hasFlag a 0x0800 = hasFlag b 0x0800 := hother 11 fun f => by cases f <;> decide
  simp only [attr2std, Nat.testBit_or, testBit_attrIf, hrdonly, hhidden, hsystem, harchive, hdir, hvolume, hnormal,
    htemp, hcompressed, Bool.and_false, Bool.false_or]

/-- The attributes that a call mentions have no bits but those of the four. -/
theorem testBit_std2attr_other {attr j : ℕ} (hattr : ∀ i, (∀ f : FileFlag, f.stdBit ≠ i) → hasFlag attr (2 ^ i) = false)
    (hj : ∀ f : FileFlag, f.bit ≠ j) : (std2attr attr).testBit j = false := by
  have hfour (f : FileFlag) : (2 ^ f.bit).testBit j = false := by
    rw [Nat.testBit_two_pow]
    exact decide_eq_false (hj f)
  have hrdonly : Nat.testBit 0x0001 j = false := hfour .rdonly
  have hhidden : EPOC_ATTR_HIDDEN.testBit j = false := hfour .hidden
  have hsystem : EPOC_ATTR_SYSTEM.testBit j = false := hfour .system
  have harchive : Nat.testBit 0x0020 j = false := hfour .archive
  have hdir : hasFlag attr PSI_A_DIR = false := hattr 3 fun f => by cases f <;> decide
  have hvolume : hasFlag attr PSI_A_VOLUME = false := hattr 5 fun f => by cases f <;> decide
  have hnormal : hasFlag attr PSI_A_NORMAL = false := hattr 6 fun f => by cases f <;> decide
  have htemp : hasFlag attr PSI_A_TEMP = false := hattr 7 fun f => by cases f <;> decide
  have hcompressed : hasFlag attr PSI_A_COMPRESSED = false := hattr 8 fun f => by cases f <;> decide
  simp only [std2attr, Nat.testBit_or, testBit_attrIf, hrdonly, hhidden, hsystem, harchive, hdir, hvolume, hnormal,
    htemp, hcompressed, Bool.and_false, Bool.false_and, Bool.or_false]

/-- The word of a file after a call. -/
def change (word : ℕ) (c : AttrChange) : ℕ := andNot (word ||| std2attr c.seta) (std2attr c.unseta)

/-- A call changes no other bit of the word. -/
theorem testBit_change {j : ℕ} (hj : ∀ f : FileFlag, f.bit ≠ j) (word : ℕ) (c : AttrChange) :
    (change word c).testBit j = word.testBit j := by
  have hseta := testBit_std2attr_other (fun i hi => (c.not_mentioned hi).1) hj
  have hunseta := testBit_std2attr_other (fun i hi => (c.not_mentioned hi).2) hj
  rw [change, testBit_andNot, Nat.testBit_or, hseta, hunseta, Bool.or_false, Bool.not_false, Bool.and_true]

/-- An attribute as it is read back. -/
def reads (f : FileFlag) (word : ℕ) : Bool := hasFlag (attr2std word) f.std

/-- After a call each attribute is as it mentions it. -/
theorem reads_change (f : FileFlag) (word : ℕ) (c : AttrChange) :
    reads f (change word c) = (c.mention f).getD (reads f word) := by
  have hboth := c.not_both (f := f)
  rw [reads, reads, hasFlag_attr2std, hasFlag_attr2std, change, AttrChange.mention, testBit_andNot, Nat.testBit_or,
    testBit_std2attr, testBit_std2attr]
  cases hseta : hasFlag c.seta f.std with
  | true =>
    rw [hboth hseta, Bool.or_true]
    rfl
  | false =>
    rw [Bool.or_false]
    cases hunseta : hasFlag c.unseta f.std with
    | true => exact Bool.and_false _
    | false => exact Bool.and_true _

/-- Each attribute is as it is mentioned. -/
theorem reads_foldl (f : FileFlag) (calls : List AttrChange) (word : ℕ) :
    reads f (calls.foldl change word) = leftBy calls (attr2std word) f := by
  have hstep : ∀ word, ∀ c ∈ calls, reads f (change word c) = (c.mention f).getD (reads f word) :=
    fun word c _ => reads_change f word c
  exact foldl_lastMention hstep word

/-- Attributes other than the four are as they were. -/
theorem others_foldl (calls : List AttrChange) (word : ℕ) {i : ℕ} (hi : ∀ f : FileFlag, f.stdBit ≠ i) :
    (attr2std (calls.foldl change word)).testBit i = (attr2std word).testBit i := by
  refine testBit_attr2std_congr (fun j hj => ?_) hi
  induction calls generalizing word with
  | nil => rfl
  | cons c calls ih => exact (ih (change word c)).trans (testBit_change hj word c)

/-- A device, as far as the attributes of one file go. -/
structure AttrServer {σ : Type} (name : List UInt8) (answer : σ → Request Commands → Response × σ) where
  word : σ → ℕ
  set : ∀ d (set clear : ℕ), set < 2 ^ 32 → clear < 2 ^ 32 →
    word (answer d ⟨.SET_ATT, dwordBytes set ++ dwordBytes clear ++ counted name⟩).2 = andNot (word d ||| set) clear
  get : ∀ d, (answer d ⟨.ATT, counted name⟩).1.status = E_PSI_GEN_NONE ∧
    getDWord (answer d ⟨.ATT, counted name⟩).1.data 0 = word d

/-- The attributes fit in a double word. -/
theorem std2attr_lt (attr : ℕ) : std2attr attr < 2 ^ 32 := by
  have hbit {a b : ℕ} (h : b < 2 ^ 32) : attrIf attr a b < 2 ^ 32 := by
    rw [attrIf]
    split
    · exact h
    · decide
  unfold std2attr
  iterate 8 refine Nat.or_lt_two_pow ?_ (hbit (by decide))
  exact hbit (by decide)

variable {σ : Type} {name : List UInt8} {answer : σ → Request Commands → Response × σ}

/-- The attributes behind a sequence of calls. -/
def attrAfter (answer : Device σ Commands) (name : List UInt8) (calls : List AttrChange) :
    Client σ Commands (Errs × ℕ) := do
  changeAll (fsetattr answer name) calls
  fgetattr answer name 0

/-- The device does what the calls ask for, and its word is read back. -/
theorem attrAfter_eq (server : AttrServer name answer) (calls : List AttrChange)
    (s : Session σ (Request Commands) (Option Response)) :
    (attrAfter (up answer) name calls s).1 =
      (E_PSI_GEN_NONE, attr2std (calls.foldl change (server.word s.server))) := by
  have hcall (c : AttrChange) (s : Session σ (Request Commands) (Option Response)) :
      server.word (fsetattr (up answer) name c.seta c.unseta s).2.server = change (server.word s.server) c :=
    server.set s.server _ _ (std2attr_lt _) (std2attr_lt _)
  have hword := changeAll_word hcall calls s
  obtain ⟨hstatus, hget⟩ := server.get (changeAll (fsetattr (up answer) name) calls s).2.server
  rw [attrAfter, Dialogue.bind_apply, ← hword, ← hget, fgetattr, Dialogue.bind_apply, sendCommand,
    Dialogue.ask_apply, up]
  dsimp only
  rw [hstatus, if_neg (not_not_intro rfl)]
  rfl

end RFSV32

/-! ### The two of them -/

namespace RFSV

/-- What two devices read back after the same calls. -/
structure BothRead (initial₁₆ initial₃₂ : ℕ) (calls : List AttrChange) (r₁₆ r₃₂ : Errs × ℕ) : Prop where
  sibo : ReadsAsMentioned initial₁₆ calls r₁₆
  epoc : ReadsAsMentioned initial₃₂ calls r₃₂
  agree : (∀ f : FileFlag, hasFlag initial₁₆ f.std = hasFlag initial₃₂ f.std) →
    ∀ f : FileFlag, hasFlag r₁₆.2 f.std = hasFlag r₃₂.2 f.std

/-- Whatever the devices do with requests for other names: calls for a file change only what they
mention, if they start from two words. -/
def ChangesOnlyNamed (name : List UInt8) (initial₁₆ : UInt16) (initial₃₂ : UInt32) (calls : List AttrChange) : Prop :=
  ∀ (σ₁₆ σ₃₂ : Type) (answer₁₆ : σ₁₆ → Request RFSV16.Commands → Response × σ₁₆)
    (answer₃₂ : σ₃₂ → Request RFSV32.Commands → Response × σ₃₂) (server₁₆ : RFSV16.AttrServer name answer₁₆)
    (server₃₂ : RFSV32.AttrServer name answer₃₂) (s₁₆ : Session σ₁₆ (Request RFSV16.Commands) (Option Response))
    (s₃₂ : Session σ₃₂ (Request RFSV32.Commands) (Option Response)),
    server₁₆.word s₁₆.server = initial₁₆.toNat → server₃₂.word s₃₂.server = initial₃₂.toNat →
      BothRead (RFSV16.attr2std initial₁₆.toNat) (RFSV32.attr2std initial₃₂.toNat) calls
        (RFSV16.attrAfter (up answer₁₆) name calls s₁₆).1 (RFSV32.attrAfter (up answer₃₂) name calls s₃₂).1

/-- A SIBO device with a single file, of which only the attributes matter. A request to change those of
another file sets the word `other`. -/
def siboFile (name : List UInt8) (other : UInt16) (d : UInt16) (q : Request RFSV16.Commands) : Response × UInt16 :=
  match q.command with
  | .SIBO_SFSTAT => (⟨E_PSI_GEN_NONE, []⟩, if q.data.drop 4 = convertSlash name ++ [0] then
      .ofNat (RFSV16.sfstat d.toNat (getWord q.data 0) (getWord q.data 2)) else other)
  | _ => (⟨E_PSI_GEN_NONE, wordBytes 2 ++ wordBytes d.toNat ++ List.replicate 12 0⟩, d)

/-- An EPOC device with a single file. -/
def epocFile (d : UInt32) (q : Request RFSV32.Commands) : Response × UInt32 :=
  match q.command with
  | .SET_ATT => (⟨E_PSI_GEN_NONE, []⟩, .ofNat (andNot (d.toNat ||| getDWord q.data 0) (getDWord q.data 4)))
  | _ => (⟨E_PSI_GEN_NONE, dwordBytes d.toNat⟩, d)

/-- It does what the requests for its file ask for. -/
def siboServer (name : List UInt8) (other : UInt16) : RFSV16.AttrServer name (siboFile name other) where
  word d := d.toNat
  set := by
    intro d status mask hstatus hmask
    have hlt : RFSV16.sfstat d.toNat status mask < 2 ^ 16 :=
      Nat.or_lt_two_pow (andNot_lt mask d.toNat_lt) (Nat.and_lt_two_pow _ hmask)
    have hword : getWord (wordBytes status ++ wordBytes mask ++ convertSlash name ++ [0]) 0 = status :=
      getWord_wordBytes hstatus
    have hnext : getWord (wordBytes status ++ wordBytes mask ++ convertSlash name ++ [0]) 2 = mask :=
      getWord_wordBytes hmask
    have hname : (wordBytes status ++ wordBytes mask ++ convertSlash name ++ [0]).drop 4 = convertSlash name ++ [0] :=
      rfl
    rw [siboFile, hword, hnext, hname, if_pos rfl]
    exact UInt16.toNat_ofNat_of_lt' hlt
  get := by
    intro d
    have hget : getWord (wordBytes d.toNat) 0 = d.toNat := getWord_wordBytes d.toNat_lt
    exact ⟨rfl, rfl, hget⟩

def epocServer (name : List UInt8) : RFSV32.AttrServer name epocFile where
  word d := d.toNat
  set := by
    intro d set clear hset hclear
    have hlt : andNot (d.toNat ||| set) clear < 2 ^ 32 := andNot_lt clear (Nat.or_lt_two_pow d.toNat_lt hset)
    have hdword : getDWord (dwordBytes set ++ dwordBytes clear ++ RFSV32.counted name) 0 = set :=
      getDWord_natCast hset
    have hnext : getDWord (dwordBytes set ++ dwordBytes clear ++ RFSV32.counted name) 4 = clear :=
      getDWord_natCast hclear
    rw [epocFile, hdword, hnext]
    exact UInt32.toNat_ofNat_of_lt' hlt
  get := by
    intro d
    exact ⟨rfl, getDWord_natCast d.toNat_lt⟩

/-- Converted names have no slashes. -/
theorem slash_not_mem_convertSlash (name : List UInt8) : 0x2f ∉ convertSlash name := by
  intro h
  obtain ⟨c, -, hc⟩ := List.mem_map.mp h
  split at hc
  · exact absurd hc (by decide)
  · contradiction

/-- Requests with slashes in the name are none for the file. -/
theorem changeAll_siboFile {name : List UInt8} (hslash : 0x2f ∈ cString name) (other : UInt16) (c : AttrChange)
    (calls : List AttrChange) (s : Session UInt16 (Request RFSV16.Commands) (Option Response)) :
    (changeAll (RFSV16.fsetattr (up (siboFile name other)) name) (c :: calls) s).2.server = other := by
  have hname : cString name ++ [0] ≠ convertSlash name ++ [0] := fun h =>
    slash_not_mem_convertSlash name (List.append_cancel_right h ▸ hslash)
  have hcall (c : AttrChange) (s : Session UInt16 (Request RFSV16.Commands) (Option Response)) :
      (RFSV16.fsetattr (up (siboFile name other)) name c.seta c.unseta s).2.server = other :=
    if_neg hname
  induction calls generalizing c s with
  | nil => exact hcall c s
  | cons d calls ih => exact ih d _

/-- A device that takes the slashes for part of another name changes what it likes. -/
theorem not_changesOnlyNamed_slash {name : List UInt8} (hslash : 0x2f ∈ cString name) (initial₁₆ : UInt16)
    (initial₃₂ : UInt32) (c : AttrChange) (calls : List AttrChange) :
    ¬ChangesOnlyNamed name initial₁₆ initial₃₂ (c :: calls) := by
  intro h
  have hread (other : UInt16) : hasFlag (RFSV16.attr2std other.toNat) FileFlag.hidden.std =
      leftBy (c :: calls) (RFSV16.attr2std initial₁₆.toNat) .hidden := by
    have hboth := h _ _ _ _ (siboServer name other) (epocServer name) ⟨initial₁₆, []⟩ ⟨initial₃₂, []⟩ rfl rfl
    have hword := RFSV16.attrAfter_word (siboServer name other) (c :: calls) ⟨initial₁₆, []⟩
      (congrArg UInt16.toNat (changeAll_siboFile hslash other c calls _))
    have hflag := hboth.sibo.flags .hidden
    rwa [hword] at hflag
  -- hidden can be left in one way only
  have hdiffer : hasFlag (RFSV16.attr2std (0 : UInt16).toNat) FileFlag.hidden.std ≠
      hasFlag (RFSV16.attr2std (2 : UInt16).toNat) FileFlag.hidden.std := by decide
  exact hdiffer ((hread 0).trans (hread 2).symm)

/-- An EPOC device has each attribute as it was mentioned. -/
theorem readsAsMentioned_epoc {σ : Type} {name : List UInt8} {answer : σ → Request RFSV32.Commands → Response × σ}
    (server : RFSV32.AttrServer name answer) (calls : List AttrChange)
    (s : Session σ (Request RFSV32.Commands) (Option Response)) :
    ReadsAsMentioned (RFSV32.attr2std (server.word s.server)) calls
      (RFSV32.attrAfter (up answer) name calls s).1 := by
  rw [RFSV32.attrAfter_eq server]
  exact ⟨rfl, fun f => RFSV32.reads_foldl f calls _, fun _ hi => RFSV32.others_foldl calls _ hi⟩

/-- Only what is named is changed on both devices just when nothing is called, or the name is one without
slashes and read-only is never touched on the SIBO one. -/
theorem changesOnlyNamed_iff (name : List UInt8) (initial₁₆ : UInt16) (initial₃₂ : UInt32) (calls : List AttrChange) :
    ChangesOnlyNamed name initial₁₆ initial₃₂ calls ↔
      calls = [] ∨ 0x2f ∉ cString name ∧ RFSV16.LeavesReadOnly (RFSV16.attr2std initial₁₆.toNat) calls := by
  constructor
  · intro h
    cases calls with
    | nil => exact .inl rfl
    | cons c calls =>
      have hslash : 0x2f ∉ cString name := fun hslash =>
        not_changesOnlyNamed_slash hslash initial₁₆ initial₃₂ c calls h
      have hboth := h _ _ _ _ (siboServer name 0) (epocServer name) ⟨initial₁₆, []⟩ ⟨initial₃₂, []⟩ rfl rfl
      exact .inr ⟨hslash, (RFSV16.readsAsMentioned_iff (siboServer name 0) hslash _ ⟨initial₁₆, []⟩).mp hboth.sibo⟩
  · intro h σ₁₆ σ₃₂ answer₁₆ answer₃₂ server₁₆ server₃₂ s₁₆ s₃₂ hword₁₆ hword₃₂
    have hsibo : ReadsAsMentioned (RFSV16.attr2std initial₁₆.toNat) calls
        (RFSV16.attrAfter (up answer₁₆) name calls s₁₆).1 := by
      obtain rfl | ⟨hslash, hleaves⟩ := h
      · rw [RFSV16.attrAfter_word server₁₆ [] s₁₆ hword₁₆]
        exact ⟨rfl, fun _ => rfl, fun _ _ => rfl⟩
      · rw [← hword₁₆] at hleaves ⊢
        exact (RFSV16.readsAsMentioned_iff server₁₆ hslash calls s₁₆).mpr hleaves
    have hepoc := readsAsMentioned_epoc server₃₂ calls s₃₂
    rw [hword₃₂] at hepoc
    refine ⟨hsibo, hepoc, fun hinitial f => ?_⟩
    rw [hsibo.flags, hepoc.flags, leftBy, leftBy, hinitial]

/-- Read-only is set, and the file can be written to. -/
theorem not_changesOnlyNamed_rdonly : ¬ChangesOnlyNamed [0x61] 1 0 [⟨PSI_A_RDONLY, 0, rfl, rfl⟩] := by
  intro h
  have hboth := h _ _ _ _ (siboServer [0x61] 0) (epocServer [0x61]) ⟨1, []⟩ ⟨0, []⟩ rfl rfl
  exact absurd (hboth.sibo.flags .rdonly) (by decide)

end RFSV

end Plptools
