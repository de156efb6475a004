import Plptools.Rfsv.RFSV
import Mathlib.Logic.Basic

/-!
# Error values and their texts

Each layer makes an error value of what the device sends as a status, and the class that holds it has an
assertion that there is a text for it. A SIBO status is taken as it is, and so is the byte of the process
service; an EPOC status is looked up in a table.
-/

namespace Plptools

namespace RFSV

def E_PSI_GEN_OS : Errs := -3

def E_PSI_GEN_NSUP : Errs := -4

def E_PSI_GEN_UNDER : Errs := -5

def E_PSI_GEN_OVER : Errs := -6

def E_PSI_GEN_RANGE : Errs := -7

def E_PSI_GEN_DIVIDE : Errs := -8

def E_PSI_GEN_INUSE : Errs := -9

def E_PSI_GEN_NOMEMORY : Errs := -10

def E_PSI_GEN_NOSEGMENTS : Errs := -11

def E_PSI_GEN_NOSEM : Errs := -12

def E_PSI_GEN_NOPROC : Errs := -13

def E_PSI_GEN_OPEN : Errs := -14

def E_PSI_GEN_NOTOPEN : Errs := -15

def E_PSI_GEN_IMAGE : Errs := -16

def E_PSI_GEN_RECEIVER : Errs := -17

def E_PSI_GEN_DEVICE : Errs := -18

def E_PSI_GEN_FSYS : Errs := -19

def E_PSI_GEN_START : Errs := -20

def E_PSI_GEN_NOFONT : Errs := -21

def E_PSI_GEN_TOOWIDE : Errs := -22

def E_PSI_GEN_TOOMANY : Errs := -23

def E_PSI_FILE_EXIST : Errs := -32

def E_PSI_FILE_WRITE : Errs := -34

def E_PSI_FILE_READ : Errs := -35

def E_PSI_FILE_FULL : Errs := -37

def E_PSI_FILE_NAME : Errs := -38

def E_PSI_FILE_ACCESS : Errs := -39

def E_PSI_FILE_LOCKED : Errs := -40

def E_PSI_FILE_DEVICE : Errs := -41

def E_PSI_FILE_DIR : Errs := -42

def E_PSI_FILE_RECORD : Errs := -43

def E_PSI_FILE_RDONLY : Errs := -44

def E_PSI_FILE_INV : Errs := -45

def E_PSI_FILE_PENDING : Errs := -46

def E_PSI_FILE_VOLUME : Errs := -47

def E_PSI_FILE_ALLOC : Errs := -49

def E_PSI_FILE_CONNECT : Errs := -51

def E_PSI_FILE_RETRAN : Errs := -52

def E_PSI_FILE_LINE : Errs := -53

def E_PSI_FILE_INACT : Errs := -54

def E_PSI_FILE_PARITY : Errs := -55

def E_PSI_FILE_FRAME : Errs := -56

def E_PSI_FILE_OVERRUN : Errs := -57

def E_PSI_MDM_CONFAIL : Errs := -58

def E_PSI_MDM_BUSY : Errs := -59

def E_PSI_MDM_NOANS : Errs := -60

def E_PSI_MDM_BLACKLIST : Errs := -61

def E_PSI_FILE_NOTREADY : Errs := -62

def E_PSI_FILE_UNKNOWN : Errs := -63

def E_PSI_FILE_DIRFULL : Errs := -64

def E_PSI_FILE_PROTECT : Errs := -65

def E_PSI_FILE_CORRUPT : Errs := -66

def E_PSI_FILE_ABORT : Errs := -67

def E_PSI_FILE_ERASE : Errs := -68

def E_PSI_FILE_INVALID : Errs := -69

def E_PSI_GEN_POWER : Errs := -100

def E_PSI_FILE_TOOBIG : Errs := -101

def E_PSI_GEN_DESCR : Errs := -102

def E_PSI_GEN_LIB : Errs := -103

def E_PSI_FILE_NDISC : Errs := -104

def E_PSI_FILE_DRIVER : Errs := -105

def E_PSI_FILE_COMPLETION : Errs := -106

def E_PSI_GEN_BUSY : Errs := -107

def E_PSI_GEN_TERMINATED : Errs := -108

def E_PSI_GEN_DIED : Errs := -109

def E_PSI_FILE_HANDLE : Errs := -110

def E_PSI_NOT_SIBO : Errs := -200

def E_PSI_INTERNAL : Errs := -201

/-- The values that are added to the map of texts. -/
def stringRep : List Errs :=
  [E_PSI_GEN_NONE, E_PSI_GEN_FAIL, E_PSI_GEN_ARG, E_PSI_GEN_OS, E_PSI_GEN_NSUP, E_PSI_GEN_UNDER,
    E_PSI_GEN_OVER, E_PSI_GEN_RANGE, E_PSI_GEN_INUSE, E_PSI_GEN_NOMEMORY, E_PSI_GEN_NOSEGMENTS,
    E_PSI_GEN_NOSEM, E_PSI_GEN_NOPROC, E_PSI_GEN_OPEN, E_PSI_GEN_NOTOPEN, E_PSI_GEN_IMAGE, E_PSI_GEN_RECEIVER,
    E_PSI_GEN_DEVICE, E_PSI_GEN_FSYS, E_PSI_GEN_START, E_PSI_GEN_NOFONT, E_PSI_GEN_TOOWIDE, E_PSI_GEN_TOOMANY,
    E_PSI_FILE_EXIST, E_PSI_FILE_NXIST, E_PSI_FILE_WRITE, E_PSI_FILE_READ, E_PSI_FILE_EOF, E_PSI_FILE_FULL,
    E_PSI_FILE_NAME, E_PSI_FILE_ACCESS, E_PSI_FILE_LOCKED, E_PSI_FILE_DEVICE, E_PSI_FILE_DIR,
    E_PSI_FILE_RECORD, E_PSI_FILE_RDONLY, E_PSI_FILE_INV, E_PSI_FILE_PENDING, E_PSI_FILE_VOLUME,
    E_PSI_FILE_CANCEL, E_PSI_FILE_ALLOC, E_PSI_FILE_DISC, E_PSI_FILE_CONNECT, E_PSI_FILE_RETRAN,
    E_PSI_FILE_LINE, E_PSI_FILE_INACT, E_PSI_FILE_PARITY, E_PSI_FILE_FRAME, E_PSI_FILE_OVERRUN,
    E_PSI_MDM_CONFAIL, E_PSI_MDM_BUSY, E_PSI_MDM_NOANS, E_PSI_MDM_BLACKLIST, E_PSI_FILE_NOTREADY,
    E_PSI_FILE_UNKNOWN, E_PSI_FILE_DIRFULL, E_PSI_FILE_PROTECT, E_PSI_FILE_CORRUPT, E_PSI_FILE_ABORT,
    E_PSI_FILE_ERASE, E_PSI_FILE_INVALID, E_PSI_GEN_POWER, E_PSI_FILE_TOOBIG, E_PSI_GEN_DESCR, E_PSI_GEN_LIB,
    E_PSI_FILE_NDISC, E_PSI_FILE_DRIVER, E_PSI_FILE_COMPLETION, E_PSI_GEN_BUSY, E_PSI_GEN_TERMINATED,
    E_PSI_GEN_DIED, E_PSI_FILE_HANDLE, E_PSI_NOT_SIBO, E_PSI_INTERNAL]

/-- `Enum<RFSV::errs>`, a value with a text. -/
def EnumErrs : Type := { e : Errs // e ∈ stringRep }

/-- The constructor. There is nothing where its assertion fails. -/
def EnumErrs.new (init : Errs) : Option EnumErrs := if h : init ∈ stringRep then some ⟨init, h⟩ else none

/-- The assertion holds just for registered values. -/
theorem EnumErrs.isSome_new (init : Errs) : (EnumErrs.new init).isSome = true ↔ init ∈ stringRep := by
  rw [new]
  split
  case isTrue h => exact iff_of_true rfl h
  case isFalse h => exact iff_of_false Bool.false_ne_true h

/-- The intervals that the values with a text lie in. -/
def HasText (e : ℤ) : Prop :=
  -7 ≤ e ∧ e ≤ 0 ∨ -23 ≤ e ∧ e ≤ -9 ∨ -69 ≤ e ∧ e ≤ -32 ∨ -110 ≤ e ∧ e ≤ -100 ∨ -201 ≤ e ∧ e ≤ -200

instance (e : ℤ) : Decidable (HasText e) := by
  unfold HasText
  infer_instance

/-- All values of an interval have a text. -/
theorem mem_of_interval {a : ℕ} (n : ℕ) (h : ∀ i < n, -(a : ℤ) - (i : ℕ) ∈ stringRep) {e : ℤ} (hupper : e ≤ -(a : ℤ))
    (hlower : -(a : ℤ) - n < e) : e ∈ stringRep := by
  have hmem := h (-(a : ℤ) - e).toNat (by omega)
  rwa [Int.toNat_of_nonneg (by omega), Int.sub_sub_self] at hmem

/-- The registered values are those of the intervals. -/
theorem mem_stringRep_iff (e : Errs) : e ∈ stringRep ↔ HasText e := by
  constructor
  · intro h
    have hall : ∀ e ∈ stringRep, HasText e := by decide
    exact hall e h
  · rintro (h | h | h | h | h)
    · exact mem_of_interval (a := 0) 8 (by decide) h.2 (by omega)
    · exact mem_of_interval (a := 9) 15 (by decide) h.2 (by omega)
    · exact mem_of_interval (a := 32) 38 (by decide) h.2 (by omega)
    · exact mem_of_interval (a := 100) 11 (by decide) h.2 (by omega)
    · exact mem_of_interval (a := 200) 2 (by decide) h.2 (by omega)

/-- What was received, and what lies behind it in memory. -/
structure Frame where
  data : List UInt8
  behind : List UInt8
deriving DecidableEq, Repr

def Frame.memory (f : Frame) : List UInt8 := f.data ++ f.behind

/-- The value of a signed 16-bit variable. -/
def int16 (w : ℕ) : ℤ := ((w : ℤ) + 32768) % 65536 - 32768

/-- The value of a `char`, where that is signed. -/
def int8 (c : ℕ) : ℤ := ((c : ℤ) + 128) % 256 - 128

end RFSV

open RFSV

namespace RFSV16

/-- The status of a response, and its data, where a response is received. -/
def getResponse : Option Frame → Errs × List UInt8
  | none => (E_PSI_FILE_DISC, [])
  | some f =>
    if getWord f.memory 0 = 0x2a ∧ getWord f.memory 2 + 4 = f.data.length then
      (int16 (getWord f.memory 4), f.data.drop 6)
    else (E_PSI_FILE_DISC, f.data)

end RFSV16

namespace RFSV32

def E_EPOC_NONE : ℤ := 0

def E_EPOC_DIVIDE_BY_ZERO : ℤ := -41

def E_EPOC_DIR_FULL : ℤ := -43

def e2psi : List Errs :=
  [E_PSI_FILE_DIRFULL, E_PSI_GEN_POWER, E_PSI_GEN_DIVIDE, E_PSI_FILE_TOOBIG, E_PSI_FILE_ABORT, E_PSI_GEN_DESCR,
    E_PSI_GEN_LIB, E_PSI_FILE_NDISC, E_PSI_FILE_DISC, E_PSI_FILE_CONNECT, E_PSI_FILE_RETRAN, E_PSI_FILE_PARITY,
    E_PSI_FILE_OVERRUN, E_PSI_FILE_FRAME, E_PSI_FILE_LINE, E_PSI_FILE_NAME, E_PSI_FILE_DRIVER, E_PSI_FILE_FULL,
    E_PSI_FILE_EOF, E_PSI_GEN_FSYS, E_PSI_FILE_WRITE, E_PSI_FILE_LOCKED, E_PSI_FILE_ACCESS, E_PSI_FILE_CORRUPT,
    E_PSI_FILE_UNKNOWN, E_PSI_FILE_NOTREADY, E_PSI_FILE_COMPLETION, E_PSI_GEN_BUSY, E_PSI_GEN_TERMINATED,
    E_PSI_GEN_INUSE, E_PSI_GEN_DIED, E_PSI_FILE_DIR, E_PSI_FILE_EXIST, E_PSI_GEN_UNDER, E_PSI_GEN_OVER,
    E_PSI_FILE_HANDLE, E_PSI_GEN_RANGE, E_PSI_GEN_ARG, E_PSI_GEN_NSUP, E_PSI_GEN_NOMEMORY, E_PSI_FILE_CANCEL,
    E_PSI_GEN_FAIL, RFSV.E_PSI_FILE_NXIST, E_PSI_GEN_NONE]

/-- The error value for an EPOC status. -/
def err2psierr (istatus : ℤ) : Errs :=
  if istatus > E_EPOC_NONE ∨ istatus < E_EPOC_DIR_FULL then E_PSI_INTERNAL
  else e2psi.getD (istatus - E_EPOC_DIR_FULL).toNat E_PSI_GEN_NONE

/-- The table has a value for each status that it is looked up for. -/
theorem lt_length_e2psi {istatus : ℤ} (h : ¬(istatus > E_EPOC_NONE ∨ istatus < E_EPOC_DIR_FULL)) :
    (istatus - E_EPOC_DIR_FULL).toNat < e2psi.length := by
  have hlength : e2psi.length = 44 := rfl
  rw [E_EPOC_NONE, E_EPOC_DIR_FULL] at h
  rw [hlength, E_EPOC_DIR_FULL]
  omega

/-- All but one of the values of the table have a text. -/
theorem err2psierr_mem_iff (istatus : ℤ) : err2psierr istatus ∈ stringRep ↔ istatus ≠ E_EPOC_DIVIDE_BY_ZERO := by
  have htable : ∀ i < e2psi.length, e2psi.getD i E_PSI_GEN_NONE ∈ stringRep ↔ i ≠ 2 := by decide
  have hdivide : E_EPOC_DIVIDE_BY_ZERO - E_EPOC_DIR_FULL = 2 := rfl
  rw [err2psierr]
  split
  case isTrue houtside =>
    refine iff_of_true (by decide) fun h => ?_
    rw [h] at houtside
    exact absurd houtside (by decide)
  case isFalse hinside =>
    rw [htable _ (lt_length_e2psi hinside)]
    rw [E_EPOC_DIVIDE_BY_ZERO, E_EPOC_DIR_FULL]
    rw [E_EPOC_NONE, E_EPOC_DIR_FULL] at hinside
    omega

def getResponse : Option Frame → Errs × List UInt8
  | none => (E_PSI_FILE_DISC, [])
  | some f =>
    if getWord f.memory 0 = 0x11 then (err2psierr (int32 (getDWord f.memory 4)), f.data.drop 8)
    else (E_PSI_FILE_DISC, f.data)

end RFSV32

namespace RPCS

/-- The status is the first byte of a response, or the last one. -/
def getResponse (statusIsFirstByte : Bool) : Option Frame → Errs × List UInt8
  | none => (E_PSI_FILE_DISC, [])
  | some f =>
    if statusIsFirstByte then (int8 (getByte f.memory 0), f.data.drop 1)
    else if f.data.length > 0 then
      (int8 (getByte f.memory (f.data.length - 1)), f.data.take (f.data.length - 1))
    else (E_PSI_GEN_FAIL, f.data)

end RPCS

/-- The layers that make an error value of a status. -/
inductive StatusLayer
  | rfsv16
  | rfsv32
  | rpcs (statusIsFirstByte : Bool)
deriving DecidableEq, Repr

namespace StatusLayer

def getResponse : StatusLayer → Option Frame → Errs × List UInt8
  | rfsv16 => RFSV16.getResponse
  | rfsv32 => RFSV32.getResponse
  | rpcs statusIsFirstByte => RPCS.getResponse statusIsFirstByte

/-- The status that is sent is one that has a text in the end. -/
def KnownStatus : StatusLayer → Frame → Prop
  | rfsv16, f => getWord f.memory 0 = 0x2a → getWord f.memory 2 + 4 = f.data.length →
    HasText (int16 (getWord f.memory 4))
  | rfsv32, f => getWord f.memory 0 = 0x11 → int32 (getDWord f.memory 4) ≠ RFSV32.E_EPOC_DIVIDE_BY_ZERO
  | rpcs true, f => HasText (int8 (getByte f.memory 0))
  | rpcs false, f => f.data ≠ [] → HasText (int8 (getByte f.memory (f.data.length - 1)))

/-- Whatever is received, the assertion holds just when the status is a known one. -/
theorem new_getResponse_iff (layer : StatusLayer) (received : Option Frame) :
    (EnumErrs.new (layer.getResponse received).1).isSome = true ↔ ∀ f ∈ received, layer.KnownStatus f := by
  rw [EnumErrs.isSome_new]
  have hdisc : E_PSI_FILE_DISC ∈ stringRep := by decide
  have hfail : E_PSI_GEN_FAIL ∈ stringRep := by decide
  cases received with
  | none =>
    refine iff_of_true ?_ fun f hf => by cases hf
    cases layer <;> exact hdisc
  | some f =>
    simp only [Option.mem_def, Option.some.injEq, forall_eq']
    cases layer with
    | rfsv16 =>
      rw [getResponse, RFSV16.getResponse, KnownStatus]
      split
      case isTrue hframed => rw [mem_stringRep_iff, imp_iff_right hframed.1, imp_iff_right hframed.2]
      case isFalse hduff => exact iff_of_true hdisc fun hcommand hsize => absurd ⟨hcommand, hsize⟩ hduff
    | rfsv32 =>
      rw [getResponse, RFSV32.getResponse, KnownStatus]
      split
      case isTrue hframed => rw [RFSV32.err2psierr_mem_iff, imp_iff_right hframed]
      case isFalse hduff => exact iff_of_true hdisc fun hcommand => absurd hcommand hduff
    | rpcs statusIsFirstByte =>
      cases statusIsFirstByte with
      | true => exact mem_stringRep_iff _
      | false =>
        rw [getResponse, RPCS.getResponse, KnownStatus, if_neg Bool.false_ne_true, ← List.length_pos_iff]
        split
        case isTrue hlength => rw [mem_stringRep_iff, imp_iff_right hlength]
        case isFalse hempty => exact iff_of_true hfail fun hlength => absurd hlength hempty

/-- A division by zero on a SIBO device has no text, nor does one on an EPOC device. -/
theorem not_isSome_divide :
    ¬(EnumErrs.new (rfsv16.getResponse (some ⟨[0x2a, 0, 2, 0, 0xf8, 0xff], []⟩)).1).isSome = true ∧
      ¬(EnumErrs.new (rfsv32.getResponse (some ⟨[0x11, 0, 0, 0, 0xd7, 0xff, 0xff, 0xff], []⟩)).1).isSome = true := by
  decide

end StatusLayer

end Plptools
