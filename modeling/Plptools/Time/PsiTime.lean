import Mathlib.Data.Int.Notation
import Mathlib.Algebra.Group.Int.Defs
import Mathlib.Algebra.Group.Nat.Defs
import Mathlib.Logic.Basic

/-!
# Psion time and Unix time

A time of an EPOC device counts the microseconds of its local time in 64 bits; the Unix time of the same instant
is in UTC. The difference of the two is made up of the zone of the device, or what stands in for it, and of the
local time of the machine, which may depend on the instant. All of this is 64-bit arithmetic without a sign.
-/

namespace Plptools.Time

structure PsiTimeval where
  tvLow : UInt32
  tvHigh : UInt32
deriving DecidableEq, Repr

structure PsiTimezone where
  utcOffset : ℤ
  dstZones : ℕ
deriving DecidableEq, Repr

structure Timeval where
  tvSec : ℤ
  tvUsec : ℤ
deriving DecidableEq, Repr

/-- The machine: how far its local time is ahead at a time, its clock, and the number in the environment variable
`PSI_TZ`, if that is set to one. -/
structure Machine where
  tmGmtoff : ℤ → ℤ
  clock : Timeval
  PSI_TZ : Option ℤ

def PSI_TZ_HOME : ℕ := 0x40000000

/-- The microseconds from the epoch of EPOC to that of Unix. -/
def EPOCH_DIFF : ℕ := 0x00dcddb30f2f8000

/-- The value of an unsigned 64-bit variable. -/
def uint64 (a : ℤ) : ℕ := (a % 2 ^ 64).toNat

/-- The part of the offset that does not depend on the instant, in seconds. -/
def zoneOffset (m : Machine) (ptz : PsiTimezone) (valid : Bool) : ℤ :=
  if valid then
    ptz.utcOffset + (if ptz.dstZones &&& PSI_TZ_HOME ≠ 0 then 3600 else 0) - m.tmGmtoff m.clock.tvSec
  else m.PSI_TZ.getD 0

/-- How far the local time of the device is ahead of UTC, in microseconds. -/
def evalOffset (m : Machine) (ptz : PsiTimezone) (ptime : ℤ) (valid : Bool) : ℤ :=
  (zoneOffset m ptz valid + m.tmGmtoff ptime) * 1000000

def PsiTimeval.micro (ptv : PsiTimeval) : ℕ := ptv.tvHigh.toNat * 2 ^ 32 + ptv.tvLow.toNat

def Timeval.micro (utv : Timeval) : ℤ := utv.tvSec * 1000000 + utv.tvUsec

/-- Convert EPOC local time to Unix UTC time. -/
def psi2unix (m : Machine) (ptz : PsiTimezone) (valid : Bool) (ptv : PsiTimeval) : Timeval :=
  let micro := uint64 ((ptv.micro : ℤ) - EPOCH_DIFF)
  let micro := uint64 (micro - evalOffset m ptz (micro / 1000000 : ℕ) valid)
  ⟨(micro / 1000000 : ℕ), (micro % 1000000 : ℕ)⟩

/-- Convert Unix UTC time to EPOC local time. -/
def unix2psi (m : Machine) (ptz : PsiTimezone) (valid : Bool) (utv : Timeval) : PsiTimeval :=
  let micro := uint64 utv.micro
  let micro := uint64 (micro + evalOffset m ptz utv.tvSec valid)
  let micro := uint64 ((micro : ℤ) + EPOCH_DIFF)
  ⟨UInt32.ofNat (micro % 2 ^ 32), UInt32.ofNat (micro / 2 ^ 32)⟩

/-- It fits in 64 bits. -/
theorem uint64_lt (a : ℤ) : uint64 a < 2 ^ 64 := by
  rw [uint64]
  omega

/-- It is the remainder. -/
theorem uint64_natCast (a : ℤ) : (uint64 a : ℤ) = a % 2 ^ 64 := Int.toNat_of_nonneg (Int.emod_nonneg _ (by decide))

/-- Adding to a wrapped value is adding and then wrapping. -/
theorem uint64_add (a b : ℤ) : uint64 (uint64 a + b) = uint64 (a + b) := by
  rw [uint64, uint64_natCast, Int.emod_add_emod, uint64]

/-- The cut can be made after the subtraction. -/
theorem uint64_sub (a b : ℤ) : uint64 (uint64 a - b) = uint64 (a - b) := by
  rw [Int.sub_eq_add_neg, uint64_add, Int.sub_eq_add_neg]

/-- What wrapping leaves as it is. -/
theorem uint64_eq_iff {a : ℤ} : (uint64 a : ℤ) = a ↔ 0 ≤ a ∧ a < 2 ^ 64 := by
  rw [uint64_natCast]
  omega

/-- What fits is not cut off. -/
theorem uint64_of_lt {a : ℕ} (h : a < 2 ^ 64) : uint64 a = a := by
  rw [uint64]
  omega

/-- What is added to wrapped values does not matter to whether they are the same. -/
theorem uint64_add_right_inj {a b : ℤ} (c : ℤ) : uint64 (a + c) = uint64 (b + c) ↔ uint64 a = uint64 b := by
  simp only [uint64]
  omega

/-- What is added and taken away again is the same. -/
theorem uint64_add_sub_iff (n a b : ℤ) : uint64 n = uint64 (n + a - b) ↔ uint64 b = uint64 a := by
  simp only [uint64]
  omega

/-- A time of the device has 64 bits. -/
theorem PsiTimeval.micro_lt (ptv : PsiTimeval) : ptv.micro < 2 ^ 64 := by
  have hlow := ptv.tvLow.toNat_lt
  have hhigh := ptv.tvHigh.toNat_lt
  rw [micro]
  omega

/-- A number of microseconds in its two halves. -/
def PsiTimeval.ofMicro (n : ℕ) : PsiTimeval := ⟨UInt32.ofNat (n % 2 ^ 32), UInt32.ofNat (n / 2 ^ 32)⟩

/-- The microseconds are those that it is made of. -/
theorem PsiTimeval.micro_ofMicro {n : ℕ} (h : n < 2 ^ 64) : (ofMicro n).micro = n := by
  have hlow : n % 2 ^ 32 < UInt32.size := Nat.mod_lt _ (by decide)
  have hhigh : n / 2 ^ 32 < UInt32.size := Nat.div_lt_of_lt_mul h
  rw [micro, ofMicro]
  dsimp only
  rw [UInt32.toNat_ofNat_of_lt' hlow, UInt32.toNat_ofNat_of_lt' hhigh]
  omega

/-- The microseconds tell times apart. -/
theorem PsiTimeval.micro_inj {a b : PsiTimeval} (h : a.micro = b.micro) : a = b := by
  obtain ⟨low, high⟩ := a
  obtain ⟨low', high'⟩ := b
  have hlow : low.toNat < 2 ^ 32 := low.toNat_lt
  have hlow' : low'.toNat < 2 ^ 32 := low'.toNat_lt
  rw [micro, micro] at h
  dsimp only at h
  have hsame : low = low' := UInt32.toNat_inj.mp (by omega)
  have hsame' : high = high' := UInt32.toNat_inj.mp (by omega)
  rw [hsame, hsame']

/-- A number of microseconds in seconds and the rest. -/
def Timeval.ofMicro (n : ℤ) : Timeval := ⟨n / 1000000, n % 1000000⟩

/-- A Unix time whose microseconds are less than a second is that of its number of microseconds. -/
theorem Timeval.eq_ofMicro_iff {utv : Timeval} {n : ℤ} :
    utv = ofMicro n ↔ 0 ≤ utv.tvUsec ∧ utv.tvUsec < 1000000 ∧ utv.micro = n := by
  obtain ⟨sec, usec⟩ := utv
  simp only [ofMicro, Timeval.mk.injEq, micro]
  omega

/-- The local time of the device in seconds, as if it were a Unix time. -/
def localSecond (ptv : PsiTimeval) : ℕ := uint64 ((ptv.micro : ℤ) - EPOCH_DIFF) / 1000000

variable (m : Machine) (ptz : PsiTimezone) (valid : Bool)

/-- The microseconds since 1970, or before it, that a time of the device stands for. -/
def instant (ptv : PsiTimeval) : ℤ := ptv.micro - EPOCH_DIFF - evalOffset m ptz (localSecond ptv) valid

/-- The Unix time that comes out of a conversion, which is never negative. -/
theorem psi2unix_eq (ptv : PsiTimeval) :
    psi2unix m ptz valid ptv = Timeval.ofMicro (uint64 (instant m ptz valid ptv)) := by
  rw [psi2unix, uint64_sub]
  rfl

/-- The conversion in microseconds. -/
theorem unix2psi_eq (utv : Timeval) : unix2psi m ptz valid utv =
    PsiTimeval.ofMicro (uint64 (utv.micro + evalOffset m ptz utv.tvSec valid + EPOCH_DIFF)) := by
  rw [unix2psi, uint64_add, Int.add_assoc, uint64_add, ← Int.add_assoc]
  rfl

end Plptools.Time
