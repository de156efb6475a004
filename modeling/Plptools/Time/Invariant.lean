import Plptools.Time.Conversion
import Plptools.Library.Run
import Mathlib.Logic.Function.Basic
import Mathlib.Data.Option.Basic

/-!
# The two times of an object

A `PsiTime` holds its time twice, and the comparison operators compute the one from the other again. The objects of
a program share the zone of the device, once that is known, and the clock of the machine. Which operations keep the
two times of an object the same instant is a matter of the offsets at both ends of a conversion, and of what is left
out of `setSiboTime`.
-/

namespace Plptools.Time

open Plptools.Library

structure PsiTime where
  ptv : PsiTimeval
  ptz : PsiTimezone
  utv : Timeval
  ptzValid : Bool
deriving DecidableEq, Repr

namespace PsiTime

def withUtv (t : PsiTime) (utv : Timeval) : PsiTime := { t with utv := utv }

def withPtv (t : PsiTime) (ptv : PsiTimeval) : PsiTime := { t with ptv := ptv }

/-- The Unix time is the new one. -/
@[simp] theorem withUtv_utv (t : PsiTime) (utv : Timeval) : (t.withUtv utv).utv = utv := rfl

/-- The time of the device stays. -/
@[simp] theorem withUtv_ptv (t : PsiTime) (utv : Timeval) : (t.withUtv utv).ptv = t.ptv := rfl

/-- The zone stays. -/
@[simp] theorem withUtv_ptz (t : PsiTime) (utv : Timeval) : (t.withUtv utv).ptz = t.ptz := rfl

/-- Whether there is a zone stays. -/
@[simp] theorem withUtv_ptzValid (t : PsiTime) (utv : Timeval) : (t.withUtv utv).ptzValid = t.ptzValid := rfl

/-- The time of the device is the new one. -/
@[simp] theorem withPtv_ptv (t : PsiTime) (ptv : PsiTimeval) : (t.withPtv ptv).ptv = ptv := rfl

/-- The Unix time stays. -/
@[simp] theorem withPtv_utv (t : PsiTime) (ptv : PsiTimeval) : (t.withPtv ptv).utv = t.utv := rfl

/-- The zone stays. -/
@[simp] theorem withPtv_ptz (t : PsiTime) (ptv : PsiTimeval) : (t.withPtv ptv).ptz = t.ptz := rfl

/-- Whether there is a zone stays. -/
@[simp] theorem withPtv_ptzValid (t : PsiTime) (ptv : PsiTimeval) : (t.withPtv ptv).ptzValid = t.ptzValid := rfl

/-- Convert to Unix time. -/
def psi2unix (m : Machine) (t : PsiTime) : PsiTime := t.withUtv (Time.psi2unix m t.ptz t.ptzValid t.ptv)

/-- Convert to the time of the device. -/
def unix2psi (m : Machine) (t : PsiTime) : PsiTime := t.withPtv (Time.unix2psi m t.ptz t.ptzValid t.utv)

/-- Take the zone of the device, if that is known and the object has none. -/
def tryPsiZone (zone : Option PsiTimezone) (t : PsiTime) : PsiTime :=
  if t.ptzValid then t
  else match zone with
    | some ptz => { t with ptz := ptz, ptzValid := true }
    | none => t

/-- The setter for a Unix time, which the caller may leave out. -/
def setUnixTime (m : Machine) (utv : Option Timeval) (t : PsiTime) : PsiTime :=
  (t.withUtv (utv.getD t.utv)).unix2psi m

/-- The setter for a number of seconds. -/
def setUnixSeconds (m : Machine) (time : ℤ) (t : PsiTime) : PsiTime := (t.withUtv ⟨time, 0⟩).unix2psi m

def setUnixNow (m : Machine) (t : PsiTime) : PsiTime := (t.withUtv m.clock).unix2psi m

/-- The setter for a time of the device, as one value or in two words. -/
def setPsiTime (m : Machine) (ptv : Option PsiTimeval) (t : PsiTime) : PsiTime :=
  (t.withPtv (ptv.getD t.ptv)).psi2unix m

/-- Give the object a zone, if there is one. -/
def withZone (ptz : Option PsiTimezone) (t : PsiTime) : PsiTime :=
  match ptz with
  | some ptz => { t with ptz := ptz, ptzValid := true }
  | none => t

def setPsiZone (m : Machine) (ptz : Option PsiTimezone) (t : PsiTime) : PsiTime := (t.withZone ptz).psi2unix m

/-- The Unix time that is stored for a SIBO time. -/
def siboTime (m : Machine) (t : PsiTime) (stime : UInt32) : Timeval :=
  ⟨stime.toNat - evalOffset m t.ptz stime.toNat false / 1000000, 0⟩

def setSiboTime (m : Machine) (stime : UInt32) (t : PsiTime) : PsiTime := t.withUtv (t.siboTime m stime)

variable (m : Machine) (zone : Option PsiTimezone) (raw : PsiTime)

/-- Construct an object that is now. What was in its memory before is `raw`, here and in the other constructors. -/
def ofNow : PsiTime := (({ raw with ptzValid := false }).tryPsiZone zone).setUnixNow m

/-- Construct an object from seconds; the zone is not asked for. -/
def ofTime (time : ℤ) : PsiTime := ({ raw with ptzValid := false, utv := m.clock }).setUnixSeconds m time

/-- Construct an object from a time of the device, as one value or in two words, and its zone. -/
def ofPsi (ptv : Option PsiTimeval) (ptz : Option PsiTimezone) : PsiTime :=
  let t := { raw with ptv := ptv.getD raw.ptv, ptzValid := false }
  let t := if ptz.isSome then t.withZone ptz else t.tryPsiZone zone
  (t.withUtv m.clock).psi2unix m

/-- Construct an object from a Unix time. Whether it has a zone is what is found in its memory. -/
def ofUnix (utv : Option Timeval) : PsiTime := ((raw.withUtv (utv.getD raw.utv)).tryPsiZone zone).unix2psi m

/-- Both times are the same instant, in the zone of the object, and each is the conversion of the other. -/
structure Consistent (m : Machine) (t : PsiTime) : Prop where
  instant : t.utv.micro = instant m t.ptz t.ptzValid t.ptv
  unix : Time.psi2unix m t.ptz t.ptzValid t.ptv = t.utv
  psi : Time.unix2psi m t.ptz t.ptzValid t.utv = t.ptv

end PsiTime

/-- The local time of the device at a Unix time in seconds, as the conversion back finds it. -/
def localTime (m : Machine) (ptz : PsiTimezone) (valid : Bool) (utv : Timeval) : ℕ :=
  uint64 (utv.micro + evalOffset m ptz utv.tvSec valid) / 1000000

/-- A Unix time that 64 bits can count, also from the epoch of EPOC on, at which the local time is as far ahead as it
is at what the conversion takes for it on the way back. -/
structure UnixFits (m : Machine) (ptz : PsiTimezone) (valid : Bool) (utv : Timeval) : Prop where
  sec : 0 ≤ utv.tvSec
  usec : 0 ≤ utv.tvUsec ∧ utv.tvUsec < 1000000
  lt : utv.micro < 2 ^ 64
  offset : uint64 (evalOffset m ptz (localTime m ptz valid utv) valid) = uint64 (evalOffset m ptz utv.tvSec valid)
  counted : 0 ≤ utv.micro + evalOffset m ptz (localTime m ptz valid utv) valid + EPOCH_DIFF ∧
    utv.micro + evalOffset m ptz (localTime m ptz valid utv) valid + EPOCH_DIFF < 2 ^ 64

/-- A time of the device whose instant 64 bits can count from 1970 on, and at which the local time is as far ahead as
it is at its Unix time. -/
structure PsiFits (m : Machine) (ptz : PsiTimezone) (valid : Bool) (ptv : PsiTimeval) : Prop where
  counted : 0 ≤ instant m ptz valid ptv ∧ instant m ptz valid ptv < 2 ^ 64
  offset : uint64 (evalOffset m ptz (instant m ptz valid ptv / 1000000) valid) =
    uint64 (evalOffset m ptz (localSecond ptv) valid)

/-- Two zones that are equally far ahead. -/
def SameZone (m m' : Machine) (ptz ptz' : PsiTimezone) (valid valid' : Bool) : Prop :=
  zoneOffset m' ptz' valid' = zoneOffset m ptz valid

section Conversions

variable {m : Machine} {ptz : PsiTimezone} {valid : Bool}

/-- The Unix time is the instant, cut off to 64 bits. -/
theorem micro_psi2unix (ptv : PsiTimeval) :
    (psi2unix m ptz valid ptv).micro = uint64 (instant m ptz valid ptv) := by
  rw [psi2unix_eq, Timeval.micro_ofMicro]

/-- The time of the device is the local time from the epoch of EPOC on, cut off to 64 bits. -/
theorem micro_unix2psi (utv : Timeval) : (unix2psi m ptz valid utv).micro =
    uint64 (utv.micro + evalOffset m ptz utv.tvSec valid + EPOCH_DIFF) := by
  rw [unix2psi_eq, PsiTimeval.micro_ofMicro (uint64_lt _)]

/-- The Unix time is the instant just when that can be counted from 1970 on. -/
theorem micro_psi2unix_eq_iff (ptv : PsiTimeval) :
    (psi2unix m ptz valid ptv).micro = instant m ptz valid ptv ↔
      0 ≤ instant m ptz valid ptv ∧ instant m ptz valid ptv < 2 ^ 64 := by
  rw [micro_psi2unix, uint64_eq_iff]

/-- A time of the device comes back just when the offset is the same at both ends. -/
theorem unix2psi_psi2unix_iff {ptv : PsiTimeval}
    (hcounted : 0 ≤ instant m ptz valid ptv ∧ instant m ptz valid ptv < 2 ^ 64) :
    unix2psi m ptz valid (psi2unix m ptz valid ptv) = ptv ↔
      uint64 (evalOffset m ptz (instant m ptz valid ptv / 1000000) valid) =
        uint64 (evalOffset m ptz (localSecond ptv) valid) := by
  have hsec : (psi2unix m ptz valid ptv).tvSec = instant m ptz valid ptv / 1000000 := by
    rw [psi2unix_eq, uint64_eq_iff.mpr hcounted]
    rfl
  have hback : (unix2psi m ptz valid (psi2unix m ptz valid ptv)).micro =
      uint64 (evalOffset m ptz (instant m ptz valid ptv / 1000000) valid +
        (instant m ptz valid ptv + EPOCH_DIFF)) := by
    rw [micro_unix2psi, hsec, (micro_psi2unix_eq_iff ptv).mpr hcounted, Int.add_assoc, Int.add_left_comm]
  have hptv : ptv.micro =
      uint64 (evalOffset m ptz (localSecond ptv) valid + (instant m ptz valid ptv + EPOCH_DIFF)) := by
    have hsum : evalOffset m ptz (localSecond ptv) valid + (instant m ptz valid ptv + EPOCH_DIFF) = ptv.micro := by
      rw [instant]
      omega
    rw [hsum, uint64_of_lt ptv.micro_lt]
  rw [← uint64_add_right_inj (instant m ptz valid ptv + EPOCH_DIFF), ← hback, ← hptv]
  exact ⟨congrArg PsiTimeval.micro, PsiTimeval.micro_inj⟩

/-- The local time of what is converted. -/
theorem localSecond_unix2psi (utv : Timeval) :
    localSecond (unix2psi m ptz valid utv) = localTime m ptz valid utv := by
  rw [localSecond, micro_unix2psi, uint64_sub, Int.add_sub_cancel, localTime]

/-- The instant of the time that comes out of the conversion of a Unix time. -/
theorem instant_unix2psi (utv : Timeval) : instant m ptz valid (unix2psi m ptz valid utv) =
    uint64 (utv.micro + evalOffset m ptz utv.tvSec valid + EPOCH_DIFF) - EPOCH_DIFF -
      evalOffset m ptz (localTime m ptz valid utv) valid := by
  rw [instant, localSecond_unix2psi, micro_unix2psi]

/-- A Unix time comes back, and is the instant of what it is converted to, just when it fits. -/
theorem psi2unix_unix2psi_iff (utv : Timeval) :
    (utv.micro = instant m ptz valid (unix2psi m ptz valid utv) ∧
      psi2unix m ptz valid (unix2psi m ptz valid utv) = utv) ↔ UnixFits m ptz valid utv := by
  have hwrapped : uint64 (instant m ptz valid (unix2psi m ptz valid utv)) = uint64 (utv.micro +
      evalOffset m ptz utv.tvSec valid - evalOffset m ptz (localTime m ptz valid utv) valid) := by
    rw [instant_unix2psi, Int.sub_sub, uint64_sub, ← Int.sub_sub, Int.add_sub_cancel]
  have hoffset := uint64_add_sub_iff utv.micro (evalOffset m ptz utv.tvSec valid)
    (evalOffset m ptz (localTime m ptz valid utv) valid)
  -- With the same offset at both ends, the time of the device is counted with either.
  have hinstant (h : uint64 (evalOffset m ptz (localTime m ptz valid utv) valid) =
      uint64 (evalOffset m ptz utv.tvSec valid)) :
      utv.micro = instant m ptz valid (unix2psi m ptz valid utv) ↔
        0 ≤ utv.micro + evalOffset m ptz (localTime m ptz valid utv) valid + EPOCH_DIFF ∧
          utv.micro + evalOffset m ptz (localTime m ptz valid utv) valid + EPOCH_DIFF < 2 ^ 64 := by
    have hsame := (uint64_add_right_inj (utv.micro + EPOCH_DIFF)).mpr h
    rw [Int.add_left_comm, Int.add_left_comm (evalOffset m ptz utv.tvSec valid), ← Int.add_assoc,
      ← Int.add_assoc] at hsame
    rw [instant_unix2psi, ← hsame, ← uint64_eq_iff]
    omega
  constructor
  · rintro ⟨hmicro, hunix⟩
    rw [eq_comm, psi2unix_eq, Timeval.eq_ofMicro_iff] at hunix
    obtain ⟨hnonneg, hless, hcount⟩ := hunix
    have hlt : utv.micro < 2 ^ 64 := by
      rw [hcount]
      exact Int.ofNat_lt.mpr (uint64_lt _)
    have hsec : 0 ≤ utv.tvSec := by
      have hmicros : 0 ≤ utv.tvSec * 1000000 + utv.tvUsec := by
        change 0 ≤ utv.micro
        rw [hcount]
        exact Int.natCast_nonneg _
      omega
    have hends := hoffset.mp (by rw [← hwrapped, ← hmicro])
    exact ⟨hsec, ⟨hnonneg, hless⟩, hlt, hends, (hinstant hends).mp hmicro⟩
  · intro h
    have hmicros : 0 ≤ utv.micro := by
      have hsec := h.sec
      have husec := h.usec.1
      rw [Timeval.micro]
      omega
    refine ⟨(hinstant h.offset).mpr h.counted, ?_⟩
    rw [eq_comm, psi2unix_eq, Timeval.eq_ofMicro_iff, hwrapped, ← hoffset.mpr h.offset]
    exact ⟨h.usec.1, h.usec.2, (uint64_eq_iff.mpr ⟨hmicros, h.lt⟩).symm⟩

/-- Where the zones are equally far ahead, so are the local times. -/
theorem evalOffset_zone {m' : Machine} {ptz' : PsiTimezone} {valid' : Bool}
    (hgmtoff : m'.tmGmtoff = m.tmGmtoff) (h : SameZone m m' ptz ptz' valid valid') (ptime : ℤ) :
    evalOffset m' ptz' ptime valid' = evalOffset m ptz ptime valid := by
  rw [evalOffset, evalOffset, h, hgmtoff]

end Conversions

namespace PsiTime

variable {m : Machine} {t : PsiTime}

/-- What it takes for both times to be the same instant. -/
theorem consistent_iff : Consistent m t ↔ t.utv.micro = Time.instant m t.ptz t.ptzValid t.ptv ∧
    Time.psi2unix m t.ptz t.ptzValid t.ptv = t.utv ∧ Time.unix2psi m t.ptz t.ptzValid t.utv = t.ptv :=
  ⟨fun h => ⟨h.instant, h.unix, h.psi⟩, fun h => ⟨h.1, h.2.1, h.2.2⟩⟩

/-- Converting to Unix time makes both times the same just when the time of the device fits. -/
theorem consistent_psi2unix_iff : Consistent m (t.psi2unix m) ↔ PsiFits m t.ptz t.ptzValid t.ptv := by
  rw [consistent_iff, psi2unix, withUtv_ptz, withUtv_ptzValid, withUtv_ptv, withUtv_utv, micro_psi2unix_eq_iff]
  constructor
  · rintro ⟨hcounted, -, hback⟩
    exact ⟨hcounted, (unix2psi_psi2unix_iff hcounted).mp hback⟩
  · intro h
    exact ⟨h.counted, rfl, (unix2psi_psi2unix_iff h.counted).mpr h.offset⟩

/-- Converting to the time of the device makes both times the same just when the Unix time fits. -/
theorem consistent_unix2psi_iff : Consistent m (t.unix2psi m) ↔ UnixFits m t.ptz t.ptzValid t.utv := by
  rw [← psi2unix_unix2psi_iff, consistent_iff, unix2psi, withPtv_ptz, withPtv_ptzValid, withPtv_ptv, withPtv_utv,
    ← and_assoc]
  exact and_iff_left rfl

/-- A comparison, which converts to Unix time, leaves the time as it is just when that is what it converts. -/
theorem psi2unix_eq_self_iff : t.psi2unix m = t ↔ Time.psi2unix m t.ptz t.ptzValid t.ptv = t.utv :=
  ⟨fun h => congrArg PsiTime.utv h, fun h => by rw [psi2unix, h, withUtv]⟩

/-- Nothing changes where both times are the same instant. -/
theorem unix2psi_eq_self (h : Consistent m t) : t.unix2psi m = t := by
  rw [unix2psi, h.psi, withPtv]

/-- Another zone keeps both times the same just when it is as far ahead. -/
theorem consistent_zone_iff (h : Consistent m t) {m' : Machine} (hgmtoff : m'.tmGmtoff = m.tmGmtoff)
    (ptz : PsiTimezone) (valid : Bool) : Consistent m' { t with ptz := ptz, ptzValid := valid } ↔
      SameZone m m' t.ptz ptz t.ptzValid valid := by
  constructor
  · intro h'
    have hinstant := h'.instant.symm.trans h.instant
    dsimp only at hinstant
    rw [Time.instant, Time.instant, evalOffset, evalOffset, hgmtoff] at hinstant
    rw [SameZone]
    omega
  · intro hsame
    have hoffset := evalOffset_zone hgmtoff hsame
    refine ⟨?_, ?_, ?_⟩
    · rw [h.instant, Time.instant, Time.instant, hoffset]
    · rw [← h.unix, Time.psi2unix, Time.psi2unix]
      simp only [hoffset]
    · refine Eq.trans ?_ h.psi
      rw [Time.unix2psi, Time.unix2psi]
      simp only [hoffset]

/-- To take the zone of the device is to keep the time just when the offset stays. -/
theorem consistent_tryPsiZone_iff (h : Consistent m t) (zone : Option PsiTimezone) :
    Consistent m (t.tryPsiZone zone) ↔ (t.ptzValid = false → ∀ ptz ∈ zone, SameZone m m t.ptz ptz false true) := by
  unfold tryPsiZone
  cases hvalid : t.ptzValid with
  | true => exact iff_of_true h fun hfalse => absurd hfalse.symm Bool.false_ne_true
  | false =>
    rw [if_neg Bool.false_ne_true, imp_iff_right rfl]
    cases zone with
    | none => exact iff_of_true h fun ptz hptz => by cases hptz
    | some ptz =>
      have hiff := consistent_zone_iff h rfl ptz true
      rw [hvalid] at hiff
      exact hiff.trans ⟨fun hsame ptz' hptz => by cases hptz; exact hsame, fun hall => hall ptz rfl⟩

/-- A SIBO time can only be set where it is the time that the object has. -/
theorem consistent_setSiboTime_iff (h : Consistent m t) (stime : UInt32) :
    Consistent m (t.setSiboTime m stime) ↔ t.siboTime m stime = t.utv := by
  constructor
  · intro h'
    exact h'.unix.symm.trans h.unix
  · intro hsame
    rw [setSiboTime, hsame, withUtv]
    exact h

end PsiTime

/-- The objects of a program, the zone of the device, and the machine. -/
structure TimeState where
  machine : Machine
  zone : Option PsiTimezone
  pool : ℕ → Option PsiTime

/-- What can be done with an object. -/
inductive TimeOp where
  | ofNow (raw : PsiTime)
  | ofTime (raw : PsiTime) (time : ℤ)
  | ofPsi (raw : PsiTime) (ptv : Option PsiTimeval) (ptz : Option PsiTimezone)
  | ofUnix (raw : PsiTime) (utv : Option Timeval)
  | ofCopy (w : ℕ)
  | assign (w : ℕ)
  | setUnixTime (utv : Option Timeval)
  | setUnixSeconds (time : ℤ)
  | setUnixNow
  | setPsiTime (ptv : Option PsiTimeval)
  | setPsiZone (ptz : Option PsiTimezone)
  | setSiboTime (stime : UInt32)
  | compare (w : ℕ)

/-- The object after an operation, if it and the one that it is given exist. -/
def TimeOp.apply (s : TimeState) (v : ℕ) : TimeOp → Option PsiTime
  | ofNow raw => some (.ofNow s.machine s.zone raw)
  | ofTime raw time => some (.ofTime s.machine raw time)
  | ofPsi raw ptv ptz => some (.ofPsi s.machine s.zone raw ptv ptz)
  | ofUnix raw utv => some (.ofUnix s.machine s.zone raw utv)
  | ofCopy w => (s.pool w).map (.tryPsiZone s.zone)
  | assign w => (s.pool v).bind fun _ => (s.pool w).map (.tryPsiZone s.zone)
  | setUnixTime utv => (s.pool v).map (.setUnixTime s.machine utv)
  | setUnixSeconds time => (s.pool v).map (.setUnixSeconds s.machine time)
  | setUnixNow => (s.pool v).map (.setUnixNow s.machine)
  | setPsiTime ptv => (s.pool v).map (.setPsiTime s.machine ptv)
  | setPsiZone ptz => (s.pool v).map (.setPsiZone s.machine ptz)
  | setSiboTime stime => (s.pool v).map (.setSiboTime s.machine stime)
  | compare w => (s.pool v).bind fun t => (s.pool w).map fun _ => t.psi2unix s.machine

/-- What an operation needs to leave both times the same instant. -/
def TimeOp.Fits (s : TimeState) (v : ℕ) : TimeOp → Prop
  | ofNow raw =>
    let t := ({ raw with ptzValid := false }).tryPsiZone s.zone
    UnixFits s.machine t.ptz t.ptzValid s.machine.clock
  | ofTime raw time => UnixFits s.machine raw.ptz false ⟨time, 0⟩
  | ofPsi raw ptv ptz =>
    let t := { raw with ptv := ptv.getD raw.ptv, ptzValid := false }
    let t := if ptz.isSome then t.withZone ptz else t.tryPsiZone s.zone
    PsiFits s.machine t.ptz t.ptzValid t.ptv
  | ofUnix raw utv =>
    let t := (raw.withUtv (utv.getD raw.utv)).tryPsiZone s.zone
    UnixFits s.machine t.ptz t.ptzValid t.utv
  | ofCopy w => ∀ t ∈ s.pool w, t.ptzValid = false → ∀ ptz ∈ s.zone, SameZone s.machine s.machine t.ptz ptz false true
  | assign w => (s.pool v).isSome = true →
    ∀ t ∈ s.pool w, t.ptzValid = false → ∀ ptz ∈ s.zone, SameZone s.machine s.machine t.ptz ptz false true
  | setUnixTime utv => ∀ t ∈ s.pool v, ∀ u ∈ utv, UnixFits s.machine t.ptz t.ptzValid u
  | setUnixSeconds time => ∀ t ∈ s.pool v, UnixFits s.machine t.ptz t.ptzValid ⟨time, 0⟩
  | setUnixNow => ∀ t ∈ s.pool v, UnixFits s.machine t.ptz t.ptzValid s.machine.clock
  | setPsiTime ptv => ∀ t ∈ s.pool v, ∀ p ∈ ptv, PsiFits s.machine t.ptz t.ptzValid p
  | setPsiZone ptz => ∀ t ∈ s.pool v, ∀ z ∈ ptz, PsiFits s.machine z true t.ptv
  | setSiboTime stime => ∀ t ∈ s.pool v, t.siboTime s.machine stime = t.utv
  | compare _ => True

/-- An operation, or the zone of the device becomes known, or time goes on. -/
inductive TimeEvent where
  | op (v : ℕ) (o : TimeOp)
  | setZone (ptz : PsiTimezone)
  | tick (clock : Timeval)

namespace TimeState

def step (s : TimeState) : TimeEvent → TimeState
  | .op v o => { s with pool := Function.update s.pool v ((o.apply s v).or (s.pool v)) }
  | .setZone ptz => { s with zone := some ptz }
  | .tick clock => { s with machine := { s.machine with clock := clock } }

/-- Nothing is constructed yet. -/
def start (m : Machine) : TimeState := ⟨m, none, fun _ => none⟩

/-- Both times of every object are the same instant. -/
def Consistent (s : TimeState) : Prop := ∀ v, ∀ t ∈ s.pool v, t.Consistent s.machine

/-- What an event needs. While time goes on the local time must not be put forward or back, if an object has a
zone. -/
def Fits (s : TimeState) : TimeEvent → Prop
  | .op v o => o.Fits s v
  | .setZone _ => True
  | .tick clock => ∀ v, ∀ t ∈ s.pool v,
    SameZone s.machine { s.machine with clock := clock } t.ptz t.ptz t.ptzValid t.ptzValid

end TimeState

namespace PsiTime

variable {m : Machine}

/-- A Unix time that is set is converted well just when it fits. -/
theorem consistent_withUtv_iff (t : PsiTime) (utv : Timeval) :
    Consistent m ((t.withUtv utv).unix2psi m) ↔ UnixFits m t.ptz t.ptzValid utv := by
  rw [consistent_unix2psi_iff, withUtv_ptz, withUtv_ptzValid, withUtv_utv]

/-- A time of the device that is set is converted well just when it fits. -/
theorem consistent_withPtv_iff (t : PsiTime) (ptv : PsiTimeval) :
    Consistent m ((t.withPtv ptv).psi2unix m) ↔ PsiFits m t.ptz t.ptzValid ptv := by
  rw [consistent_psi2unix_iff, withPtv_ptz, withPtv_ptzValid, withPtv_ptv]

variable {t : PsiTime}

/-- Setting a Unix time, if there is one, takes one that fits. -/
theorem consistent_setUnixTime_iff (h : Consistent m t) (utv : Option Timeval) :
    Consistent m (t.setUnixTime m utv) ↔ ∀ u ∈ utv, UnixFits m t.ptz t.ptzValid u := by
  cases utv with
  | none =>
    have hsame : t.setUnixTime m none = t := unix2psi_eq_self h
    rw [hsame]
    exact iff_of_true h fun u hu => by cases hu
  | some u =>
    rw [setUnixTime, consistent_withUtv_iff]
    exact ⟨fun hu u' hu' => by cases hu'; exact hu, fun hall => hall u rfl⟩

/-- Setting a time of the device, if there is one, takes one that fits. -/
theorem consistent_setPsiTime_iff (h : Consistent m t) (ptv : Option PsiTimeval) :
    Consistent m (t.setPsiTime m ptv) ↔ ∀ p ∈ ptv, PsiFits m t.ptz t.ptzValid p := by
  cases ptv with
  | none =>
    have hsame : t.setPsiTime m none = t := psi2unix_eq_self_iff.mpr h.unix
    rw [hsame]
    exact iff_of_true h fun p hp => by cases hp
  | some p =>
    rw [setPsiTime, consistent_withPtv_iff]
    exact ⟨fun hp p' hp' => by cases hp'; exact hp, fun hall => hall p rfl⟩

/-- Setting a zone, if there is one, takes a time that fits in it. -/
theorem consistent_setPsiZone_iff (h : Consistent m t) (ptz : Option PsiTimezone) :
    Consistent m (t.setPsiZone m ptz) ↔ ∀ z ∈ ptz, PsiFits m z true t.ptv := by
  cases ptz with
  | none =>
    have hsame : t.setPsiZone m none = t := psi2unix_eq_self_iff.mpr h.unix
    rw [hsame]
    exact iff_of_true h fun z hz => by cases hz
  | some z =>
    rw [setPsiZone, consistent_psi2unix_iff]
    exact ⟨fun hz z' hz' => by cases hz'; exact hz, fun hall => hall z rfl⟩

end PsiTime

/-- What holds of all objects that there are holds of one that has just been made. -/
theorem forall_mem_some {P : PsiTime → Prop} {t : PsiTime} : (∀ t' ∈ some t, P t') ↔ P t :=
  ⟨fun h => h t rfl, fun h t' ht' => by cases ht'; exact h⟩

/-- The object of an operation has both times the same just when the operation has what it needs. -/
theorem TimeOp.apply_consistent_iff {s : TimeState} (hs : s.Consistent) (v : ℕ) (o : TimeOp) :
    (∀ t ∈ o.apply s v, t.Consistent s.machine) ↔ o.Fits s v := by
  cases o with
  | ofNow raw => exact forall_mem_some.trans (PsiTime.consistent_withUtv_iff _ _)
  | ofTime raw time => exact forall_mem_some.trans (PsiTime.consistent_withUtv_iff _ _)
  | ofPsi raw ptv ptz => exact forall_mem_some.trans PsiTime.consistent_psi2unix_iff
  | ofUnix raw utv => exact forall_mem_some.trans PsiTime.consistent_unix2psi_iff
  | ofCopy w =>
    rw [apply, Option.forall_mem_map, Fits]
    exact forall₂_congr fun t ht => PsiTime.consistent_tryPsiZone_iff (hs w t ht) s.zone
  | assign w =>
    rw [apply, Fits]
    cases s.pool v with
    | none => exact iff_of_true (fun t ht => by cases ht) fun h => absurd h Bool.false_ne_true
    | some old =>
      rw [Option.bind_some, Option.forall_mem_map, imp_iff_right Option.isSome_some]
      exact forall₂_congr fun t ht => PsiTime.consistent_tryPsiZone_iff (hs w t ht) s.zone
  | setUnixTime utv =>
    rw [apply, Option.forall_mem_map, Fits]
    exact forall₂_congr fun t ht => PsiTime.consistent_setUnixTime_iff (hs v t ht) utv
  | setUnixSeconds time =>
    rw [apply, Option.forall_mem_map, Fits]
    exact forall₂_congr fun t ht => PsiTime.consistent_withUtv_iff t _
  | setUnixNow =>
    rw [apply, Option.forall_mem_map, Fits]
    exact forall₂_congr fun t ht => PsiTime.consistent_withUtv_iff t _
  | setPsiTime ptv =>
    rw [apply, Option.forall_mem_map, Fits]
    exact forall₂_congr fun t ht => PsiTime.consistent_setPsiTime_iff (hs v t ht) ptv
  | setPsiZone ptz =>
    rw [apply, Option.forall_mem_map, Fits]
    exact forall₂_congr fun t ht => PsiTime.consistent_setPsiZone_iff (hs v t ht) ptz
  | setSiboTime stime =>
    rw [apply, Option.forall_mem_map, Fits]
    exact forall₂_congr fun t ht => PsiTime.consistent_setSiboTime_iff (hs v t ht) stime
  | compare w =>
    refine iff_of_true (fun t ht => ?_) trivial
    obtain ⟨old, hold, hnew⟩ := Option.bind_eq_some_iff.mp ht
    obtain ⟨other, -, rfl⟩ := Option.map_eq_some_iff.mp hnew
    rw [PsiTime.psi2unix_eq_self_iff.mpr (hs v old hold).unix]
    exact hs v old hold

namespace TimeState

/-- An event keeps both times of every object the same just when it has what it needs. -/
theorem step_consistent_iff (s : TimeState) (e : TimeEvent) (hs : s.Consistent) :
    (s.step e).Consistent ↔ s.Fits e := by
  cases e with
  | op v o =>
    rw [Fits, ← o.apply_consistent_iff hs v]
    constructor
    · intro h t ht
      refine h v t ?_
      change Function.update s.pool v ((o.apply s v).or (s.pool v)) v = some t
      rw [Function.update_self, ht, Option.some_or]
    · intro h w t ht
      change Function.update s.pool v ((o.apply s v).or (s.pool v)) w = some t at ht
      change t.Consistent s.machine
      by_cases hw : w = v
      · rw [hw, Function.update_self] at ht
        cases hnew : o.apply s v with
        | none =>
          rw [hnew, Option.none_or] at ht
          exact hs v t ht
        | some new =>
          rw [hnew, Option.some_or] at ht
          exact h t (hnew.trans ht)
      · rw [Function.update_of_ne hw] at ht
        exact hs w t ht
  | setZone ptz => exact iff_of_true hs trivial
  | tick clock =>
    refine forall_congr' fun v => forall₂_congr fun t ht => ?_
    have hgmtoff : { s.machine with clock := clock }.tmGmtoff = s.machine.tmGmtoff := rfl
    exact PsiTime.consistent_zone_iff (hs v t ht) hgmtoff t.ptz t.ptzValid

/-- In a program both times of every object are always the same just when each event has what it needs. -/
theorem consistent_iff_fits (m : Machine) (events : List TimeEvent) :
    (∀ seen, seen <+: events → (runFrom step (start m) seen).Consistent) ↔ Admits step Fits (start m) events :=
  forall_prefix_iff_admits step_consistent_iff (fun v t ht => by cases ht) events

/-- A SIBO time is set on an object that is now, and lost at the next comparison. -/
theorem not_consistent_setSiboTime : ¬∀ seen,
    seen <+: [.op 0 (.ofNow ⟨⟨0, 0⟩, ⟨0, 0⟩, ⟨0, 0⟩, false⟩), .op 0 (.setSiboTime 1000)] →
      (runFrom step (start ⟨fun _ => 0, ⟨0, 0⟩, none⟩) seen).Consistent := by
  intro h
  have hunix := (h _ (List.prefix_refl _) 0 _ rfl).unix
  revert hunix
  decide

end TimeState

end Plptools.Time
