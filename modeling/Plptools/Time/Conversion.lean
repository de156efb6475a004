import Plptools.Time.PsiTime

/-!
# Converting a time there and back

Where the local time is always ahead of UTC by the same, the two conversions are inverse to each other on the
instants that 64 bits without a sign can count from the epoch of Unix. The division that follows the subtraction of
the epoch has no sign either, so an instant before 1970 comes out as one in the far future.
-/

namespace Plptools.Time

/-- The machine has the same local time all year. -/
def Machine.fixed (tmGmtoff : ℤ) (clock : Timeval) (PSI_TZ : Option ℤ) : Machine :=
  ⟨fun _ => tmGmtoff, clock, PSI_TZ⟩

/-- A time and its conversion: the seconds are those of the instant, counted from the epoch of Unix and rounded
down, and each representation of the instant is the conversion of the other one. -/
structure RoundTrips (m : Machine) (ptz : PsiTimezone) (valid : Bool) (ptv : PsiTimeval) : Prop where
  usec : 0 ≤ (psi2unix m ptz valid ptv).tvUsec ∧ (psi2unix m ptz valid ptv).tvUsec < 1000000
  sec : (psi2unix m ptz valid ptv).tvSec = instant m ptz valid ptv / 1000000
  back : unix2psi m ptz valid (psi2unix m ptz valid ptv) = ptv
  forth : psi2unix m ptz valid (unix2psi m ptz valid (.ofMicro (instant m ptz valid ptv))) =
    .ofMicro (instant m ptz valid ptv)

/-- The microseconds are those that it is made of. -/
theorem Timeval.micro_ofMicro (n : ℤ) : (Timeval.ofMicro n).micro = n := (Timeval.eq_ofMicro_iff.mp rfl).2.2

section Fixed

variable (tmGmtoff : ℤ) (clock : Timeval) (PSI_TZ : Option ℤ) (ptz : PsiTimezone) (valid : Bool)

/-- A Unix time that counts the microseconds of the instant, if only in 64 bits, is converted to the time of the
device. -/
theorem unix2psi_fixed {ptv : PsiTimeval} {utv : Timeval}
    (h : uint64 utv.micro = uint64 (instant (.fixed tmGmtoff clock PSI_TZ) ptz valid ptv)) :
    unix2psi (.fixed tmGmtoff clock PSI_TZ) ptz valid utv = ptv := by
  have hoffset : evalOffset (.fixed tmGmtoff clock PSI_TZ) ptz utv.tvSec valid =
      evalOffset (.fixed tmGmtoff clock PSI_TZ) ptz (localSecond ptv) valid := rfl
  have hsame := (uint64_add_right_inj
    (evalOffset (.fixed tmGmtoff clock PSI_TZ) ptz (localSecond ptv) valid + EPOCH_DIFF)).mpr h
  have hmicro : instant (.fixed tmGmtoff clock PSI_TZ) ptz valid ptv +
      (evalOffset (.fixed tmGmtoff clock PSI_TZ) ptz (localSecond ptv) valid + EPOCH_DIFF) = ptv.micro := by
    rw [instant]
    omega
  rw [hmicro, uint64_of_lt ptv.micro_lt] at hsame
  rw [unix2psi_eq, hoffset, Int.add_assoc, hsame]
  exact PsiTimeval.micro_inj (PsiTimeval.micro_ofMicro ptv.micro_lt)

/-- A time of the device is converted there and back just when its instant can be counted from 1970 on. -/
theorem roundTrips_iff (ptv : PsiTimeval) : RoundTrips (.fixed tmGmtoff clock PSI_TZ) ptz valid ptv ↔
    0 ≤ instant (.fixed tmGmtoff clock PSI_TZ) ptz valid ptv ∧
      instant (.fixed tmGmtoff clock PSI_TZ) ptz valid ptv < 2 ^ 64 := by
  have hunix := psi2unix_eq (.fixed tmGmtoff clock PSI_TZ) ptz valid ptv
  have hpsi : unix2psi (.fixed tmGmtoff clock PSI_TZ) ptz valid
      (.ofMicro (instant (.fixed tmGmtoff clock PSI_TZ) ptz valid ptv)) = ptv :=
    unix2psi_fixed tmGmtoff clock PSI_TZ ptz valid (by rw [Timeval.micro_ofMicro])
  constructor
  · intro h
    have hforth := congrArg Timeval.micro h.forth
    rw [hpsi, hunix, Timeval.micro_ofMicro, Timeval.micro_ofMicro] at hforth
    rw [← hforth]
    exact ⟨Int.natCast_nonneg _, Int.ofNat_lt.mpr (uint64_lt _)⟩
  · rintro ⟨hnonneg, hlt⟩
    have hwrapped : (uint64 (instant (.fixed tmGmtoff clock PSI_TZ) ptz valid ptv) : ℤ) =
        instant (.fixed tmGmtoff clock PSI_TZ) ptz valid ptv := by
      rw [uint64_natCast, Int.emod_eq_of_lt hnonneg hlt]
    rw [hwrapped] at hunix
    refine ⟨?_, by rw [hunix]; rfl, by rw [hunix, hpsi], by rw [hpsi, hunix]⟩
    rw [hunix]
    exact ⟨Int.emod_nonneg _ (by decide), Int.emod_lt_of_pos _ (by decide)⟩

/-- One second before 1970, in UTC. -/
theorem not_roundTrips_1969 : ¬RoundTrips (.fixed 0 ⟨0, 0⟩ none) ⟨0, 0⟩ false (.ofMicro (EPOCH_DIFF - 1000000)) :=
  fun h => absurd h.sec (by decide)

end Fixed

end Plptools.Time
