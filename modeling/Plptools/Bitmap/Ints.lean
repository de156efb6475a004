import Plptools.Bitmap.RoundTrip

/-!
# Decoding with counters that are ints

The offset into the data, the count of the bytes that the runs stand for and the index of a pixel
are ints. Counting on from the last int is not defined, so that it gives nothing here. Where there
is a result it is the one of `decodeBitmap`.
-/

namespace Plptools

open BufferStore (dwordBytes)
open RFSV (uint32 int32 getDWord)

/-- Adding to an int that is not negative. -/
def addCounter (n k : ℕ) : Option ℕ := if n + k < 2 ^ 31 then some (n + k) else none

/-- The first loop over runs, as in `countRuns`. -/
def countRunsInt (f : Format) (p : List UInt8) : ℕ → ℕ → ℕ → Option ℕ
  | 0, _, i => some i
  | fuel + 1, offset, i =>
    if offset < f.datlen then do
      let b ← p[offset]?
      if b ≥ 0x80 then
        let offset ← addCounter offset (0x100 - b.toNat + 1)
        let i ← addCounter i (0x100 - b.toNat)
        countRunsInt f p fuel offset i
      else
        let offset ← addCounter offset 2
        let i ← addCounter i (b.toNat + 1)
        countRunsInt f p fuel offset i
    else return i

/-- The loop over bytes without run lengths, as in `splitBytes`. -/
def DecodeState.splitBytesInt (f : Format) (linelen : ℕ) (p : List UInt8) :
    ℕ → ℕ → DecodeState → Option (Bool × DecodeState)
  | 0, _, s => some (true, s)
  | left + 1, offset, s => do
    let b ← p[offset]?
    let offset ← addCounter offset 1
    let r := s.splitByte f linelen b
    if r.1 then splitBytesInt f linelen p left offset r.2 else return r

/-- The loops over the data. The second one over runs goes no further than the first. -/
def DecodeState.splitDataInt (f : Format) (p : List UInt8) (s : DecodeState) : Option (Bool × DecodeState) :=
  if f.RLEflag ≠ 0 then do
    let i ← countRunsInt f p f.datlen 0 0
    splitRuns f (i / f.yPixels) p f.datlen 0 s
  else splitBytesInt f (f.datlen / f.yPixels) p f.datlen 0 s

/-- `decodeBitmap`, where ints do not overflow. The index of the pixel only grows, so that it is
looked at in the end. -/
def decodeBitmapInt (p out : List UInt8) : Option Decoded := do
  let f ← readFormat p
  if f.bitsPerPixel = 0 ∨ 8 < f.bitsPerPixel ∨ f.yPixels = 0 then none
  else
    let (ok, s) ← DecodeState.splitDataInt f (p.drop 40) ⟨0, 0, out⟩
    if s.oidx < 2 ^ 31 then return ⟨ok, int32 f.xPixels, int32 f.yPixels, s.out⟩ else none

/-! ### The same result -/

/-- The sum is an int. -/
theorem addCounter_eq_some {n k m : ℕ} : addCounter n k = some m ↔ n + k < 2 ^ 31 ∧ n + k = m := by
  rw [addCounter, Option.ite_none_right_eq_some, Option.some.injEq]

/-- What follows a sum that is an int. -/
theorem addCounter_bind {A : Type} (n k : ℕ) (g : ℕ → Option A) :
    (addCounter n k).bind g = if n + k < 2 ^ 31 then g (n + k) else none := by
  rw [addCounter]
  split <;> rfl

variable {f : Format} {p : List UInt8}

/-- Where no int overflows the runs are counted the same. -/
theorem countRuns_of_int {fuel offset i total : ℕ} (h : countRunsInt f p fuel offset i = some total) :
    countRuns f p fuel offset i = some total := by
  induction fuel generalizing offset i with
  | zero => exact h
  | succ fuel ih =>
    rw [countRunsInt] at h
    rw [countRuns]
    by_cases hmore : offset < f.datlen
    · simp only [if_pos hmore, Option.bind_eq_bind, Option.bind_eq_some_iff] at h ⊢
      obtain ⟨b, hb, h⟩ := h
      refine ⟨b, hb, ?_⟩
      by_cases hrun : b ≥ 0x80
      · simp only [if_pos hrun, Option.bind_eq_some_iff, addCounter_eq_some] at h ⊢
        obtain ⟨offset', ⟨-, rfl⟩, i', ⟨-, rfl⟩, h⟩ := h
        exact ih h
      · simp only [if_neg hrun, Option.bind_eq_some_iff, addCounter_eq_some] at h ⊢
        obtain ⟨offset', ⟨-, rfl⟩, i', ⟨-, rfl⟩, h⟩ := h
        exact ih h
    · rwa [if_neg hmore] at h ⊢

namespace DecodeState

variable {linelen : ℕ}

/-- Where no int overflows the bytes are split the same. -/
theorem splitBytes_of_int {left offset : ℕ} {s : DecodeState} {r : Bool × DecodeState}
    (h : splitBytesInt f linelen p left offset s = some r) : splitBytes f linelen p left offset s = some r := by
  induction left generalizing offset s with
  | zero => exact h
  | succ left ih =>
    simp only [splitBytesInt, splitBytes, Option.bind_eq_bind, Option.bind_eq_some_iff, addCounter_eq_some] at h ⊢
    obtain ⟨b, hb, offset', ⟨-, rfl⟩, h⟩ := h
    refine ⟨b, hb, ?_⟩
    by_cases hmore : (s.splitByte f linelen b).1 = true
    · rw [if_pos hmore] at h ⊢
      exact ih h
    · rwa [if_neg hmore] at h ⊢

end DecodeState

/-- A result is the one that is computed without overflow. -/
theorem decodeBitmap_of_int {out : List UInt8} {d : Decoded} (h : decodeBitmapInt p out = some d) :
    decodeBitmap p out = some d := by
  simp only [decodeBitmapInt, decodeBitmap, Option.bind_eq_bind, Option.bind_eq_some_iff] at h ⊢
  obtain ⟨f, hf, h⟩ := h
  refine ⟨f, hf, ?_⟩
  by_cases hbad : f.bitsPerPixel = 0 ∨ 8 < f.bitsPerPixel ∨ f.yPixels = 0
  · rw [if_pos hbad] at h
    cases h
  · rw [if_neg hbad, Option.bind_eq_some_iff] at h
    rw [if_neg hbad]
    obtain ⟨r, hr, h⟩ := h
    rw [Option.ite_none_right_eq_some] at h
    rw [DecodeState.splitDataInt] at hr
    by_cases hRLE : f.RLEflag ≠ 0
    · simp only [if_pos hRLE, Option.bind_eq_bind, Option.bind_eq_some_iff] at hr ⊢
      obtain ⟨i, hi, hr⟩ := hr
      exact ⟨i, countRuns_of_int hi, r, hr, h.2⟩
    · simp only [if_neg hRLE, Option.bind_eq_some_iff] at hr ⊢
      exact ⟨r, DecodeState.splitBytes_of_int hr, h.2⟩

/-! ### Headers -/

/-- The double words before the data. -/
structure BitmapHeader where
  totlen : UInt32
  hdrlen : UInt32
  xPixels : UInt32
  yPixels : UInt32
  xTwips : UInt32
  yTwips : UInt32
  bitsPerPixel : UInt32
  unknown1 : UInt32
  unknown2 : UInt32
  RLEflag : UInt32
deriving DecidableEq, Repr

namespace BitmapHeader

/-- A header in memory. -/
def bytes (h : BitmapHeader) : List UInt8 :=
  dwordBytes h.totlen.toNat ++ (dwordBytes h.hdrlen.toNat ++ (dwordBytes h.xPixels.toNat ++
    (dwordBytes h.yPixels.toNat ++ (dwordBytes h.xTwips.toNat ++ (dwordBytes h.yTwips.toNat ++
      (dwordBytes h.bitsPerPixel.toNat ++ (dwordBytes h.unknown1.toNat ++
        (dwordBytes h.unknown2.toNat ++ dwordBytes h.RLEflag.toNat))))))))

/-- What is computed from a header. -/
def format (h : BitmapHeader) : Format :=
  ⟨(h.totlen - h.hdrlen).toNat, h.xPixels.toNat, h.yPixels.toNat, h.bitsPerPixel.toNat, h.RLEflag.toNat⟩

/-- A double word is not cut off. -/
theorem uint32_toNat (a : UInt32) : uint32 a.toNat = a.toNat := by
  have hlt := a.toNat_lt
  rw [uint32]
  omega

/-- A difference is cut off to 32 bits. -/
theorem uint32_sub (a b : UInt32) : uint32 (a.toNat - b.toNat) = (a - b).toNat := by
  have ha := a.toNat_lt
  have hb := b.toNat_lt
  rw [uint32, UInt32.toNat_sub]
  omega

/-- A header is read, whatever follows it. -/
theorem readFormat_bytes (h : BitmapHeader) (data : List UInt8) :
    readFormat (h.bytes ++ data) = some h.format := by
  simp [readFormat, bytes, readDWord_skip, uint32_toNat, uint32_sub, format]

/-- The data are behind the header. -/
theorem drop_bytes (h : BitmapHeader) (data : List UInt8) : (h.bytes ++ data).drop 40 = data := rfl

end BitmapHeader

end Plptools
