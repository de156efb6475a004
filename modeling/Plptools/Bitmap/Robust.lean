import Plptools.Bitmap.Runs

/-!
# Headers that are not trusted

Nothing is checked of a header. The decoder divides by the number of bits of a pixel, by the pixels of
a byte and by the height; the length of the data is a difference of two numbers of the header; and
it returns true at the end of the data, however many pixels there were. What happens follows from
the number of pixels that the bytes hold which are there.
-/

namespace Plptools

open RFSV (uint32 int32)

/-- The decoder ends without a division by zero, a read behind the buffer or an overflow, and if it
returns true it has appended as many pixels as it says. -/
def DecodesSafely (p out : List UInt8) : Prop :=
  ∃ d, decodeBitmapInt p out = some d ∧ (d.ok = true → (d.out.length : ℤ) = out.length + d.width * d.height)

namespace Format

/-- The bytes `e.1` that the data stand for, as far as these are there, hold too many pixels, or the
data are all there, and unless a run is broken off the pixels are those of the picture. -/
def Fits (f : Format) (linelen : ℕ) (data : List UInt8) (e : List UInt8 × Bool) : Prop :=
  (f.picsize < f.pixelsBefore linelen e.1.length ∧ f.picsize < 2 ^ 31) ∨
    (f.pixelsBefore linelen e.1.length ≤ f.picsize ∧ f.pixelsBefore linelen e.1.length < 2 ^ 31 ∧
      f.datlen ≤ data.length ∧
        (e.2 = true → (f.pixelsBefore linelen e.1.length : ℤ) = int32 f.xPixels * int32 f.yPixels))

/-- The numbers of a header that suit the data behind it. -/
structure Suits (f : Format) (p : List UInt8) : Prop where
  bitsPerPixel_pos : 1 ≤ f.bitsPerPixel
  bitsPerPixel_le : f.bitsPerPixel ≤ 8
  yPixels_pos : 1 ≤ f.yPixels
  plain : f.RLEflag = 0 → f.Fits (f.datlen / f.yPixels) (f.data p) (f.data p, true)
  runs : f.RLEflag ≠ 0 → ∃ i, CountsRuns f.datlen p 0 0 i ∧
    f.Fits (i / f.yPixels) (f.data p) (expandRuns .start (f.data p))

end Format

/-- A double word has 32 bits. -/
theorem readDWord_lt {p : List UInt8} {pos n : ℕ} (h : readDWord p pos = some n) : n < 2 ^ 32 := by
  rw [readDWord, Option.ite_none_right_eq_some] at h
  exact Option.some.inj h.2 ▸ RFSV.getDWord_lt p pos

/-- The width that is read is an unsigned number. -/
theorem xPixels_lt {p : List UInt8} {f : Format} (h : readFormat p = some f) : f.xPixels < 2 ^ 32 := by
  simp only [readFormat, Option.bind_eq_bind, Option.bind_eq_some_iff] at h
  obtain ⟨_, _, _, _, xPixels, hx, _, _, _, _, _, _, _, _, _, _, _, _, _, _, hf⟩ := h
  obtain rfl := Option.some.inj hf
  exact readDWord_lt hx

/-- What becomes of expanded bytes. -/
theorem splitExpanded_safe_iff {f : Format} (hf : f.Valid) (linelen : ℕ) (data out : List UInt8)
    (e : List UInt8 × Bool) :
    (∃ d, ((DecodeState.splitExpanded f linelen (f.datlen ≤ data.length) e ⟨0, 0, out⟩).bind fun r =>
        if r.2.oidx < 2 ^ 31 then some (⟨r.1, int32 f.xPixels, int32 f.yPixels, r.2.out⟩ : Decoded) else none) = some d ∧
      (d.ok = true → (d.out.length : ℤ) = out.length + d.width * d.height)) ↔ f.Fits linelen data e := by
  by_cases hroom : f.pixelsBefore linelen e.1.length ≤ f.picsize
  · have hlength := @Format.length_pixels f linelen hf e.1
    rw [DecodeState.splitExpanded_fits hf _ e out hroom]
    constructor
    · rintro ⟨d, hd, hok⟩
      rw [Option.bind_eq_some_iff] at hd
      obtain ⟨r, hr, hd⟩ := hd
      rw [Option.ite_none_right_eq_some] at hr hd
      obtain rfl := Option.some.inj hr.2
      obtain rfl := Option.some.inj hd.2
      refine .inr ⟨hroom, hd.1, of_decide_eq_true hr.1, fun hended => ?_⟩
      have hpixels := hok hended
      simp only [List.length_append, hlength, Int.natCast_add] at hpixels
      exact Int.add_left_cancel hpixels
    · intro h
      obtain ⟨hfull, -⟩ | ⟨-, hint, hall, hpixels⟩ := h
      · exact absurd hroom (Nat.not_le.mpr hfull)
      · rw [if_pos (decide_eq_true hall), Option.bind_some, if_pos hint]
        refine ⟨_, rfl, fun hended => ?_⟩
        simp only [List.length_append, hlength, Int.natCast_add, hpixels hended]
  · obtain ⟨s, hs, hoidx⟩ := DecodeState.splitExpanded_full hf (f.datlen ≤ data.length) e out hroom
    rw [hs, Option.bind_some, hoidx]
    constructor
    · rintro ⟨d, hd, -⟩
      rw [Option.ite_none_right_eq_some] at hd
      exact .inl ⟨Nat.not_le.mp hroom, hd.1⟩
    · intro h
      obtain ⟨-, hint⟩ | ⟨hfits, -⟩ := h
      · rw [if_pos hint]
        exact ⟨_, rfl, fun hok => absurd hok Bool.false_ne_true⟩
      · exact absurd hfits hroom

/-- A buffer is decoded safely just when its header suits its data. -/
theorem decodesSafely_iff (p out : List UInt8) :
    DecodesSafely p out ↔ ∃ f, readFormat p = some f ∧ f.Suits (p.drop 40) := by
  cases hread : readFormat p with
  | none =>
    constructor
    · rintro ⟨d, hd, -⟩
      rw [decodeBitmapInt, hread] at hd
      cases hd
    · rintro ⟨f, hf, -⟩
      cases hf
  | some f =>
    have hunique : (∃ g, some f = some g ∧ g.Suits (p.drop 40)) ↔ f.Suits (p.drop 40) := by simp
    rw [hunique, DecodesSafely, decodeBitmapInt_eq hread]
    by_cases hbad : f.bitsPerPixel = 0 ∨ 8 < f.bitsPerPixel ∨ f.yPixels = 0
    · rw [if_pos hbad]
      constructor
      · rintro ⟨d, hd, -⟩
        cases hd
      · intro h
        have h₁ := h.bitsPerPixel_pos
        have h₂ := h.bitsPerPixel_le
        have h₃ := h.yPixels_pos
        omega
    · have hvalid : f.Valid := ⟨by omega, by omega, xPixels_lt hread⟩
      have hy : 1 ≤ f.yPixels := by omega
      rw [if_neg hbad]
      by_cases hRLE : f.RLEflag = 0
      · rw [DecodeState.splitDataInt_plain hRLE, splitExpanded_safe_iff hvalid]
        exact ⟨fun h => ⟨hvalid.bitsPerPixel_pos, hvalid.bitsPerPixel_le, hy, fun _ => h, fun hne => absurd hRLE hne⟩,
          fun h => h.plain hRLE⟩
      · by_cases hcount : ∃ i, CountsRuns f.datlen (p.drop 40) 0 0 i
        · obtain ⟨i, hi⟩ := hcount
          rw [DecodeState.splitDataInt_runs hRLE hi, splitExpanded_safe_iff hvalid]
          constructor
          · exact fun h => ⟨hvalid.bitsPerPixel_pos, hvalid.bitsPerPixel_le, hy, fun hzero => absurd hzero hRLE,
              fun _ => ⟨i, hi, h⟩⟩
          · intro h
            obtain ⟨j, hj, hfits⟩ := h.runs hRLE
            obtain rfl := hi.unique hj
            exact hfits
        · rw [DecodeState.splitDataInt_none hRLE fun i hi => hcount ⟨i, hi⟩]
          constructor
          · rintro ⟨d, hd, -⟩
            cases hd
          · intro h
            obtain ⟨i, hi, -⟩ := h.runs hRLE
            exact absurd ⟨i, hi⟩ hcount

/-- A header of zeros, apart from the length. -/
theorem not_decodesSafely_zeros : ¬DecodesSafely (40 :: List.replicate 39 0) [] := by
  intro h
  obtain ⟨d, hd, -⟩ := h
  have hnone : decodeBitmapInt (40 :: List.replicate 39 0) [] = none := by decide
  cases hnone.symm.trans hd

end Plptools
