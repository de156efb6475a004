import Plptools.Bitmap.Runs

/-!
# Bitmaps of one, two, four and eight bits a pixel

A row takes as many bytes as its fields need, and is filled up to a multiple of four. The pixel in
column `x` of row `y` is then the one that is decoded as number `y * xPixels + x`. Of its field,
`mask` keeps `2 * bitsPerPixel - 1` only, which is all of one or two bits, but three of four and four
of eight. So the grey level is the right one where the field is below `2 * bitsPerPixel`.
-/

namespace Plptools

open RFSV (uint32 int32)
open Plptools.Library

/-- The length of a row of `width` fields, a multiple of four. -/
def paddedLength (bitsPerPixel width : ℕ) : ℕ := ((width * bitsPerPixel + 7) / 8 + 3) / 4 * 4

/-- Field `x` of row `y`, from the least significant bits of each byte. -/
def field (bitsPerPixel width : ℕ) (data : List UInt8) (x y : ℕ) : ℕ :=
  (data.getD (y * paddedLength bitsPerPixel width + x * bitsPerPixel / 8) 0).toNat /
    2 ^ (x * bitsPerPixel % 8) % 2 ^ bitsPerPixel

namespace Format

variable {f : Format} {linelen : ℕ}

/-- Where a line holds a row, the lines are the rows. -/
theorem pixelsBefore_add (hf : f.Valid) (hline : f.bytesPerLine.toNat ≤ linelen) {q c : ℕ}
    (hc : c < f.bytesPerLine.toNat) :
    f.pixelsBefore linelen (q * linelen + c) = q * f.xPixels + c * f.pixelsPerByte := by
  have hall : f.columns linelen = f.bytesPerLine.toNat := Nat.min_eq_right hline
  have hhere : f.columns c = c := Nat.min_eq_left hc.le
  rw [pixelsBefore, Nat.max_eq_left (by omega), inRows_add (Nat.lt_of_lt_of_le hc hline), hall, hhere,
    inRows_add hc, hf.rowPixels_all (by omega), hf.rowPixels_of_lt hc]

/-- Where a line holds a row, pixel `m` is in row `m / xPixels` at column `m % xPixels`. -/
theorem pixels_getElem? (hf : f.Valid) (hpos : 0 < f.bytesPerLine) (hline : f.bytesPerLine.toNat ≤ linelen)
    {bytes : List UInt8} {m : ℕ} (hm : m < f.pixelsBefore linelen bytes.length) :
    (f.pixels linelen bytes)[m]? =
      bytes[m / f.xPixels * linelen + m % f.xPixels / f.pixelsPerByte]?.map fun b =>
        f.level b.toNat (m % f.xPixels % f.pixelsPerByte) := by
  induction bytes using List.reverseRecOn with
  | nil => rw [List.length_nil, pixelsBefore_zero] at hm; cases hm
  | append_singleton bytes b ih =>
    rw [pixels_append_singleton]
    by_cases hbefore : m < f.pixelsBefore linelen bytes.length
    · have hpixels := ih hbefore
      rw [List.getElem?_append_left (by rwa [length_pixels hf]), hpixels]
      have hthere : m / f.xPixels * linelen + m % f.xPixels / f.pixelsPerByte < bytes.length := by
        by_contra hnot
        rw [List.getElem?_eq_none (Nat.not_lt.mp hnot), Option.map_none, List.getElem?_eq_none_iff,
          length_pixels hf] at hpixels
        exact absurd hbefore (Nat.not_lt.mpr hpixels)
      rw [List.getElem?_append_left hthere]
    · -- the pixel is one of the last byte
      have hmax : max linelen 1 = linelen := Nat.max_eq_left (by omega)
      have hcolumn : (bytes.length % max linelen 1 : ℕ) < f.bytesPerLine := by
        by_contra hnot
        rw [List.length_append, List.length_singleton, pixelsBefore_succ_of_le (Int.not_lt.mp hnot)] at hm
        exact hbefore hm
      have hsucc := (pixelsBefore_succ_of_lt hf hcolumn).2
      rw [hmax] at hcolumn
      have hc : bytes.length % linelen < f.bytesPerLine.toNat := by omega
      have hk : bytes.length = bytes.length / linelen * linelen + bytes.length % linelen :=
        (Nat.div_add_mod' _ _).symm
      have hfirst : f.pixelsBefore linelen bytes.length =
          bytes.length / linelen * f.xPixels + bytes.length % linelen * f.pixelsPerByte := by
        rw [hk, pixelsBefore_add hf hline hc, ← hk]
      have hx := hf.mul_lt_xPixels hc
      have hmod : f.pixelsBefore linelen bytes.length % f.xPixels = bytes.length % linelen * f.pixelsPerByte := by
        rw [hfirst, Nat.mul_add_mod_self_right, Nat.mod_eq_of_lt hx]
      obtain ⟨j, rfl⟩ := Nat.exists_eq_add_of_le (Nat.not_lt.mp hbefore)
      rw [List.length_append, List.length_singleton, hsucc, hmod] at hm
      have hm' := Nat.lt_of_add_lt_add_left hm
      have hj : j < f.pixelsPerByte := by omega
      have hin : bytes.length % linelen * f.pixelsPerByte + j < f.xPixels := by omega
      have hrow : (f.pixelsBefore linelen bytes.length + j) / f.xPixels = bytes.length / linelen := by
        rw [hfirst, Nat.add_assoc, Nat.mul_comm (_ / _), Nat.mul_add_div (by omega), Nat.div_eq_of_lt hin, Nat.add_zero]
      have hcol : (f.pixelsBefore linelen bytes.length + j) % f.xPixels =
          bytes.length % linelen * f.pixelsPerByte + j := by
        rw [hfirst, Nat.add_assoc, Nat.mul_add_mod_self_right, Nat.mod_eq_of_lt hin]
      have hbyte : (bytes.length % linelen * f.pixelsPerByte + j) / f.pixelsPerByte = bytes.length % linelen := by
        rw [Nat.mul_comm (_ % _), Nat.mul_add_div (by omega), Nat.div_eq_of_lt hj, Nat.add_zero]
      rw [hrow, hcol, hbyte, ← hk, Nat.mul_add_mod_self_right, Nat.mod_eq_of_lt hj, List.getElem?_concat_length,
        List.getElem?_append_right (by rw [length_pixels hf]; exact Nat.le_add_right _ _), length_pixels hf,
        Nat.add_sub_cancel_left, pixelsAt, hsucc, hmod, Nat.add_sub_cancel_left, bytePixels,
        List.getElem?_map, List.getElem?_range hm']
      rfl

/-- The numbers of a bitmap whose rows are padded. -/
structure Plain (f : Format) : Prop where
  bitsPerPixel : f.bitsPerPixel ∈ [1, 2, 4, 8]
  xPixels_pos : 1 ≤ f.xPixels
  xPixels_lt : f.xPixels < 2 ^ 32
  yPixels_pos : 1 ≤ f.yPixels
  datlen : f.datlen = paddedLength f.bitsPerPixel f.xPixels * f.yPixels

namespace Plain

/-- The number of bits a pixel. -/
theorem cases (h : f.Plain) :
    f.bitsPerPixel = 1 ∨ f.bitsPerPixel = 2 ∨ f.bitsPerPixel = 4 ∨ f.bitsPerPixel = 8 := by
  simpa using h.bitsPerPixel

/-- A plain format is valid. -/
theorem valid (h : f.Plain) : f.Valid where
  bitsPerPixel_pos := by have := h.cases; omega
  bitsPerPixel_le := by have := h.cases; omega
  xPixels_lt := h.xPixels_lt

/-- A step between grey levels. -/
theorem scale_pos (h : f.Plain) : 0 < 255 / (2 ^ f.bitsPerPixel - 1) := by
  obtain hbits | hbits | hbits | hbits := h.cases <;> rw [hbits] <;> decide

/-- The mask has no more bits than a field. -/
theorem mod_eq_iff (h : f.Plain) (a : ℕ) : a % (2 * f.bitsPerPixel) = a ↔ a < 2 * f.bitsPerPixel := by
  have hpos := h.valid.bitsPerPixel_pos
  exact Nat.mod_eq_iff_lt (by omega)

/-- Each line takes the same number of bytes. -/
theorem datlen_div (h : f.Plain) : f.datlen / f.yPixels = paddedLength f.bitsPerPixel f.xPixels := by
  rw [h.datlen, Nat.mul_div_cancel _ h.yPixels_pos]

/-- In a picture of fewer than `2 ^ 31` pixels, the columns with pixels are the bytes of a row. -/
theorem bytesPerLine (h : f.Plain) (hint : f.xPixels < 2 ^ 31) :
    0 < f.bytesPerLine ∧ f.bytesPerLine.toNat ≤ paddedLength f.bitsPerPixel f.xPixels := by
  have hx := h.xPixels_pos
  unfold Format.bytesPerLine Format.pixelsPerByte paddedLength int32 uint32
  obtain hbits | hbits | hbits | hbits := h.cases <;> rw [hbits] <;> omega

/-- All data hold the pixels of the picture. -/
theorem pixelsBefore_datlen (h : f.Plain) (hint : f.xPixels < 2 ^ 31) :
    f.pixelsBefore (f.datlen / f.yPixels) f.datlen = f.yPixels * f.xPixels := by
  obtain ⟨hpos, hline⟩ := h.bytesPerLine hint
  have hwhole : f.pixelsBefore (paddedLength f.bitsPerPixel f.xPixels) (f.yPixels * paddedLength f.bitsPerPixel
      f.xPixels + 0) = f.yPixels * f.xPixels + 0 * f.pixelsPerByte :=
    Format.pixelsBefore_add h.valid hline (by omega)
  rw [h.datlen_div, h.datlen, Nat.mul_comm _ f.yPixels, ← Nat.add_zero (f.yPixels * _), hwhole, Nat.zero_mul,
    Nat.add_zero]

/-- The level of field `x` is the right one where the field fits the mask. -/
theorem level (h : f.Plain) (v x : ℕ) :
    (f.level v (x % f.pixelsPerByte)).toNat =
      v / 2 ^ (x * f.bitsPerPixel % 8) % 2 ^ f.bitsPerPixel % (2 * f.bitsPerPixel) *
        (255 / (2 ^ f.bitsPerPixel - 1)) := by
  have hshift : x % f.pixelsPerByte * f.bitsPerPixel = x * f.bitsPerPixel % 8 := by
    unfold Format.pixelsPerByte
    obtain hbits | hbits | hbits | hbits := h.cases <;> rw [hbits] <;> omega
  rw [Format.level, hshift, Nat.shiftRight_eq_div_pow]
  generalize v / 2 ^ (x * f.bitsPerPixel % 8) = w
  -- the mask has `k` bits, and no level is above 255
  have hscale (k : ℕ) (hk : 2 * f.bitsPerPixel = 2 ^ k) (hle : k ≤ f.bitsPerPixel)
      (hlevel : (2 ^ k - 1) * (255 / (2 ^ f.bitsPerPixel - 1)) ≤ 255) :
      (lowByte ((w &&& f.mask) * f.grayVal : ℕ)).toNat =
        w % 2 ^ f.bitsPerPixel % (2 * f.bitsPerPixel) * (255 / (2 ^ f.bitsPerPixel - 1)) := by
    have hmask : f.mask = 2 ^ k - 1 := by rw [Format.mask, Nat.shiftLeft_eq, pow_one, Nat.mul_comm, hk]
    have hgray : f.grayVal = 255 / (2 ^ f.bitsPerPixel - 1) := by
      rw [Format.grayVal, Format.nColors, Nat.one_shiftLeft]
    have hbits : w % 2 ^ k ≤ 2 ^ k - 1 := Nat.le_pred_of_lt (Nat.mod_lt w (Nat.two_pow_pos k))
    have hsmall := (Nat.mul_le_mul_right (255 / (2 ^ f.bitsPerPixel - 1)) hbits).trans hlevel
    rw [hmask, hgray, Nat.and_two_pow_sub_one_eq_mod, hk, Nat.mod_mod_of_dvd w (Nat.pow_dvd_pow 2 hle)]
    have hbyte := RFSV.toNat_lowByte (w % 2 ^ k * (255 / (2 ^ f.bitsPerPixel - 1)) : ℕ)
    omega
  obtain hbits | hbits | hbits | hbits := h.cases
  · exact hscale 1 (by rw [hbits]; rfl) (by rw [hbits]) (by rw [hbits]; decide)
  · exact hscale 2 (by rw [hbits]; rfl) (by rw [hbits]) (by rw [hbits]; decide)
  · exact hscale 3 (by rw [hbits]; rfl) (by rw [hbits]; decide) (by rw [hbits]; decide)
  · exact hscale 4 (by rw [hbits]; rfl) (by rw [hbits]; decide) (by rw [hbits]; decide)

end Plain

end Format

/-- The levels of the fields of a bitmap. -/
theorem Format.Plain.pixels_getElem? {f : Format} (h : f.Plain) {data : List UInt8} (hdata : data.length = f.datlen)
    (hint : f.xPixels < 2 ^ 31) {x y : ℕ} (hx : x < f.xPixels) (hy : y < f.yPixels) :
    ((f.pixels (f.datlen / f.yPixels) data)[y * f.xPixels + x]?).map UInt8.toNat =
      some (field f.bitsPerPixel f.xPixels data x y % (2 * f.bitsPerPixel) *
        (255 / (2 ^ f.bitsPerPixel - 1))) := by
  obtain ⟨hpos, hline⟩ := h.bytesPerLine hint
  have hcell : y * f.xPixels + x < f.pixelsBefore (f.datlen / f.yPixels) data.length := by
    have hrows : (y + 1) * f.xPixels ≤ f.yPixels * f.xPixels := Nat.mul_le_mul_right _ hy
    rw [hdata, h.pixelsBefore_datlen hint]
    rw [Nat.succ_mul] at hrows
    omega
  have hrow : (y * f.xPixels + x) / f.xPixels = y := by
    rw [Nat.mul_comm, Nat.mul_add_div h.xPixels_pos, Nat.div_eq_of_lt hx, Nat.add_zero]
  have hcolumn : (y * f.xPixels + x) % f.xPixels = x := by
    rw [Nat.mul_add_mod_self_right, Nat.mod_eq_of_lt hx]
  have hbyte : x / f.pixelsPerByte = x * f.bitsPerPixel / 8 := by
    unfold Format.pixelsPerByte
    obtain hbits | hbits | hbits | hbits := h.cases <;> rw [hbits] <;> omega
  rw [h.datlen_div] at hcell ⊢
  have hpixel := Format.pixels_getElem? h.valid hpos hline hcell
  rw [hrow, hcolumn, hbyte] at hpixel
  rw [hpixel, Option.map_map]
  cases hb : data[y * paddedLength f.bitsPerPixel f.xPixels + x * f.bitsPerPixel / 8]? with
  | none =>
    rw [hb, Option.map_none, List.getElem?_eq_none_iff, Format.length_pixels h.valid] at hpixel
    exact absurd hcell (Nat.not_lt.mpr hpixel)
  | some b =>
    rw [Option.map_some, Function.comp_apply, h.level, field, List.getD_eq_getElem?_getD, hb, Option.getD_some]

/-- The decoder returns true and the pixel in column `x` of row `y` is the level of its field. -/
def DecodesFields (h : BitmapHeader) (data out : List UInt8) : Prop :=
  ∃ d, decodeBitmapInt (h.bytes ++ data) out = some d ∧ d.ok = true ∧
    ∀ x < h.xPixels.toNat, ∀ y < h.yPixels.toNat,
      (d.out[out.length + (y * h.xPixels.toNat + x)]?).map UInt8.toNat =
        some (field h.bitsPerPixel.toNat h.xPixels.toNat data x y * (255 / (2 ^ h.bitsPerPixel.toNat - 1)))

/-- A bitmap without run lengths is decoded to the levels of its fields just when its data and its
picture are shorter than `2 ^ 31` and the fields fit the mask. -/
theorem decodeBitmapInt_plain_iff (h : BitmapHeader) {data : List UInt8}
    (hbits : h.bitsPerPixel.toNat ∈ [1, 2, 4, 8]) (hx : 1 ≤ h.xPixels.toNat) (hy : 1 ≤ h.yPixels.toNat)
    (hRLE : h.RLEflag = 0) (htotlen : (h.totlen - h.hdrlen).toNat = data.length)
    (hdata : data.length = paddedLength h.bitsPerPixel.toNat h.xPixels.toNat * h.yPixels.toNat)
    (out : List UInt8) :
    DecodesFields h data out ↔
      data.length < 2 ^ 31 ∧ h.xPixels.toNat * h.yPixels.toNat < 2 ^ 31 ∧
        ∀ x < h.xPixels.toNat, ∀ y < h.yPixels.toNat,
          field h.bitsPerPixel.toNat h.xPixels.toNat data x y < 2 * h.bitsPerPixel.toNat := by
  have hplain : h.format.Plain := ⟨hbits, hx, h.xPixels.toNat_lt, hy, htotlen.trans hdata⟩
  have hdatlen : h.format.datlen = data.length := htotlen
  have hzero : h.format.RLEflag = 0 := congrArg UInt32.toNat hRLE
  have hgood : ¬(h.format.bitsPerPixel = 0 ∨ 8 < h.format.bitsPerPixel ∨ h.format.yPixels = 0) := by
    have hpos := hplain.valid.bitsPerPixel_pos
    have hle := hplain.valid.bitsPerPixel_le
    have hy := hplain.yPixels_pos
    omega
  rw [DecodesFields, decodeBitmapInt_eq (h.readFormat_bytes data), if_neg hgood, h.drop_bytes,
    DecodeState.splitDataInt_plain hzero]
  constructor
  · rintro ⟨d, hd, hok, hlevels⟩
    obtain ⟨⟨ok, s⟩, hs, hd⟩ := Option.bind_eq_some_iff.mp hd
    rw [Option.ite_none_right_eq_some] at hd
    obtain ⟨hoidx, hd⟩ := hd
    obtain rfl := Option.some.inj hd
    obtain rfl : ok = true := hok
    obtain ⟨hwhole, hcount, hpixels⟩ := DecodeState.splitExpanded_ok hplain.valid hs
    have hint : data.length < 2 ^ 31 := by
      have hread := of_decide_eq_true hwhole
      rw [Format.data, List.length_take] at hread
      omega
    rw [Format.data_eq hdatlen hint] at hcount hpixels
    have hlength : (h.format.pixels (h.format.datlen / h.format.yPixels) data).length < 2 ^ 31 := by
      rw [Format.length_pixels hplain.valid, ← hcount]
      exact hoidx
    have hsize : h.xPixels.toNat * h.yPixels.toNat < 2 ^ 31 := by
      -- the last pixel is there
      have hlast := hlevels (h.xPixels.toNat - 1) (by omega) (h.yPixels.toNat - 1) (by omega)
      obtain ⟨b, hb, -⟩ := Option.map_eq_some_iff.mp hlast
      have hlt := (List.getElem?_eq_some_iff.mp hb).1
      have hnumber : (h.yPixels.toNat - 1) * h.xPixels.toNat + h.xPixels.toNat = h.xPixels.toNat * h.yPixels.toNat := by
        rw [← Nat.succ_mul, Nat.succ_eq_add_one, Nat.sub_add_cancel hy, Nat.mul_comm]
      simp only [hpixels, List.length_append] at hlt
      omega
    have hint' : h.format.xPixels < 2 ^ 31 := Nat.lt_of_le_of_lt (Nat.le_mul_of_pos_right _ hy) hsize
    refine ⟨hint, hsize, fun x hx y hy => ?_⟩
    have hlevel := hlevels x hx y hy
    rw [hpixels, List.getElem?_append_right (Nat.le_add_right _ _), Nat.add_sub_cancel_left] at hlevel
    have hright := hplain.pixels_getElem? hdatlen.symm hint' hx hy
    exact (hplain.mod_eq_iff _).mp
      (Nat.eq_of_mul_eq_mul_right hplain.scale_pos (Option.some.inj (hright.symm.trans hlevel)))
  · rintro ⟨hint, hsize, hfields⟩
    have hint' : h.format.xPixels < 2 ^ 31 := Nat.lt_of_le_of_lt (Nat.le_mul_of_pos_right _ hy) hsize
    have hcount := hplain.pixelsBefore_datlen hint'
    rw [hdatlen] at hcount
    have hsize' : h.format.yPixels * h.format.xPixels < 2 ^ 31 := by
      rw [Nat.mul_comm]
      exact hsize
    have hpicsize : h.format.picsize = h.format.yPixels * h.format.xPixels := by
      rw [Format.picsize, ← Int.natCast_mul, Nat.mul_comm, uint32_natCast hsize']
    rw [Format.data_eq hdatlen hint, hdatlen, DecodeState.splitExpanded_fits hplain.valid _ (data, true) out
      (hcount.trans hpicsize.symm).le, if_pos (decide_eq_true le_rfl), Option.bind_some, if_pos (hcount.trans_lt hsize')]
    refine ⟨_, rfl, rfl, fun x hx y hy => ?_⟩
    have hfit : field h.format.bitsPerPixel h.format.xPixels data x y % (2 * h.format.bitsPerPixel) =
        field h.format.bitsPerPixel h.format.xPixels data x y := (hplain.mod_eq_iff _).mpr (hfields x hx y hy)
    have hright := hplain.pixels_getElem? hdatlen.symm hint' hx hy
    rw [hfit, hdatlen] at hright
    rw [List.getElem?_append_right (Nat.le_add_right _ _), Nat.add_sub_cancel_left]
    exact hright

/-- Three pixels of four bits. -/
theorem decodeBitmapInt_plain_iff_three :
    let h : BitmapHeader := ⟨44, 40, 3, 1, 0, 0, 4, 0, 0, 0⟩
    DecodesFields h [0x21, 0x07, 0, 0] [] ↔
      [0x21, 0x07, 0, (0 : UInt8)].length < 2 ^ 31 ∧ h.xPixels.toNat * h.yPixels.toNat < 2 ^ 31 ∧
        ∀ x < h.xPixels.toNat, ∀ y < h.yPixels.toNat,
          field h.bitsPerPixel.toNat h.xPixels.toNat [0x21, 0x07, 0, 0] x y < 2 * h.bitsPerPixel.toNat :=
  decodeBitmapInt_plain_iff ⟨44, 40, 3, 1, 0, 0, 4, 0, 0, 0⟩ (by decide) (by decide) (by decide) (by decide)
    (by decide) (by decide) []

/-- A white pixel of four bits is decoded as a grey one. -/
theorem decodeBitmapInt_white_pixel :
    ¬DecodesFields ⟨44, 40, 1, 1, 0, 0, 4, 0, 0, 0⟩ [0x0f, 0, 0, 0] [] := by
  intro h
  obtain ⟨d, hd, -, hlevels⟩ := h
  have hgrey : decodeBitmapInt ((⟨44, 40, 1, 1, 0, 0, 4, 0, 0, 0⟩ : BitmapHeader).bytes ++ [0x0f, 0, 0, 0]) [] =
      some ⟨true, 1, 1, [119]⟩ := by decide +kernel
  obtain rfl := Option.some.inj (hgrey.symm.trans hd)
  have hlevel := hlevels 0 (by decide) 0 (by decide)
  exact absurd hlevel (by decide)

end Plptools
