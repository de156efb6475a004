import Plptools.Bitmap.RoundTrip
import Plptools.Library.Rows
import Mathlib.Data.List.Induction

/-!
# Which pixels a byte holds

The decoder takes the bytes in lines of `linelen`, and pixels from the first `bytesPerLine` columns of a
line only. The bytes that hold pixels make rows of their own: it stops at a byte where the index of
the pixel says that a row is full, and goes on with the next byte. So the number of pixels that some
bytes hold is known before they are split, for all numbers that a header may have. As soon as it is
larger than the picture, the decoder returns false.
-/

namespace Plptools

open RFSV (uint32 int32)
open Plptools.Library

namespace Format

/-- Of a line, how many of the first bytes hold pixels. -/
def columns (f : Format) (c : ℕ) : ℕ := min c f.bytesPerLine.toNat

/-- How many pixels the first bytes of a row hold. -/
def rowPixels (f : Format) (c : ℕ) : ℕ := min (c * f.pixelsPerByte) f.xPixels

/-- How many pixels the first `k` bytes hold. Without lines, each byte is a line. -/
def pixelsBefore (f : Format) (linelen k : ℕ) : ℕ :=
  inRows f.bytesPerLine.toNat f.rowPixels (inRows (max linelen 1) f.columns k)

/-- The grey level of pixel `j` of a byte. -/
def level (f : Format) (v j : ℕ) : UInt8 := lowByte (((v >>> (j * f.bitsPerPixel)) &&& f.mask) * f.grayVal : ℕ)

/-- The first `n` pixels of a byte. -/
def bytePixels (f : Format) (v n : ℕ) : List UInt8 := (List.range n).map (f.level v)

/-- The pixels of the byte at index `k`. -/
def pixelsAt (f : Format) (linelen k : ℕ) (b : UInt8) : List UInt8 :=
  f.bytePixels b.toNat (f.pixelsBefore linelen (k + 1) - f.pixelsBefore linelen k)

/-- The pixels of some bytes. -/
def pixels (f : Format) (linelen : ℕ) (bytes : List UInt8) : List UInt8 :=
  bytes.zipIdx.flatMap fun b => f.pixelsAt linelen b.2 b.1

/-- The depths with which nothing is divided by zero, and numbers that fit their types. -/
structure Valid (f : Format) : Prop where
  bitsPerPixel_pos : 0 < f.bitsPerPixel
  bitsPerPixel_le : f.bitsPerPixel ≤ 8
  xPixels_lt : f.xPixels < 2 ^ 32

namespace Valid

variable {f : Format}

/-- A byte holds pixels. -/
theorem pixelsPerByte_pos (h : f.Valid) : 0 < f.pixelsPerByte :=
  Nat.div_pos h.bitsPerPixel_le h.bitsPerPixel_pos

/-- The columns with pixels are those of a row, unless there are none. -/
theorem bytesPerLine_pos (h : f.Valid) (hpos : 0 < f.bytesPerLine) :
    0 < f.xPixels ∧ f.bytesPerLine.toNat = (f.xPixels + f.pixelsPerByte - 1) / f.pixelsPerByte := by
  have hppb := h.pixelsPerByte_pos
  have hle : f.pixelsPerByte ≤ 8 := Nat.div_le_self _ _
  have hx := h.xPixels_lt
  rw [Format.bytesPerLine, ← Int.natCast_div] at hpos ⊢
  by_cases hwrap : f.xPixels + f.pixelsPerByte - 1 < 2 ^ 32
  · have hnum : uint32 (f.xPixels + f.pixelsPerByte - 1) = f.xPixels + f.pixelsPerByte - 1 := by
      unfold uint32
      omega
    rw [hnum] at hpos ⊢
    have hquot : (f.xPixels + f.pixelsPerByte - 1) / f.pixelsPerByte < 2 ^ 32 :=
      Nat.lt_of_le_of_lt (Nat.div_le_self _ _) hwrap
    constructor
    · by_contra hzero
      have hdiv : (f.xPixels + f.pixelsPerByte - 1) / f.pixelsPerByte = 0 := Nat.div_eq_of_lt (by omega)
      rw [hdiv] at hpos
      exact absurd hpos (by decide)
    · generalize (f.xPixels + f.pixelsPerByte - 1) / f.pixelsPerByte = q at hpos hquot ⊢
      unfold int32 at hpos ⊢
      omega
  · have hdiv : uint32 (f.xPixels + f.pixelsPerByte - 1) / f.pixelsPerByte = 0 := by
      apply Nat.div_eq_of_lt
      unfold uint32
      omega
    rw [hdiv] at hpos
    exact absurd hpos (by decide)

/-- The columns before one with pixels do not fill the row. -/
theorem mul_lt_xPixels (h : f.Valid) {c : ℕ} (hc : c < f.bytesPerLine.toNat) : c * f.pixelsPerByte < f.xPixels := by
  obtain ⟨hx, hcolumns⟩ := h.bytesPerLine_pos (by omega)
  rw [hcolumns, Nat.lt_iff_add_one_le, Nat.le_div_iff_mul_le h.pixelsPerByte_pos, Nat.succ_mul] at hc
  omega

/-- Before the end of a line every byte is full. -/
theorem rowPixels_of_lt (h : f.Valid) {c : ℕ} (hc : c < f.bytesPerLine.toNat) :
    f.rowPixels c = c * f.pixelsPerByte :=
  Nat.min_eq_left (h.mul_lt_xPixels hc).le

/-- All columns with pixels fill it. -/
theorem rowPixels_all (h : f.Valid) (hpos : 0 < f.bytesPerLine) :
    f.rowPixels f.bytesPerLine.toNat = f.xPixels := by
  have hall := Nat.lt_div_mul_add h.pixelsPerByte_pos (a := f.xPixels + f.pixelsPerByte - 1)
  rw [← (h.bytesPerLine_pos hpos).2] at hall
  exact Nat.min_eq_right (by omega)

end Valid

variable {f : Format} {linelen : ℕ}

/-- No pixels, no bytes. -/
theorem columns_zero : f.columns 0 = 0 := Nat.zero_min _

/-- No bytes, no pixels. -/
theorem rowPixels_zero : f.rowPixels 0 = 0 := by
  rw [rowPixels, Nat.zero_mul, Nat.zero_min]

/-- A byte behind the columns with pixels holds none. -/
theorem pixelsBefore_succ_of_le {k : ℕ} (h : f.bytesPerLine ≤ (k % max linelen 1 : ℕ)) :
    f.pixelsBefore linelen (k + 1) = f.pixelsBefore linelen k := by
  have hsucc := inRows_succ f.columns_zero (by omega : 0 < max linelen 1) k
  have hsame : f.columns (k % max linelen 1 + 1) = f.columns (k % max linelen 1) := by
    unfold columns
    omega
  rw [pixelsBefore, pixelsBefore, Nat.add_right_cancel (hsucc.trans (congrArg _ hsame))]

/-- A byte in the columns with pixels holds as many as fit into it and into the row. -/
theorem pixelsBefore_succ_of_lt (hf : f.Valid) {k : ℕ} (h : (k % max linelen 1 : ℕ) < f.bytesPerLine) :
    0 < f.xPixels ∧ f.pixelsBefore linelen (k + 1) = f.pixelsBefore linelen k +
      min f.pixelsPerByte (f.xPixels - f.pixelsBefore linelen k % f.xPixels) := by
  have hpos : 0 < f.bytesPerLine := Int.lt_of_le_of_lt (Int.natCast_nonneg _) h
  refine ⟨(hf.bytesPerLine_pos hpos).1, ?_⟩
  have hn : 0 < f.bytesPerLine.toNat := by omega
  have hnext : inRows (max linelen 1) f.columns (k + 1) = inRows (max linelen 1) f.columns k + 1 := by
    have hsucc := inRows_succ f.columns_zero (by omega : 0 < max linelen 1) k
    unfold columns at *
    omega
  rw [pixelsBefore, pixelsBefore, hnext]
  generalize inRows (max linelen 1) f.columns k = u
  have hsucc := inRows_succ f.rowPixels_zero hn u
  have hc : u % f.bytesPerLine.toNat < f.bytesPerLine.toNat := Nat.mod_lt _ hn
  have hbefore := hf.mul_lt_xPixels hc
  have hafter : f.rowPixels (u % f.bytesPerLine.toNat + 1) =
      min (u % f.bytesPerLine.toNat * f.pixelsPerByte + f.pixelsPerByte) f.xPixels := by
    rw [rowPixels, Nat.succ_mul]
  have hmod : inRows f.bytesPerLine.toNat f.rowPixels u % f.xPixels =
      u % f.bytesPerLine.toNat * f.pixelsPerByte := by
    rw [inRows, hf.rowPixels_all hpos, hf.rowPixels_of_lt hc, Nat.mul_add_mod_self_right, Nat.mod_eq_of_lt hbefore]
  rw [hf.rowPixels_of_lt hc, hafter] at hsucc
  rw [hmod]
  omega

/-- As many pixels as are asked for. -/
theorem length_bytePixels (v n : ℕ) : (f.bytePixels v n).length = n := by
  rw [bytePixels, List.length_map, List.length_range]

/-- The first pixel is in the low bits. -/
theorem bytePixels_succ (v n : ℕ) :
    f.bytePixels v (n + 1) =
      lowByte ((v &&& f.mask) * f.grayVal : ℕ) :: f.bytePixels (v >>> f.bitsPerPixel) n := by
  have hlevel (j : ℕ) : f.level v (j + 1) = f.level (v >>> f.bitsPerPixel) j := by
    rw [level, level, ← Nat.shiftRight_add, Nat.succ_mul, Nat.add_comm (j * _)]
  rw [bytePixels, List.range_succ_eq_map, List.map_cons, List.map_map]
  refine congrArg₂ List.cons ?_ (List.map_congr_left fun j _ => hlevel j)
  rw [level, Nat.zero_mul, Nat.shiftRight_zero]

/-- The pixels of one byte more. -/
theorem pixels_append_singleton (bytes : List UInt8) (b : UInt8) :
    f.pixels linelen (bytes ++ [b]) = f.pixels linelen bytes ++ f.pixelsAt linelen bytes.length b := by
  simp [pixels, List.zipIdx_append]

/-- More bytes hold no fewer pixels. -/
theorem pixelsBefore_le_succ (hf : f.Valid) (k : ℕ) :
    f.pixelsBefore linelen k ≤ f.pixelsBefore linelen (k + 1) := by
  by_cases h : (k % max linelen 1 : ℕ) < f.bytesPerLine
  · rw [(pixelsBefore_succ_of_lt hf h).2]
    exact Nat.le_add_right _ _
  · exact (pixelsBefore_succ_of_le (Int.not_lt.mp h)).ge

/-- There are no pixels before the first byte. -/
theorem pixelsBefore_zero : f.pixelsBefore linelen 0 = 0 := by
  rw [pixelsBefore, inRows_zero columns_zero, inRows_zero rowPixels_zero]

/-- The pixels of some bytes are as many as these hold. -/
theorem length_pixels (hf : f.Valid) (bytes : List UInt8) :
    (f.pixels linelen bytes).length = f.pixelsBefore linelen bytes.length := by
  induction bytes using List.reverseRecOn with
  | nil => exact pixelsBefore_zero.symm
  | append_singleton bytes b ih =>
    rw [pixels_append_singleton, List.length_append, ih, pixelsAt, length_bytePixels, List.length_append,
      List.length_singleton, Nat.add_sub_cancel' (pixelsBefore_le_succ hf _)]

end Format

/-! ### Splitting -/

namespace DecodeState

variable {f : Format} {linelen : ℕ}

/-- The pixels of a byte, of which `e` are left in it or in the row, from column `c` of row `r` on. -/
theorem splitPixels_eq {e left j r c : ℕ} (v : ℕ) {s : DecodeState} (hoidx : s.oidx = r * f.xPixels + c)
    (hfirst : j = 0 → 0 < e) (hlater : j ≠ 0 → 0 < c) (hleft : e ≤ left) (hline : c + e ≤ f.xPixels)
    (hend : e = left ∨ c + e = f.xPixels) (hroom : s.oidx ≤ f.picsize) :
    splitPixels f left j v s =
      if s.oidx + e ≤ f.picsize then (true, ⟨s.oidx + e, s.x, s.out ++ f.bytePixels v e⟩)
      else (false, ⟨f.picsize, s.x, s.out ++ f.bytePixels v (f.picsize - s.oidx)⟩) := by
  induction e generalizing left j c v s with
  | zero =>
    have hout : s.out ++ f.bytePixels v 0 = s.out := List.append_nil _
    rw [Nat.add_zero, if_pos hroom, hout]
    cases left with
    | zero => rfl
    | succ left =>
      have hj : j ≠ 0 := fun hj => absurd (hfirst hj) (Nat.lt_irrefl 0)
      have hc : c = f.xPixels := hend.resolve_left (Nat.succ_ne_zero left).symm
      have hmod : s.oidx % f.xPixels = 0 := by rw [hoidx, hc, Nat.mul_add_mod_self_right, Nat.mod_self]
      rw [splitPixels, if_pos ⟨hj, hmod⟩]
  | succ e ih =>
    obtain ⟨left, rfl⟩ : ∃ m, left = m + 1 := ⟨left - 1, by omega⟩
    have hmod : s.oidx % f.xPixels = c := by
      rw [hoidx, Nat.mul_add_mod_self_right, Nat.mod_eq_of_lt (by omega)]
    have hgoes : ¬(j ≠ 0 ∧ s.oidx % f.xPixels = 0) := by
      rintro ⟨hj, hzero⟩
      exact absurd (hmod.symm.trans hzero) (Nat.pos_iff_ne_zero.mp (hlater hj))
    rw [splitPixels, if_neg hgoes]
    by_cases hfull : s.oidx ≥ f.picsize
    · have hsize : s.oidx = f.picsize := Nat.le_antisymm hroom hfull
      have hout : s.out ++ f.bytePixels v 0 = s.out := List.append_nil _
      rw [if_pos hfull, if_neg (by omega), hsize, Nat.sub_self, hout, ← hsize]
    · have hsum : s.oidx + 1 + e = s.oidx + (e + 1) := Nat.add_right_comm _ _ _
      have hleft' : f.picsize - s.oidx = f.picsize - (s.oidx + 1) + 1 := by omega
      rw [if_neg hfull, ih (c := c + 1) _ (by rw [hoidx, Nat.add_assoc]) (fun hj => absurd hj (Nat.succ_ne_zero j))
        (fun _ => Nat.succ_pos c) (by omega) (by omega) (by omega) (by exact Nat.not_le.mp hfull), hsum, hleft',
        Format.bytePixels_succ, Format.bytePixels_succ, List.append_assoc, List.append_assoc]
      rfl

/-- The counter of columns goes round with the lines. -/
theorem nextColumn_x {k : ℕ} {s : DecodeState} (hx : s.x = k % max linelen 1) :
    (s.nextColumn linelen).x = (k + 1) % max linelen 1 := by
  cases linelen with
  | zero => simp [nextColumn, Nat.mod_one]
  | succ n =>
    have hmax : max (n + 1) 1 = n + 1 := Nat.max_eq_left (Nat.succ_pos n)
    rw [hmax] at hx ⊢
    rw [nextColumn_eq hx (Nat.mod_lt _ (Nat.succ_pos n)), Nat.mod_add_mod]

/-- Behind `k` bytes, all of whose pixels fit into the picture. -/
structure After (f : Format) (linelen k : ℕ) (out : List UInt8) (s : DecodeState) : Prop where
  oidx : s.oidx = f.pixelsBefore linelen k
  x : s.x = k % max linelen 1
  out : s.out = out
  room : f.pixelsBefore linelen k ≤ f.picsize

/-- The pixels of one more byte, unless these are too many. -/
theorem After.splitByte_succ (hf : f.Valid) {k : ℕ} {out : List UInt8} {s : DecodeState}
    (h : s.After f linelen k out) (b : UInt8) :
    if f.pixelsBefore linelen (k + 1) ≤ f.picsize then
      (s.splitByte f linelen b).1 = true ∧
        (s.splitByte f linelen b).2.After f linelen (k + 1) (out ++ f.pixelsAt linelen k b)
    else (s.splitByte f linelen b).1 = false ∧ (s.splitByte f linelen b).2.oidx = f.picsize := by
  have hx := h.x
  have hnext (oidx : ℕ) (out : List UInt8) :
      (nextColumn linelen ⟨oidx, s.x, out⟩).x = (k + 1) % max linelen 1 := nextColumn_x hx
  by_cases hcolumn : (k % max linelen 1 : ℕ) < f.bytesPerLine
  · obtain ⟨hpos, hsucc⟩ := Format.pixelsBefore_succ_of_lt hf hcolumn
    have hmod : f.pixelsBefore linelen k % f.xPixels < f.xPixels := Nat.mod_lt _ hpos
    have hppb := hf.pixelsPerByte_pos
    have hsplit := splitPixels_eq (f := f) b.toNat (h.oidx.trans (Nat.div_add_mod' _ f.xPixels).symm)
      (j := 0) (e := min f.pixelsPerByte (f.xPixels - f.pixelsBefore linelen k % f.xPixels))
      (by omega) (fun h => absurd rfl h) (Nat.min_le_left _ _) (by omega) (by omega) (h.oidx ▸ h.room)
    have hpixels : f.pixelsAt linelen k b =
        f.bytePixels b.toNat (min f.pixelsPerByte (f.xPixels - f.pixelsBefore linelen k % f.xPixels)) := by
      rw [Format.pixelsAt, hsucc, Nat.add_sub_cancel_left]
    rw [h.oidx, ← hsucc] at hsplit
    rw [splitByte, hx, if_pos hcolumn, hsplit]
    by_cases hroom : f.pixelsBefore linelen (k + 1) ≤ f.picsize
    · simp only [if_pos hroom, if_true]
      exact ⟨trivial, rfl, hnext _ _, by rw [h.out, hpixels], hroom⟩
    · simp only [if_neg hroom]
      exact ⟨rfl, rfl⟩
  · have hsame : f.pixelsBefore linelen (k + 1) = f.pixelsBefore linelen k :=
      Format.pixelsBefore_succ_of_le (Int.not_lt.mp hcolumn)
    have hnone : f.pixelsAt linelen k b = [] := by
      rw [Format.pixelsAt, hsame, Nat.sub_self]
      rfl
    rw [if_pos (hsame ▸ h.room), splitByte, hx, if_neg hcolumn]
    exact ⟨rfl, h.oidx.trans hsame.symm, hnext _ _, by rw [hnone, List.append_nil]; exact h.out, hsame ▸ h.room⟩

/-- Before the first byte. -/
theorem start_after (out : List UInt8) : After f linelen 0 out ⟨0, 0, out⟩ where
  oidx := Format.pixelsBefore_zero.symm
  x := (Nat.zero_mod _).symm
  out := rfl
  room := Format.pixelsBefore_zero.trans_le (Nat.zero_le _)

/-- Splitting one more byte. -/
theorem splitAll_append_singleton (bytes : List UInt8) (b : UInt8) (s : DecodeState) :
    splitAll f linelen (bytes ++ [b]) s =
      if (splitAll f linelen bytes s).1 then (splitAll f linelen bytes s).2.splitByte f linelen b
      else splitAll f linelen bytes s := by
  induction bytes generalizing s with
  | nil =>
    rw [List.nil_append, splitAll, splitAll]
    cases hr : s.splitByte f linelen b with
    | mk more s₁ => cases more <;> rfl
  | cons a bytes ih =>
    rw [List.cons_append, splitAll, splitAll]
    by_cases hmore : (s.splitByte f linelen a).1 = true
    · simp only [if_pos hmore]
      exact ih _
    · simp only [if_neg hmore]

/-- All pixels of some bytes, unless these are too many. -/
theorem splitAll_start (hf : f.Valid) (bytes out : List UInt8) :
    let r := splitAll f linelen bytes ⟨0, 0, out⟩
    if f.pixelsBefore linelen bytes.length ≤ f.picsize then
      r.1 = true ∧ r.2.After f linelen bytes.length (out ++ f.pixels linelen bytes)
    else r.1 = false ∧ r.2.oidx = f.picsize := by
  induction bytes using List.reverseRecOn with
  | nil =>
    have h : After f linelen 0 out ⟨0, 0, out⟩ := start_after out
    rw [List.length_nil, if_pos h.room]
    exact ⟨rfl, by rwa [Format.pixels, List.zipIdx_nil, List.flatMap_nil, List.append_nil]⟩
  | append_singleton bytes b ih =>
    rw [splitAll_append_singleton, List.length_append, List.length_singleton, Format.pixels_append_singleton]
    by_cases hroom : f.pixelsBefore linelen bytes.length ≤ f.picsize
    · simp only [if_pos hroom] at ih
      rw [if_pos ih.1, ← List.append_assoc]
      exact ih.2.splitByte_succ hf b
    · simp only [if_neg hroom] at ih
      have hstop : ¬(splitAll f linelen bytes ⟨0, 0, out⟩).1 = true := by
        rw [ih.1]
        decide
      rw [if_neg fun h => hroom ((Format.pixelsBefore_le_succ hf _).trans h), if_neg hstop]
      exact ih

end DecodeState

end Plptools
