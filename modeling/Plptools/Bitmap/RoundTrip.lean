import Plptools.Bitmap.PsiBitmap
import Plptools.Library.Packing
import Mathlib.Data.List.Forall2

/-!
# What is encoded is decoded

A row of pixels is cut into groups of four, one for each byte; behind them come zeros up to a
multiple of four bytes. The encoder keeps the group that it is filling in `ov`. The decoder emits
the group of a byte, stops where the index of the pixel says that a row is full, and skips the
columns behind the groups.
-/

namespace Plptools

open BufferStore (dwordBytes)
open RFSV (uint32 int32 getDWord)
open Plptools.Library

/-- The pixels of row `y`. -/
def rowPixels (width : ℕ) (getPixel : ℕ → ℕ → ℕ) (y : ℕ) : List ℕ :=
  (List.range width).map fun x => getPixel x y / 85

/-- An image row by row, each grey level reduced to a multiple of 85. -/
def greyLevels (width height : ℕ) (getPixel : ℕ → ℕ → ℕ) : List UInt8 :=
  (List.range height).flatMap fun y => (List.range width).map fun x => UInt8.ofNat (getPixel x y / 85 * 85)

/-- The bytes of groups of pixels. -/
def packed (gs : List (List ℕ)) : List UInt8 := gs.map fun g => lowByte (Nat.ofDigits (2 ^ 2) g : ℕ)

/-- How many zeros follow `n` bytes of a row. -/
def padding (n : ℕ) : ℕ := (4 - n % 4) % 4

/-- The bytes of a row with the given pixels. -/
def IsRow (pixels : List ℕ) (bytes : List UInt8) : Prop :=
  ∃ gs, Groups 4 gs ∧ gs.flatten = pixels ∧ bytes = packed gs ++ List.replicate (padding gs.length) 0

/-- The length of a row in the encoding. -/
def rowLength (width : ℕ) : ℕ := (width + 3) / 4 + padding ((width + 3) / 4)

/-- Each group is packed into one byte. -/
@[simp] theorem length_packed (gs : List (List ℕ)) : (packed gs).length = gs.length := List.length_map _

/-- The number of groups in a row. -/
theorem length_groups {gs : List (List ℕ)} (h : Groups 4 gs) : gs.length = (gs.flatten.length + 3) / 4 :=
  h.length_eq (by decide)

/-- All rows of a width are as long. -/
theorem IsRow.length {pixels : List ℕ} {bytes : List UInt8} (h : IsRow pixels bytes) :
    bytes.length = rowLength pixels.length := by
  obtain ⟨gs, hgs, rfl, rfl⟩ := h
  rw [List.length_append, length_packed, List.length_replicate, length_groups hgs, rowLength]

/-! ### Encoding a row -/

namespace RowState

/-- The full groups are in the buffer, the pixels of the next one in `ov`. -/
structure Holds (before : List UInt8) (gs : List (List ℕ)) (p : List ℕ) (s : RowState) : Prop where
  full : ∀ g ∈ gs, g.length = 4
  short : p.length < 4
  small : ∀ d ∈ p, d < 2 ^ 2
  ov : s.ov = Nat.ofDigits (2 ^ 2) p
  shift : s.shift = 2 * p.length
  bc : s.bc = gs.length
  rawBuf : s.rawBuf = before ++ packed gs

/-- Nothing of a row is packed at its start. -/
theorem start_holds (before : List UInt8) : (start before).Holds before [] [] where
  full := fun _ h => absurd h List.not_mem_nil
  short := by decide
  small := fun _ h => absurd h List.not_mem_nil
  ov := rfl
  shift := rfl
  bc := rfl
  rawBuf := (List.append_nil before).symm

/-- One more pixel, with which the group may be full. -/
theorem Holds.addPixel {before : List UInt8} {gs : List (List ℕ)} {p : List ℕ} {s : RowState}
    (h : s.Holds before gs p) {v : ℕ} (hv : v < 2 ^ 2) :
    ∃ gs' p', (s.addPixel v).Holds before gs' p' ∧ gs'.flatten ++ p' = gs.flatten ++ p ++ [v] := by
  have hov : s.ov ||| v <<< s.shift = Nat.ofDigits (2 ^ 2) (p ++ [v]) := by
    rw [h.ov, h.shift]
    exact ofDigits_or_shiftLeft (by decide) h.small v
  have hshift := h.shift
  have hshort := h.short
  by_cases hfull : s.shift = 6
  · exists gs ++ [p ++ [v]], []
    constructor
    · constructor
      · intro g hg
        rw [List.mem_append, List.mem_singleton] at hg
        cases hg with
        | inl hg => exact h.full g hg
        | inr hg =>
          rw [hg, List.length_append, List.length_singleton]
          omega
      · decide
      · exact fun _ hd => absurd hd List.not_mem_nil
      · simp [RowState.addPixel, hfull]
      · simp [RowState.addPixel, hfull]
      · simp [RowState.addPixel, hfull, h.bc]
      · rw [RowState.addPixel, if_pos hfull, hov, h.rawBuf, packed, packed, List.map_append, List.append_assoc]
        rfl
    · simp
  · exists gs, p ++ [v]
    constructor
    · constructor
      · exact h.full
      · rw [List.length_append, List.length_singleton]
        omega
      · intro d hd
        rw [List.mem_append, List.mem_singleton] at hd
        cases hd with
        | inl hd => exact h.small d hd
        | inr hd => exact hd ▸ hv
      · rw [RowState.addPixel, if_neg hfull, hov]
      · rw [RowState.addPixel, if_neg hfull, List.length_append, List.length_singleton, hshift]
        rfl
      · rw [RowState.addPixel, if_neg hfull, h.bc]
      · rw [RowState.addPixel, if_neg hfull, h.rawBuf]
    · rw [List.append_assoc]

/-- The pixels of a row, packed one after the other. -/
theorem Holds.foldl {before : List UInt8} {gs : List (List ℕ)} {p : List ℕ} {s : RowState}
    (h : s.Holds before gs p) {vs : List ℕ} (hvs : ∀ v ∈ vs, v < 2 ^ 2) :
    ∃ gs' p', (vs.foldl RowState.addPixel s).Holds before gs' p' ∧
      gs'.flatten ++ p' = gs.flatten ++ p ++ vs := by
  induction vs generalizing gs p s with
  | nil => exact ⟨gs, p, h, (List.append_nil _).symm⟩
  | cons v vs ih =>
    obtain ⟨gs₁, p₁, h₁, heq₁⟩ := h.addPixel (hvs v List.mem_cons_self)
    obtain ⟨gs₂, p₂, h₂, heq₂⟩ := ih h₁ fun w hw => hvs w (List.mem_cons_of_mem _ hw)
    exact ⟨gs₂, p₂, h₂, by rw [heq₂, heq₁, List.append_assoc, List.singleton_append]⟩

/-- What is flushed at the end of a row makes its last group. -/
theorem Holds.flush {before : List UInt8} {gs : List (List ℕ)} {p : List ℕ} {s : RowState}
    (h : s.Holds before gs p) :
    ∃ gs', Groups 4 gs' ∧ gs'.flatten = gs.flatten ++ p ∧ s.flush.bc = gs'.length ∧
      s.flush.rawBuf = before ++ packed gs' := by
  have hshift := h.shift
  have hshort := h.short
  by_cases hempty : s.shift = 0
  · have hp : p = [] := List.length_eq_zero_iff.mp (by omega)
    exists gs
    simp [RowState.flush, hempty, hp, h.bc, h.rawBuf, Groups.of_full h.full]
  · exists gs ++ [p]
    have hgroups : Groups 4 (gs ++ [p]) := Groups.snoc h.full (by omega) (by omega)
    simp [RowState.flush, hempty, h.bc, h.rawBuf, h.ov, hgroups, packed]

/-- Rows are filled up with zeros. -/
theorem pad_rawBuf (fuel : ℕ) (s : RowState) (h : padding s.bc ≤ fuel) :
    (s.pad fuel).rawBuf = s.rawBuf ++ List.replicate (padding s.bc) 0 := by
  induction fuel generalizing s with
  | zero =>
    rw [Nat.le_zero.mp h]
    exact (List.append_nil _).symm
  | succ fuel ih =>
    by_cases hfull : s.bc % 4 = 0
    · simp [pad, hfull, padding]
    · have hnext : padding s.bc = padding (s.bc + 1) + 1 := by
        unfold padding
        omega
      rw [pad, if_pos hfull, ih _ (by rw [hnext] at h; exact Nat.le_of_succ_le_succ h), hnext,
        List.replicate_succ, List.append_assoc]
      rfl

end RowState

/-- A row is appended to those before it. -/
theorem encodeRow_spec {width y : ℕ} {getPixel : ℕ → ℕ → ℕ} (hpixel : ∀ x < width, getPixel x y ≤ 255)
    (rawBuf : List UInt8) :
    ∃ bytes, IsRow (rowPixels width getPixel y) bytes ∧
      encodeRow width getPixel rawBuf y = rawBuf ++ bytes := by
  have hsmall : ∀ v ∈ rowPixels width getPixel y, v < 2 ^ 2 := by
    intro v hv
    obtain ⟨x, hx, rfl⟩ := List.mem_map.mp hv
    have := hpixel x (List.mem_range.mp hx)
    omega
  obtain ⟨gs, p, hholds, heq⟩ := (RowState.start_holds rawBuf).foldl hsmall
  obtain ⟨gs', hgroups, heq', hbc, hraw⟩ := hholds.flush
  exists packed gs' ++ List.replicate (padding gs'.length) 0
  constructor
  · refine ⟨gs', hgroups, ?_, rfl⟩
    rw [heq', heq]
    rfl
  · rw [rowPixels, List.foldl_map] at hbc hraw
    rw [encodeRow, RowState.pad_rawBuf _ _ (by unfold padding; omega), hbc, hraw, List.append_assoc]

/-- The rows of an image, one after the other. -/
theorem encodeRows_spec {width : ℕ} {getPixel : ℕ → ℕ → ℕ} (ys : List ℕ)
    (hpixel : ∀ x < width, ∀ y ∈ ys, getPixel x y ≤ 255) (rawBuf : List UInt8) :
    ∃ rows, List.Forall₂ IsRow (ys.map (rowPixels width getPixel)) rows ∧
      ys.foldl (encodeRow width getPixel) rawBuf = rawBuf ++ rows.flatten := by
  induction ys generalizing rawBuf with
  | nil => exact ⟨[], .nil, (List.append_nil _).symm⟩
  | cons y ys ih =>
    obtain ⟨row, hrow, heq⟩ := encodeRow_spec (fun x hx => hpixel x hx y List.mem_cons_self) rawBuf
    obtain ⟨rows, hrows, hall⟩ :=
      ih (fun x hx y hy => hpixel x hx y (List.mem_cons_of_mem _ hy)) (rawBuf ++ row)
    exact ⟨row :: rows, .cons hrow hrows, by rw [List.foldl_cons, heq, hall, List.flatten_cons, List.append_assoc]⟩

/-! ### Decoding a row -/

/-- Bitmaps of two bits a pixel, none of whose numbers wraps. -/
structure Format.IsGrey (f : Format) : Prop where
  bitsPerPixel : f.bitsPerPixel = 2
  width : 1 ≤ f.xPixels
  size : f.xPixels * f.yPixels < 2 ^ 31
  bytes : f.xPixels < 2 ^ 31

namespace Format.IsGrey

variable {f : Format}

/-- A byte holds four grey pixels. -/
theorem pixelsPerByte (h : f.IsGrey) : f.pixelsPerByte = 4 := by
  rw [Format.pixelsPerByte, h.bitsPerPixel]

/-- Four grey levels are spread over a byte. -/
theorem grayVal (h : f.IsGrey) : f.grayVal = 85 := by
  rw [Format.grayVal, Format.nColors, h.bitsPerPixel]
  rfl

/-- Two bits tell a grey level. -/
theorem mask (h : f.IsGrey) : f.mask = 2 ^ 2 - 1 := by
  rw [Format.mask, h.bitsPerPixel]
  rfl

/-- There are as many pixels as the size says. -/
theorem picsize (h : f.IsGrey) : f.picsize = f.xPixels * f.yPixels := by
  have hsize := h.size
  rw [Format.picsize, uint32, ← Int.natCast_mul]
  omega

/-- Each line takes whole bytes. -/
theorem bytesPerLine (h : f.IsGrey) : f.bytesPerLine = ((f.xPixels + 3) / 4 : ℕ) := by
  have hbytes := h.bytes
  rw [Format.bytesPerLine, h.pixelsPerByte, uint32, int32]
  omega

end Format.IsGrey

/-- The grey level of a pixel. -/
def greyByte (d : ℕ) : UInt8 := lowByte (d * 85 : ℕ)

namespace DecodeState

variable {f : Format}

/-- The pixels of a group, from column `c` of row `r` on. The loop ends with the byte or, where the
group is shorter, with the row. -/
theorem splitPixels_group (hf : f.IsGrey) {g : List ℕ} (hg : ∀ d ∈ g, d < 2 ^ 2) (left : ℕ) {j r c : ℕ}
    {s : DecodeState} (hr : r < f.yPixels) (hoidx : s.oidx = r * f.xPixels + c)
    (hfirst : j = 0 → g ≠ []) (hlater : j ≠ 0 → 0 < c)
    (hleft : g.length ≤ left) (hline : c + g.length ≤ f.xPixels)
    (hend : g.length = left ∨ c + g.length = f.xPixels) :
    splitPixels f left j (Nat.ofDigits (2 ^ 2) g) s =
      (true, ⟨s.oidx + g.length, s.x, s.out ++ g.map greyByte⟩) := by
  induction g generalizing left j c s with
  | nil =>
    have hout : s.out ++ [].map greyByte = s.out := List.append_nil _
    rw [hout]
    cases left with
    | zero => rfl
    | succ left =>
      have hj : j ≠ 0 := fun hj => hfirst hj rfl
      have hc : c = f.xPixels := by
        cases hend with
        | inl h => exact absurd h.symm (Nat.succ_ne_zero left)
        | inr h => exact h
      have hmod : s.oidx % f.xPixels = 0 := by rw [hoidx, hc, Nat.mul_add_mod_self_right, Nat.mod_self]
      rw [splitPixels, if_pos ⟨hj, hmod⟩]
      rfl
  | cons d g ih =>
    have hd : d < 2 ^ 2 := hg d List.mem_cons_self
    rw [List.length_cons] at hleft hline hend
    obtain ⟨left, rfl⟩ : ∃ m, left = m + 1 := ⟨left - 1, by omega⟩
    have hmod : s.oidx % f.xPixels = c := by
      rw [hoidx, Nat.mul_add_mod_self_right, Nat.mod_eq_of_lt (by omega)]
    have hgoes : ¬(j ≠ 0 ∧ s.oidx % f.xPixels = 0) := by
      rintro ⟨hj, hzero⟩
      exact absurd (hmod.symm.trans hzero) (Nat.pos_iff_ne_zero.mp (hlater hj))
    have hroom : ¬s.oidx ≥ f.picsize := by
      have hrow : (r + 1) * f.xPixels ≤ f.yPixels * f.xPixels := Nat.mul_le_mul_right _ hr
      rw [hf.picsize, hoidx, Nat.mul_comm f.xPixels]
      rw [Nat.succ_mul] at hrow
      omega
    rw [splitPixels, if_neg hgoes, if_neg hroom, hf.bitsPerPixel, hf.mask, hf.grayVal,
      ofDigits_cons_and hd, ofDigits_cons_shiftRight hd,
      ih (c := c + 1) (fun e he => hg e (List.mem_cons_of_mem _ he)) left (by rw [hoidx, Nat.add_assoc])
        (fun hj => absurd hj (Nat.succ_ne_zero j)) (fun _ => Nat.succ_pos c) (by omega) (by omega) (by omega)]
    simp [greyByte, Nat.add_comm, Nat.add_left_comm]

/-- Going on to the next column. -/
def nextColumn (linelen : ℕ) (s : DecodeState) : DecodeState :=
  { s with x := if s.x + 1 ≥ linelen then 0 else s.x + 1 }

/-- The columns go round in a row. -/
theorem nextColumn_eq {linelen i : ℕ} {s : DecodeState} (hx : s.x = i) (hi : i < linelen) :
    s.nextColumn linelen = ⟨s.oidx, (i + 1) % linelen, s.out⟩ := by
  rw [nextColumn, hx]
  by_cases hlast : i + 1 ≥ linelen
  · have hround : i + 1 = linelen := Nat.le_antisymm hi hlast
    rw [if_pos hlast, hround, Nat.mod_self]
  · rw [if_neg hlast, Nat.mod_eq_of_lt (Nat.not_le.mp hlast)]

/-- Splitting bytes from a list. -/
def splitAll (f : Format) (linelen : ℕ) : List UInt8 → DecodeState → Bool × DecodeState
  | [], s => (true, s)
  | b :: bytes, s =>
    let r := s.splitByte f linelen b
    if r.1 then splitAll f linelen bytes r.2 else r

/-- The loop over the bytes that there are. -/
theorem splitBytes_eq (linelen : ℕ) (p : List UInt8) {bytes : List UInt8} {offset : ℕ}
    (hp : p.drop offset = bytes) (s : DecodeState) :
    splitBytes f linelen p bytes.length offset s = some (splitAll f linelen bytes s) := by
  induction bytes generalizing offset s with
  | nil => rfl
  | cons b bytes ih =>
    have hbyte : p[offset]? = some b := by rw [← List.head?_drop, hp, List.head?_cons]
    have hrest : p.drop (offset + 1) = bytes := by rw [← List.tail_drop, hp, List.tail_cons]
    rw [List.length_cons, splitBytes, hbyte, splitAll, Option.bind_eq_bind, Option.bind_some]
    generalize s.splitByte f linelen b = r
    obtain ⟨more, s₁⟩ := r
    cases more with
    | true => exact ih hrest s₁
    | false => rfl

/-- Splitting the bytes behind those that were split. -/
theorem splitAll_append {linelen : ℕ} {as bs : List UInt8} {s s' : DecodeState}
    (h : splitAll f linelen as s = (true, s')) :
    splitAll f linelen (as ++ bs) s = splitAll f linelen bs s' := by
  induction as generalizing s with
  | nil => exact congrArg (splitAll f linelen bs) (congrArg Prod.snd h)
  | cons a as ih =>
    rw [List.cons_append, splitAll]
    rw [splitAll] at h
    by_cases hmore : (s.splitByte f linelen a).1 = true
    · simp only [hmore, if_true] at h ⊢
      exact ih h
    · rw [if_neg hmore] at h
      rw [h] at hmore
      exact absurd rfl hmore

/-- The byte of a group. -/
theorem splitByte_group (hf : f.IsGrey) (linelen : ℕ) {g : List ℕ} (hg : ∀ d ∈ g, d < 2 ^ 2) (hpos : 0 < g.length)
    (hle : g.length ≤ 4) {i r c : ℕ} {s : DecodeState} (hr : r < f.yPixels)
    (hoidx : s.oidx = r * f.xPixels + c) (hx : s.x = i) (hbytes : i < (f.xPixels + 3) / 4)
    (hi : i < linelen) (hline : c + g.length ≤ f.xPixels)
    (hend : g.length = 4 ∨ c + g.length = f.xPixels) :
    s.splitByte f linelen (lowByte (Nat.ofDigits (2 ^ 2) g : ℕ)) =
      (true, ⟨s.oidx + g.length, (i + 1) % linelen, s.out ++ g.map greyByte⟩) := by
  have hword : Nat.ofDigits (2 ^ 2) g < 256 := by
    have hlt := Nat.ofDigits_lt_base_pow_length (by decide) hg
    have hpow : (2 ^ 2) ^ g.length ≤ (2 ^ 2) ^ 4 := Nat.pow_le_pow_right (by decide) hle
    omega
  have hbyte : (lowByte (Nat.ofDigits (2 ^ 2) g : ℕ)).toNat = Nat.ofDigits (2 ^ 2) g := by
    have := RFSV.toNat_lowByte (Nat.ofDigits (2 ^ 2) g : ℕ)
    omega
  have hcolumn : (s.x : ℤ) < f.bytesPerLine := by
    rw [hf.bytesPerLine, hx]
    exact Int.ofNat_lt.mpr hbytes
  have hsplit := splitPixels_group hf hg 4 hr hoidx (j := 0) (s := s)
    (fun _ hnil => absurd hpos (by rw [hnil]; decide)) (fun h => absurd rfl h) hle hline hend
  rw [splitByte, if_pos hcolumn, hbyte, hf.pixelsPerByte, hsplit]
  exact congrArg (Prod.mk true) (nextColumn_eq hx hi)

/-- A byte of the padding. -/
theorem splitByte_padding (hf : f.IsGrey) {linelen i : ℕ} {s : DecodeState} (hx : s.x = i)
    (hbytes : (f.xPixels + 3) / 4 ≤ i) (hi : i < linelen) (b : UInt8) :
    s.splitByte f linelen b = (true, ⟨s.oidx, (i + 1) % linelen, s.out⟩) := by
  have hcolumn : ¬(s.x : ℤ) < f.bytesPerLine := by
    rw [hf.bytesPerLine, hx, Int.ofNat_lt]
    exact Nat.not_lt.mpr hbytes
  rw [splitByte, if_neg hcolumn]
  exact congrArg (Prod.mk true) (nextColumn_eq hx hi)

/-- The groups of a row, from the one in column `i` on. -/
theorem splitAll_packed (hf : f.IsGrey) (linelen : ℕ) {gs : List (List ℕ)} (hgs : Groups 4 gs)
    (hsmall : ∀ d ∈ gs.flatten, d < 2 ^ 2) {i r c : ℕ} {s : DecodeState} (hr : r < f.yPixels)
    (hoidx : s.oidx = r * f.xPixels + c) (hx : s.x = i % linelen)
    (hbytes : i + gs.length = (f.xPixels + 3) / 4) (hi : i + gs.length ≤ linelen)
    (hline : c + gs.flatten.length = f.xPixels) :
    splitAll f linelen (packed gs) s =
      (true, ⟨s.oidx + gs.flatten.length, (i + gs.length) % linelen, s.out ++ gs.flatten.map greyByte⟩) := by
  induction hgs generalizing i c s with
  | nil => simp [splitAll, packed, ← hx]
  | @last g hpos hle =>
    rw [List.length_singleton] at hi hbytes
    simp only [List.flatten_cons, List.flatten_nil, List.append_nil] at hsmall hline ⊢
    rw [Nat.mod_eq_of_lt (by omega)] at hx
    have hbyte := splitByte_group hf linelen hsmall hpos hle hr hoidx hx (by omega) (by omega)
      hline.le (.inr hline)
    simp only [packed, List.map_cons, List.map_nil, splitAll, hbyte, if_true, List.length_singleton]
  | @cons g gs hfull hgs ih =>
    rw [List.length_cons] at hi hbytes
    simp only [List.flatten_cons, List.length_append, List.mem_append] at hsmall hline ⊢
    rw [Nat.mod_eq_of_lt (by omega)] at hx
    have hbyte := splitByte_group hf linelen (fun d hd => hsmall d (.inl hd)) (by omega) hfull.le hr hoidx
      hx (by omega) (by omega) (by omega) (.inl hfull)
    have hrest := ih (i := i + 1) (c := c + g.length)
      (s := ⟨s.oidx + g.length, (i + 1) % linelen, s.out ++ g.map greyByte⟩)
      (fun d hd => hsmall d (.inr hd)) (by rw [hoidx, Nat.add_assoc]) rfl (by omega) (by omega) (by omega)
    rw [packed] at hrest
    simp only [packed, List.map_cons, splitAll, hbyte, if_true, hrest, List.map_append, List.length_cons,
      Nat.add_assoc, List.append_assoc, Nat.add_comm 1]

/-- The padding of a row, from column `i` on. -/
theorem splitAll_padding (hf : f.IsGrey) {n linelen i : ℕ} {s : DecodeState} (hx : s.x = i % linelen)
    (hbytes : (f.xPixels + 3) / 4 ≤ i) (hi : i + n ≤ linelen) :
    splitAll f linelen (List.replicate n 0) s = (true, ⟨s.oidx, (i + n) % linelen, s.out⟩) := by
  induction n generalizing i s with
  | zero => simp [splitAll, ← hx]
  | succ n ih =>
    have hlt : i < linelen := by omega
    rw [Nat.mod_eq_of_lt hlt] at hx
    have hrest := ih (i := i + 1) (s := ⟨s.oidx, (i + 1) % linelen, s.out⟩) rfl (by omega) (by omega)
    simp only [List.replicate_succ, splitAll, splitByte_padding hf hx hbytes hlt, if_true, hrest,
      Nat.add_assoc, Nat.add_comm 1]

/-- A whole row. -/
theorem splitAll_row (hf : f.IsGrey) {pixels : List ℕ} {bytes : List UInt8} (h : IsRow pixels bytes)
    (hsmall : ∀ d ∈ pixels, d < 2 ^ 2) (hlength : pixels.length = f.xPixels) {r : ℕ} {s : DecodeState}
    (hr : r < f.yPixels) (hoidx : s.oidx = r * f.xPixels) (hx : s.x = 0) :
    splitAll f (rowLength f.xPixels) bytes s =
      (true, ⟨(r + 1) * f.xPixels, 0, s.out ++ pixels.map greyByte⟩) := by
  obtain ⟨gs, hgs, rfl, rfl⟩ := h
  have hcount := length_groups hgs
  rw [hlength] at hcount
  have hall : gs.length + padding gs.length = rowLength f.xPixels := by rw [hcount, rowLength]
  have hgroups := splitAll_packed hf (rowLength f.xPixels) (i := 0) (c := 0) (s := s) hgs hsmall hr
    (by rw [hoidx, Nat.add_zero]) (by rw [hx, Nat.zero_mod]) (by omega) (by omega) (by omega)
  rw [splitAll_append hgroups, splitAll_padding (i := gs.length) hf (by rw [Nat.zero_add]) (by omega) hall.le,
    hall, Nat.mod_self, hoidx, hlength, Nat.succ_mul]

/-- The rows of an image from row `r` on. -/
theorem splitAll_rows (hf : f.IsGrey) {pixels : List (List ℕ)} {rows : List (List UInt8)}
    (h : List.Forall₂ IsRow pixels rows) (hsmall : ∀ row ∈ pixels, ∀ d ∈ row, d < 2 ^ 2)
    (hlength : ∀ row ∈ pixels, row.length = f.xPixels) {r : ℕ} {s : DecodeState}
    (hr : r + pixels.length = f.yPixels) (hoidx : s.oidx = r * f.xPixels) (hx : s.x = 0) :
    splitAll f (rowLength f.xPixels) rows.flatten s =
      (true, ⟨f.yPixels * f.xPixels, 0, s.out ++ pixels.flatten.map greyByte⟩) := by
  induction h generalizing r s with
  | nil =>
    rw [List.length_nil, Nat.add_zero] at hr
    simp [splitAll, ← hx, ← hr, ← hoidx]
  | @cons row bytes pixels rows hrow _ ih =>
    rw [List.length_cons] at hr
    have hfirst := splitAll_row hf hrow (hsmall row List.mem_cons_self) (hlength row List.mem_cons_self)
      (by omega) hoidx hx
    rw [List.flatten_cons, splitAll_append hfirst,
      ih (fun row h => hsmall row (List.mem_cons_of_mem _ h)) (fun row h => hlength row (List.mem_cons_of_mem _ h))
        (by omega) rfl rfl]
    simp

end DecodeState

/-! ### The header -/

/-- The first double word. -/
@[simp] theorem readDWord_dwordBytes (a : ℤ) (p : List UInt8) : readDWord (dwordBytes a ++ p) 0 = some (uint32 a) := by
  rw [readDWord, if_pos (by simp)]
  exact congrArg some (RFSV.getDWord_dwordBytes a)

/-- The double words behind the first one. -/
theorem readDWord_skip (a : ℤ) (p : List UInt8) {pos : ℕ} (h : 4 ≤ pos) :
    readDWord (dwordBytes a ++ p) pos = readDWord p (pos - 4) := by
  obtain ⟨n, rfl⟩ : ∃ n, pos = n + 4 := ⟨pos - 4, (Nat.sub_add_cancel h).symm⟩
  have hlength : n + 4 + 4 ≤ (dwordBytes a ++ p).length ↔ n + 4 ≤ p.length := by
    rw [List.length_append, RFSV.length_dwordBytes]
    omega
  simp only [readDWord, hlength, Nat.add_sub_cancel]
  rfl

/-- The numbers of a header, as the encoder writes it. -/
theorem readFormat_header (totlen width height : ℤ) (data : List UInt8) :
    readFormat (dwordBytes totlen ++ (dwordBytes 0x00000028 ++ dwordBytes width ++ dwordBytes height ++
      dwordBytes 0 ++ dwordBytes 0 ++ dwordBytes 2 ++ dwordBytes 0 ++ dwordBytes 0 ++ dwordBytes 0 ++ data)) =
      some ⟨uint32 (uint32 totlen - 40), uint32 width, uint32 height, 2, 0⟩ := by
  have hhdrlen : uint32 0x00000028 = 40 := by decide
  have hbits : uint32 2 = 2 := by decide
  have hRLE : uint32 0 = 0 := by decide
  simp [readFormat, readDWord_skip, hhdrlen, hbits, hRLE]

/-- The data behind the header. -/
theorem drop_header (totlen width height : ℤ) (data : List UInt8) :
    (dwordBytes totlen ++ (dwordBytes 0x00000028 ++ dwordBytes width ++ dwordBytes height ++
      dwordBytes 0 ++ dwordBytes 0 ++ dwordBytes 2 ++ dwordBytes 0 ++ dwordBytes 0 ++ dwordBytes 0 ++ data)).drop 40 =
      data := rfl

/-- A number that an int holds is not cut off. -/
theorem uint32_natCast {a : ℕ} (h : a < 2 ^ 31) : uint32 a = a := by
  unfold uint32
  omega

/-- A number that an int holds is not cut off. -/
theorem int32_natCast {a : ℕ} (h : a < 2 ^ 31) : int32 a = a := by
  unfold int32
  omega

/-- The bytes of all rows. -/
theorem length_rows {width : ℕ} {pixels : List (List ℕ)} {rows : List (List UInt8)}
    (h : List.Forall₂ IsRow pixels rows) (hlength : ∀ row ∈ pixels, row.length = width) :
    rows.flatten.length = pixels.length * rowLength width := by
  induction h with
  | nil => simp
  | @cons row bytes pixels rows hrow _ ih =>
    rw [List.flatten_cons, List.length_append, hrow.length, hlength row List.mem_cons_self,
      ih fun row h => hlength row (List.mem_cons_of_mem _ h), List.length_cons, Nat.succ_mul, Nat.add_comm]

/-- There is a level for each pixel. -/
theorem length_greyLevels (width height : ℕ) (getPixel : ℕ → ℕ → ℕ) :
    (greyLevels width height getPixel).length = width * height := by
  simp [greyLevels, Nat.mul_comm]

/-- The levels that are emitted for the pixels of an image. -/
theorem map_greyByte (width height : ℕ) {getPixel : ℕ → ℕ → ℕ}
    (hpixel : ∀ x < width, ∀ y < height, getPixel x y ≤ 255) :
    (((List.range height).map (rowPixels width getPixel)).flatten.map greyByte) =
      greyLevels width height getPixel := by
  rw [List.map_flatten, List.map_map, ← List.flatMap_def, greyLevels]
  apply List.flatMap_congr
  intro y hy
  rw [Function.comp_apply, rowPixels, List.map_map]
  apply List.map_congr_left
  intro x hx
  have hbyte := hpixel x (List.mem_range.mp hx) y (List.mem_range.mp hy)
  exact lowByte_natCast (Nat.lt_of_le_of_lt (Nat.div_mul_le_self _ _) (Nat.lt_succ_of_le hbyte))

/-- A header and the rows of an image are decoded. -/
theorem decodeBitmap_rows {width : ℕ} {pixels : List (List ℕ)} {rows : List (List UInt8)}
    (hrows : List.Forall₂ IsRow pixels rows) (hsmall : ∀ row ∈ pixels, ∀ d ∈ row, d < 2 ^ 2)
    (hrowLength : ∀ row ∈ pixels, row.length = width) (hwidth : 1 ≤ width) (hheight : 1 ≤ pixels.length)
    (hsize : width * pixels.length < 2 ^ 31) (htotal : rows.flatten.length + 40 < 2 ^ 31) :
    decodeBitmap (dwordBytes (rows.flatten.length + 40 : ℕ) ++ (dwordBytes 0x00000028 ++ dwordBytes width ++
      dwordBytes pixels.length ++ dwordBytes 0 ++ dwordBytes 0 ++ dwordBytes 2 ++ dwordBytes 0 ++
      dwordBytes 0 ++ dwordBytes 0 ++ rows.flatten)) [] =
        some ⟨true, width, pixels.length, pixels.flatten.map greyByte⟩ := by
  have hw : width < 2 ^ 31 := Nat.lt_of_le_of_lt (Nat.le_mul_of_pos_right width hheight) hsize
  have hh : pixels.length < 2 ^ 31 := Nat.lt_of_le_of_lt (Nat.le_mul_of_pos_left pixels.length hwidth) hsize
  have hdata : uint32 ((rows.flatten.length + 40 : ℕ) - 40) = rows.flatten.length := by
    unfold uint32
    omega
  have hlinelen : rows.flatten.length / pixels.length = rowLength width := by
    rw [length_rows hrows hrowLength]
    exact Nat.mul_div_cancel_left _ hheight
  have hf : Format.IsGrey ⟨rows.flatten.length, width, pixels.length, 2, 0⟩ := ⟨rfl, hwidth, hsize, hw⟩
  have hsplit := DecodeState.splitAll_rows hf hrows hsmall hrowLength (r := 0) (s := ⟨0, 0, []⟩)
    (Nat.zero_add _) (Nat.zero_mul _).symm rfl
  have hloop := DecodeState.splitBytes_eq (f := ⟨rows.flatten.length, width, pixels.length, 2, 0⟩)
    (rowLength width) rows.flatten List.drop_zero ⟨0, 0, []⟩
  rw [hsplit] at hloop
  rw [decodeBitmap, readFormat_header, drop_header, uint32_natCast htotal, uint32_natCast hw,
    uint32_natCast hh, hdata]
  have hnone : ¬((2 : ℕ) = 0 ∨ 8 < 2 ∨ pixels.length = 0) := by omega
  simp only [Option.bind_eq_bind, Option.bind_some, if_neg hnone, hlinelen, hloop, ne_eq, not_true_eq_false,
    if_false, int32_natCast hw, int32_natCast hh, List.nil_append]
  rfl

/-- A bitmap that was encoded is decoded to its grey levels, row by row. -/
theorem decodeBitmap_encodeBitmap {width height : ℕ} {getPixel : ℕ → ℕ → ℕ} (rle : Bool)
    (hwidth : 1 ≤ width) (hheight : 1 ≤ height) (hsize : width * height < 2 ^ 31)
    (hpixel : ∀ x < width, ∀ y < height, getPixel x y ≤ 255)
    (hlength : (encodeBitmap width height getPixel rle []).length < 2 ^ 31) :
    decodeBitmap (encodeBitmap width height getPixel rle []) [] =
        some ⟨true, width, height, greyLevels width height getPixel⟩ ∧
      (greyLevels width height getPixel).length = width * height := by
  obtain ⟨rows, hrows, hraw⟩ := encodeRows_spec (List.range height)
    (fun x hx y hy => hpixel x hx y (List.mem_range.mp hy)) []
  have hencoded : encodeBitmap width height getPixel rle [] =
      dwordBytes (rows.flatten.length + 40 : ℕ) ++ (dwordBytes 0x00000028 ++ dwordBytes width ++
        dwordBytes height ++ dwordBytes 0 ++ dwordBytes 0 ++ dwordBytes 2 ++ dwordBytes 0 ++
        dwordBytes 0 ++ dwordBytes 0 ++ rows.flatten) := by
    have htotal (data : List UInt8) : (dwordBytes 0x00000028 ++ dwordBytes width ++ dwordBytes height ++
        dwordBytes 0 ++ dwordBytes 0 ++ dwordBytes 2 ++ dwordBytes 0 ++ dwordBytes 0 ++ dwordBytes 0 ++
        data).length + 4 = data.length + 40 := by
      rw [List.length_append]
      simp only [List.length_append, RFSV.length_dwordBytes]
      omega
    rw [encodeBitmap, hraw, List.nil_append, List.nil_append, htotal]
  have hrowLength : ∀ row ∈ (List.range height).map (rowPixels width getPixel), row.length = width := by
    intro row hrow
    obtain ⟨y, -, rfl⟩ := List.mem_map.mp hrow
    rw [rowPixels, List.length_map, List.length_range]
  have hsmall : ∀ row ∈ (List.range height).map (rowPixels width getPixel), ∀ d ∈ row, d < 2 ^ 2 := by
    intro row hrow d hd
    obtain ⟨y, hy, rfl⟩ := List.mem_map.mp hrow
    obtain ⟨x, hx, rfl⟩ := List.mem_map.mp hd
    have := hpixel x (List.mem_range.mp hx) y (List.mem_range.mp hy)
    omega
  have hcount : ((List.range height).map (rowPixels width getPixel)).length = height := by
    rw [List.length_map, List.length_range]
  have htotal : rows.flatten.length + 40 < 2 ^ 31 := by
    rw [hencoded, List.length_append, List.length_append] at hlength
    simp only [List.length_append, RFSV.length_dwordBytes] at hlength
    omega
  have hdecoded := decodeBitmap_rows hrows hsmall hrowLength hwidth (hheight.trans hcount.ge)
    (hcount.symm ▸ hsize) htotal
  rw [hcount, map_greyByte width height hpixel] at hdecoded
  rw [hencoded]
  exact ⟨hdecoded, length_greyLevels width height getPixel⟩

/-- Two rows of five pixels, which take two bytes and two more of padding each. -/
theorem decodeBitmap_encodeBitmap_five :
    decodeBitmap (encodeBitmap 5 2 (fun x y => 50 * x + y) false []) [] =
        some ⟨true, 5, 2, [0, 0, 85, 85, 170, 0, 0, 85, 85, 170]⟩ ∧
      (greyLevels 5 2 fun x y => 50 * x + y).length = 5 * 2 :=
  decodeBitmap_encodeBitmap false (by decide) (by decide) (by decide) (by intro x hx y hy; omega) (by decide +kernel)

end Plptools
