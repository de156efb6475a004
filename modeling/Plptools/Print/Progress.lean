import Plptools.Print.ConvertPage
import Plptools.Bitmap.Robust

/-!
# Which pages end

Each command makes the index larger by its length, unless an int overflows: the lengths are not
limited, and with that of a bitmap the index is an unsigned long that is cut off to an int. Then it
becomes smaller or, where the length is `2 ^ 32`, stays the same. A bitmap that cannot be decoded ends
the conversion, too.
-/

namespace Plptools

open RFSV (int32)
open Plptools.Library

/-- The length of a string with the opcode before it. -/
def stringSize (mem : ℤ → UInt8) (i : ℤ) : ℕ :=
  if byteAt mem (i + 1) &&& 1 ≠ 0 then 3 + wordAt mem (i + 1) >>> 3 else 2 + byteAt mem (i + 1) >>> 2

/-- The length of the command at `i`. -/
def commandLength (mem : ℤ → UInt8) (i : ℤ) : ℕ :=
  match mem i with
  | 0x00 => 5
  | 0x03 => 2
  | 0x04 => 17
  | 0x06 => 6
  | 0x07 => stringSize mem i + 15
  | 0x09 => 2
  | 0x0a => 2
  | 0x0b => 9
  | 0x0c => 9
  | 0x0d => 4
  | 0x0e => 2
  | 0x0f => 9
  | 0x10 => 4
  | 0x11 => 2
  | 0x17 => 9
  | 0x19 => 17
  | 0x1b => 9
  | 0x1f => 17
  | 0x20 => 17
  | 0x23 => 5 + 8 * dwordAt mem (i + 1) + 1
  | 0x25 => 17 + dwordAt mem (i + 17)
  | 0x26 => 17 + dwordAt mem (i + 17) + 16
  | 0x27 => stringSize mem i + 8
  | 0x28 => stringSize mem i + 25
  | _ => 1

/-- A bitmap is decoded without a division by zero or an overflow, and unless it is corrupted it has at
least as many pixels as are printed. -/
def PrintsBitmap (p : List UInt8) : Prop :=
  ∃ d, decodeBitmapInt p [] = some d ∧ (d.ok = true → d.width.toNat * d.height.toNat ≤ d.out.length)

/-- The command at `i` ends behind it at an int: a bitmap can be printed, and its length does not carry
the index out of the ints, or carries it round. -/
def Advances (mem : ℤ → UInt8) (len i : ℤ) : Prop :=
  match mem i with
  | 0x01 => len + 1 < 2 ^ 31
  | 0x25 | 0x26 => i + 17 < 2 ^ 31 ∧ PrintsBitmap (bitmapAt mem (i + 17)) ∧ (i + commandLength mem i < 2 ^ 31 ∨
      2 ^ 32 < commandLength mem i ∧ i + commandLength mem i < 2 ^ 32 + 2 ^ 31)
  | _ => i + commandLength mem i < 2 ^ 31

/-- A bitmap is printed just when its parts can be read and decoded. -/
theorem psBitmap_iff {p : List UInt8} : (∃ image, psBitmap p = some image) ↔ PrintsBitmap p := by
  rw [psBitmap, PrintsBitmap]
  cases decodeBitmapInt p [] with
  | none => simp
  | some d =>
    rw [Option.bind_some]
    cases hok : d.ok with
    | false => simp [hok]
    | true =>
      by_cases hpixels : d.width.toNat * d.height.toNat ≤ d.out.length
      · simp [hok, hpixels]
      · simp [hok, hpixels]

/-- A bitmap that decodes safely can be printed. -/
theorem DecodesSafely.printsBitmap {p : List UInt8} (h : DecodesSafely p []) : PrintsBitmap p := by
  obtain ⟨d, hd, hlength⟩ := h
  refine ⟨d, hd, fun hok => ?_⟩
  have hpixels := hlength hok
  rw [List.length_nil, Int.natCast_zero, Int.zero_add] at hpixels
  rcases Int.le_total 0 d.width with hwidth | hwidth
  · rcases Int.le_total 0 d.height with hheight | hheight
    · rw [← Int.toNat_of_nonneg hwidth, ← Int.toNat_of_nonneg hheight] at hpixels
      exact Int.ofNat_le.mp hpixels.ge
    · rw [Int.toNat_of_nonpos hheight]
      exact Nat.zero_le _
  · rw [Int.toNat_of_nonpos hwidth, Nat.zero_mul]
    exact Nat.zero_le _

/-- A bitmap whose header suits its data can be printed. -/
theorem printsBitmap_of_suits {p : List UInt8} {f : Format} (hread : readFormat p = some f)
    (hsuits : f.Suits (p.drop 40)) : PrintsBitmap p :=
  ((decodesSafely_iff p []).mpr ⟨f, hread, hsuits⟩).printsBitmap

/-- Where a string ends. -/
theorem stringAt_end (mem : ℤ → UInt8) (i : ℤ) : (stringAt mem i).2 + (stringAt mem i).1 = i + stringSize mem i := by
  rw [stringAt, stringSize]
  split <;> push_cast <;> omega

/-- A double word has 32 bits. -/
theorem dwordAt_lt (mem : ℤ → UInt8) (i : ℤ) : dwordAt mem i < 2 ^ 32 := by
  have h (i : ℤ) : byteAt mem i < 256 := (mem i).toNat_lt
  have h₀ := h i
  have h₁ := h (i + 1)
  have h₂ := h (i + 2)
  have h₃ := h (i + 2 + 1)
  rw [dwordAt, wordAt, wordAt]
  omega

/-- A command of fixed length, or whose length is that of a string. -/
theorem advance_map_iff {A : Type} {a : A} {i j : ℤ} {n : ℕ} (h : i < j + n) :
    (∃ c, (advance j n).map (a, ·) = some c ∧ i < c.2) ↔ j + n < 2 ^ 31 := by
  rw [advance]
  by_cases hint : j + n < 2 ^ 31
  · rw [if_pos hint]
    exact ⟨fun _ => hint, fun _ => ⟨_, rfl, h⟩⟩
  · rw [if_neg hint]
    exact ⟨fun hsome => absurd hsome.choose_spec.1 nofun, fun hlt => absurd hlt hint⟩

/-- A command with a string. -/
theorem advance_string_iff {A : Type} {a : A} {mem : ℤ → UInt8} {i : ℤ} {n : ℕ} (hn : 0 < n) :
    (∃ c, (advance ((stringAt mem i).2 + (stringAt mem i).1) n).map (a, ·) = some c ∧ i < c.2) ↔
      i + (stringSize mem i + n : ℕ) < 2 ^ 31 := by
  rw [stringAt_end, advance_map_iff (by omega)]
  push_cast
  rw [Int.add_assoc]

/-- A polygon: two double words for each segment, and the fill rule. -/
theorem advance_points_iff {A : Type} {a : A} {i : ℤ} {count : ℕ} :
    (∃ c, (advance (i + 5 + (8 * count : ℕ)) 1).map (a, ·) = some c ∧ i < c.2) ↔
      i + (5 + 8 * count + 1 : ℕ) < 2 ^ 31 := by
  rw [advance_map_iff (by omega)]
  push_cast
  omega

/-- A bitmap of `n` bytes with the opcode, where `n` is read behind 17 of them. -/
theorem advance_bind_iff {A B : Type} {image : ℤ → Option B} {a : ℤ → B → A} {i : ℤ} {n : ℤ → ℕ} (hi : 0 ≤ i)
    (hn : 17 ≤ n (i + 17)) (hn' : n (i + 17) < 2 ^ 32 + 2 ^ 31) :
    (∃ c, ((advance i 17).bind fun buf => (image buf).bind fun b => some (a buf b, int32 (i + n buf))) = some c ∧
        i < c.2) ↔
      i + 17 < 2 ^ 31 ∧ (∃ b, image (i + 17) = some b) ∧
        (i + n (i + 17) < 2 ^ 31 ∨ 2 ^ 32 < n (i + 17) ∧ i + n (i + 17) < 2 ^ 32 + 2 ^ 31) := by
  rw [advance]
  by_cases hint : i + (17 : ℕ) < 2 ^ 31
  · have hlt : i < int32 (i + n (i + 17)) ↔
        i + n (i + 17) < 2 ^ 31 ∨ 2 ^ 32 < n (i + 17) ∧ i + n (i + 17) < 2 ^ 32 + 2 ^ 31 := by
      unfold int32
      omega
    rw [if_pos hint, Option.bind_some, ← hlt]
    constructor
    · rintro ⟨c, hc, h⟩
      obtain ⟨b, hb, hc⟩ := Option.bind_eq_some_iff.mp hc
      obtain rfl := Option.some.inj hc
      exact ⟨hint, ⟨b, hb⟩, h⟩
    · rintro ⟨-, ⟨b, hb⟩, h⟩
      exact ⟨_, Option.bind_eq_some_iff.mpr ⟨b, hb, rfl⟩, h⟩
  · rw [if_neg hint]
    exact ⟨fun hsome => absurd hsome.choose_spec.1 nofun, fun h => absurd h.1 hint⟩

/-- The index becomes larger just where no int overflows, and bitmaps can be printed. -/
theorem readCommand_iff {mem : ℤ → UInt8} {len i : ℤ} (hi : 0 ≤ i) (hlen : i < len) :
    (∃ c, readCommand mem len i = some c ∧ i < c.2) ↔ Advances mem len i := by
  have hblen := dwordAt_lt mem (i + 17)
  unfold readCommand Advances commandLength
  generalize mem i = op
  split
  case h_7 | h_26 | h_27 => exact advance_string_iff (by decide)
  case h_23 => exact advance_points_iff
  case h_24 =>
    rw [← psBitmap_iff]
    exact advance_bind_iff (n := fun buf => 17 + dwordAt mem buf) hi (by omega) (by omega)
  case h_25 =>
    rw [← psBitmap_iff]
    exact advance_bind_iff (n := fun buf => 17 + dwordAt mem buf + 16) hi (by omega) (by omega)
  case h_28 =>
    split
    case h_4 =>
      split
      case h_25 => exact advance_map_iff (by omega)
      all_goals contradiction
    all_goals contradiction
  all_goals exact advance_map_iff (by omega)

/-- The states the loop comes to on a page of `size` bytes. -/
abbrev PageReaches (mem : ℤ → UInt8) (size : ℕ) : PageState → Prop :=
  LoopReaches (fun s => s.i < int32 size) (PageState.step mem (int32 size)) ⟨0, []⟩

/-- Each round makes the index larger, and the loop ends after as many rounds as there are bytes. -/
def PageAdvances (mem : ℤ → UInt8) (size : ℕ) : Prop :=
  (∀ s, PageReaches mem size s → s.i < int32 size → ∃ t, PageState.step mem (int32 size) s = some t ∧ s.i < t.i) ∧
    ∃ t, convertPage mem size size = some t

/-- A round makes the index larger just where its command ends behind it. -/
theorem PageState.step_iff {mem : ℤ → UInt8} {len : ℤ} {s : PageState} (hi : 0 ≤ s.i) (hlen : s.i < len) :
    (∃ t, s.step mem len = some t ∧ s.i < t.i) ↔ Advances mem len s.i := by
  rw [← readCommand_iff hi hlen, PageState.step]
  cases readCommand mem len s.i <;> simp

/-- No index is negative as long as the commands end behind themselves. -/
theorem PageReaches.nonneg {mem : ℤ → UInt8} {size : ℕ} {s : PageState}
    (hround : ∀ t, PageReaches mem size t → t.i < int32 size → 0 ≤ t.i →
      ∃ u, t.step mem (int32 size) = some u ∧ t.i < u.i)
    (h : PageReaches mem size s) : 0 ≤ s.i := by
  refine LoopReaches.index_le (fun t u ht hlen hu hi => ?_) h
  obtain ⟨u', hu', hlt⟩ := hround t ht hlen hi
  obtain rfl := Option.some.inj (hu.symm.trans hu')
  exact Int.le_of_lt hlt

/-- A page of one bitmap whose length takes the index round to the bitmap again. -/
def loopingPage : List UInt8 :=
  0x25 :: List.replicate 16 0 ++ [0xef, 0xff, 0xff, 0xff, 0xee, 0xff, 0xff, 0xff, 1, 0, 0, 0, 1, 0, 0, 0] ++
    List.replicate 8 0 ++ [8] ++ List.replicate 16 0

end Plptools
