import Plptools.Print.Escape
import Plptools.Rfsv.RFSV
import Mathlib.Data.List.TakeWhile
import Mathlib.Data.Nat.Digits.Defs
import Mathlib.Tactic.IntervalCases

/-!
# The text commands

A text is printed twice: in a comment, where nothing is escaped but in a label the parentheses, and as
a string before its operands. A line feed or a form feed of the text ends the comment, and what follows
it in the text is read as a program. Numbers that an int cannot hold are taken to wrap around.
-/

namespace Plptools

open RFSV (int32)
open Plptools.Library

/-- A number, as `%d` prints it. -/
def decimal (n : ℤ) : List UInt8 :=
  (if n < 0 then [0x2d] else []) ++
    if n = 0 then [0x30] else (Nat.digits 10 n.natAbs).reverse.map fun d => UInt8.ofNat (0x30 + d)

/-- Numbers with a blank before each. -/
def decimals (ns : List ℤ) : List UInt8 := ns.flatMap fun n => 0x20 :: decimal n

/-- The two lines of a text: the comment, `% @i: title 'shown' ..`, without the end of the line, the
string, and the operands behind it. -/
structure TextLines where
  comment : List UInt8
  string : List UInt8
  operands : List UInt8
deriving DecidableEq, Repr

/-- Both lines of a text. Either is printed up to a NUL. -/
def textLines (title : List UInt8) (i : ℤ) (shown e : List UInt8) (numbers operands : List ℤ) : TextLines where
  comment := 0x25 :: ([0x20, 0x40] ++ decimal i ++ [0x3a, 0x20] ++ title ++ [0x20, 0x27] ++ cString shown ++ [0x27] ++
    decimals numbers)
  string := 0x28 :: cString e ++ [0x29]
  operands := decimals operands ++ [0x20, 0x54, 0x0a]

/-- Print a label; the text is escaped first. -/
def printLabel (i boffset : ℤ) (text : List UInt8) (x y : ℕ) : Option TextLines := do
  let text ← psEscape text
  return textLines [0x54, 0x65, 0x78, 0x74] i text text [int32 x, int32 y] [int32 x, y + boffset, 0, 0, -1]

/-- Print a justified text; it is escaped behind the comment. -/
def printJustifiedText (i boffset : ℤ) (text : List UInt8) (left top right bottom baseline align amargin : ℕ) :
    Option TextLines := do
  let shown := text
  let text ← psEscape text
  let (left', right') := if align = 2 then (int32 left, int32 (int32 right - int32 amargin))
    else (int32 (int32 left + int32 amargin), int32 right)
  let bottom' := int32 (int32 bottom - (int32 (int32 bottom - int32 top)).tdiv 4)
  return textLines [0x4a, 0x54, 0x65, 0x78, 0x74] i shown text
    [int32 left, int32 bottom + boffset, int32 top, int32 right, int32 baseline, align, int32 amargin]
    [left', bottom' + boffset, int32 top, right', align]

/-- What a reader of PostScript finds: a comment up to the string, and the string, one token that reads
as the text, before the operands. -/
structure TextLines.ReadAs (lines : TextLines) (text : List UInt8) : Prop where
  comment : StringToken.comment (lines.comment ++ 0x0a :: (lines.string ++ lines.operands)) =
    some (lines.string ++ lines.operands)
  token : StringToken.token (lines.string ++ lines.operands) = some (text, lines.operands)

/-- Wherever a text is printed, it is read as a string. -/
structure PrintsAsString (text : List UInt8) : Prop where
  label : ∀ i boffset x y, ∃ lines, printLabel i boffset text x y = some lines ∧ lines.ReadAs text
  justifiedText : ∀ i boffset left top right bottom baseline align amargin, ∃ lines,
    printJustifiedText i boffset text left top right bottom baseline align amargin = some lines ∧ lines.ReadAs text

/-! ### The comment -/

/-- What holds of a fixed text can be computed. -/
theorem not_endsComment_of_all {text : List UInt8} (h : (text.all fun c => !decide (StringToken.EndsComment c)) = true) :
    ∀ c ∈ text, ¬StringToken.EndsComment c := by
  intro c hc
  have hend := List.all_eq_true.mp h c hc
  rwa [Bool.not_eq_true', decide_eq_false_iff_not] at hend

/-- No number ends a line. -/
theorem not_endsComment_decimal (n : ℤ) : ∀ c ∈ decimal n, ¬StringToken.EndsComment c := by
  intro c hc
  rcases List.mem_append.mp hc with hsign | hdigits
  · split at hsign
    · rw [List.mem_singleton.mp hsign]
      decide
    · cases hsign
  · split at hdigits
    · rw [List.mem_singleton.mp hdigits]
      decide
    · obtain ⟨d, hd, rfl⟩ := List.mem_map.mp hdigits
      have hlt : d < 10 := Nat.digits_lt_base (by decide) (List.mem_reverse.mp hd)
      interval_cases d <;> decide

/-- Nor do numbers one behind the other. -/
theorem not_endsComment_decimals (ns : List ℤ) : ∀ c ∈ decimals ns, ¬StringToken.EndsComment c := by
  intro c hc
  obtain ⟨n, -, hn⟩ := List.mem_flatMap.mp hc
  rcases List.mem_cons.mp hn with rfl | hn
  · decide
  · exact not_endsComment_decimal n c hn

/-- A text without NUL is printed whole. -/
theorem cString_of_not_mem {text : List UInt8} (hnul : 0 ∉ text) : cString text = text := by
  rw [cString, List.takeWhile_eq_self_iff]
  intro c hc
  rw [bne_iff_ne]
  rintro rfl
  exact hnul hc

/-- Escaping adds nothing but backslashes. -/
theorem mem_escapeParens {c : UInt8} (hc : c ≠ 0x5c) (text : List UInt8) : c ∈ escapeParens text ↔ c ∈ text := by
  rw [escapeParens, List.mem_flatMap]
  constructor
  · rintro ⟨d, hd, hmem⟩
    split at hmem
    · rcases List.mem_cons.mp hmem with rfl | hmem
      · exact absurd rfl hc
      · exact List.mem_singleton.mp hmem ▸ hd
    · exact List.mem_singleton.mp hmem ▸ hd
  · intro hmem
    refine ⟨c, hmem, ?_⟩
    split <;> simp

/-- Both lines are read as they are meant just when nothing in the text that is shown ends the comment
and the other one is a string that reads as the text. -/
theorem textLines_readAs_iff {title shown e text : List UInt8} {i : ℤ} {numbers operands : List ℤ}
    (htitle : ∀ c ∈ title, ¬StringToken.EndsComment c) (hshown : 0 ∉ shown) (he : 0 ∉ e) :
    (textLines title i shown e numbers operands).ReadAs text ↔
      (∀ c ∈ shown, ¬StringToken.EndsComment c) ∧ StringToken.token (0x28 :: e ++ [0x29]) = some (text, []) := by
  have hi := not_endsComment_decimal i
  have hnumbers := not_endsComment_decimals numbers
  have hline : (∀ c ∈ [0x20, 0x40] ++ decimal i ++ [0x3a, 0x20] ++ title ++ [0x20, 0x27] ++ shown ++ [0x27] ++
      decimals numbers, ¬StringToken.EndsComment c) ↔ ∀ c ∈ shown, ¬StringToken.EndsComment c := by
    simp only [List.forall_mem_append]
    have hat : ∀ c ∈ [0x20, 0x40], ¬StringToken.EndsComment c := not_endsComment_of_all (by decide)
    have hcolon : ∀ c ∈ [0x3a, 0x20], ¬StringToken.EndsComment c := not_endsComment_of_all (by decide)
    have hopen : ∀ c ∈ [0x20, 0x27], ¬StringToken.EndsComment c := not_endsComment_of_all (by decide)
    have hclose : ∀ c ∈ [0x27], ¬StringToken.EndsComment c := not_endsComment_of_all (by decide)
    exact ⟨fun h => h.1.1.2, fun h => ⟨⟨⟨⟨⟨⟨⟨hat, hi⟩, hcolon⟩, htitle⟩, hopen⟩, h⟩, hclose⟩, hnumbers⟩⟩
  have hcomment := StringToken.comment_append_iff ([0x20, 0x40] ++ decimal i ++ [0x3a, 0x20] ++ title ++
    [0x20, 0x27] ++ shown ++ [0x27] ++ decimals numbers)
    (0x28 :: e ++ [0x29] ++ (decimals operands ++ [0x20, 0x54, 0x0a]))
  have htoken := StringToken.token_append_iff (0x28 :: e ++ [0x29]) text (decimals operands ++ [0x20, 0x54, 0x0a])
  rw [← hline, ← hcomment, ← htoken]
  constructor
  · rintro ⟨hc, ht⟩
    rw [textLines, cString_of_not_mem hshown, cString_of_not_mem he] at hc ht
    exact ⟨hc, ht⟩
  · rintro ⟨hc, ht⟩
    refine ⟨?_, ?_⟩
    · rw [textLines, cString_of_not_mem hshown, cString_of_not_mem he]
      exact hc
    · rw [textLines, cString_of_not_mem hshown, cString_of_not_mem he]
      exact ht

/-- A text without NUL and carriage returns is read as a string wherever it is printed just when each
of its backslashes stands before a parenthesis, these parentheses are balanced, the index does not
overflow, and there is no line feed and no form feed in it. -/
theorem printsAsString_iff {text : List UInt8} (hnul : 0 ∉ text) (hreturn : 0x0d ∉ text) :
    PrintsAsString text ↔ IndexFits 0 text ∧ BackslashesBalanced 0 text ∧ 0x0a ∉ text ∧ 0x0c ∉ text := by
  have hends : (∀ c ∈ text, ¬StringToken.EndsComment c) ↔ 0x0a ∉ text ∧ 0x0c ∉ text := by
    constructor
    · intro h
      exact ⟨fun hmem => h _ hmem (.inl rfl), fun hmem => h _ hmem (.inr (.inr rfl))⟩
    · rintro ⟨hfeed, hform⟩ c hc (rfl | rfl | rfl)
      · exact hfeed hc
      · exact hreturn hc
      · exact hform hc
  rw [← hends, ← and_assoc, ← token_psEscape_iff hreturn]
  constructor
  · intro h
    obtain ⟨lines, hlines, hread⟩ := h.justifiedText 0 0 0 0 0 0 0 0 0
    obtain ⟨e, he, hprinted⟩ := Option.bind_eq_some_iff.mp hlines
    obtain rfl := Option.some.inj hprinted
    have hnul' : 0 ∉ e := by
      rw [(psEscape_iff.mp he).2, mem_escapeParens (by decide)]
      exact hnul
    obtain ⟨hcomment, htoken⟩ := (textLines_readAs_iff (not_endsComment_of_all (by decide)) hnul hnul').mp hread
    exact ⟨⟨e, he, htoken⟩, hcomment⟩
  · rintro ⟨⟨e, he, htoken⟩, hcomment⟩
    have hnul' : 0 ∉ e := by
      rw [(psEscape_iff.mp he).2, mem_escapeParens (by decide)]
      exact hnul
    have hcomment' : ∀ c ∈ e, ¬StringToken.EndsComment c := by
      intro c hc hend
      have hne : c ≠ 0x5c := by
        rintro rfl
        exact absurd hend (by decide)
      rw [(psEscape_iff.mp he).2, mem_escapeParens hne] at hc
      exact hcomment c hc hend
    constructor
    · intro i boffset x y
      refine ⟨textLines [0x54, 0x65, 0x78, 0x74] i e e [int32 x, int32 y] [int32 x, y + boffset, 0, 0, -1], ?_,
        (textLines_readAs_iff (not_endsComment_of_all (by decide)) hnul' hnul').mpr ⟨hcomment', htoken⟩⟩
      rw [printLabel, he]
      rfl
    · intro i boffset left top right bottom baseline align amargin
      rw [printJustifiedText, he]
      exact ⟨_, rfl, (textLines_readAs_iff (not_endsComment_of_all (by decide)) hnul hnul').mpr ⟨hcomment, htoken⟩⟩

/-- `a)\(b\)` -/
theorem printsAsString_iff_parens :
    PrintsAsString [0x61, 0x29, 0x5c, 0x28, 0x62, 0x5c, 0x29] ↔
      IndexFits 0 [0x61, 0x29, 0x5c, 0x28, 0x62, 0x5c, 0x29] ∧
        BackslashesBalanced 0 [0x61, 0x29, 0x5c, 0x28, 0x62, 0x5c, 0x29] ∧
        (0x0a : UInt8) ∉ [0x61, 0x29, 0x5c, 0x28, 0x62, 0x5c, 0x29] ∧
        (0x0c : UInt8) ∉ [0x61, 0x29, 0x5c, 0x28, 0x62, 0x5c, 0x29] :=
  printsAsString_iff (by decide) (by decide)

/-- A backslash escapes the parenthesis that is to end the string. -/
theorem not_printsAsString_backslash : ¬PrintsAsString [0x5c] := by
  intro h
  obtain ⟨lines, hlines, hread⟩ := h.label 0 0 0 0
  have hescape : psEscape [0x5c] = some [0x5c] := by decide
  rw [printLabel, hescape] at hlines
  obtain rfl := Option.some.inj hlines
  have htoken := ((textLines_readAs_iff (not_endsComment_of_all (by decide)) (by decide) (by decide)).mp hread).2
  have hopen : StringToken.token [0x28, 0x5c, 0x29] = none := by decide
  cases hopen.symm.trans htoken

end Plptools
