import Mathlib.Data.Finmap
import Mathlib.Data.Finset.Sort
import Mathlib.Data.List.DropRight
import Mathlib.Data.List.Lex

/-!
# Reading and writing configuration files

The writer puts each key on a line of its own, with its value behind an equals sign. The reader
is a state machine over the characters. Where it waits for a value it passes over every white
space, the end of the line included, so an empty value takes the next line for its value.
-/

namespace Plptools.Ini

/-- The white space of the C locale. -/
def cSpace (c : UInt8) : Bool := c == 0x20 || (0x09 ≤ c && c ≤ 0x0d)

/-- The letters of the C locale. -/
def cAlpha (c : UInt8) : Bool := (0x41 ≤ c && c ≤ 0x5a) || (0x61 ≤ c && c ≤ 0x7a)

/-- The character classes of a locale, with what is common to all locales. -/
structure Locale where
  isspace : UInt8 → Bool
  isalpha : UInt8 → Bool
  isspace_blank : isspace 0x20 = true
  isspace_return : isspace 0x0d = true
  isspace_newline : isspace 0x0a = true
  isspace_equals : isspace 0x3d = false
  isalpha_equals : isalpha 0x3d = false
  isalpha_of_cAlpha : ∀ c, cAlpha c = true → isalpha c = true
  isspace_of_isalpha : ∀ c, isalpha c = true → isspace c = false

attribute [simp] Locale.isspace_blank Locale.isspace_return Locale.isspace_newline
  Locale.isspace_equals Locale.isalpha_equals

/-- The C locale. -/
def cLocale : Locale where
  isspace := cSpace
  isalpha := cAlpha
  isspace_blank := rfl
  isspace_return := rfl
  isspace_newline := rfl
  isspace_equals := rfl
  isalpha_equals := rfl
  isalpha_of_cAlpha _ hc := hc
  isspace_of_isalpha := by
    intro c hc
    simp only [cAlpha, cSpace, Bool.or_eq_true, Bool.and_eq_true, decide_eq_true_eq,
      UInt8.le_iff_toNat_le, Bool.or_eq_false_iff, Bool.and_eq_false_iff, decide_eq_false_iff_not,
      beq_eq_false_iff_ne, ne_eq, ← UInt8.toNat_inj, UInt8.reduceToNat] at hc ⊢
    omega

/-- A map from strings to strings. -/
abbrev Contents := Finmap fun _ : List UInt8 => List UInt8

/-- The order of two strings: their characters are compared as unsigned numbers. -/
def keyLe (a b : List UInt8) : Prop := a.map UInt8.toNat ≤ b.map UInt8.toNat

instance : DecidableRel keyLe := fun _ _ => inferInstanceAs (Decidable (_ ≤ _))

instance : IsTrans (List UInt8) keyLe := ⟨fun _ _ _ => le_trans⟩

instance : Std.Total keyLe := ⟨fun a b => le_total (a.map UInt8.toNat) (b.map UInt8.toNat)⟩

instance : Std.Antisymm keyLe where
  antisymm a b hab hba := by
    have heq : a.map UInt8.toNat = b.map UInt8.toNat := le_antisymm hab hba
    exact List.map_injective_iff.mpr (fun _ _ => UInt8.toNat_inj.mp) heq

/-- What stands between a key and its value. -/
def assigns : List UInt8 := [0x20, 0x3d, 0x20]

/-- The end of a line. -/
def lineEnd : List UInt8 := [0x0d, 0x0a]

/-- The line of a key and its value. -/
def line (entry : List UInt8 × List UInt8) : List UInt8 :=
  entry.1 ++ assigns ++ entry.2 ++ lineEnd

/-- The keys in their order, each with its value. -/
def entries (contents : Contents) : List (List UInt8 × List UInt8) :=
  (contents.keys.sort keyLe).map fun key => (key, (contents.lookup key).getD [])

/-- The writer. -/
def serialize (contents : Contents) : List UInt8 := (entries contents).flatMap line

/-- The states of the reader. -/
inductive ParserState where
  | kKeyStart
  | kKey
  | kKeyEnd
  | kValueStart
  | kValue
  | kValueWhitespace
  | kValueEnd
deriving DecidableEq, Repr

/-- The local variables of the reader. -/
structure Parser where
  result : Contents
  currentKey : List UInt8
  currentValue : List UInt8
  currentValueWhitespace : List UInt8
  state : ParserState

namespace Parser

/-- Before a line, with the entries of the earlier ones. -/
def atLine (result : Contents) : Parser := ⟨result, [], [], [], .kKeyStart⟩

/-- The line is over: its entry is stored and the reader starts the next one. -/
def endLine (p : Parser) : Parser := atLine (p.result.insert p.currentKey p.currentValue)

/-- One character; nothing where the reader gives up. -/
def step (locale : Locale) (p : Parser) (c : UInt8) : Option Parser :=
  match p.state with
  | .kKeyStart =>
    if locale.isspace c then some p
    else if locale.isalpha c then some { p with currentKey := p.currentKey ++ [c], state := .kKey }
    else none
  | .kKey =>
    if c = 0x3d then some { p with state := .kValueStart }
    else if locale.isspace c then some { p with state := .kKeyEnd }
    else if locale.isalpha c then some { p with currentKey := p.currentKey ++ [c] }
    else none
  | .kKeyEnd =>
    if c = 0x3d then some { p with state := .kValueStart }
    else if !locale.isspace c then none
    else some p
  | .kValueStart =>
    if !locale.isspace c then
      some { p with currentValue := p.currentValue ++ [c], state := .kValue }
    else some p
  | .kValue =>
    if c = 0x0d then some { p with state := .kValueEnd }
    else if c = 0x0a then some p.endLine
    else if locale.isspace c then
      some { p with
        currentValueWhitespace := p.currentValueWhitespace ++ [c], state := .kValueWhitespace }
    else some { p with currentValue := p.currentValue ++ [c] }
  | .kValueWhitespace =>
    if c = 0x0d then some { p with currentValueWhitespace := [], state := .kValueEnd }
    else if c = 0x0a then some p.endLine
    else if locale.isspace c then
      some { p with currentValueWhitespace := p.currentValueWhitespace ++ [c] }
    else
      some { p with
        currentValue := p.currentValue ++ p.currentValueWhitespace ++ [c]
        currentValueWhitespace := []
        state := .kValue }
  | .kValueEnd => if c = 0x0a then some p.endLine else none

/-- The characters one after the other. -/
def read (locale : Locale) (p : Parser) (text : List UInt8) : Option Parser :=
  text.foldlM (step locale) p

/-- The end of the text. A last line without its end is stored, an unfinished key is an error. -/
def finish (p : Parser) : Option Contents :=
  let p := if p.state = .kValueStart ∨ p.state = .kValue ∨ p.state = .kValueWhitespace then
      { p with result := p.result.insert p.currentKey p.currentValue, state := .kKeyStart }
    else p
  if p.state ≠ .kKeyStart then none else some p.result

end Parser

/-- The reader. -/
def deserialize (locale : Locale) (contents : List UInt8) : Option Contents := do
  let p ← (Parser.atLine ∅).read locale contents
  p.finish

/-! ## Reading parts of a line -/

variable {locale : Locale}

/-- A key that the reader can read: letters, at least one. -/
structure ProperKey (locale : Locale) (key : List UInt8) : Prop where
  nonempty : key ≠ []
  alpha : ∀ c ∈ key, locale.isalpha c = true

/-- A value without line ends that neither begins nor ends with white space. -/
structure ProperValue (locale : Locale) (value : List UInt8) : Prop where
  inLine : ∀ c ∈ value, c ≠ 0x0d ∧ c ≠ 0x0a
  first : ∀ c ∈ value.head?, locale.isspace c = false
  last : ∀ c ∈ value.getLast?, locale.isspace c = false

namespace Parser

variable {p : Parser} {c : UInt8} {key value text rest : List UInt8}

/-- No characters. -/
@[simp] theorem read_nil : p.read locale [] = some p := rfl

/-- The first character. -/
theorem read_cons : p.read locale (c :: rest) = (p.step locale c).bind (·.read locale rest) := rfl

/-- One text after the other. -/
theorem read_append :
    p.read locale (text ++ rest) = (p.read locale text).bind (·.read locale rest) :=
  List.foldlM_append

/-- Letters extend the key. -/
theorem read_letters (h : ∀ c ∈ key, locale.isalpha c = true) (hstate : p.state = .kKey) :
    p.read locale key = some { p with currentKey := p.currentKey ++ key } := by
  induction key generalizing p with
  | nil => simp
  | cons c key ih =>
    obtain ⟨hc, hkey⟩ := List.forall_mem_cons.mp h
    have hspace := locale.isspace_of_isalpha c hc
    have hother : c ≠ 0x3d := by
      rintro rfl
      simp at hc
    have hstep : p.step locale c = some { p with currentKey := p.currentKey ++ [c] } := by
      simp [step, hstate, hother, hspace, hc]
    rw [read_cons, hstep, Option.bind_some, ih hkey (by exact hstate)]
    simp

/-- A key at the start of a line is read up to the value. -/
theorem read_key (h : ProperKey locale key) (result : Contents) :
    (atLine result).read locale (key ++ assigns) = some ⟨result, key, [], [], .kValueStart⟩ := by
  cases key with
  | nil => exact absurd rfl h.nonempty
  | cons c key =>
    obtain ⟨hc, hkey⟩ := List.forall_mem_cons.mp h.alpha
    have hspace := locale.isspace_of_isalpha c hc
    have hstep : (atLine result).step locale c = some ⟨result, [c], [], [], .kKey⟩ := by
      simp [step, atLine, hspace, hc]
    rw [List.cons_append, read_cons, hstep, Option.bind_some, read_append, read_letters hkey rfl]
    simp [assigns, read_cons, step]

/-- White space behind a value is kept apart from it until the value goes on. -/
theorem read_value (h : ∀ c ∈ text, c ≠ 0x0d ∧ c ≠ 0x0a) (result : Contents) (key : List UInt8)
    (c : UInt8) (hc : locale.isspace c = false) :
    Parser.read locale ⟨result, key, [c], [], .kValue⟩ text =
      some ⟨result, key, (c :: text).rdropWhile locale.isspace,
        (c :: text).rtakeWhile locale.isspace,
        if (c :: text).rtakeWhile locale.isspace = [] then .kValue else .kValueWhitespace⟩ := by
  induction text using List.reverseRecOn with
  | nil => simp [List.rdropWhile_singleton, List.rtakeWhile, hc]
  | append_singleton text d ih =>
    obtain ⟨htext, hd⟩ := List.forall_mem_append.mp h
    obtain ⟨hreturn, hnewline⟩ := List.forall_mem_singleton.mp hd
    have hparts : (c :: text).rdropWhile locale.isspace ++ (c :: text).rtakeWhile locale.isspace =
        c :: text := List.rdropWhile_append_rtakeWhile
    rw [read_append, ih htext, Option.bind_some, ← List.cons_append]
    by_cases hspace : locale.isspace d = true
    · rw [List.rdropWhile_concat_pos _ _ _ hspace, List.rtakeWhile_concat_pos _ _ _ hspace]
      by_cases htail : (c :: text).rtakeWhile locale.isspace = []
      · simp [read_cons, step, hreturn, hnewline, hspace, htail]
      · simp [read_cons, step, hreturn, hnewline, hspace, htail]
    · rw [List.rdropWhile_concat_neg _ _ _ hspace, List.rtakeWhile_concat_neg _ _ _ hspace]
      by_cases htail : (c :: text).rtakeWhile locale.isspace = []
      · rw [htail, List.append_nil] at hparts
        simp [read_cons, step, hreturn, hnewline, hspace, htail, hparts]
      · simp [read_cons, step, hreturn, hnewline, hspace, htail, hparts]

/-- What follows a key up to the end of its line is stored without the white space behind it. -/
theorem read_to_lineEnd (hfirst : locale.isspace c = false)
    (htext : ∀ d ∈ c :: text, d ≠ 0x0d ∧ d ≠ 0x0a) (result : Contents) (key : List UInt8) :
    Parser.read locale ⟨result, key, [], [], .kValueStart⟩ (c :: text ++ lineEnd) =
      some (atLine (result.insert key ((c :: text).rdropWhile locale.isspace))) := by
  have hstep : step locale ⟨result, key, [], [], .kValueStart⟩ c =
      some ⟨result, key, [c], [], .kValue⟩ := by
    simp [step, hfirst]
  rw [List.cons_append, read_cons, hstep, Option.bind_some, read_append,
    read_value (List.forall_mem_cons.mp htext).2 _ _ _ hfirst, Option.bind_some]
  by_cases htail : (c :: text).rtakeWhile locale.isspace = []
  · simp [lineEnd, read_cons, step, htail, endLine]
  · simp [lineEnd, read_cons, step, htail, endLine]

/-- A line with a value is read back. -/
theorem read_line (hkey : ProperKey locale key) (hvalue : ProperValue locale value)
    (hne : value ≠ []) (result : Contents) :
    (atLine result).read locale (line (key, value)) = some (atLine (result.insert key value)) := by
  obtain ⟨c, text, rfl⟩ := List.exists_cons_of_ne_nil hne
  have hlast : (c :: text).rdropWhile locale.isspace = c :: text := by
    apply List.rdropWhile_eq_self_iff.mpr
    intro hl
    simp [hvalue.last _ (List.getLast?_eq_getLast_of_ne_nil hl)]
  rw [line, List.append_assoc, read_append, read_key hkey, Option.bind_some,
    read_to_lineEnd (hvalue.first c rfl) hvalue.inLine, hlast]

/-- Behind a key without a value the reader still waits for one. -/
theorem read_line_empty (hkey : ProperKey locale key) (result : Contents) :
    (atLine result).read locale (line (key, [])) = some ⟨result, key, [], [], .kValueStart⟩ := by
  rw [line, List.append_nil, read_append, read_key hkey, Option.bind_some]
  simp [lineEnd, read_cons, step]

/-- What a key without a value gets from the next line. -/
def swallowed (locale : Locale) (entry : List UInt8 × List UInt8) : List UInt8 :=
  (entry.1 ++ assigns ++ entry.2).rdropWhile locale.isspace

/-- A reader that waits for a value takes a whole line for it. -/
theorem read_line_swallowed {next : List UInt8} (hnext : ProperKey locale next)
    (hvalue : ProperValue locale value) (result : Contents) (key : List UInt8) :
    Parser.read locale ⟨result, key, [], [], .kValueStart⟩ (line (next, value)) =
      some (atLine (result.insert key (swallowed locale (next, value)))) := by
  obtain ⟨c, rest, rfl⟩ := List.exists_cons_of_ne_nil hnext.nonempty
  have hspace : ∀ d ∈ c :: rest, locale.isspace d = false :=
    fun d hd => locale.isspace_of_isalpha d (hnext.alpha d hd)
  have hkeyLine : ∀ d ∈ c :: rest, d ≠ 0x0d ∧ d ≠ 0x0a := by
    intro d hd
    have := hspace d hd
    constructor <;> rintro rfl <;> simp at this
  have hline : ∀ d ∈ c :: (rest ++ assigns ++ value), d ≠ 0x0d ∧ d ≠ 0x0a := by
    rw [← List.cons_append, ← List.cons_append]
    simp only [List.forall_mem_append]
    exact ⟨⟨hkeyLine, by simp [assigns]⟩, hvalue.inLine⟩
  exact read_to_lineEnd (hspace c List.mem_cons_self) hline result key

end Parser

end Plptools.Ini
