import Plptools.Library.StringToken
import Mathlib.Algebra.Group.Nat.Defs
import Mathlib.Data.List.Basic

/-!
# Text in PostScript

A text is printed as a string of PostScript. `ps_escape` puts a backslash before each parenthesis,
and none before a backslash. A backslash of the text is read as the beginning of an escape sequence:
of the next character, or, where this is a parenthesis, of its backslash, so that the parenthesis
counts. No escape sequence stands for more characters than it has, so that the text is not read
back with any other backslash in it.
-/

namespace Plptools

open Plptools.Library (StringToken.token StringToken.scan StringToken.State)
open Plptools.Library

/-! ### The loop -/

def IsParen (c : UInt8) : Prop := c = 0x28 ∨ c = 0x29

instance (c : UInt8) : Decidable (IsParen c) := inferInstanceAs (Decidable (_ ∨ _))

/-- The index of the first parenthesis from `pos` on. -/
def findFirstOf (text : List UInt8) (pos : ℕ) : Option ℕ :=
  ((text.drop pos).findIdx? fun c => IsParen c).map (pos + ·)

/-- The loop of `psEscape`; each round passes a parenthesis, so that the fuel bounds the rounds. The
index is an int; where it overflows there is nothing. -/
def psEscapeLoop : ℕ → List UInt8 → ℕ → Option (List UInt8)
  | 0, text, _ => some text
  | fuel + 1, text, pos =>
    match findFirstOf text pos with
    | none => some text
    | some pos =>
      if pos + 2 < 2 ^ 31 then psEscapeLoop fuel (text.take pos ++ 0x5c :: text.drop pos) (pos + 2)
      else none

def psEscape (text : List UInt8) : Option (List UInt8) := psEscapeLoop (text.length + 1) text 0

/-- What the loop is for: each parenthesis behind a backslash. -/
def escapeParens (text : List UInt8) : List UInt8 := text.flatMap fun c => if IsParen c then [0x5c, c] else [c]

/-- From `pos` on, the index does not overflow behind a parenthesis. -/
def IndexFits : ℕ → List UInt8 → Prop
  | _, [] => True
  | pos, c :: text => if IsParen c then pos + 2 < 2 ^ 31 ∧ IndexFits (pos + 2) text else IndexFits (pos + 1) text

/-- A parenthesis gets a backslash. -/
theorem escapeParens_cons_of_paren {c : UInt8} (hc : IsParen c) (text : List UInt8) :
    escapeParens (c :: text) = 0x5c :: c :: escapeParens text := by
  rw [escapeParens, List.flatMap_cons, if_pos hc]
  rfl

/-- Another character does not. -/
theorem escapeParens_cons {c : UInt8} (hc : ¬IsParen c) (text : List UInt8) :
    escapeParens (c :: text) = c :: escapeParens text := by
  rw [escapeParens, List.flatMap_cons, if_neg hc]
  rfl

/-- Characters other than parentheses. -/
theorem escapeParens_append {plain : List UInt8} (hplain : ∀ c ∈ plain, ¬IsParen c) (text : List UInt8) :
    escapeParens (plain ++ text) = plain ++ escapeParens text := by
  induction plain with
  | nil => rfl
  | cons c plain ih =>
    rw [List.cons_append, escapeParens_cons (hplain c List.mem_cons_self),
      ih fun a ha => hplain a (List.mem_cons_of_mem _ ha)]
    rfl

/-- Only parentheses are looked at. -/
theorem indexFits_append {plain : List UInt8} (hplain : ∀ c ∈ plain, ¬IsParen c) (text : List UInt8) (pos : ℕ) :
    IndexFits pos (plain ++ text) ↔ IndexFits (pos + plain.length) text := by
  induction plain generalizing pos with
  | nil => rfl
  | cons c plain ih =>
    rw [List.cons_append, IndexFits, if_neg (hplain c List.mem_cons_self),
      ih fun a ha => hplain a (List.mem_cons_of_mem _ ha), List.length_cons, Nat.add_right_comm, Nat.add_assoc]

/-- There is no parenthesis, or a first one. -/
theorem first_paren (text : List UInt8) :
    ((∀ c ∈ text, ¬IsParen c) ∧ text.findIdx? (fun c => IsParen c) = none) ∨
      ∃ plain c after, text = plain ++ c :: after ∧ (∀ a ∈ plain, ¬IsParen a) ∧ IsParen c ∧
        text.findIdx? (fun c => IsParen c) = some plain.length := by
  induction text with
  | nil => exact .inl ⟨fun _ h => absurd h List.not_mem_nil, rfl⟩
  | cons c text ih =>
    by_cases hc : IsParen c
    · exact .inr ⟨[], c, text, rfl, fun _ h => absurd h List.not_mem_nil, hc, by simp [List.findIdx?_cons, hc]⟩
    · obtain ⟨hplain, hnone⟩ | ⟨plain, d, after, rfl, hplain, hd, hfind⟩ := ih
      · exact .inl ⟨List.forall_mem_cons.mpr ⟨hc, hplain⟩, by simp [List.findIdx?_cons, hc, hnone]⟩
      · exact .inr ⟨c :: plain, d, after, rfl, List.forall_mem_cons.mpr ⟨hc, hplain⟩, hd,
          by rw [List.findIdx?_cons, hfind]; simp [hc]⟩

/-- The loop behind the characters `done`. -/
theorem psEscapeLoop_iff {fuel : ℕ} {done text e : List UInt8} (hfuel : text.length < fuel) :
    psEscapeLoop fuel (done ++ text) done.length = some e ↔
      IndexFits done.length text ∧ e = done ++ escapeParens text := by
  induction fuel generalizing done text with
  | zero => cases hfuel
  | succ fuel ih =>
    rw [psEscapeLoop, findFirstOf, List.drop_left]
    obtain ⟨hplain, hnone⟩ | ⟨plain, c, after, rfl, hplain, hc, hfind⟩ := first_paren text
    · have hescape := escapeParens_append hplain []
      have hfits := (indexFits_append hplain [] done.length).mpr trivial
      rw [List.append_nil] at hescape hfits
      rw [hnone, Option.map_none, hescape]
      simp only [Option.some.injEq, hfits, true_and, escapeParens, List.flatMap_nil, List.append_nil]
      exact eq_comm
    · have htake : (done ++ (plain ++ c :: after)).take (done.length + plain.length) = done ++ plain := by
        rw [← List.append_assoc, ← List.length_append, List.take_left]
      have hdrop : (done ++ (plain ++ c :: after)).drop (done.length + plain.length) = c :: after := by
        rw [← List.append_assoc, ← List.length_append, List.drop_left]
      have hnext : done ++ plain ++ 0x5c :: c :: after = (done ++ plain ++ [0x5c, c]) ++ after := by simp
      have hlength : done.length + plain.length + 2 = (done ++ plain ++ [0x5c, c]).length := by simp [Nat.add_assoc]
      rw [List.length_append, List.length_cons] at hfuel
      rw [hfind, Option.map_some, indexFits_append hplain, IndexFits, if_pos hc, escapeParens_append hplain,
        escapeParens_cons_of_paren hc]
      simp only [htake, hdrop, hnext]
      by_cases hint : done.length + plain.length + 2 < 2 ^ 31
      · rw [if_pos hint, hlength, ih (by omega), ← hlength, and_iff_right hint]
        simp
      · rw [if_neg hint]
        exact ⟨fun h => (by cases h), fun h => absurd h.1.1 hint⟩

/-- The loop puts a backslash before each parenthesis. -/
theorem psEscape_iff {text e : List UInt8} : psEscape text = some e ↔ IndexFits 0 text ∧ e = escapeParens text :=
  @psEscapeLoop_iff (text.length + 1) [] text e (Nat.lt_succ_self _)

/-! ### Reading the string -/

/-- Behind `depth` parentheses that are open, each backslash stands before a parenthesis, and these
parentheses are balanced. -/
def BackslashesBalanced : ℕ → List UInt8 → Prop
  | depth, [] => depth = 0
  | depth, [c] => c ≠ 0x5c ∧ depth = 0
  | depth, c :: d :: text =>
    if c = 0x5c then
      (d = 0x28 ∧ BackslashesBalanced (depth + 1) text) ∨
        (d = 0x29 ∧ 0 < depth ∧ BackslashesBalanced (depth - 1) text)
    else BackslashesBalanced depth (d :: text)

/-- The characters that a string of an escaped text has. Only behind a backslash may there be one more
than the text has. -/
theorem length_scan_le {state : StringToken.State} {depth : ℕ} {text value rest : List UInt8}
    (h : StringToken.scan state depth (escapeParens text ++ [0x29]) = some (value, rest)) :
    value.length ≤ text.length + state.most ∧
      ((∀ c ∈ text.head?, ¬IsParen c) → value.length ≤ text.length + state.pending) := by
  induction text generalizing state depth value rest with
  | nil =>
    obtain hend | ⟨next, depth', v, hv, -⟩ := StringToken.length_scan_cons h
    · have hmost := state.pending_le_most
      simp only [List.length_nil]
      omega
    · cases hv
  | cons c text ih =>
    have hmost := state.pending_le_most
    rw [List.length_cons]
    by_cases hc : IsParen c
    · rw [escapeParens_cons_of_paren hc, List.cons_append] at h
      refine ⟨?_, fun hplain => absurd hc (hplain c rfl)⟩
      by_cases hstate : state = .escape
      · rw [hstate, StringToken.scan_escaped (.inl rfl)] at h
        obtain ⟨r, hr, heq⟩ := Option.map_eq_some_iff.mp h
        obtain rfl := congrArg Prod.fst heq
        have hpending : StringToken.State.text.pending = 0 := rfl
        have hone : r.1.length ≤ text.length + 1 := by
          obtain hend | ⟨next, depth', v, hv, hlength⟩ := StringToken.length_scan_cons hr
          · omega
          · have hrest := (ih hv).1
            omega
        rw [hstate]
        exact Nat.succ_le_succ hone
      · obtain ⟨emitted, hemitted, hscan⟩ := StringToken.scan_backslash_pending hstate
        rw [hscan, List.cons_append, StringToken.scan_escaped (.inr hc), Option.map_map] at h
        obtain ⟨r, hr, heq⟩ := Option.map_eq_some_iff.mp h
        obtain rfl := congrArg Prod.fst heq
        have hrest := (ih hr).1
        have hnone : StringToken.State.text.most = 0 := rfl
        simp only [Function.comp_apply, List.length_append, List.length_cons]
        omega
    · rw [escapeParens_cons hc, List.cons_append] at h
      obtain hend | ⟨next, depth', v, hv, hlength⟩ := StringToken.length_scan_cons h
      · omega
      · have hrest := (ih hv).1
        omega

/-- Any character but a backslash is read as itself. -/
theorem scan_escapeParens_cons {c : UInt8} (hbackslash : c ≠ 0x5c) (hreturn : c ≠ 0x0d) (depth : ℕ)
    (text after : List UInt8) :
    StringToken.scan .text depth (escapeParens (c :: text) ++ after) =
      (StringToken.scan .text depth (escapeParens text ++ after)).map fun r => (c :: r.1, r.2) := by
  by_cases hc : IsParen c
  · rw [escapeParens_cons_of_paren hc, List.cons_append, List.cons_append, StringToken.scan_backslash,
      StringToken.scan_escaped (.inr hc)]
  · rw [escapeParens_cons hc, List.cons_append,
      StringToken.scan_plain hbackslash (fun h => hc (.inl h)) (fun h => hc (.inr h)) hreturn]

/-- Taking the first character off a value. -/
theorem map_cons_eq_some_iff {c : UInt8} {r : Option (List UInt8 × List UInt8)} {text : List UInt8} :
    (r.map fun r => (c :: r.1, r.2)) = some (c :: text, []) ↔ r = some (text, []) := by
  cases r <;> simp [Prod.ext_iff]

/-- Nothing but the end is left. -/
theorem scan_end_iff {depth : ℕ} : StringToken.scan .text depth [0x29] = some ([], []) ↔ depth = 0 := by
  cases depth with
  | zero => simp [StringToken.scan_end]
  | succ depth =>
    rw [StringToken.scan_close, StringToken.scan]
    simp

/-- A text is read back just when its backslashes stand before balanced parentheses. -/
theorem scan_escapeParens_iff {depth : ℕ} {text : List UInt8} (hreturn : 0x0d ∉ text) :
    StringToken.scan .text depth (escapeParens text ++ [0x29]) = some (text, []) ↔
      BackslashesBalanced depth text := by
  fun_induction BackslashesBalanced depth text with
  | case1 depth => exact scan_end_iff
  | case2 depth c =>
    by_cases hc : c = 0x5c
    · have hscan : StringToken.scan .text depth (escapeParens [c] ++ [0x29]) = none := by
        rw [hc]
        exact StringToken.scan_backslash.trans (StringToken.scan_escaped (.inr (.inr rfl)))
      rw [hscan]
      exact ⟨fun h => (by cases h), fun h => absurd hc h.1⟩
    · rw [scan_escapeParens_cons hc fun h => hreturn (h ▸ List.mem_cons_self), map_cons_eq_some_iff]
      exact scan_end_iff.trans (and_iff_right hc).symm
  | case3 depth d text ih₁ ih₂ =>
    have hreturn' : 0x0d ∉ text := fun h => hreturn (List.mem_cons_of_mem _ (List.mem_cons_of_mem _ h))
    have hbackslash : ¬IsParen 0x5c := by decide
    rw [escapeParens_cons hbackslash, List.cons_append, StringToken.scan_backslash]
    by_cases hd : IsParen d
    · rw [escapeParens_cons_of_paren hd, List.cons_append, StringToken.scan_escaped (.inl rfl), map_cons_eq_some_iff,
        List.cons_append]
      obtain rfl | rfl := hd
      · rw [StringToken.scan_open, map_cons_eq_some_iff, ih₁ hreturn']
        simp
      · cases depth with
        | zero => simp [StringToken.scan_end]
        | succ depth =>
          rw [StringToken.scan_close, map_cons_eq_some_iff, ← Nat.add_sub_cancel (n := depth) (m := 1), ih₂ hreturn']
          simp
    · constructor
      · intro h
        have hlength := (length_scan_le h).2 fun a ha => (Option.mem_some_iff.mp ha) ▸ hd
        exact absurd hlength (by simp [StringToken.State.pending])
      · intro h
        exact absurd (h.imp And.left And.left) hd
  | case4 depth c d text hc ih =>
    rw [scan_escapeParens_cons hc fun h => hreturn (h ▸ List.mem_cons_self), map_cons_eq_some_iff]
    exact ih fun h => hreturn (List.mem_cons_of_mem _ h)

/-- An escaped text in parentheses is one string that reads as the text just when each backslash of the
text stands before a parenthesis, these parentheses are balanced, and the index does not overflow. -/
theorem token_psEscape_iff {text : List UInt8} (hreturn : 0x0d ∉ text) :
    (∃ e, psEscape text = some e ∧ StringToken.token (0x28 :: e ++ [0x29]) = some (text, [])) ↔
      IndexFits 0 text ∧ BackslashesBalanced 0 text := by
  constructor
  · rintro ⟨e, he, htoken⟩
    obtain ⟨hfits, rfl⟩ := psEscape_iff.mp he
    exact ⟨hfits, (scan_escapeParens_iff hreturn).mp htoken⟩
  · rintro ⟨hfits, hbalanced⟩
    exact ⟨_, psEscape_iff.mpr ⟨hfits, rfl⟩, (scan_escapeParens_iff hreturn).mpr hbalanced⟩

end Plptools
