import Mathlib.Data.Nat.Notation

/-!
# String tokens and comments of PostScript

A string stands in parentheses. Inside it parentheses are balanced, and a backslash begins an escape
sequence: a letter for a control character, up to three octal digits, the end of a line, which is
left out, or any other character, which stands for itself. An end of line that is not escaped reads
as a line feed. A comment goes from a percent sign to the end of the line or a form feed.
-/

namespace Plptools.Library.StringToken

/-- What was read last: text, a backslash, an octal number that may go on, or a carriage return, of
which a line feed is a part. -/
inductive State
  | text
  | escape
  | octal (more value : ℕ)
  | newline
deriving DecidableEq, Repr

/-- A character in text, at some depth of parentheses: what it adds to the value, and how reading
goes on unless it ends the string. -/
def plain (depth : ℕ) (c : UInt8) : List UInt8 × Option (State × ℕ) :=
  if c = 0x5c then ([], some (.escape, depth))
  else if c = 0x28 then ([c], some (.text, depth + 1))
  else if c = 0x29 then if depth = 0 then ([], none) else ([c], some (.text, depth - 1))
  else if c = 0x0d then ([0x0a], some (.newline, depth))
  else ([c], some (.text, depth))

def IsOctal (c : UInt8) : Prop := 0x30 ≤ c ∧ c ≤ 0x37

instance (c : UInt8) : Decidable (IsOctal c) := inferInstanceAs (Decidable (_ ∧ _))

/-- A character behind a backslash. -/
def escaped (depth : ℕ) (c : UInt8) : List UInt8 × Option (State × ℕ) :=
  if IsOctal c then ([], some (.octal 2 (c.toNat - 0x30), depth))
  else if c = 0x6e then ([0x0a], some (.text, depth))
  else if c = 0x72 then ([0x0d], some (.text, depth))
  else if c = 0x74 then ([0x09], some (.text, depth))
  else if c = 0x62 then ([0x08], some (.text, depth))
  else if c = 0x66 then ([0x0c], some (.text, depth))
  else if c = 0x0a then ([], some (.text, depth))
  else if c = 0x0d then ([], some (.newline, depth))
  else ([c], some (.text, depth))

def step : State → ℕ → UInt8 → List UInt8 × Option (State × ℕ)
  | .text, depth, c => plain depth c
  | .escape, depth, c => escaped depth c
  | .octal more value, depth, c =>
    if IsOctal c then
      if more ≤ 1 then ([UInt8.ofNat (8 * value + (c.toNat - 0x30))], some (.text, depth))
      else ([], some (.octal (more - 1) (8 * value + (c.toNat - 0x30)), depth))
    else (UInt8.ofNat value :: (plain depth c).1, (plain depth c).2)
  | .newline, depth, c => if c = 0x0a then ([], some (.text, depth)) else plain depth c

/-- The rest of a string: its value, and what follows the string. -/
def scan : State → ℕ → List UInt8 → Option (List UInt8 × List UInt8)
  | _, _, [] => none
  | state, depth, c :: s =>
    match (step state depth c).2 with
    | none => some ((step state depth c).1, s)
    | some next => (scan next.1 next.2 s).map fun r => ((step state depth c).1 ++ r.1, r.2)

/-- A string token: its value, and what follows it. -/
def token : List UInt8 → Option (List UInt8 × List UInt8)
  | [] => none
  | c :: s => if c = 0x28 then scan .text 0 s else none

/-- `(a(b)\051\n) x` -/
example : token [0x28, 0x61, 0x28, 0x62, 0x29, 0x5c, 0x30, 0x35, 0x31, 0x5c, 0x6e, 0x29, 0x20, 0x78] =
    some ([0x61, 0x28, 0x62, 0x29, 0x29, 0x0a], [0x20, 0x78]) := by decide

/-! ### One character -/

variable {depth : ℕ} {s : List UInt8}

/-- A character that reading goes on behind. -/
theorem scan_cons {state next : State} {depth' : ℕ} {c : UInt8} {emitted : List UInt8}
    (h : step state depth c = (emitted, some (next, depth'))) :
    scan state depth (c :: s) = (scan next depth' s).map fun r => (emitted ++ r.1, r.2) := by
  rw [scan, h]

/-- A backslash begins an escape. -/
theorem scan_backslash : scan .text depth (0x5c :: s) = scan .escape depth s := by
  have h : step .text depth 0x5c = ([], some (.escape, depth)) := rfl
  rw [scan_cons h]
  exact Option.map_id'

/-- A character that stands for itself behind a backslash. -/
theorem scan_escaped {c : UInt8} (hc : c = 0x5c ∨ c = 0x28 ∨ c = 0x29) :
    scan .escape depth (c :: s) = (scan .text depth s).map fun r => (c :: r.1, r.2) := by
  have h : step .escape depth c = ([c], some (.text, depth)) := by obtain rfl | rfl | rfl := hc <;> rfl
  exact scan_cons h

/-- A parenthesis that is opened is one deeper. -/
theorem scan_open : scan .text depth (0x28 :: s) = (scan .text (depth + 1) s).map fun r => (0x28 :: r.1, r.2) := by
  have h : step .text depth 0x28 = ([0x28], some (.text, depth + 1)) := rfl
  exact scan_cons h

/-- A parenthesis that is closed is one less deep. -/
theorem scan_close : scan .text (depth + 1) (0x29 :: s) = (scan .text depth s).map fun r => (0x29 :: r.1, r.2) := by
  have h : step .text (depth + 1) 0x29 = ([0x29], some (.text, depth)) := rfl
  exact scan_cons h

/-- The parenthesis that ends a string. -/
theorem scan_end : scan .text 0 (0x29 :: s) = some ([], s) := rfl

/-- Any other character. -/
theorem scan_plain {c : UInt8} (hbackslash : c ≠ 0x5c) (hopen : c ≠ 0x28) (hclose : c ≠ 0x29) (hreturn : c ≠ 0x0d) :
    scan .text depth (c :: s) = (scan .text depth s).map fun r => (c :: r.1, r.2) := by
  have h : step .text depth c = ([c], some (.text, depth)) := by
    rw [step, plain, if_neg hbackslash, if_neg hopen, if_neg hclose, if_neg hreturn]
  exact scan_cons h

/-! ### Lengths -/

namespace State

/-- How many characters of the value are still to come from what was read. -/
def pending : State → ℕ
  | octal _ _ => 1
  | _ => 0

/-- How many there may be, where the character behind a backslash is escaped itself. -/
def most : State → ℕ
  | octal _ _ => 1
  | escape => 1
  | _ => 0

/-- No more is pending than can come. -/
theorem pending_le_most (state : State) : state.pending ≤ state.most := by cases state <;> simp [pending, most]

end State

/-- A character stands for one at most. -/
theorem length_plain (depth : ℕ) (c : UInt8) :
    (plain depth c).1.length + ((plain depth c).2.elim 0 fun next => next.1.most) ≤ 1 := by
  rw [plain]
  repeat' split
  all_goals simp [State.most]

/-- So does one behind a backslash. -/
theorem length_escaped (depth : ℕ) (c : UInt8) :
    (escaped depth c).1.length + ((escaped depth c).2.elim 0 fun next => next.1.most) ≤ 1 := by
  rw [escaped]
  repeat' split
  all_goals simp [State.most]

/-- A character adds one to the value at most, besides what was pending. -/
theorem length_step (state : State) (depth : ℕ) (c : UInt8) :
    (step state depth c).1.length + ((step state depth c).2.elim 0 fun next => next.1.most) ≤ state.pending + 1 := by
  have hplain := length_plain depth c
  cases state with
  | text => exact hplain
  | escape => exact length_escaped depth c
  | octal more value =>
    rw [step]
    repeat' split
    · simp [State.most]
    · simp [State.most]
    · simp only [List.length_cons, State.pending]
      omega
  | newline =>
    rw [step]
    split
    · simp [State.most]
    · exact hplain

/-- Where the string ends, only what was pending is added. -/
theorem length_step_end {state : State} {depth : ℕ} {c : UInt8} (h : (step state depth c).2 = none) :
    (step state depth c).1.length ≤ state.pending := by
  have hplain (h : (plain depth c).2 = none) : (plain depth c).1.length ≤ 0 := by
    rw [plain] at h ⊢
    repeat' split at h
    all_goals simp_all
  cases state with
  | text => exact hplain h
  | escape =>
    rw [step, escaped] at h
    repeat' split at h
    all_goals cases h
  | octal more value =>
    rw [step] at h ⊢
    repeat' split at h
    · cases h
    · cases h
    · rw [if_neg ‹_›]
      exact Nat.succ_le_succ (hplain h)
  | newline =>
    rw [step] at h ⊢
    split at h
    · cases h
    · rw [if_neg ‹_›]
      exact hplain h

/-- A backslash that is not escaped. -/
theorem scan_backslash_pending {state : State} (hstate : state ≠ .escape) :
    ∃ emitted, emitted.length = state.pending ∧
      scan state depth (0x5c :: s) = (scan .escape depth s).map fun r => (emitted ++ r.1, r.2) := by
  cases state with
  | text => exact ⟨[], rfl, scan_cons rfl⟩
  | escape => exact absurd rfl hstate
  | octal more value => exact ⟨[UInt8.ofNat value], rfl, scan_cons rfl⟩
  | newline => exact ⟨[], rfl, scan_cons rfl⟩

/-- The value of a string by its first character. -/
theorem length_scan_cons {state : State} {c : UInt8} {value rest : List UInt8}
    (h : scan state depth (c :: s) = some (value, rest)) :
    value.length ≤ state.pending ∨
      ∃ next depth' v, scan next depth' s = some (v, rest) ∧
        value.length + next.most ≤ v.length + state.pending + 1 := by
  have hstep := length_step state depth c
  rw [scan] at h
  cases hnext : (step state depth c).2 with
  | none =>
    rw [hnext] at h
    obtain rfl := congrArg Prod.fst (Option.some.inj h)
    exact .inl (length_step_end hnext)
  | some next =>
    rw [hnext] at h hstep
    obtain ⟨r, hr, heq⟩ := Option.map_eq_some_iff.mp h
    obtain rfl := congrArg Prod.fst heq
    obtain rfl := congrArg Prod.snd heq
    refine .inr ⟨next.1, next.2, r.1, hr, ?_⟩
    simp only [Option.elim, List.length_append] at hstep ⊢
    omega

/-! ### What follows a string -/

/-- Behind a string there is less. -/
theorem length_rest_lt {state : State} {value rest : List UInt8} (h : scan state depth s = some (value, rest)) :
    rest.length < s.length := by
  induction s generalizing state depth value with
  | nil => cases h
  | cons c s ih =>
    rw [scan] at h
    split at h
    · obtain rfl := congrArg Prod.snd (Option.some.inj h)
      exact Nat.lt_succ_self _
    · obtain ⟨r, hr, heq⟩ := Option.map_eq_some_iff.mp h
      obtain rfl := congrArg Prod.snd heq
      exact Nat.lt_trans (ih hr) (Nat.lt_succ_self _)

/-- A string is read the same whatever follows it. -/
theorem scan_append_iff {state : State} {value after : List UInt8} :
    scan state depth (s ++ after) = some (value, after) ↔ scan state depth s = some (value, []) := by
  induction s generalizing state depth value with
  | nil => exact iff_of_false (fun h => absurd (length_rest_lt h) (Nat.lt_irrefl _)) nofun
  | cons c s ih =>
    rw [List.cons_append, scan, scan]
    cases (step state depth c).2 with
    | none => simp
    | some next =>
      simp only [Option.map_eq_some_iff, Prod.mk.injEq, Prod.exists]
      constructor
      · rintro ⟨v, r, hscan, hvalue, rfl⟩
        exact ⟨v, [], ih.mp hscan, hvalue, rfl⟩
      · rintro ⟨v, r, hscan, hvalue, rfl⟩
        exact ⟨v, after, ih.mpr hscan, hvalue, rfl⟩

/-- A string token is read the same whatever follows it. -/
theorem token_append_iff (s value after : List UInt8) :
    token (s ++ after) = some (value, after) ↔ token s = some (value, []) := by
  cases s with
  | nil =>
    refine iff_of_false (fun h => ?_) nofun
    cases after with
    | nil => cases h
    | cons c after =>
      rw [List.nil_append, token] at h
      split at h
      · exact absurd (length_rest_lt h) (Nat.not_lt.mpr (Nat.le_succ _))
      · cases h
  | cons c s =>
    rw [List.cons_append, token, token]
    split
    · exact scan_append_iff
    · exact iff_of_false nofun nofun

/-! ### Comments -/

/-- A character that ends a comment. -/
def EndsComment (c : UInt8) : Prop := c = 0x0a ∨ c = 0x0d ∨ c = 0x0c

instance (c : UInt8) : Decidable (EndsComment c) := inferInstanceAs (Decidable (_ ∨ _))

/-- What follows the character that ends a comment. -/
def afterLine : List UInt8 → Option (List UInt8)
  | [] => none
  | c :: s => if EndsComment c then some s else afterLine s

/-- What follows a comment. -/
def comment : List UInt8 → Option (List UInt8)
  | [] => none
  | c :: s => if c = 0x25 then afterLine s else none

/-- A line is left behind just where nothing in it ends it. -/
theorem afterLine_append_iff {line after : List UInt8} :
    afterLine (line ++ 0x0a :: after) = some after ↔ ∀ c ∈ line, ¬EndsComment c := by
  induction line with
  | nil => exact iff_of_true rfl fun _ h => absurd h List.not_mem_nil
  | cons c line ih =>
    rw [List.cons_append, afterLine, List.forall_mem_cons]
    by_cases hc : EndsComment c
    · rw [if_pos hc]
      refine iff_of_false (fun h => ?_) fun h => h.1 hc
      have hlength := congrArg List.length (Option.some.inj h)
      rw [List.length_append, List.length_cons] at hlength
      omega
    · rw [if_neg hc, ih, and_iff_right hc]

/-- A comment goes up to the end of its line, just when nothing in it ends it before. -/
theorem comment_append_iff (line after : List UInt8) :
    comment (0x25 :: line ++ 0x0a :: after) = some after ↔ ∀ c ∈ line, ¬EndsComment c :=
  afterLine_append_iff

end Plptools.Library.StringToken
