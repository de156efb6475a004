import Plptools.Bitmap.Ints
import Plptools.Bitmap.Layout

/-!
# Run lengths

The decoder splits the bytes that the data stand for one after the other, whether they are written
out or as runs. Expanding the runs gives these bytes, and whether the last run is complete; the
loops over runs and the loop over bytes do the same with them. So the runs that an image is cut
into do not matter.
-/

namespace Plptools

open RFSV (uint32 int32)

/-! ### The bytes that runs stand for -/

/-- What the next byte of the data is: the first one of a run, one of a literal run that has so many
more, or the byte of which there are so many copies. -/
inductive RunState
  | start
  | literal (more : ℕ)
  | copies (count : ℕ)
deriving DecidableEq, Repr

/-- The bytes that the data stand for, and whether they end with a run. -/
def expandRuns : RunState → List UInt8 → List UInt8 × Bool
  | state, [] => ([], state = .start)
  | .start, b :: data =>
    if b ≥ 0x80 then expandRuns (.literal (0xff - b.toNat)) data
    else expandRuns (.copies (b.toNat + 1)) data
  | .literal 0, b :: data => (b :: (expandRuns .start data).1, (expandRuns .start data).2)
  | .literal (more + 1), b :: data => (b :: (expandRuns (.literal more) data).1, (expandRuns (.literal more) data).2)
  | .copies count, b2 :: data =>
    (List.replicate count b2 ++ (expandRuns .start data).1, (expandRuns .start data).2)

/-- How many bytes of data a run takes, by its first byte. -/
def runWidth (b : UInt8) : ℕ := if b ≥ 0x80 then 0x100 - b.toNat + 1 else 2

/-- How many bytes a run stands for. -/
def runCount (b : UInt8) : ℕ := if b ≥ 0x80 then 0x100 - b.toNat else b.toNat + 1

/-- From a run at `offset` on, the first byte of each run is there and neither the offsets nor the
count of bytes, `i` before this run and `total` in the end, leave the ints. -/
inductive CountsRuns (datlen : ℕ) (p : List UInt8) : ℕ → ℕ → ℕ → Prop
  | done {offset i : ℕ} (h : datlen ≤ offset) : CountsRuns datlen p offset i i
  | run {offset i total : ℕ} {b : UInt8} (h : offset < datlen) (hb : p[offset]? = some b)
      (hoffset : offset + runWidth b < 2 ^ 31) (hi : i + runCount b < 2 ^ 31)
      (hrest : CountsRuns datlen p (offset + runWidth b) (i + runCount b) total) :
      CountsRuns datlen p offset i total

/-- A run has its head at least. -/
theorem runWidth_pos (b : UInt8) : 0 < runWidth b := by
  rw [runWidth]
  split
  · exact Nat.succ_pos _
  · decide

variable {f : Format} {p : List UInt8}

/-- One round of the first loop over runs. -/
theorem countRunsInt_succ (fuel : ℕ) {offset i : ℕ} {b : UInt8} (h : offset < f.datlen) (hb : p[offset]? = some b) :
    countRunsInt f p (fuel + 1) offset i =
      if offset + runWidth b < 2 ^ 31 ∧ i + runCount b < 2 ^ 31 then
        countRunsInt f p fuel (offset + runWidth b) (i + runCount b)
      else none := by
  rw [countRunsInt, if_pos h, hb, runWidth, runCount, ite_and]
  by_cases hrun : b ≥ 0x80
  · simp only [if_pos hrun, Option.bind_eq_bind, Option.bind_some, addCounter_bind]
  · simp only [if_neg hrun, Option.bind_eq_bind, Option.bind_some, addCounter_bind]

/-- The first loop over runs counts the bytes; a round for each byte of the data is enough. -/
theorem countRunsInt_iff {fuel offset i total : ℕ} (hfuel : f.datlen ≤ offset + fuel) :
    countRunsInt f p fuel offset i = some total ↔ CountsRuns f.datlen p offset i total := by
  induction fuel generalizing offset i with
  | zero =>
    rw [countRunsInt, Option.some.injEq]
    constructor
    · rintro rfl
      exact .done hfuel
    · intro h
      cases h with
      | done h => rfl
      | run h => exact absurd h (Nat.not_lt.mpr hfuel)
  | succ fuel ih =>
    by_cases hmore : offset < f.datlen
    · cases hb : p[offset]? with
      | none =>
        rw [countRunsInt, if_pos hmore, hb]
        constructor
        · intro h
          cases h
        · intro h
          cases h with
          | done h => exact absurd hmore (Nat.not_lt.mpr h)
          | run h hb' => rw [hb] at hb'; cases hb'
      | some b =>
        have hpos := runWidth_pos b
        rw [countRunsInt_succ fuel hmore hb]
        constructor
        · intro h
          rw [Option.ite_none_right_eq_some] at h
          exact .run hmore hb h.1.1 h.1.2 ((ih (by omega)).mp h.2)
        · intro h
          cases h with
          | done h => exact absurd hmore (Nat.not_lt.mpr h)
          | run h hb' hoffset hi hrest =>
            obtain rfl := Option.some.inj (hb.symm.trans hb')
            rw [if_pos ⟨hoffset, hi⟩]
            exact (ih (by omega)).mpr hrest
    · rw [countRunsInt, if_neg hmore]
      constructor
      · intro h
        cases h
        exact .done (Nat.not_lt.mp hmore)
      · intro h
        cases h with
        | done h => rfl
        | run h => exact absurd h hmore

/-- Data whose runs can be counted are short. -/
theorem CountsRuns.datlen_lt {datlen offset i total : ℕ} (h : CountsRuns datlen p offset i total)
    (hoffset : offset < 2 ^ 31) : datlen < 2 ^ 31 := by
  induction h with
  | done h => exact Nat.lt_of_le_of_lt h hoffset
  | run _ _ hnext _ _ ih => exact ih hnext

/-- The bytes are counted in one way. -/
theorem CountsRuns.unique {datlen offset i total total' : ℕ} (h : CountsRuns datlen p offset i total)
    (h' : CountsRuns datlen p offset i total') : total = total' := by
  induction h with
  | done h =>
    cases h' with
    | done => rfl
    | run h' => exact absurd h' (Nat.not_lt.mpr h)
  | run h hb _ _ _ ih =>
    cases h' with
    | done h' => exact absurd h (Nat.not_lt.mpr h')
    | run _ hb' _ _ hrest' =>
      obtain rfl := Option.some.inj (hb.symm.trans hb')
      exact ih hrest'

/-! ### Splitting expanded bytes -/

/-- The bytes of the data that the loops can reach. -/
def Format.data (f : Format) (p : List UInt8) : List UInt8 := p.take (min f.datlen (2 ^ 31 - 1))

namespace DecodeState

variable {linelen : ℕ}

/-- Splitting expanded bytes. If the decoder has not stopped before their end, it needs all data and
returns whether they end with a run. -/
def splitExpanded (f : Format) (linelen : ℕ) (whole : Bool) (e : List UInt8 × Bool) (s : DecodeState) :
    Option (Bool × DecodeState) :=
  let r := splitAll f linelen e.1 s
  if r.1 then if whole then some (e.2, r.2) else none else some r

/-- There is nothing left. -/
theorem splitExpanded_nil (whole ended : Bool) (s : DecodeState) :
    splitExpanded f linelen whole ([], ended) s = if whole then some (ended, s) else none := rfl

/-- One byte of what is expanded. -/
theorem splitExpanded_cons (whole : Bool) (b : UInt8) (e : List UInt8 × Bool) (s : DecodeState) :
    splitExpanded f linelen whole (b :: e.1, e.2) s =
      let r := s.splitByte f linelen b
      if r.1 then splitExpanded f linelen whole e r.2 else some r := by
  by_cases hmore : (s.splitByte f linelen b).1 = true
  · simp only [splitExpanded, splitAll, if_pos hmore]
  · simp only [splitExpanded, splitAll, if_neg hmore]

/-- One run of what is expanded. -/
theorem splitExpanded_replicate (whole : Bool) (n : ℕ) (b : UInt8) (e : List UInt8 × Bool) (s : DecodeState) :
    splitExpanded f linelen whole (List.replicate n b ++ e.1, e.2) s =
      let r := splitRun f linelen b n s
      if r.1 then splitExpanded f linelen whole e r.2 else some r := by
  induction n generalizing s with
  | zero => rfl
  | succ n ih =>
    rw [List.replicate_succ, List.cons_append,
      splitExpanded_cons whole b (List.replicate n b ++ e.1, e.2), splitRun]
    generalize s.splitByte f linelen b = r
    obtain ⟨more, s⟩ := r
    cases more with
    | true => exact ih s
    | false => rfl

/-- The loop over bytes without run lengths, from `offset` on. -/
theorem splitBytesInt_eq {left offset : ℕ} (hoffset : offset < 2 ^ 31) (s : DecodeState) :
    splitBytesInt f linelen p left offset s =
      splitExpanded f linelen (left ≤ ((p.drop offset).take (min left (2 ^ 31 - 1 - offset))).length)
        ((p.drop offset).take (min left (2 ^ 31 - 1 - offset)), true) s := by
  induction left generalizing offset s with
  | zero => simp [splitBytesInt, splitExpanded_nil]
  | succ left ih =>
    rw [splitBytesInt]
    cases hb : p[offset]? with
    | none =>
      have hnil : p.drop offset = [] := List.drop_eq_nil_of_le (List.getElem?_eq_none_iff.mp hb)
      simp [hnil, splitExpanded_nil]
    | some b =>
      have hcons : p.drop offset = b :: p.drop (offset + 1) := by
        obtain ⟨hlt, hb⟩ := List.getElem?_eq_some_iff.mp hb
        rw [List.drop_eq_getElem_cons hlt, hb]
      rw [Option.bind_eq_bind, Option.bind_some, Option.bind_eq_bind, addCounter_bind]
      by_cases hnext : offset + 1 < 2 ^ 31
      · have htake : min (left + 1) (2 ^ 31 - 1 - offset) = min left (2 ^ 31 - 1 - (offset + 1)) + 1 := by omega
        rw [if_pos hnext, hcons, htake, List.take_succ_cons, List.length_cons, splitExpanded_cons _ b (_, true)]
        simp only [ih hnext, Nat.add_le_add_iff_right]
        split <;> rfl
      · have hzero : 2 ^ 31 - 1 - offset = 0 := by omega
        rw [if_neg hnext, hzero, Nat.min_zero, List.take_zero, splitExpanded_nil]
        simp

/-- What is left of the data behind a byte that there is. -/
theorem drop_eq_cons {data : List UInt8} {offset : ℕ} {b : UInt8} (hb : data[offset]? = some b) :
    data.drop offset = b :: data.drop (offset + 1) := by
  obtain ⟨hlt, rfl⟩ := List.getElem?_eq_some_iff.mp hb
  exact List.drop_eq_getElem_cons hlt

/-- At `offset`, all data are read, or what is left of them is not there, or there is a byte. -/
theorem data_cases {datlen offset : ℕ} (hdatlen : offset ≤ datlen) (hlength : offset ≤ p.length) :
    (offset = datlen ∧ datlen ≤ p.length ∧ (p.take datlen).drop offset = []) ∨
      (offset < datlen ∧ p[offset]? = none ∧ ¬datlen ≤ p.length ∧ (p.take datlen).drop offset = []) ∨
      ∃ b, offset < datlen ∧ offset < p.length ∧ p[offset]? = some b ∧
        (p.take datlen).drop offset = b :: (p.take datlen).drop (offset + 1) := by
  by_cases hmore : offset < datlen
  · cases hb : p[offset]? with
    | none =>
      have hend : p.length ≤ offset := List.getElem?_eq_none_iff.mp hb
      exact .inr (.inl ⟨hmore, rfl, by omega, by simp [hend]⟩)
    | some b =>
      have hlt : offset < p.length := (List.getElem?_eq_some_iff.mp hb).1
      exact .inr (.inr ⟨b, hmore, hlt, rfl, drop_eq_cons (by rw [List.getElem?_take_of_lt hmore, hb])⟩)
  · have hend : offset = datlen := Nat.le_antisymm hdatlen (Nat.not_lt.mp hmore)
    exact .inl ⟨hend, hend ▸ hlength, by simp [hend]⟩

/-- One byte of a literal run, where `next` is what the loop does behind the run. -/
theorem splitLiteral_succ {left offset : ℕ} {whole : Bool} {b : UInt8} {e : List UInt8 × Bool}
    {next : ℕ → DecodeState → Option (Bool × DecodeState)} (hlt : offset < f.datlen) (hb : p[offset]? = some b)
    (hrest : ∀ s, ((splitLiteral f linelen p left (offset + 1) s).bind fun r =>
        if r.1 then next r.2.1 r.2.2 else some (false, r.2.2)) = splitExpanded f linelen whole e s)
    (s : DecodeState) :
    ((splitLiteral f linelen p (left + 1) offset s).bind fun r =>
        if r.1 then next r.2.1 r.2.2 else some (false, r.2.2)) =
      splitExpanded f linelen whole (b :: e.1, e.2) s := by
  rw [splitLiteral, if_neg (Nat.not_le.mpr hlt), hb, splitExpanded_cons, Option.bind_eq_bind, Option.bind_some]
  cases hr : s.splitByte f linelen b with
  | mk more s₁ =>
    cases more with
    | true =>
      simp only [if_true]
      exact hrest s₁
    | false => rfl

/-- The bytes of a literal run, `more + 1` of them, and what the loop does behind them. -/
theorem splitLiteral_eq {more offset : ℕ} {next : ℕ → DecodeState → Option (Bool × DecodeState)}
    (hnext : ∀ offset' s, offset < offset' → offset' ≤ f.datlen → offset' ≤ p.length →
      next offset' s =
        splitExpanded f linelen (f.datlen ≤ p.length) (expandRuns .start ((p.take f.datlen).drop offset')) s)
    (hdatlen : offset ≤ f.datlen) (hlength : offset ≤ p.length) (s : DecodeState) :
    ((splitLiteral f linelen p (more + 1) offset s).bind fun r =>
        if r.1 then next r.2.1 r.2.2 else some (false, r.2.2)) =
      splitExpanded f linelen (f.datlen ≤ p.length)
        (expandRuns (.literal more) ((p.take f.datlen).drop offset)) s := by
  induction more generalizing offset s with
  | zero =>
    obtain ⟨hend, hwhole, hdrop⟩ | ⟨hlt, hb, hwhole, hdrop⟩ | ⟨b, hlt, hlt', hb, hdrop⟩ := data_cases hdatlen hlength
    · simp [splitLiteral, expandRuns, splitExpanded_nil, hwhole, hend]
    · simp [splitLiteral, hdrop, expandRuns, splitExpanded_nil, hwhole, hb, Nat.not_le.mpr hlt]
    · rw [hdrop, expandRuns]
      apply splitLiteral_succ hlt hb
      intro s
      rw [splitLiteral, Option.bind_some, if_pos rfl]
      exact hnext _ _ (Nat.lt_succ_self _) hlt hlt'
  | succ more ih =>
    obtain ⟨hend, hwhole, hdrop⟩ | ⟨hlt, hb, hwhole, hdrop⟩ | ⟨b, hlt, hlt', hb, hdrop⟩ := data_cases hdatlen hlength
    · simp [splitLiteral, expandRuns, splitExpanded_nil, hwhole, hend]
    · simp [splitLiteral, hdrop, expandRuns, splitExpanded_nil, hwhole, hb, Nat.not_le.mpr hlt]
    · rw [hdrop, expandRuns]
      apply splitLiteral_succ hlt hb
      exact ih (fun offset' s h => hnext offset' s (Nat.lt_of_succ_lt h)) hlt hlt'

/-- The loop over runs splits the bytes that they stand for. -/
theorem splitRuns_eq {fuel offset : ℕ} (hfuel : f.datlen ≤ offset + fuel) (hdatlen : offset ≤ f.datlen)
    (hlength : offset ≤ p.length) (s : DecodeState) :
    splitRuns f linelen p fuel offset s =
      splitExpanded f linelen (f.datlen ≤ p.length) (expandRuns .start ((p.take f.datlen).drop offset)) s := by
  induction fuel generalizing offset s with
  | zero =>
    have hend : offset = f.datlen := Nat.le_antisymm hdatlen hfuel
    have hwhole : f.datlen ≤ p.length := hend ▸ hlength
    simp [splitRuns, hend, expandRuns, splitExpanded_nil, hwhole]
  | succ fuel ih =>
    obtain ⟨hend, hwhole, hdrop⟩ | ⟨hlt, hb, hwhole, hdrop⟩ | ⟨b, hlt, hlt', hb, hdrop⟩ := data_cases hdatlen hlength
    · simp [splitRuns, expandRuns, splitExpanded_nil, hwhole, hend]
    · simp [splitRuns, hdrop, expandRuns, splitExpanded_nil, hwhole, hb, hlt]
    · rw [splitRuns, if_pos hlt, hb, hdrop, expandRuns, Option.bind_eq_bind, Option.bind_some]
      by_cases hrun : b ≥ 0x80
      · have hcount : 0x100 - b.toNat = 0xff - b.toNat + 1 := by
          have := b.toNat_lt
          omega
        simp only [if_pos hrun, hcount]
        exact splitLiteral_eq (fun offset' s h hle hle' => ih (by omega) hle hle' s) hlt hlt' s
      · have hnext : offset + 1 ≤ f.datlen := hlt
        simp only [if_neg hrun]
        obtain ⟨hend, hwhole, hdrop'⟩ | ⟨hlt₂, hb2, hwhole, hdrop'⟩ | ⟨b2, hlt₂, hlt₂', hb2, hdrop'⟩ :=
          data_cases hnext hlt'
        · simp [hdrop', expandRuns, splitExpanded_nil, hwhole, hend.ge]
        · simp [hdrop', expandRuns, splitExpanded_nil, hwhole, hb2, Nat.not_le.mpr hlt₂]
        · rw [if_neg (Nat.not_le.mpr hlt₂), hb2, hdrop', expandRuns, splitExpanded_replicate, Option.bind_some]
          by_cases hmore : (s.splitRun f linelen b2 (b.toNat + 1)).1 = true
          · simp only [if_pos hmore]
            exact ih (by omega) hlt₂ hlt₂' _
          · simp only [if_neg hmore]
            rfl

/-! ### Both forms of the data -/

/-- Data without run lengths. -/
theorem splitDataInt_plain (h : f.RLEflag = 0) (s : DecodeState) :
    splitDataInt f p s =
      splitExpanded f (f.datlen / f.yPixels) (f.datlen ≤ (f.data p).length) (f.data p, true) s := by
  rw [splitDataInt, if_neg (not_not_intro h), splitBytesInt_eq (by decide)]
  rfl

/-- Data with run lengths that can be counted. -/
theorem splitDataInt_runs (h : f.RLEflag ≠ 0) {i : ℕ} (hi : CountsRuns f.datlen p 0 0 i) (s : DecodeState) :
    splitDataInt f p s =
      splitExpanded f (i / f.yPixels) (f.datlen ≤ (f.data p).length) (expandRuns .start (f.data p)) s := by
  have hint : f.datlen < 2 ^ 31 := hi.datlen_lt (by decide)
  have hdata : f.data p = p.take f.datlen := by rw [Format.data, Nat.min_eq_left (by omega)]
  have hcount : countRunsInt f p f.datlen 0 0 = some i := (countRunsInt_iff (Nat.zero_add _).ge).mpr hi
  have hwhole : f.datlen ≤ (p.take f.datlen).length ↔ f.datlen ≤ p.length := by
    rw [List.length_take, Nat.le_min]
    exact and_iff_right le_rfl
  rw [splitDataInt, if_pos h, hcount, Option.bind_eq_bind, Option.bind_some,
    splitRuns_eq (Nat.zero_add _).ge (Nat.zero_le _) (Nat.zero_le _), hdata, List.drop_zero]
  simp only [hwhole]

/-- Data with run lengths that cannot be counted. -/
theorem splitDataInt_none (h : f.RLEflag ≠ 0) (hi : ∀ i, ¬CountsRuns f.datlen p 0 0 i) (s : DecodeState) :
    splitDataInt f p s = none := by
  have hcount : countRunsInt f p f.datlen 0 0 = none := by
    rw [Option.eq_none_iff_forall_ne_some]
    exact fun i heq => hi i ((countRunsInt_iff (Nat.zero_add _).ge).mp heq)
  rw [splitDataInt, if_pos h, hcount]
  rfl

end DecodeState

/-! ### Encoding bytes as runs -/

/-- A run: up to 128 bytes, or up to 128 copies of a byte. -/
inductive Run
  | literal (bytes : List UInt8) (pos : 0 < bytes.length) (short : bytes.length ≤ 128)
  | copies (more : Fin 128) (b2 : UInt8)

namespace Run

/-- The bytes that a run stands for. -/
def raw : Run → List UInt8
  | literal bytes _ _ => bytes
  | copies more b2 => List.replicate (more + 1) b2

/-- The first byte of a run. -/
def head : Run → UInt8
  | literal bytes _ _ => UInt8.ofNat (0x100 - bytes.length)
  | copies more _ => UInt8.ofNat more

/-- A run in the data. -/
def encoded : Run → List UInt8
  | r@(literal bytes _ _) => r.head :: bytes
  | r@(copies _ b2) => [r.head, b2]

/-- The head of a literal run tells its length. -/
theorem toNat_head_literal {bytes : List UInt8} (pos : 0 < bytes.length) (short : bytes.length ≤ 128) :
    (literal bytes pos short).head.toNat = 0x100 - bytes.length :=
  UInt8.toNat_ofNat_of_lt' (Nat.sub_lt (by decide) pos)

/-- The head of a run of copies tells how many. -/
theorem toNat_head_copies (more : Fin 128) (b2 : UInt8) : (copies more b2).head.toNat = more :=
  UInt8.toNat_ofNat_of_lt' (Nat.lt_trans more.isLt (by decide))

/-- The head of a literal run has its high bit set. -/
theorem head_literal {bytes : List UInt8} (pos : 0 < bytes.length) (short : bytes.length ≤ 128) :
    (literal bytes pos short).head ≥ 0x80 := by
  rw [ge_iff_le, UInt8.le_iff_toNat_le, toNat_head_literal]
  exact Nat.le_sub_of_add_le (Nat.add_le_add_left short 128)

/-- The head of a run of copies has not. -/
theorem head_copies (more : Fin 128) (b2 : UInt8) : ¬(copies more b2).head ≥ 0x80 := by
  rw [ge_iff_le, UInt8.le_iff_toNat_le, toNat_head_copies]
  exact Nat.not_le.mpr more.isLt

/-- The width that the head tells is that of the run. -/
theorem runWidth_head (r : Run) : runWidth r.head = r.encoded.length := by
  cases r with
  | literal bytes pos short =>
    rw [runWidth, if_pos (head_literal pos short), toNat_head_literal, encoded, List.length_cons]
    omega
  | copies more b2 =>
    rw [runWidth, if_neg (head_copies more b2)]
    rfl

/-- The count that the head tells is that of the run. -/
theorem runCount_head (r : Run) : runCount r.head = r.raw.length := by
  cases r with
  | literal bytes pos short =>
    rw [runCount, if_pos (head_literal pos short), toNat_head_literal, raw]
    omega
  | copies more b2 =>
    rw [runCount, if_neg (head_copies more b2), toNat_head_copies, raw, List.length_replicate]

/-- A run begins with its head. -/
theorem encoded_eq (r : Run) : ∃ data, r.encoded = r.head :: data := by
  cases r with
  | literal bytes => exact ⟨bytes, rfl⟩
  | copies more b2 => exact ⟨[b2], rfl⟩

/-- The bytes of a literal run that is not finished. -/
theorem expandRuns_literal {more : ℕ} {bytes : List UInt8} (h : bytes.length = more + 1) (data : List UInt8) :
    expandRuns (.literal more) (bytes ++ data) =
      (bytes ++ (expandRuns .start data).1, (expandRuns .start data).2) := by
  induction more generalizing bytes with
  | zero =>
    obtain ⟨b, rfl⟩ := List.length_eq_one_iff.mp h
    rfl
  | succ more ih =>
    obtain ⟨b, bytes, rfl⟩ := List.exists_cons_of_length_eq_add_one h
    rw [List.cons_append, expandRuns, ih (Nat.succ.inj h)]
    rfl

/-- A run and what follows it. -/
theorem expandRuns_encoded (r : Run) (data : List UInt8) :
    expandRuns .start (r.encoded ++ data) = (r.raw ++ (expandRuns .start data).1, (expandRuns .start data).2) := by
  cases r with
  | literal bytes pos short =>
    have hmore : bytes.length = 0xff - (literal bytes pos short).head.toNat + 1 := by
      rw [toNat_head_literal]
      omega
    rw [encoded, List.cons_append, expandRuns, if_pos (head_literal pos short), expandRuns_literal hmore]
    rfl
  | copies more b2 =>
    rw [encoded, List.cons_append, expandRuns, if_neg (head_copies more b2), toNat_head_copies]
    rfl

/-- All runs of some data. -/
theorem expandRuns_flatMap (runs : List Run) :
    expandRuns .start (runs.flatMap encoded) = (runs.flatMap raw, true) := by
  induction runs with
  | nil => rfl
  | cons r runs ih => rw [List.flatMap_cons, expandRuns_encoded, ih, List.flatMap_cons]

/-- The bytes that runs behind others stand for are counted. -/
theorem countsRuns (runs : List Run) {before : List UInt8} {i : ℕ}
    (hencoded : before.length + (runs.flatMap encoded).length < 2 ^ 31)
    (hraw : i + (runs.flatMap raw).length < 2 ^ 31) :
    CountsRuns (before ++ runs.flatMap encoded).length (before ++ runs.flatMap encoded) before.length i
      (i + (runs.flatMap raw).length) := by
  induction runs generalizing before i with
  | nil => exact .done (by simp)
  | cons r runs ih =>
    obtain ⟨data, hdata⟩ := r.encoded_eq
    have hpos : 0 < r.encoded.length := by
      rw [hdata]
      exact Nat.succ_pos _
    simp only [List.flatMap_cons, List.length_append, ← Nat.add_assoc] at hencoded hraw ⊢
    have hbefore : (before ++ r.encoded).length + (runs.flatMap encoded).length < 2 ^ 31 := by
      rwa [List.length_append]
    have hrest := ih hbefore hraw
    rw [List.append_assoc, List.length_append, List.length_append, List.length_append, ← Nat.add_assoc] at hrest
    apply CountsRuns.run (by omega) (b := r.head)
    · rw [hdata]
      simp
    · rw [runWidth_head]
      omega
    · rw [runCount_head]
      omega
    · rwa [runWidth_head, runCount_head]

end Run

/-! ### Runs do not matter -/

namespace DecodeState

variable {linelen : ℕ}

/-- Splitting depends on the numbers of the picture only. -/
theorem splitPixels_data (datlen RLEflag left j v : ℕ) (s : DecodeState) :
    splitPixels { f with datlen := datlen, RLEflag := RLEflag } left j v s = splitPixels f left j v s := by
  induction left generalizing j v s with
  | zero => rfl
  | succ left ih =>
    rw [splitPixels, splitPixels, ih]
    exact if_congr Iff.rfl rfl (if_congr Iff.rfl rfl rfl)

/-- The length and the flag in the header make no difference to plain data. -/
theorem splitAll_data (datlen RLEflag : ℕ) (bytes : List UInt8) (s : DecodeState) :
    splitAll { f with datlen := datlen, RLEflag := RLEflag } linelen bytes s = splitAll f linelen bytes s := by
  have hbyte (b : UInt8) (s : DecodeState) :
      splitByte { f with datlen := datlen, RLEflag := RLEflag } linelen b s = splitByte f linelen b s := by
    have hcolumns : Format.bytesPerLine { f with datlen := datlen, RLEflag := RLEflag } = f.bytesPerLine := rfl
    have hcount : Format.pixelsPerByte { f with datlen := datlen, RLEflag := RLEflag } = f.pixelsPerByte := rfl
    simp only [splitByte, splitPixels_data, hcolumns, hcount]
  induction bytes generalizing s with
  | nil => rfl
  | cons b bytes ih => simp only [splitAll, hbyte, ih]

/-- Nor to what is expanded. -/
theorem splitExpanded_data (datlen RLEflag : ℕ) (whole : Bool) (e : List UInt8 × Bool) (s : DecodeState) :
    splitExpanded { f with datlen := datlen, RLEflag := RLEflag } linelen whole e s =
      splitExpanded f linelen whole e s := by
  rw [splitExpanded, splitExpanded, splitAll_data]

/-- Bytes whose pixels fit into the picture. -/
theorem splitExpanded_fits (hf : f.Valid) (whole : Bool) (e : List UInt8 × Bool) (out : List UInt8)
    (hroom : f.pixelsBefore linelen e.1.length ≤ f.picsize) :
    splitExpanded f linelen whole e ⟨0, 0, out⟩ =
      if whole then some (e.2, ⟨f.pixelsBefore linelen e.1.length, e.1.length % max linelen 1,
        out ++ f.pixels linelen e.1⟩)
      else none := by
  have hall := @splitAll_start f linelen hf e.1 out
  simp only [if_pos hroom] at hall
  rw [splitExpanded, if_pos hall.1, ← hall.2.oidx, ← hall.2.x, ← hall.2.out]

/-- Bytes with too many pixels. -/
theorem splitExpanded_full (hf : f.Valid) (whole : Bool) (e : List UInt8 × Bool) (out : List UInt8)
    (hroom : ¬f.pixelsBefore linelen e.1.length ≤ f.picsize) :
    ∃ s, splitExpanded f linelen whole e ⟨0, 0, out⟩ = some (false, s) ∧ s.oidx = f.picsize := by
  have hall := @splitAll_start f linelen hf e.1 out
  simp only [if_neg hroom] at hall
  refine ⟨(splitAll f linelen e.1 ⟨0, 0, out⟩).2, ?_, hall.2⟩
  rw [splitExpanded, if_neg (by rw [hall.1]; decide), ← hall.1]

/-- The loop ends with true only when all pixels fit. -/
theorem splitExpanded_ok (hf : f.Valid) {whole : Bool} {e : List UInt8 × Bool} {out : List UInt8} {s : DecodeState}
    (h : splitExpanded f linelen whole e ⟨0, 0, out⟩ = some (true, s)) :
    whole = true ∧ s.oidx = f.pixelsBefore linelen e.1.length ∧ s.out = out ++ f.pixels linelen e.1 := by
  by_cases hroom : f.pixelsBefore linelen e.1.length ≤ f.picsize
  · rw [splitExpanded_fits hf whole e out hroom, Option.ite_none_right_eq_some] at h
    obtain ⟨hwhole, h⟩ := h
    obtain rfl := congrArg Prod.snd (Option.some.inj h)
    exact ⟨hwhole, rfl, rfl⟩
  · obtain ⟨s', hs', -⟩ := splitExpanded_full hf whole e out hroom
    cases hs'.symm.trans h

end DecodeState

/-- What is decoded, once the header is read. -/
theorem decodeBitmapInt_eq {out : List UInt8} (hf : readFormat p = some f) :
    decodeBitmapInt p out =
      if f.bitsPerPixel = 0 ∨ 8 < f.bitsPerPixel ∨ f.yPixels = 0 then none
      else (DecodeState.splitDataInt f (p.drop 40) ⟨0, 0, out⟩).bind fun r =>
        if r.2.oidx < 2 ^ 31 then some ⟨r.1, int32 f.xPixels, int32 f.yPixels, r.2.out⟩ else none := by
  rw [decodeBitmapInt, hf]
  simp only [Option.bind_eq_bind, Option.bind_some]
  rfl

/-- Data that are all there. -/
theorem Format.data_eq (hdatlen : f.datlen = p.length) (hint : p.length < 2 ^ 31) : f.data p = p := by
  rw [Format.data, List.take_of_length_le]
  omega

/-- An image is decoded alike from its bytes and from any runs that stand for these. -/
theorem decodeBitmapInt_runs (h : BitmapHeader) (runs : List Run) {totlen totlen' RLEflag : UInt32}
    (hRLE : RLEflag ≠ 0) (hencoded : (runs.flatMap Run.encoded).length < 2 ^ 31)
    (hraw : (runs.flatMap Run.raw).length < 2 ^ 31)
    (htotlen : (totlen - h.hdrlen).toNat = (runs.flatMap Run.encoded).length)
    (htotlen' : (totlen' - h.hdrlen).toNat = (runs.flatMap Run.raw).length) (out : List UInt8) :
    decodeBitmapInt ({ h with totlen := totlen, RLEflag := RLEflag }.bytes ++ runs.flatMap Run.encoded) out =
        decodeBitmapInt ({ h with totlen := totlen', RLEflag := 0 }.bytes ++ runs.flatMap Run.raw) out ∧
      (1 ≤ h.yPixels → h.bitsPerPixel ∈ [1, 2, 4, 8] → h.xPixels.toNat * h.yPixels.toNat < 2 ^ 31 →
        ∃ d, decodeBitmapInt ({ h with totlen := totlen', RLEflag := 0 }.bytes ++ runs.flatMap Run.raw) out = some d) := by
  generalize hplain : ({ h with totlen := totlen', RLEflag := 0 } : BitmapHeader).format = g
  have hform : ({ h with totlen := totlen, RLEflag := RLEflag } : BitmapHeader).format =
      { g with datlen := (runs.flatMap Run.encoded).length, RLEflag := RLEflag.toNat } := by
    rw [← hplain, BitmapHeader.format, htotlen]
    rfl
  have hlength : g.datlen = (runs.flatMap Run.raw).length := by rw [← hplain, ← htotlen']; rfl
  have hzero : g.RLEflag = 0 := by rw [← hplain]; rfl
  have hnonzero : RLEflag.toNat ≠ 0 := fun hzero => hRLE (UInt32.toNat_inj.mp hzero)
  have hcounts : CountsRuns (runs.flatMap Run.encoded).length (runs.flatMap Run.encoded) 0 0
      (runs.flatMap Run.raw).length := by
    simpa using @Run.countsRuns runs [] 0 (by simpa using hencoded) (by simpa using hraw)
  have hdata : g.data (runs.flatMap Run.raw) = runs.flatMap Run.raw := Format.data_eq hlength hraw
  have hsplit : DecodeState.splitDataInt
      { g with datlen := (runs.flatMap Run.encoded).length, RLEflag := RLEflag.toNat }
        (runs.flatMap Run.encoded) ⟨0, 0, out⟩ =
      DecodeState.splitDataInt g (runs.flatMap Run.raw) ⟨0, 0, out⟩ := by
    rw [DecodeState.splitDataInt_runs hnonzero hcounts, DecodeState.splitDataInt_plain hzero,
      DecodeState.splitExpanded_data, Format.data_eq rfl hencoded, hdata, Run.expandRuns_flatMap, hlength]
    simp only [le_refl]
  constructor
  · rw [decodeBitmapInt_eq (BitmapHeader.readFormat_bytes _ _), decodeBitmapInt_eq (BitmapHeader.readFormat_bytes _ _),
      hform, hplain, BitmapHeader.drop_bytes, BitmapHeader.drop_bytes, hsplit]
  · intro hy hbits hsize
    have hbits' : 1 ≤ g.bitsPerPixel ∧ g.bitsPerPixel ≤ 8 := by
      rw [← hplain]
      simp only [List.mem_cons, List.not_mem_nil, or_false] at hbits
      obtain hbits | hbits | hbits | hbits := hbits <;> simp [BitmapHeader.format, hbits]
    have hvalid : g.Valid := ⟨hbits'.1, hbits'.2, by rw [← hplain]; exact h.xPixels.toNat_lt⟩
    have hy' : 1 ≤ g.yPixels := by
      rw [← hplain]
      exact UInt32.le_iff_toNat_le.mp hy
    have hpicsize : g.picsize < 2 ^ 31 := by
      have huint : g.picsize = uint32 (h.xPixels.toNat * h.yPixels.toNat : ℕ) := by
        rw [← hplain, Nat.cast_mul]
        rfl
      rwa [huint, uint32_natCast hsize]
    have hgood : ¬(g.bitsPerPixel = 0 ∨ 8 < g.bitsPerPixel ∨ g.yPixels = 0) := by omega
    rw [decodeBitmapInt_eq (BitmapHeader.readFormat_bytes _ _), hplain, if_neg hgood, BitmapHeader.drop_bytes,
      DecodeState.splitDataInt_plain hzero, hdata, hlength]
    simp only [le_refl, decide_true]
    by_cases hroom : g.pixelsBefore ((runs.flatMap Run.raw).length / g.yPixels) (runs.flatMap Run.raw).length ≤ g.picsize
    · rw [DecodeState.splitExpanded_fits hvalid true (runs.flatMap Run.raw, true) out hroom, if_pos rfl, Option.bind_some,
        if_pos (Nat.lt_of_le_of_lt hroom hpicsize)]
      exact ⟨_, rfl⟩
    · obtain ⟨s, hs, hoidx⟩ := DecodeState.splitExpanded_full hvalid true (runs.flatMap Run.raw, true) out hroom
      rw [hs, Option.bind_some, if_pos (Nat.lt_of_le_of_lt hoidx.le hpicsize)]
      exact ⟨_, rfl⟩

/-- Two rows of three pixels of eight bits, as bytes and as a literal run and copies that cross the
end of the first row. -/
theorem decodeBitmapInt_runs_three :
    let h : BitmapHeader := ⟨0, 40, 3, 2, 0, 0, 8, 0, 0, 0⟩
    let runs : List Run := [.literal [1, 2] (by decide) (by decide), .copies 3 7]
    decodeBitmapInt ({ h with totlen := 45, RLEflag := 1 }.bytes ++ runs.flatMap Run.encoded) [] =
        decodeBitmapInt ({ h with totlen := 46, RLEflag := 0 }.bytes ++ runs.flatMap Run.raw) [] ∧
      (1 ≤ h.yPixels → h.bitsPerPixel ∈ [1, 2, 4, 8] → h.xPixels.toNat * h.yPixels.toNat < 2 ^ 31 →
        ∃ d, decodeBitmapInt ({ h with totlen := 46, RLEflag := 0 }.bytes ++ runs.flatMap Run.raw) [] = some d) :=
  decodeBitmapInt_runs ⟨0, 40, 3, 2, 0, 0, 8, 0, 0, 0⟩
    [.literal [1, 2] (by decide) (by decide), .copies 3 7] (by decide) (by decide) (by decide) (by decide)
    (by decide) []

end Plptools
