import Mathlib.Data.BitVec
import Mathlib.Data.Nat.Bitwise
import Mathlib.Logic.Function.Iterate

/-!
# Checksums of a feedback shift register

A register of `w` bits is shifted to the left for each bit of a message, most significant bit first, and
a polynomial is added when the bit that leaves the register differs from that of the message. The step is
linear, and when the polynomial is odd no two registers become the same, so a message is told apart from
any other that differs from it within `w` consecutive bits. A table of the registers that the bytes lead
to advances the register by eight bits at once.
-/

namespace Plptools.Library.ShiftRegister

variable {w : ℕ} (poly : BitVec w)

/-- Shift out one bit. -/
def shift (r : BitVec w) : BitVec w := (r <<< 1) ^^^ (if r.msb then poly else 0#w)

/-- Take in one bit of the message. -/
def feedBit (r : BitVec w) (b : Bool) : BitVec w := (r <<< 1) ^^^ (if r.msb ^^ b then poly else 0#w)

/-- Take in a message. -/
def feed (r : BitVec w) (bits : List Bool) : BitVec w := bits.foldl (feedBit poly) r

/-- A bit at the most significant place. -/
def top (w : ℕ) (b : Bool) : BitVec w := if b then BitVec.twoPow w (w - 1) else 0#w

/-- Bits from the most significant place on. -/
def place (w : ℕ) : List Bool → BitVec w
  | [] => 0#w
  | b :: rest => top w b ^^^ (place w rest >>> 1)

/-- No bits. -/
@[simp] theorem feed_nil (r : BitVec w) : feed poly r [] = r := rfl

/-- The first bit. -/
@[simp] theorem feed_cons (r : BitVec w) (b : Bool) (rest : List Bool) :
    feed poly r (b :: rest) = feed poly (feedBit poly r b) rest := rfl

/-- Bits one behind the other. -/
theorem feed_append (r : BitVec w) (first rest : List Bool) :
    feed poly r (first ++ rest) = feed poly (feed poly r first) rest :=
  List.foldl_append

/-! ## The step is linear -/

/-- Exclusive sums can be reordered. -/
theorem xor_xor_xor_comm (a b c d : BitVec w) : (a ^^^ b) ^^^ (c ^^^ d) = (a ^^^ c) ^^^ (b ^^^ d) := by
  ac_rfl

/-- What is added to the register depends on the bit linearly. -/
theorem ite_bne (a b : Bool) :
    (if a ^^ b then poly else 0#w) = (if a then poly else 0#w) ^^^ (if b then poly else 0#w) := by
  cases a <;> cases b <;> simp

/-- An empty register stays empty. -/
@[simp] theorem shift_zero : shift poly 0#w = 0#w := by simp [shift]

/-- Shifting is linear. -/
theorem shift_xor (r s : BitVec w) : shift poly (r ^^^ s) = shift poly r ^^^ shift poly s := by
  unfold shift
  rw [BitVec.shiftLeft_xor_distrib, BitVec.msb_xor, ite_bne, xor_xor_xor_comm]

/-- An empty register stays empty. -/
theorem iterate_shift_zero (n : ℕ) : (shift poly)^[n] 0#w = 0#w :=
  Function.iterate_fixed (shift_zero poly) n

/-- Shifting several times is linear. -/
theorem iterate_shift_xor (n : ℕ) (r s : BitVec w) :
    (shift poly)^[n] (r ^^^ s) = (shift poly)^[n] r ^^^ (shift poly)^[n] s := by
  induction n generalizing r s with
  | zero => rfl
  | succ n ih => rw [Function.iterate_succ_apply, shift_xor, ih, ← Function.iterate_succ_apply,
      ← Function.iterate_succ_apply]

/-- Feeding is linear. -/
theorem feedBit_xor (r s : BitVec w) (a b : Bool) :
    feedBit poly (r ^^^ s) (a ^^ b) = feedBit poly r a ^^^ feedBit poly s b := by
  have hbit : ((r.msb ^^ s.msb) ^^ (a ^^ b)) = ((r.msb ^^ a) ^^ (s.msb ^^ b)) := by
    cases r.msb <;> cases s.msb <;> cases a <;> cases b <;> rfl
  unfold feedBit
  rw [BitVec.shiftLeft_xor_distrib, BitVec.msb_xor, hbit, ite_bne, xor_xor_xor_comm]

/-- The difference of two messages of one length leads to the difference of their registers. -/
theorem feed_xor {as bs : List Bool} (hlength : as.length = bs.length) (r s : BitVec w) :
    feed poly (r ^^^ s) (List.zipWith (· ^^ ·) as bs) = feed poly r as ^^^ feed poly s bs := by
  induction as generalizing bs r s with
  | nil =>
    rw [List.length_eq_zero_iff.mp hlength.symm]
    rfl
  | cons a as ih =>
    cases bs with
    | nil => cases hlength
    | cons b bs =>
      rw [List.zipWith_cons_cons, feed_cons, feedBit_xor, ih (Nat.succ.inj hlength)]
      rfl

/-- Bits that are zero only shift the register. -/
theorem feed_of_zeros {bits : List Bool} (h : ∀ b ∈ bits, b = false) (r : BitVec w) :
    feed poly r bits = (shift poly)^[bits.length] r := by
  induction bits generalizing r with
  | nil => rfl
  | cons b rest ih =>
    have hb : feedBit poly r b = shift poly r := by
      rw [h b List.mem_cons_self, feedBit, Bool.xor_false]
      rfl
    rw [feed_cons, hb, ih fun c hc => h c (List.mem_cons_of_mem _ hc)]
    rfl

/-! ## Bits that are placed in the register -/

/-- Only the highest bit is set. -/
theorem getMsbD_top (b : Bool) {i : ℕ} (hi : i < w) : (top w b).getMsbD i = (decide (i = 0) && b) := by
  unfold top
  cases b with
  | false => simp
  | true =>
    have hlast : w - 1 < w := by omega
    have hplace : w - (w - 1) - 1 = 0 := by omega
    simp [hlast, hplace]

/-- The bits that are placed stand in the register from its most significant place on. -/
theorem getMsbD_place (bits : List Bool) {i : ℕ} (hi : i < w) :
    (place w bits).getMsbD i = bits.getD i false := by
  induction bits generalizing i with
  | nil => simp [place]
  | cons b rest ih =>
    rw [place, BitVec.getMsbD_xor, getMsbD_top b hi, BitVec.getMsbD_ushiftRight]
    cases i with
    | zero => simp
    | succ i => simp [ih (by omega : i < w), hi]

/-- Bits are lost only behind the register. -/
theorem eq_false_of_place_eq_zero {bits : List Bool} (hlength : bits.length ≤ w) (h : place w bits = 0#w)
    {b : Bool} (hb : b ∈ bits) : b = false := by
  obtain ⟨i, hi, rfl⟩ := List.getElem_of_mem hb
  have hplace := getMsbD_place (w := w) bits (Nat.lt_of_lt_of_le hi hlength)
  rw [h, BitVec.getMsbD_zero, List.getD_eq_getElem?_getD, List.getElem?_eq_getElem hi,
    Option.getD_some] at hplace
  exact hplace.symm

/-- A bit is taken in as if it had been added to the register before. -/
theorem feedBit_eq_shift (hw : 0 < w) (r : BitVec w) (b : Bool) :
    feedBit poly r b = shift poly (r ^^^ top w b) := by
  have hmsb : (top w b).msb = b := by
    rw [BitVec.msb_eq_getMsbD_zero, getMsbD_top b hw]
    rfl
  have hshift : top w b <<< 1 = 0#w := by
    apply BitVec.eq_of_getMsbD_eq
    intro i hi
    rw [BitVec.getMsbD_shiftLeft]
    by_cases hnext : i + 1 < w
    · rw [getMsbD_top b hnext]
      simp
    · rw [BitVec.getMsbD_of_ge _ _ (by omega)]
      simp
  unfold feedBit shift
  rw [BitVec.shiftLeft_xor_distrib, BitVec.msb_xor, hmsb, hshift, BitVec.xor_zero]

/-- A register whose last bit is zero comes from the one that holds its bits a place further. -/
theorem shift_ushiftRight {r : BitVec w} (hlast : r.getMsbD (w - 1) = false) : shift poly (r >>> 1) = r := by
  have hmsb : (r >>> 1).msb = false := by
    rw [BitVec.msb_eq_getMsbD_zero, BitVec.getMsbD_ushiftRight]
    simp
  unfold shift
  rw [hmsb, if_neg Bool.false_ne_true, BitVec.xor_zero]
  apply BitVec.eq_of_getMsbD_eq
  intro i hi
  rw [BitVec.getMsbD_shiftLeft, BitVec.getMsbD_ushiftRight]
  by_cases hnext : i + 1 < w
  · simp [hnext]
  · have hi : i = w - 1 := by omega
    simp [hi, hlast]

/-- As many bits as the register holds are taken in at once. -/
theorem feed_eq_iterate {bits : List Bool} (hlength : bits.length ≤ w) (r : BitVec w) :
    feed poly r bits = (shift poly)^[bits.length] (r ^^^ place w bits) := by
  induction bits generalizing r with
  | nil => simp [place]
  | cons b rest ih =>
    rw [List.length_cons] at hlength
    have hlast : (place w rest).getMsbD (w - 1) = false := by
      rw [getMsbD_place rest (by omega), List.getD_eq_getElem?_getD, List.getElem?_eq_none (by omega),
        Option.getD_none]
    rw [feed_cons, ih (by omega), feedBit_eq_shift poly (by omega), List.length_cons,
      Function.iterate_succ_apply, place, ← BitVec.xor_assoc, shift_xor poly (r ^^^ top w b),
      shift_ushiftRight poly hlast]

/-! ## An odd polynomial -/

/-- Only the empty register becomes empty. -/
theorem eq_zero_of_shift_eq_zero (hodd : poly.getLsbD 0 = true) {r : BitVec w} (h : shift poly r = 0#w) :
    r = 0#w := by
  have hw : 0 < w := BitVec.lt_of_getLsbD hodd
  have hmsb : r.msb = false := by
    by_contra hset
    have hfirst := congrArg (fun r => BitVec.getLsbD r 0) h
    simp [shift, Bool.eq_true_of_not_eq_false hset, hodd, BitVec.getLsbD_shiftLeft] at hfirst
  apply BitVec.eq_of_getMsbD_eq
  intro i hi
  rw [BitVec.getMsbD_zero]
  cases i with
  | zero => rw [← BitVec.msb_eq_getMsbD_zero, hmsb]
  | succ i =>
    have hplace := congrArg (fun r => BitVec.getMsbD r i) h
    simpa [shift, hmsb, BitVec.getMsbD_shiftLeft, Nat.lt_of_succ_lt hi, Nat.add_comm] using hplace

/-- No other register is shifted to the empty one. -/
theorem eq_zero_of_iterate_shift_eq_zero (hodd : poly.getLsbD 0 = true) (n : ℕ) {r : BitVec w}
    (h : (shift poly)^[n] r = 0#w) : r = 0#w := by
  induction n generalizing r with
  | zero => exact h
  | succ n ih => exact eq_zero_of_shift_eq_zero poly hodd (ih h)

/-- The difference of two messages is zero where they agree. -/
theorem eq_false_of_agree {as bs : List Bool} {b : Bool} {j : ℕ}
    (h : (List.zipWith (· ^^ ·) as bs)[j]? = some b) (hagree : as[j]? = bs[j]?) : b = false := by
  rw [List.getElem?_zipWith, hagree] at h
  cases hb : bs[j]? with
  | none =>
    rw [hb] at h
    cases h
  | some c =>
    rw [hb] at h
    exact (Option.some.inj h).symm.trans (Bool.xor_self c)

/-- Two messages without a difference are the same. -/
theorem eq_of_zipWith_zeros {as bs : List Bool} (hlength : as.length = bs.length)
    (h : ∀ b ∈ List.zipWith (· ^^ ·) as bs, b = false) : as = bs := by
  induction as generalizing bs with
  | nil => exact (List.length_eq_zero_iff.mp hlength.symm).symm
  | cons a as ih =>
    cases bs with
    | nil => cases hlength
    | cons b bs =>
      have hfirst : a = b := by simpa using h (a ^^ b) List.mem_cons_self
      rw [hfirst, ih (Nat.succ.inj hlength) fun c hc => h c (List.mem_cons_of_mem _ hc)]

/-- A message that leads from the empty register to the empty register and that is zero outside of `w`
consecutive bits is zero. -/
theorem zeros_of_feed_eq_zero (hodd : poly.getLsbD 0 = true) {bits : List Bool} {i : ℕ}
    (hbefore : ∀ b ∈ bits.take i, b = false) (hafter : ∀ b ∈ (bits.drop i).drop w, b = false)
    (h : feed poly 0#w bits = 0#w) : ∀ b ∈ bits, b = false := by
  have hsplit : bits = bits.take i ++ ((bits.drop i).take w ++ (bits.drop i).drop w) := by
    rw [List.take_append_drop, List.take_append_drop]
  have hlength : ((bits.drop i).take w).length ≤ w := List.length_take_le _ _
  rw [hsplit, feed_append, feed_of_zeros poly hbefore, iterate_shift_zero, feed_append,
    feed_of_zeros poly hafter, feed_eq_iterate poly hlength, BitVec.zero_xor] at h
  have hplace := eq_zero_of_iterate_shift_eq_zero poly hodd _ (eq_zero_of_iterate_shift_eq_zero poly hodd _ h)
  intro b hb
  rw [hsplit, List.mem_append, List.mem_append] at hb
  rcases hb with hb | hb | hb
  · exact hbefore b hb
  · exact eq_false_of_place_eq_zero hlength hplace hb
  · exact hafter b hb

/-- Two messages of one length that differ, but only within `w` consecutive bits, lead to different
registers. -/
theorem feed_ne_of_burst (hodd : poly.getLsbD 0 = true) {as bs : List Bool}
    (hlength : as.length = bs.length) (hne : as ≠ bs) {i : ℕ}
    (hburst : ∀ j, as[j]? ≠ bs[j]? → i ≤ j ∧ j < i + w) (r : BitVec w) :
    feed poly r as ≠ feed poly r bs := by
  intro hsame
  have hzero : feed poly 0#w (List.zipWith (· ^^ ·) as bs) = 0#w := by
    have hxor := feed_xor poly hlength r r
    rwa [BitVec.xor_self, hsame, BitVec.xor_self] at hxor
  refine hne (eq_of_zipWith_zeros hlength (zeros_of_feed_eq_zero poly hodd (i := i) ?_ ?_ hzero))
  · intro b hb
    obtain ⟨j, hj, rfl⟩ := List.mem_take_iff_getElem.mp hb
    refine eq_false_of_agree (List.getElem?_eq_getElem _) ?_
    by_contra hdiffer
    have hinside := hburst j hdiffer
    omega
  · intro b hb
    rw [List.drop_drop] at hb
    obtain ⟨j, hj, rfl⟩ := List.mem_drop_iff_getElem.mp hb
    refine eq_false_of_agree (List.getElem?_eq_getElem _) ?_
    by_contra hdiffer
    have hinside := hburst _ hdiffer
    omega

/-! ## Several bits at once -/

/-- The bits of a word, most significant bit first. -/
def bitsOf {n : ℕ} (c : BitVec n) : List Bool := (List.range n).map c.getMsbD

/-- The register that the word `i` of `n` bits leads to. -/
def entry (n i : ℕ) : BitVec w := (shift poly)^[n] (BitVec.ofNat w i <<< (w - n))

variable {n : ℕ}

/-- As many bits as the word has. -/
@[simp] theorem length_bitsOf (c : BitVec n) : (bitsOf c).length = n := by simp [bitsOf]

/-- A word is known by its bits. -/
theorem bitsOf_injective {c d : BitVec n} (h : bitsOf c = bitsOf d) : c = d := by
  apply BitVec.eq_of_getMsbD_eq
  intro i hi
  have hbit := congrArg (fun bits => bits.getD i false) h
  simpa [bitsOf, hi] using hbit

/-- The bits of a word are placed at the top. -/
theorem place_bitsOf (hn : n ≤ w) (c : BitVec n) : place w (bitsOf c) = c.setWidth w <<< (w - n) := by
  apply BitVec.eq_of_getMsbD_eq
  intro i hi
  have hindex : i + (w - n) + n - w = i := by omega
  rw [getMsbD_place _ hi, BitVec.getMsbD_shiftLeft, BitVec.getMsbD_setWidth, hindex]
  by_cases hin : i < n
  · simp [bitsOf, hin]
  · simp [bitsOf, hin, BitVec.getMsbD_of_ge c i (by omega)]

/-- Bits that do not reach the most significant place are only moved. -/
theorem iterate_shift_of_small {r : BitVec w} (h : ∀ i < n, r.getMsbD i = false) :
    (shift poly)^[n] r = r <<< n := by
  induction n generalizing r with
  | zero => simp
  | succ n ih =>
    have hmsb : r.msb = false := by rw [BitVec.msb_eq_getMsbD_zero, h 0 (Nat.succ_pos n)]
    have hshift : shift poly r = r <<< 1 := by
      rw [shift, hmsb, if_neg Bool.false_ne_true, BitVec.xor_zero]
    rw [Function.iterate_succ_apply, hshift, ih, ← BitVec.shiftLeft_add, Nat.add_comm]
    intro i hi
    rw [BitVec.getMsbD_shiftLeft]
    exact h (i + 1) (by omega)

/-- A word advances the register by its width, and adds the entry of the table for what leaves it. -/
theorem feed_bitsOf (hn : n ≤ w) (r : BitVec w) (c : BitVec n) :
    feed poly r (bitsOf c) = (r <<< n) ^^^ entry poly n ((r >>> (w - n)) ^^^ c.setWidth w).toNat := by
  have hlow : (shift poly)^[n] (r ^^^ (r >>> (w - n)) <<< (w - n)) = r <<< n := by
    rw [iterate_shift_of_small, BitVec.shiftLeft_xor_distrib, ← BitVec.shiftLeft_add,
      Nat.sub_add_cancel hn, BitVec.shiftLeft_eq_zero le_rfl, BitVec.xor_zero]
    intro i hi
    have hback : i + (w - n) < w := by omega
    simp [hback]
  rw [feed_eq_iterate poly (by rwa [length_bitsOf]), length_bitsOf, place_bitsOf hn, ← hlow, entry,
    BitVec.ofNat_toNat, BitVec.setWidth_eq, ← iterate_shift_xor, BitVec.shiftLeft_xor_distrib]
  congr 1
  rw [BitVec.xor_assoc, ← BitVec.xor_assoc (_ <<< _) (_ <<< _), BitVec.xor_self, BitVec.zero_xor]

/-! ## The table -/

/-- The first entry of the table is zero. -/
@[simp] theorem entry_zero : entry poly n 0 = 0#w := by simp [entry, iterate_shift_zero]

/-- An entry with an even index is an earlier one, shifted once. -/
theorem entry_double (hn : n ≤ w) {i : ℕ} (hi : 2 * i < 2 ^ n) :
    entry poly n (2 * i) = shift poly (entry poly n i) := by
  have hdouble : BitVec.ofNat w (2 * i) = BitVec.ofNat w i <<< 1 := by
    apply BitVec.eq_of_toNat_eq
    simp [Nat.shiftLeft_eq, Nat.mul_comm]
  have hmsb : (BitVec.ofNat w i <<< (w - n)).msb = false := by
    rw [BitVec.msb_eq_getMsbD_zero, BitVec.getMsbD_shiftLeft, BitVec.getMsbD_eq_getLsbD,
      BitVec.getLsbD_ofNat]
    cases n with
    | zero => simp
    | succ m =>
      rw [Nat.pow_succ] at hi
      rw [show w - 1 - (0 + (w - (m + 1))) = m by omega, Nat.testBit_lt_two_pow (by omega)]
      simp
  have hshift : shift poly (BitVec.ofNat w i <<< (w - n)) = BitVec.ofNat w (2 * i) <<< (w - n) := by
    rw [shift, hmsb, if_neg Bool.false_ne_true, BitVec.xor_zero, hdouble, ← BitVec.shiftLeft_add,
      ← BitVec.shiftLeft_add, Nat.add_comm]
  rw [entry, ← hshift, ← Function.iterate_succ_apply, Function.iterate_succ_apply']
  rfl

/-- The first entry is the polynomial. -/
theorem entry_one (hn : n ≤ w) (hpos : 0 < n) : entry poly n 1 = poly := by
  obtain ⟨m, rfl⟩ := Nat.exists_eq_succ_of_ne_zero hpos.ne'
  have hmoved : (shift poly)^[m] (1#w <<< (w - (m + 1))) = top w true := by
    rw [iterate_shift_of_small, ← BitVec.shiftLeft_add, show w - (m + 1) + m = w - 1 by omega]
    · rfl
    · intro i hi
      rw [BitVec.getMsbD_shiftLeft, BitVec.getMsbD_eq_getLsbD, BitVec.getLsbD_ofNat,
        show w - 1 - (i + (w - (m + 1))) = m - i by omega, Nat.testBit_lt_two_pow]
      · simp
      · exact Nat.one_lt_two_pow (by omega)
  have hfed := feedBit_eq_shift poly (by omega : 0 < w) 0#w true
  rw [BitVec.zero_xor] at hfed
  change (shift poly)^[m + 1] (1#w <<< (w - (m + 1))) = poly
  rw [Function.iterate_succ_apply', hmoved, ← hfed]
  simp [feedBit]

/-- An entry with an odd index is the one before with the polynomial added. -/
theorem entry_double_add_one (hn : n ≤ w) (hpos : 0 < n) (i : ℕ) :
    entry poly n (2 * i + 1) = entry poly n (2 * i) ^^^ poly := by
  have hlast : 2 * i + 1 = 2 * i ^^^ 1 := (Nat.xor_one_of_even (even_two_mul i)).symm
  have hone := entry_one poly hn hpos
  unfold entry at hone ⊢
  rw [hlast, BitVec.ofNat_xor, BitVec.shiftLeft_xor_distrib, iterate_shift_xor, hone]

end Plptools.Library.ShiftRegister
