import Mathlib.Data.Nat.Digits.Defs

/-!
# Digits packed into words

Several digits of a few bits each share a word, the first digit in the lowest bits. A word is built
by or-ing in one shifted digit after the other and taken apart by masking and shifting, which is
what `Nat.ofDigits` does with arithmetic. A row of digits is cut into groups of a fixed size, of
which only the last may be shorter.
-/

namespace Plptools.Library

/-! ### One word -/

/-- Or-ing in a digit above those that a word has. -/
theorem ofDigits_or_shiftLeft {k : ℕ} {g : List ℕ} (hk : 0 < k) (hg : ∀ d ∈ g, d < 2 ^ k) (v : ℕ) :
    Nat.ofDigits (2 ^ k) g ||| v <<< (k * g.length) = Nat.ofDigits (2 ^ k) (g ++ [v]) := by
  have hlt : Nat.ofDigits (2 ^ k) g < 2 ^ (k * g.length) := by
    rw [Nat.pow_mul]
    exact Nat.ofDigits_lt_base_pow_length (Nat.one_lt_two_pow (Nat.pos_iff_ne_zero.mp hk)) hg
  rw [Nat.or_comm, ← Nat.shiftLeft_add_eq_or_of_lt hlt, Nat.ofDigits_append, Nat.ofDigits_singleton,
    Nat.shiftLeft_eq, Nat.pow_mul]
  ring

/-- The lowest digit of a word. -/
theorem ofDigits_cons_and {k d : ℕ} (hd : d < 2 ^ k) (g : List ℕ) :
    Nat.ofDigits (2 ^ k) (d :: g) &&& (2 ^ k - 1) = d := by
  rw [Nat.and_two_pow_sub_one_eq_mod, Nat.ofDigits_cons, Nat.add_mul_mod_self_left, Nat.mod_eq_of_lt hd]

/-- The word of the other digits. -/
theorem ofDigits_cons_shiftRight {k d : ℕ} (hd : d < 2 ^ k) (g : List ℕ) :
    Nat.ofDigits (2 ^ k) (d :: g) >>> k = Nat.ofDigits (2 ^ k) g := by
  rw [Nat.shiftRight_eq_div_pow, Nat.ofDigits_cons, Nat.add_mul_div_left _ _ (Nat.two_pow_pos k),
    Nat.div_eq_of_lt hd, Nat.zero_add]

/-! ### The groups of a row -/

/-- Groups of `n` elements, the last of which may be shorter, but not empty. -/
inductive Groups {A : Type*} (n : ℕ) : List (List A) → Prop
  | nil : Groups n []
  | last {g : List A} (hpos : 0 < g.length) (hle : g.length ≤ n) : Groups n [g]
  | cons {g : List A} {gs : List (List A)} (hfull : g.length = n) (hgs : Groups n gs) : Groups n (g :: gs)

namespace Groups

variable {A : Type*} {n : ℕ} {gs : List (List A)}

/-- Full groups. -/
theorem of_full (hfull : ∀ g ∈ gs, g.length = n) : Groups n gs := by
  induction gs with
  | nil => exact .nil
  | cons g gs ih => exact .cons (hfull g List.mem_cons_self) (ih fun g hg => hfull g (List.mem_cons_of_mem _ hg))

/-- Full groups and one that may be shorter. -/
theorem snoc (hfull : ∀ g ∈ gs, g.length = n) {p : List A} (hpos : 0 < p.length) (hle : p.length ≤ n) :
    Groups n (gs ++ [p]) := by
  induction gs with
  | nil => exact .last hpos hle
  | cons g gs ih => exact .cons (hfull g List.mem_cons_self) (ih fun g hg => hfull g (List.mem_cons_of_mem _ hg))

/-- The number of groups is that of the elements over `n`, rounded up. -/
theorem length_eq (h : Groups n gs) (hn : 0 < n) : gs.length = (gs.flatten.length + n - 1) / n := by
  induction h with
  | nil =>
    symm
    apply Nat.div_eq_of_lt
    simpa using hn
  | last hpos hle =>
    symm
    apply Nat.div_eq_of_lt_le
    · simp
      omega
    · simp
      omega
  | cons hfull _ ih =>
    rw [List.length_cons, ih, List.flatten_cons, List.length_append, hfull,
      ← Nat.add_div_right _ hn]
    congr 1
    omega

end Groups

end Plptools.Library
