import Mathlib.Data.Nat.Bitwise
import Mathlib.Data.List.Induction

/-!
# Words of flags

A word whose bits are flags, and requests that set or clear some of them. What a list of requests
leaves of a flag is what the last one that mentions it says.
-/

namespace Plptools.Library

/-- `a & ~b` -/
def andNot (a b : ℕ) : ℕ := a ^^^ (a &&& b)

/-- The bits of one word that the other has not. -/
@[simp] theorem testBit_andNot (a b i : ℕ) : (andNot a b).testBit i = (a.testBit i && !b.testBit i) := by
  rw [andNot, Nat.testBit_xor, Nat.testBit_and]
  cases a.testBit i <;> cases b.testBit i <;> rfl

/-- It has no more bits than the first word. -/
theorem andNot_lt {a n : ℕ} (b : ℕ) (h : a < 2 ^ n) : andNot a b < 2 ^ n :=
  Nat.xor_lt_two_pow h (Nat.and_le_left.trans_lt h)

/-- One of the flags of `b` is set. -/
def hasFlag (a b : ℕ) : Bool := a &&& b != 0

/-- A flag of one bit is that bit. -/
theorem hasFlag_two_pow (a i : ℕ) : hasFlag a (2 ^ i) = a.testBit i := by
  rw [hasFlag, Nat.and_two_pow]
  cases a.testBit i <;> simp

/-- Two words have no bit in common if there is no such bit. -/
theorem and_eq_zero_iff {a b : ℕ} : a &&& b = 0 ↔ ∀ i, a.testBit i = true → b.testBit i = false := by
  constructor
  · intro h i ha
    have hi := congrArg (fun n => n.testBit i) h
    rw [Nat.testBit_and, ha, Nat.zero_testBit] at hi
    exact hi
  · intro h
    refine Nat.eq_of_testBit_eq fun i => ?_
    rw [Nat.testBit_and, Nat.zero_testBit]
    cases ha : a.testBit i with
    | false => rfl
    | true => exact h i ha

/-- What the last event that says something says. -/
def lastMention {E A : Type*} (mention : E → Option A) (events : List E) : Option A :=
  (events.filterMap mention).getLast?

section Mentions

variable {S E A B : Type*} {mention : E → Option A} {events : List E}

/-- The last mention is a mention. -/
theorem exists_of_lastMention {a : A} (h : lastMention mention events = some a) : ∃ e ∈ events, mention e = some a :=
  List.mem_filterMap.mp (List.mem_of_getLast? h)

/-- If something is said, there is a last one to say it. -/
theorem lastMention_isSome {e : E} {a : A} (he : e ∈ events) (ha : mention e = some a) :
    ∃ b, lastMention mention events = some b := by
  have hmem : a ∈ events.filterMap mention := List.mem_filterMap.mpr ⟨e, he, ha⟩
  exact ⟨_, List.getLast?_eq_some_getLast (List.ne_nil_of_mem hmem)⟩

/-- The last mention, made something of. -/
theorem lastMention_map (f : A → B) : lastMention (fun e => (mention e).map f) events = (lastMention mention events).map f := by
  rw [lastMention, lastMention, ← List.map_filterMap, List.getLast?_map]

/-- A later event mentions it last, or those before it. -/
theorem lastMention_concat (e : E) : lastMention mention (events ++ [e]) = (mention e).or (lastMention mention events) := by
  rw [lastMention, lastMention, List.filterMap_append]
  cases hmention : mention e with
  | none => rw [List.filterMap_cons_none hmention, List.filterMap_nil, List.append_nil, Option.none_or]
  | some a => rw [List.filterMap_cons_some hmention, List.filterMap_nil, List.getLast?_concat, Option.some_or]

/-- A flag that each step leaves as the event says, or as it was, is at the end as the last mention says,
or as it was. -/
theorem foldl_lastMention {step : S → E → S} {flag : S → A}
    (hstep : ∀ s, ∀ e ∈ events, flag (step s e) = (mention e).getD (flag s)) (s : S) :
    flag (events.foldl step s) = (lastMention mention events).getD (flag s) := by
  induction events using List.reverseRecOn with
  | nil => rfl
  | append_singleton events e ih =>
    have hlast := hstep (events.foldl step s) e (List.mem_append_right _ List.mem_cons_self)
    have hbefore := ih fun s e he => hstep s e (List.mem_append_left _ he)
    rw [List.foldl_append, List.foldl_cons, List.foldl_nil, hlast, hbefore, lastMention_concat]
    cases mention e <;> rfl

end Mentions

end Plptools.Library
