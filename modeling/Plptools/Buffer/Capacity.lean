import Plptools.Buffer.Programs
import Mathlib.Data.List.Induction
import Mathlib.Algebra.Group.Int.Defs
import Mathlib.Algebra.Group.Nat.Defs

/-!
# The capacity of a buffer

How large a store and its block are, in the integers that the members are, and which part of the block
each operation writes to. The bytes are left out. The length of a string is put into an `int`; that of
one with 2³¹ characters is negative there, and a negative count is a huge one for `memcpy`.
-/

namespace Plptools

open Plptools.Library

/-- Bytes written to a block, which is of the given size at that moment. -/
structure BlockWrite where
  pos : ℤ
  count : ℕ
  lenAllocd : ℕ
deriving DecidableEq, Repr

/-- Each of the bytes is in the block. -/
def BlockWrite.Inside (w : BlockWrite) : Prop := ∀ i : ℕ, i < w.count → 0 ≤ w.pos + i ∧ w.pos + i < w.lenAllocd

/-- The members of a store apart from its bytes, and what was written to it since it was constructed. -/
structure BufferExtent where
  len : ℤ
  lenAllocd : ℕ
  start : ℤ
  writes : List BlockWrite
deriving DecidableEq, Repr

namespace BufferExtent

/-- A count as `memcpy` takes it. -/
def sizeOf (l : ℤ) : ℕ := (l % 2 ^ 64).toNat

/-- Copy `l` bytes to `&buff[pos]`. -/
def write (b : BufferExtent) (pos l : ℤ) : BufferExtent :=
  { b with writes := b.writes ++ [⟨pos, sizeOf l, b.lenAllocd⟩] }

def getLen (b : BufferExtent) : ℕ := if b.start > b.len then 0 else (b.len - b.start).toNat

/-- The growth loop, for a length that may be negative. -/
def growTo (newLen : ℤ) : ℕ → ℕ → ℕ
  | 0, lenAllocd => lenAllocd
  | fuel + 1, lenAllocd =>
    if newLen ≥ lenAllocd then growTo newLen fuel (BufferStore.doubled lenAllocd) else lenAllocd

def checkAllocd (b : BufferExtent) (newLen : ℤ) : BufferExtent :=
  { b with lenAllocd := growTo newLen (newLen.toNat + 1) b.lenAllocd }

def new : BufferExtent := ⟨0, 0, 0, []⟩

def newFrom (l : ℕ) : BufferExtent := write ⟨l, if l > MIN_LEN then l else MIN_LEN, 0, []⟩ 0 l

def newCopy (a : BufferExtent) : BufferExtent := newFrom a.getLen

def initFrom (b : BufferExtent) (l : ℕ) : BufferExtent := { (b.checkAllocd l).write 0 l with len := l, start := 0 }

def assign (b a : BufferExtent) : BufferExtent := b.initFrom a.getLen

def init (b : BufferExtent) : BufferExtent := { b with start := 0, len := 0 }

def discardFirstBytes (b : BufferExtent) (n : ℕ) : BufferExtent :=
  { b with start := if b.start + n > b.len then b.len else b.start + n }

def addBytes (b : BufferExtent) (l : ℤ) : BufferExtent :=
  { (b.checkAllocd (b.len + l)).write b.len l with len := b.len + l }

def addString (b : BufferExtent) (s : List UInt8) : BufferExtent := b.addBytes (intOf (cString s).length)

def addStringT (b : BufferExtent) (s : List UInt8) : BufferExtent := (b.addString s).addBytes 1

def addBuff (b s : BufferExtent) (maxLen : ℤ) : BufferExtent :=
  let l := s.getLen
  let b := b.checkAllocd (b.len + l)
  let l := BufferStore.buffCount l maxLen
  if l > 0 then { b.write b.len l with len := b.len + l } else b

def truncate (b : BufferExtent) (newLen : ℕ) : BufferExtent := if newLen < b.len then { b with len := newLen } else b

def prependBytes (b : BufferExtent) (l : ℕ) : BufferExtent :=
  { ((b.checkAllocd (b.len + l)).write l b.len).write 0 l with len := b.len + l }

/-- The length is in the block, and so is all that was written. -/
structure Sound (b : BufferExtent) : Prop where
  nonneg : 0 ≤ b.len
  fits : b.len ≤ b.lenAllocd
  start : 0 ≤ b.start
  inside : ∀ w ∈ b.writes, w.Inside

/-- With enough fuel the block becomes longer than is asked for. -/
theorem lt_growTo {newLen : ℤ} {fuel lenAllocd : ℕ} (h : newLen < lenAllocd + fuel) :
    newLen < growTo newLen fuel lenAllocd := by
  induction fuel generalizing lenAllocd with
  | zero => simpa [growTo] using h
  | succ fuel ih =>
    rw [growTo]
    split
    · have := BufferStore.lt_doubled lenAllocd
      exact ih (by omega)
    · omega

/-- A block does not become shorter. -/
theorem le_growTo (newLen : ℤ) (fuel lenAllocd : ℕ) : lenAllocd ≤ growTo newLen fuel lenAllocd := by
  induction fuel generalizing lenAllocd with
  | zero => exact Nat.le_refl _
  | succ fuel ih =>
    rw [growTo]
    split
    · exact (BufferStore.lt_doubled lenAllocd).le.trans (ih _)
    · exact Nat.le_refl _

/-- The loop is that of the model with bytes. -/
theorem growTo_natCast (newLen fuel lenAllocd : ℕ) :
    growTo newLen fuel lenAllocd = BufferStore.grow newLen fuel lenAllocd := by
  induction fuel generalizing lenAllocd with
  | zero => rfl
  | succ fuel ih =>
    rw [growTo, BufferStore.grow, ih]
    by_cases h : newLen ≥ lenAllocd
    · rw [if_pos h, if_pos (Int.ofNat_le.mpr h)]
    · rw [if_neg h, if_neg (fun hle => h (Int.ofNat_le.mp hle))]

/-- After `checkAllocd` the block is larger than the length it is given. -/
theorem lt_checkAllocd (b : BufferExtent) (newLen : ℤ) : newLen < (b.checkAllocd newLen).lenAllocd :=
  lt_growTo (by omega)

/-- A block does not become shorter. -/
theorem le_checkAllocd (b : BufferExtent) (newLen : ℤ) : b.lenAllocd ≤ (b.checkAllocd newLen).lenAllocd :=
  le_growTo _ _ _

/-- The size is no more than the length that it is made of. -/
theorem sizeOf_le {l : ℤ} (h : 0 ≤ l) : (sizeOf l : ℤ) ≤ l := by
  rw [sizeOf]
  omega

/-- Bytes are copied to where there is room for them. -/
theorem inside_of_room {pos l : ℤ} {lenAllocd : ℕ} (hpos : 0 ≤ pos) (hl : 0 ≤ l) (hroom : pos + l ≤ lenAllocd) :
    BlockWrite.Inside ⟨pos, sizeOf l, lenAllocd⟩ := by
  intro i hi
  have hle := sizeOf_le hl
  change i < sizeOf l at hi
  dsimp only
  omega

/-- A write that has room goes inside, as those before it do. -/
theorem inside_write {b : BufferExtent} (hb : ∀ w ∈ b.writes, w.Inside) {pos l : ℤ} (hpos : 0 ≤ pos) (hl : 0 ≤ l)
    (hroom : pos + l ≤ b.lenAllocd) : ∀ w ∈ (b.write pos l).writes, w.Inside := by
  intro w hw
  obtain hold | hnew := List.mem_append.mp hw
  · exact hb w hold
  · rw [List.mem_singleton.mp hnew]
    exact inside_of_room hpos hl hroom

/-- A new store has no block. -/
theorem new_sound : new.Sound := ⟨Int.le_refl 0, Int.le_refl 0, Int.le_refl 0, fun _ h => by cases h⟩

/-- A store with some content. -/
theorem newFrom_sound (l : ℕ) : (newFrom l).Sound := by
  have hroom : (l : ℤ) ≤ (if l > MIN_LEN then l else MIN_LEN : ℕ) := by split <;> omega
  refine ⟨Int.natCast_nonneg l, hroom, Int.le_refl 0, ?_⟩
  exact inside_write (fun _ h => by cases h) (Int.le_refl 0) (Int.natCast_nonneg l)
    (by rw [Int.zero_add]; exact hroom)

variable {b : BufferExtent}

/-- Setting the content keeps the block sound. -/
theorem initFrom_sound (hb : b.Sound) (l : ℕ) : (b.initFrom l).Sound := by
  have hroom : (l : ℤ) ≤ (b.checkAllocd l).lenAllocd := Int.le_of_lt (b.lt_checkAllocd l)
  refine ⟨Int.natCast_nonneg l, hroom, Int.le_refl 0, ?_⟩
  exact inside_write (b := b.checkAllocd l) hb.inside (Int.le_refl 0) (Int.natCast_nonneg l) (by rwa [Int.zero_add])

/-- Discarding keeps the block sound. -/
theorem discardFirstBytes_sound (hb : b.Sound) (n : ℕ) : (b.discardFirstBytes n).Sound := by
  refine ⟨hb.nonneg, hb.fits, ?_, hb.inside⟩
  have hstart := hb.start
  have hlen := hb.nonneg
  rw [discardFirstBytes]
  dsimp only
  split <;> omega

/-- Appending what has a length. -/
theorem addBytes_sound (hb : b.Sound) {l : ℤ} (hl : 0 ≤ l) : (b.addBytes l).Sound := by
  have hroom : b.len + l ≤ (b.checkAllocd (b.len + l)).lenAllocd := Int.le_of_lt (b.lt_checkAllocd (b.len + l))
  have hinside := inside_write (b := b.checkAllocd (b.len + l)) hb.inside hb.nonneg hl hroom
  exact ⟨Int.add_nonneg hb.nonneg hl, hroom, hb.start, hinside⟩

/-- Appending another store keeps the block sound. -/
theorem addBuff_sound (hb : b.Sound) (s : BufferExtent) (maxLen : ℤ) : (b.addBuff s maxLen).Sound := by
  have hroom := b.lt_checkAllocd (b.len + s.getLen)
  have hcount := BufferStore.buffCount_le s.getLen maxLen
  have hfits : b.len + (BufferStore.buffCount s.getLen maxLen : ℕ) ≤
    (b.checkAllocd (b.len + s.getLen)).lenAllocd := by
    omega
  have hinside := inside_write (b := b.checkAllocd (b.len + s.getLen)) hb.inside hb.nonneg
    (Int.natCast_nonneg _) hfits
  rw [addBuff]
  dsimp only
  split
  · exact ⟨Int.add_nonneg hb.nonneg (Int.natCast_nonneg _), hfits, hb.start, hinside⟩
  · have hle := b.le_checkAllocd (b.len + s.getLen)
    exact ⟨hb.nonneg, Int.le_trans hb.fits (Int.ofNat_le.mpr hle), hb.start, hb.inside⟩

/-- Truncating keeps the block sound. -/
theorem truncate_sound (hb : b.Sound) (newLen : ℕ) : (b.truncate newLen).Sound := by
  have hfits := hb.fits
  rw [truncate]
  split
  · exact ⟨Int.natCast_nonneg newLen, by dsimp only; omega, hb.start, hb.inside⟩
  · exact hb

/-- Prepending keeps the block sound. -/
theorem prependBytes_sound (hb : b.Sound) (l : ℕ) : (b.prependBytes l).Sound := by
  have hroom : b.len + l ≤ (b.checkAllocd (b.len + l)).lenAllocd := Int.le_of_lt (b.lt_checkAllocd (b.len + l))
  have hlen := hb.nonneg
  have hmoved := inside_write (b := b.checkAllocd (b.len + l)) hb.inside (Int.natCast_nonneg l) hlen (by omega)
  have hfirst : (0 : ℤ) + l ≤ (b.checkAllocd (b.len + l)).lenAllocd := by omega
  exact ⟨Int.add_nonneg hlen (Int.natCast_nonneg l), hroom, hb.start,
    inside_write hmoved (Int.le_refl 0) (Int.natCast_nonneg l) hfirst⟩

/-- A negative count is written beyond any block. -/
theorem not_inside_of_neg {pos l : ℤ} {lenAllocd : ℕ} (hpos : 0 ≤ pos) (hl : l < 0) (hleast : -2 ^ 31 ≤ l)
    (hblock : lenAllocd < 2 ^ 63) : ¬BlockWrite.Inside ⟨pos, sizeOf l, lenAllocd⟩ := by
  intro h
  have hcount : 2 ^ 63 < sizeOf l := by
    rw [sizeOf]
    omega
  have hat := (h (2 ^ 63) hcount).2
  dsimp only at hat
  omega

end BufferExtent

/-- What an operation makes of the extent of its store. -/
def BufferOp.onExtent (pool : ℕ → BufferExtent) : BufferOp → BufferExtent
  | new _ => .new
  | newFrom _ bytes => .newFrom bytes.length
  | newCopy _ w => (pool w).newCopy
  | assign v w => if v = w then pool v else (pool v).assign (pool w)
  | init v => (pool v).init
  | initFrom v bytes => (pool v).initFrom bytes.length
  | addByte v _ => (pool v).addBytes 1
  | addWord v _ => (pool v).addBytes 2
  | addDWord v _ => (pool v).addBytes 4
  | addString v s => (pool v).addString s
  | addStringT v s => (pool v).addStringT s
  | addBytes v bytes => (pool v).addBytes bytes.length
  | addBuff v w maxLen => (pool v).addBuff (pool w) maxLen
  | prependByte v _ => (pool v).prependBytes 1
  | prependWord v _ => (pool v).prependBytes 2
  | discardFirstBytes v n => (pool v).discardFirstBytes n
  | truncate v n => (pool v).truncate n

/-- The string that is appended has a length that is not negative as an `int`. -/
def BufferOp.IntLength : BufferOp → Prop
  | addString _ s | addStringT _ s => 0 ≤ intOf (cString s).length
  | _ => True

namespace CapacityRun

open BufferExtent

/-- Before a program every store is default-constructed. -/
def start : ℕ → BufferExtent := fun _ => .new

def step (pool : ℕ → BufferExtent) (op : BufferOp) : ℕ → BufferExtent :=
  Function.update pool op.target (op.onExtent pool)

/-- The members of all stores are as they should be. -/
def Sound (pool : ℕ → BufferExtent) : Prop := ∀ v, (pool v).Sound

/-- No block is larger than a `long` can tell. -/
def Addressable (pool : ℕ → BufferExtent) : Prop := ∀ v, (pool v).lenAllocd < 2 ^ 63

/-- An operation whose length is an int keeps the block sound. -/
theorem onExtent_sound {pool : ℕ → BufferExtent} (hpool : Sound pool) {op : BufferOp} (hop : op.IntLength) :
    (op.onExtent pool).Sound := by
  cases op with
  | new v => exact new_sound
  | newFrom v bytes => exact newFrom_sound _
  | newCopy v w => exact newFrom_sound _
  | assign v w =>
    rw [BufferOp.onExtent]
    split
    · exact hpool v
    · exact initFrom_sound (hpool v) _
  | init v => exact ⟨Int.le_refl 0, Int.natCast_nonneg _, Int.le_refl 0, (hpool v).inside⟩
  | initFrom v bytes => exact initFrom_sound (hpool v) _
  | addByte v cc => exact addBytes_sound (hpool v) (by decide)
  | addWord v a => exact addBytes_sound (hpool v) (by decide)
  | addDWord v a => exact addBytes_sound (hpool v) (by decide)
  | addString v s => exact addBytes_sound (hpool v) hop
  | addStringT v s => exact addBytes_sound (addBytes_sound (hpool v) hop) (by decide)
  | addBytes v bytes => exact addBytes_sound (hpool v) (Int.natCast_nonneg _)
  | addBuff v w maxLen => exact addBuff_sound (hpool v) _ maxLen
  | prependByte v cc => exact prependBytes_sound (hpool v) 1
  | prependWord v a => exact prependBytes_sound (hpool v) 2
  | discardFirstBytes v n => exact discardFirstBytes_sound (hpool v) n
  | truncate v n => exact truncate_sound (hpool v) n

/-- Appending a string whose length is negative leaves no room for what is written. -/
theorem addString_not_inside {b : BufferExtent} (hb : b.Sound) {s : List UInt8} (hs : intOf (cString s).length < 0)
    (hblock : (b.addString s).lenAllocd < 2 ^ 63) : ∃ w ∈ (b.addString s).writes, ¬w.Inside := by
  have hleast : -2 ^ 31 ≤ intOf (cString s).length := by
    rw [intOf]
    omega
  exact ⟨_, List.mem_append_right _ List.mem_cons_self, not_inside_of_neg hb.nonneg hs hleast hblock⟩

/-- One whose length is not leaves the block. -/
theorem onExtent_not_inside {pool : ℕ → BufferExtent} (hpool : Sound pool) {op : BufferOp} (hop : ¬op.IntLength)
    (hblock : (op.onExtent pool).lenAllocd < 2 ^ 63) : ∃ w ∈ (op.onExtent pool).writes, ¬w.Inside := by
  cases op with
  | addString v s => exact addString_not_inside (hpool v) (Int.not_le.mp hop) hblock
  | addStringT v s =>
    have hle := ((pool v).addString s).le_checkAllocd (((pool v).addString s).len + 1)
    obtain ⟨w, hw, houtside⟩ := addString_not_inside (hpool v) (Int.not_le.mp hop) (Nat.lt_of_le_of_lt hle hblock)
    exact ⟨w, List.mem_append_left _ hw, houtside⟩
  | _ => exact absurd trivial hop

/-- A step keeps all stores as they should be just when its string, if it appends one, has a length. -/
theorem step_sound_iff {pool : ℕ → BufferExtent} (hpool : Sound pool) (op : BufferOp)
    (hblock : Addressable (step pool op)) : Sound (step pool op) ↔ op.IntLength := by
  have htarget : step pool op op.target = op.onExtent pool := Function.update_self _ _ _
  constructor
  · intro h
    by_contra hop
    have hlong := hblock op.target
    rw [htarget] at hlong
    obtain ⟨w, hw, houtside⟩ := onExtent_not_inside hpool hop hlong
    rw [← htarget] at hw
    exact houtside ((h op.target).inside w hw)
  · intro hop v
    by_cases hv : v = op.target
    · rw [hv, htarget]
      exact onExtent_sound hpool hop
    · rw [step, Function.update_of_ne hv]
      exact hpool v

/-- The members are as they should be after each operation, and nothing is written outside a block, just when
each string that is appended has a length as an `int`. -/
theorem sound_iff_intLength (ops : List BufferOp)
    (hblocks : ∀ seen, seen <+: ops → Addressable (runFrom step start seen)) :
    (∀ seen, seen <+: ops → Sound (runFrom step start seen)) ↔ ∀ op ∈ ops, op.IntLength := by
  rw [forall_prefix_iff_admits_within Addressable (fun pool op h => step_sound_iff h op) (fun _ => new_sound)
    ops hblocks, admits_iff_forall]

/-- A program that appends two characters. -/
theorem sound_iff_intLength_two : (∀ seen, seen <+: [BufferOp.addString 0 [0x41, 0x42]] →
    Sound (runFrom step start seen)) ↔ ∀ op ∈ [BufferOp.addString 0 [0x41, 0x42]], op.IntLength := by
  refine sound_iff_intLength _ fun seen hseen v => ?_
  obtain rfl | ⟨rest, rfl, hrest⟩ := List.prefix_cons_iff.mp hseen
  · exact Nat.two_pow_pos 63
  · obtain rfl := List.prefix_nil.mp hrest
    by_cases hv : v = 0
    · rw [hv]
      decide
    · change (Function.update start 0 _ v).lenAllocd < 2 ^ 63
      rw [Function.update_of_ne hv]
      exact Nat.two_pow_pos 63

/-- A string whose length is negative as an int leaves the block. -/
theorem not_sound_of_intOf_neg {n : ℕ} (hn : intOf n < 0) :
    ¬∀ seen, seen <+: [BufferOp.addString 0 (List.replicate n 0x41)] → Sound (runFrom step start seen) := by
  intro h
  have hchars : cString (List.replicate n 0x41) = List.replicate n 0x41 := by
    rw [cString, List.takeWhile_replicate, if_pos (by decide)]
  have hlen : 0 ≤ 0 + intOf (cString (List.replicate n 0x41)).length := (h _ (List.prefix_refl _) 0).nonneg
  rw [hchars, List.length_replicate] at hlen
  omega

/-- A string of 2³¹ characters makes the length negative. -/
theorem not_sound_huge_string :
    ¬∀ seen, seen <+: [BufferOp.addString 0 (List.replicate (2 ^ 31) 0x41)] → Sound (runFrom step start seen) :=
  not_sound_of_intOf_neg (by decide)

/-- The extent is that of a store with its bytes. -/
def Measures (e : BufferExtent) (b : BufferStore) : Prop :=
  e.len = b.len ∧ e.lenAllocd = b.lenAllocd ∧ e.start = b.start

/-- The extent has the length of the store. -/
theorem getLen_eq {e : BufferExtent} {b : BufferStore} (h : Measures e b) : e.getLen = b.getLen := by
  obtain ⟨hlen, -, hstart⟩ := h
  rw [BufferExtent.getLen, BufferStore.getLen, hlen, hstart]
  by_cases hcut : b.start > b.len
  · rw [if_pos hcut, if_pos (Int.ofNat_lt.mpr hcut)]
  · rw [if_neg hcut, if_neg (fun hlt => hcut (Int.ofNat_lt.mp hlt))]
    omega

/-- The extent grows as the store does. -/
theorem checkAllocd_eq {e : BufferExtent} {b : BufferStore} (h : Measures e b) (newLen : ℕ) :
    (e.checkAllocd newLen).lenAllocd = (b.checkAllocd newLen).lenAllocd := by
  rw [BufferExtent.checkAllocd, BufferStore.checkAllocd, growTo_natCast, h.2.1]
  rfl

/-- A store with some content is measured. -/
theorem newFrom_measures (bytes : List UInt8) : Measures (.newFrom bytes.length) (.newFrom bytes) := ⟨rfl, rfl, rfl⟩

/-- Setting the content is measured. -/
theorem initFrom_measures {e : BufferExtent} {b : BufferStore} (h : Measures e b) (bytes : List UInt8) :
    Measures (e.initFrom bytes.length) (b.initFrom bytes) := ⟨rfl, checkAllocd_eq h _, rfl⟩

/-- Appending is measured. -/
theorem addBytes_measures {e : BufferExtent} {b : BufferStore} (h : Measures e b) (bytes : List UInt8) :
    Measures (e.addBytes bytes.length) (b.addBytes bytes) := by
  have hblock := checkAllocd_eq h (b.len + bytes.length)
  rw [Int.natCast_add, ← h.1] at hblock
  exact ⟨congrArg (· + (bytes.length : ℤ)) h.1, hblock, h.2.2⟩

/-- Prepending is measured. -/
theorem prependBytes_measures {e : BufferExtent} {b : BufferStore} (h : Measures e b) (bytes : List UInt8) :
    Measures (e.prependBytes bytes.length) (b.prependBytes bytes) := by
  have hblock := checkAllocd_eq h (b.len + bytes.length)
  rw [Int.natCast_add, ← h.1] at hblock
  exact ⟨congrArg (· + (bytes.length : ℤ)) h.1, hblock, h.2.2⟩

/-- Appending another store is measured. -/
theorem addBuff_measures {e e' : BufferExtent} {b b' : BufferStore} (h : Measures e b) (h' : Measures e' b')
    (maxLen : ℤ) : Measures (e.addBuff e' maxLen) (b.addBuff b' maxLen) := by
  have hblock := checkAllocd_eq h (b.len + b'.getLen)
  rw [Int.natCast_add, ← h.1] at hblock
  rw [BufferExtent.addBuff, BufferStore.addBuff, getLen_eq h']
  dsimp only
  split
  · exact ⟨congrArg (· + (BufferStore.buffCount b'.getLen maxLen : ℤ)) h.1, hblock, h.2.2⟩
  · exact ⟨h.1, hblock, h.2.2⟩

/-- Discarding is measured. -/
theorem discardFirstBytes_measures {e : BufferExtent} {b : BufferStore} (h : Measures e b) (n : ℕ) :
    Measures (e.discardFirstBytes n) (b.discardFirstBytes n) := by
  refine ⟨h.1, h.2.1, ?_⟩
  change (if e.start + n > e.len then e.len else e.start + n) =
    ((if b.start + n > b.len then b.len else b.start + n : ℕ) : ℤ)
  rw [h.1, h.2.2]
  split <;> split <;> omega

/-- Truncating is measured. -/
theorem truncate_measures {e : BufferExtent} {b : BufferStore} (h : Measures e b) (n : ℕ) :
    Measures (e.truncate n) (b.truncate n) := by
  rw [BufferExtent.truncate, BufferStore.truncate, h.1]
  by_cases hcut : n < b.len
  · rw [if_pos hcut, if_pos (Int.ofNat_lt.mpr hcut)]
    exact ⟨rfl, h.2.1, h.2.2⟩
  · rw [if_neg hcut, if_neg (fun hlt => hcut (Int.ofNat_lt.mp hlt))]
    exact h

/-- Appending a string is measured. -/
theorem addString_measures {e : BufferExtent} {b b' : BufferStore} (h : Measures e b) {s : List UInt8}
    (hb' : b.addString s = some b') : Measures (e.addString s) b' := by
  rw [BufferStore.addString] at hb'
  split at hb'
  · rename_i hpos
    obtain rfl := Option.some.inj hb'
    have hle : intOf (cString s).length ≤ (cString s).length := by
      obtain hshort | hlong := Nat.lt_or_ge (cString s).length (2 ^ 31)
      · exact Int.le_of_eq (intOf_eq hshort)
      · exact Int.le_of_lt (intOf_lt hlong)
    have htaken : (((cString s).take (intOf (cString s).length).toNat).length : ℤ) = intOf (cString s).length := by
      rw [List.length_take]
      omega
    have hadded := addBytes_measures h ((cString s).take (intOf (cString s).length).toNat)
    rw [htaken] at hadded
    exact hadded
  · cases hb'

/-- Every operation is measured. -/
theorem onExtent_measures {pool : ℕ → BufferExtent} {stores : ℕ → BufferStore} (h : ∀ v, Measures (pool v) (stores v))
    {op : BufferOp} {b : BufferStore} (hb : op.onStore stores = some b) : Measures (op.onExtent pool) b := by
  cases op with
  | addString v s =>
    have hadded : (stores v).addString s = some b := hb
    exact addString_measures (h v) hadded
  | addStringT v s =>
    have hadded : ((stores v).addString s).map (·.addByte 0) = some b := hb
    obtain ⟨b', hb', rfl⟩ := Option.map_eq_some_iff.mp hadded
    exact addBytes_measures (addString_measures (h v) hb') [0]
  | new v =>
    obtain rfl := Option.some.inj hb
    exact ⟨rfl, rfl, rfl⟩
  | newFrom v bytes =>
    obtain rfl := Option.some.inj hb
    exact newFrom_measures bytes
  | newCopy v w =>
    obtain rfl := Option.some.inj hb
    rw [BufferOp.onExtent, BufferExtent.newCopy, getLen_eq (h w)]
    exact ⟨rfl, rfl, rfl⟩
  | assign v w =>
    obtain rfl := Option.some.inj hb
    rw [BufferOp.onExtent]
    split
    · exact h v
    · rw [BufferExtent.assign, getLen_eq (h w)]
      exact ⟨rfl, checkAllocd_eq (h v) _, rfl⟩
  | init v =>
    obtain rfl := Option.some.inj hb
    exact ⟨rfl, (h v).2.1, rfl⟩
  | initFrom v bytes =>
    obtain rfl := Option.some.inj hb
    exact initFrom_measures (h v) bytes
  | addByte v cc =>
    obtain rfl := Option.some.inj hb
    exact addBytes_measures (h v) [cc]
  | addWord v a =>
    obtain rfl := Option.some.inj hb
    exact addBytes_measures (h v) (BufferStore.wordBytes a)
  | addDWord v a =>
    obtain rfl := Option.some.inj hb
    exact addBytes_measures (h v) (BufferStore.dwordBytes a)
  | addBytes v bytes =>
    obtain rfl := Option.some.inj hb
    exact addBytes_measures (h v) bytes
  | addBuff v w maxLen =>
    obtain rfl := Option.some.inj hb
    exact addBuff_measures (h v) (h w) maxLen
  | prependByte v cc =>
    obtain rfl := Option.some.inj hb
    exact prependBytes_measures (h v) [cc]
  | prependWord v a =>
    obtain rfl := Option.some.inj hb
    exact prependBytes_measures (h v) (BufferStore.wordBytes a)
  | discardFirstBytes v n =>
    obtain rfl := Option.some.inj hb
    exact discardFirstBytes_measures (h v) n
  | truncate v n =>
    obtain rfl := Option.some.inj hb
    exact truncate_measures (h v) n

/-- As long as the stores with their bytes are there, the extents are theirs. -/
theorem run_measures (ops : List BufferOp) {r : BufferRun}
    (hr : runFrom BufferRun.step (some BufferRun.start) ops = some r) (v : ℕ) :
    Measures (runFrom step start ops v) (r.pool v) := by
  induction ops using List.reverseRecOn generalizing r v with
  | nil =>
    obtain rfl := Option.some.inj hr
    exact ⟨rfl, rfl, rfl⟩
  | append_singleton before op ih =>
    rw [runFrom_append] at hr
    obtain ⟨r', hbefore, hperform⟩ := Option.bind_eq_some_iff.mp hr
    obtain ⟨b, hb, rfl⟩ := Option.map_eq_some_iff.mp hperform
    rw [runFrom_append]
    change Measures (Function.update (runFrom step start before) op.target _ v) (Function.update r'.pool op.target b v)
    by_cases hv : v = op.target
    · rw [hv, Function.update_self, Function.update_self]
      exact onExtent_measures (ih hbefore) hb
    · rw [Function.update_of_ne hv, Function.update_of_ne hv]
      exact ih hbefore v

end CapacityRun

end Plptools
