import Plptools.Buffer.Store
import Plptools.Library.Run
import Mathlib.Data.List.TakeDrop
import Mathlib.Logic.Function.Basic

/-!
# When the byte buffer is a list of bytes

The block up to `len`, discarded bytes included, changes like a list under every operation.
What a reader sees is that list without its first `start` bytes. Appending and discarding
commute with dropping the first bytes; prepending and truncating do not, because they count
from the beginning of the block and not from `start`.
-/

namespace Plptools

open Plptools.Library

namespace BufferStore

/-- The window lies in the block, and the block has the recorded size. -/
def Fits (b : BufferStore) : Prop := b.len ≤ b.lenAllocd ∧ b.buff.length = b.lenAllocd

/-- The bytes of the block before `len`, discarded ones included. -/
def written (b : BufferStore) : List UInt8 := b.buff.take b.len

/-- The discarded bytes, which the block still holds before `start`. -/
def discarded (b : BufferStore) : List UInt8 := b.buff.take b.start

/-- The store is observed as the list `xs`. -/
def Represents (b : BufferStore) (xs : List UInt8) : Prop :=
  b.empty = xs.isEmpty ∧ b.getLen = xs.length ∧
    ∀ i (hi : i < xs.length), b.getByte i = xs[i]

/-- Copying inside a block keeps its size. -/
theorem memcpy_length (block : List UInt8) (pos : ℕ) (bytes : List UInt8)
    (h : pos + bytes.length ≤ block.length) : (memcpy block pos bytes).length = block.length := by
  simp only [memcpy, List.length_append, List.length_take, List.length_drop]
  omega

/-- The beginning of the block up to the end of the copy. -/
theorem memcpy_take (block : List UInt8) (pos : ℕ) (bytes : List UInt8) (h : pos ≤ block.length) :
    (memcpy block pos bytes).take (pos + bytes.length) = block.take pos ++ bytes := by
  have hfit : (block.take pos ++ bytes).length = pos + bytes.length := by
    rw [List.length_append, List.length_take, Nat.min_eq_left h]
  rw [memcpy, List.take_append_of_le_length hfit.ge, List.take_of_length_le hfit.le]

/-- Each round of the growth loop adds room. -/
theorem lt_doubled (lenAllocd : ℕ) : lenAllocd < doubled lenAllocd := by
  unfold doubled MIN_LEN
  split <;> omega

/-- The growth loop ends above the requested length. -/
theorem lt_grow (newLen fuel lenAllocd : ℕ) (h : newLen < lenAllocd + fuel) :
    newLen < grow newLen fuel lenAllocd := by
  induction fuel generalizing lenAllocd with
  | zero => simpa [grow] using h
  | succ fuel ih =>
    rw [grow]
    split
    · have := lt_doubled lenAllocd
      exact ih _ (by omega)
    · omega

/-- Growing never shrinks the allocation. -/
theorem le_grow (newLen fuel lenAllocd : ℕ) : lenAllocd ≤ grow newLen fuel lenAllocd := by
  induction fuel generalizing lenAllocd with
  | zero => exact Nat.le_refl _
  | succ fuel ih =>
    rw [grow]
    split
    · exact Nat.le_trans (Nat.le_of_lt (lt_doubled lenAllocd)) (ih _)
    · exact Nat.le_refl _

/-- After `checkAllocd` the requested length lies inside the block. -/
theorem checkAllocd_room (b : BufferStore) (newLen : ℕ) :
    newLen < (b.checkAllocd newLen).lenAllocd :=
  lt_grow newLen (newLen + 1) b.lenAllocd (by omega)

/-- `checkAllocd` resizes the block to the recorded size. -/
theorem checkAllocd_length (b : BufferStore) (newLen : ℕ) (hb : b.Fits) :
    (b.checkAllocd newLen).buff.length = (b.checkAllocd newLen).lenAllocd := by
  have hle := le_grow newLen (newLen + 1) b.lenAllocd
  have hlen := hb.2
  simp only [checkAllocd, realloc, List.length_append, List.length_take, List.length_replicate]
  omega

/-- Resizing keeps the bytes that were written. -/
theorem checkAllocd_take (b : BufferStore) (newLen n : ℕ) (hb : b.Fits) (hn : n ≤ b.len) :
    (b.checkAllocd newLen).buff.take n = b.buff.take n := by
  have hle := le_grow newLen (newLen + 1) b.lenAllocd
  obtain ⟨hlen, hblock⟩ := hb
  simp only [checkAllocd, realloc]
  rw [List.take_of_length_le (l := b.buff) (by omega), List.take_append_of_le_length (by omega)]

/-- The length stays. -/
@[simp] theorem checkAllocd_len (b : BufferStore) (newLen : ℕ) :
    (b.checkAllocd newLen).len = b.len := rfl

/-- The bytes up to `len` are `len` many. -/
theorem written_length (b : BufferStore) (hb : b.Fits) : b.written.length = b.len := by
  simp only [written, List.length_take]
  have := hb.1
  have := hb.2
  omega

/-- Inside the window, `getByte` reads the written bytes. -/
theorem getByte_eq (b : BufferStore) (i : ℕ) (hi : i + b.start < b.len) :
    b.getByte i = ((b.written.drop b.start)[i]?).getD 0 := by
  rw [getByte, List.getD_eq_getElem?_getD, List.getElem?_drop, written,
    List.getElem?_take_of_lt (by omega), Nat.add_comm]

/-- A store is observed as a list exactly when its window is well formed and holds that list. -/
theorem represents_iff (b : BufferStore) (hb : b.Fits) (xs : List UInt8) :
    b.Represents xs ↔ b.start ≤ b.len ∧ b.written.drop b.start = xs := by
  have hlength := b.written_length hb
  constructor
  · rintro ⟨hempty, hlen, hbytes⟩
    have hstart : b.start ≤ b.len := by
      by_contra hgt
      have hnil : xs = [] := by
        rw [getLen, if_pos (by omega)] at hlen
        exact List.eq_nil_of_length_eq_zero hlen.symm
      rw [hnil] at hempty
      have heq : (b.len : ℤ) - b.start = 0 := by simpa [empty] using hempty
      omega
    refine ⟨hstart, ?_⟩
    rw [getLen, if_neg (by omega)] at hlen
    apply List.ext_getElem
    · rw [List.length_drop, hlength, hlen]
    · intro i hi hxs
      rw [← hbytes i hxs, b.getByte_eq i (by omega), List.getElem?_eq_getElem hi, Option.getD_some]
  · rintro ⟨hstart, rfl⟩
    refine ⟨?_, ?_, fun i hi => ?_⟩
    · rw [Bool.eq_iff_iff]
      simp only [empty, decide_eq_true_eq, List.isEmpty_iff, List.drop_eq_nil_iff, hlength]
      omega
    · rw [getLen, if_neg (by omega), List.length_drop, hlength]
    · rw [b.getByte_eq i (by rw [List.length_drop, hlength] at hi; omega),
        List.getElem?_eq_getElem hi, Option.getD_some]

/-- Bytes taken from inside the window are all there. -/
theorem getString_length (b : BufferStore) (hb : b.Fits) (n : ℕ) (hn : n ≤ b.getLen) :
    (b.getString n).length = n := by
  obtain ⟨hlen, hblock⟩ := hb
  rw [getString, List.length_take, List.length_drop]
  unfold getLen at hn
  split at hn <;> omega

/-- What `getString` points at is the observed list. -/
theorem getString_eq (b : BufferStore) (hb : b.Fits) {xs : List UInt8} (h : b.Represents xs)
    (n : ℕ) (hn : n ≤ xs.length) : b.getString n = xs.take n := by
  obtain ⟨hstart, rfl⟩ := (b.represents_iff hb xs).mp h
  rw [List.length_drop, b.written_length hb] at hn
  rw [getString, written, List.drop_take, List.take_take, Nat.min_eq_left hn]

/-! ### One lemma for each operation on the block -/

/-- Copying bytes to the end of the written ones, after making room for at least them. -/
theorem append_fits_written (b : BufferStore) (hb : b.Fits) (room : ℕ) (bytes : List UInt8)
    (hroom : b.len + bytes.length ≤ room) :
    let c : BufferStore := { b.checkAllocd room with
      buff := memcpy (b.checkAllocd room).buff b.len bytes, len := b.len + bytes.length }
    c.Fits ∧ c.written = b.written ++ bytes := by
  have hlt := b.checkAllocd_room room
  have hblock := b.checkAllocd_length room hb
  refine ⟨⟨by simp only; omega, ?_⟩, ?_⟩
  · exact (memcpy_length _ _ _ (by omega)).trans hblock
  · simp only [written]
    rw [memcpy_take _ _ _ (by omega), checkAllocd_take _ _ _ hb (Nat.le_refl _)]

/-- Appending extends the written bytes. -/
theorem addBytes_spec (b : BufferStore) (hb : b.Fits) (bytes : List UInt8) :
    (b.addBytes bytes).Fits ∧ (b.addBytes bytes).written = b.written ++ bytes :=
  b.append_fits_written hb (b.len + bytes.length) bytes (Nat.le_refl _)

/-- No more is taken from a store than it holds. -/
theorem buffCount_le (l : ℕ) (maxLen : ℤ) : buffCount l maxLen ≤ l := by
  unfold buffCount
  split <;> omega

/-- Appending a store extends the written bytes by the beginning of its window. -/
theorem addBuff_spec (b s : BufferStore) (hb : b.Fits) (hs : s.Fits) (maxLen : ℤ) :
    (b.addBuff s maxLen).Fits ∧
      (b.addBuff s maxLen).written = b.written ++ s.getString (buffCount s.getLen maxLen) := by
  have hcount := buffCount_le s.getLen maxLen
  have hlength := s.getString_length hs _ hcount
  simp only [addBuff]
  split
  · have happend := b.append_fits_written hb (b.len + s.getLen)
      (s.getString (buffCount s.getLen maxLen)) (by omega)
    rw [hlength] at happend
    exact happend
  · have hzero : buffCount s.getLen maxLen = 0 := by omega
    have hlt := b.checkAllocd_room (b.len + s.getLen)
    rw [hzero, getString, List.take_zero, List.append_nil]
    exact ⟨⟨by simp only [checkAllocd_len]; omega, b.checkAllocd_length _ hb⟩,
      checkAllocd_take _ _ _ hb (Nat.le_refl _)⟩

/-- Moving the beginning of a block up and filling the gap puts the new bytes before the old. -/
theorem memcpy_shift (block bytes moved : List UInt8)
    (h : bytes.length + moved.length ≤ block.length) :
    memcpy (memcpy block bytes.length moved) 0 bytes =
      bytes ++ moved ++ block.drop (bytes.length + moved.length) := by
  have hgap : (block.take bytes.length).length = bytes.length := by
    rw [List.length_take]
    omega
  simp only [memcpy, List.take_zero, List.nil_append, Nat.zero_add, List.append_assoc]
  rw [List.drop_append_of_le_length (by omega), List.drop_of_length_le (by omega), List.nil_append]

/-- Prepending puts the bytes before the written ones, the discarded ones included. -/
theorem prependBytes_spec (b : BufferStore) (hb : b.Fits) (bytes : List UInt8) :
    (b.prependBytes bytes).Fits ∧ (b.prependBytes bytes).written = bytes ++ b.written := by
  have hlt := b.checkAllocd_room (b.len + bytes.length)
  have hblock := b.checkAllocd_length (b.len + bytes.length) hb
  have hlength := b.written_length hb
  have hbuff : (b.prependBytes bytes).buff = bytes ++ b.written ++
      (b.checkAllocd (b.len + bytes.length)).buff.drop (bytes.length + b.len) := by
    simp only [prependBytes, checkAllocd_len]
    rw [checkAllocd_take _ _ _ hb (Nat.le_refl _), ← written, memcpy_shift _ _ _ (by omega), hlength]
  refine ⟨⟨Nat.le_of_lt hlt, ?_⟩, ?_⟩
  · change (b.prependBytes bytes).buff.length = (b.checkAllocd (b.len + bytes.length)).lenAllocd
    rw [hbuff, List.length_append, List.length_append, List.length_drop, hlength]
    omega
  · change (b.prependBytes bytes).buff.take (b.len + bytes.length) = _
    rw [hbuff, List.take_left' (by rw [List.length_append, hlength, Nat.add_comm])]

/-- Filling the block from its beginning leaves just those bytes written. -/
theorem fill_written (block bytes : List UInt8) : (memcpy block 0 bytes).take bytes.length = bytes := by
  rw [memcpy, List.take_zero, List.nil_append, List.take_left']
  rfl

/-- Initialising replaces the written bytes. -/
theorem initFrom_spec (b : BufferStore) (hb : b.Fits) (bytes : List UInt8) :
    (b.initFrom bytes).Fits ∧ (b.initFrom bytes).written = bytes := by
  have hlt := b.checkAllocd_room bytes.length
  have hblock := b.checkAllocd_length bytes.length hb
  refine ⟨⟨by simp only [initFrom]; omega, ?_⟩, fill_written _ _⟩
  exact (memcpy_length _ _ _ (by omega)).trans hblock

/-- Constructing from memory writes exactly that memory. -/
theorem newFrom_spec (bytes : List UInt8) :
    (newFrom bytes).Fits ∧ (newFrom bytes).written = bytes := by
  have hroom : bytes.length ≤ (newFrom bytes).lenAllocd := by
    simp only [newFrom]
    split <;> omega
  refine ⟨⟨hroom, ?_⟩, fill_written _ _⟩
  refine (memcpy_length _ _ _ ?_).trans List.length_replicate
  rw [List.length_replicate, Nat.zero_add]
  exact hroom

/-- A copy of a store is a store newly made from its window. -/
theorem newCopy_eq (a : BufferStore) (ha : a.Fits) :
    newCopy a = newFrom (a.getString a.getLen) := by
  rw [newCopy, newFrom, a.getString_length ha _ (Nat.le_refl _)]

/-- Assigning a store is initialising from its window. -/
theorem assign_eq (b a : BufferStore) (ha : a.Fits) :
    b.assign a = b.initFrom (a.getString a.getLen) := by
  rw [assign, initFrom, a.getString_length ha _ (Nat.le_refl _)]

/-- A new store has an empty block. -/
theorem new_fits : new.Fits := ⟨Nat.le_refl _, rfl⟩

/-- A new store is observed as the empty list. -/
theorem new_represents : new.Represents [] := (represents_iff new new_fits []).mpr ⟨Nat.le_refl _, rfl⟩

/-! ### The operations as seen through the window -/

/-- With nothing discarded, the store is observed as its written bytes. -/
theorem represents_written (b : BufferStore) (hb : b.Fits) (hstart : b.start = 0) :
    b.Represents b.written :=
  (represents_iff b hb _).mpr ⟨by omega, by rw [hstart, List.drop_zero]⟩

/-- Extending the written bytes extends the observed list. -/
theorem represents_append (b c : BufferStore) (hb : b.Fits) (hc : c.Fits) {xs ys : List UInt8}
    (h : b.Represents xs) (hstart : c.start = b.start) (hwritten : c.written = b.written ++ ys) :
    c.Represents (xs ++ ys) := by
  obtain ⟨hle, rfl⟩ := (represents_iff b hb xs).mp h
  have hlen : c.len = b.len + ys.length := by
    rw [← written_length c hc, hwritten, List.length_append, written_length b hb]
  refine (represents_iff c hc _).mpr ⟨by omega, ?_⟩
  rw [hwritten, hstart, List.drop_append_of_le_length (by rw [written_length b hb]; exact hle)]

/-- The window of a store holds what it is observed as. -/
theorem getString_getLen (b : BufferStore) (hb : b.Fits) {xs : List UInt8} (h : b.Represents xs) :
    b.getString b.getLen = xs := by
  rw [h.2.1, b.getString_eq hb h _ (Nat.le_refl _), List.take_length]

/-- An initialised store is observed as the bytes it was given. -/
theorem initFrom_represents (b : BufferStore) (hb : b.Fits) (bytes : List UInt8) :
    (b.initFrom bytes).Represents bytes := by
  obtain ⟨hfits, hwritten⟩ := b.initFrom_spec hb bytes
  have := represents_written _ hfits rfl
  rwa [hwritten] at this

/-- A store made from bytes is observed as them. -/
theorem newFrom_represents (bytes : List UInt8) : (newFrom bytes).Represents bytes := by
  obtain ⟨hfits, hwritten⟩ := newFrom_spec bytes
  have := represents_written _ hfits rfl
  rwa [hwritten] at this

/-- Appended bytes are observed behind the others. -/
theorem addBytes_represents (b : BufferStore) (hb : b.Fits) {xs : List UInt8}
    (h : b.Represents xs) (bytes : List UInt8) : (b.addBytes bytes).Represents (xs ++ bytes) := by
  obtain ⟨hfits, hwritten⟩ := b.addBytes_spec hb bytes
  exact represents_append _ _ hb hfits h rfl hwritten

/-- An assigned store keeps its window in its block. -/
theorem assign_fits (b a : BufferStore) (hb : b.Fits) (ha : a.Fits) : (b.assign a).Fits := by
  rw [assign_eq _ _ ha]
  exact (b.initFrom_spec hb _).1

/-- An assigned store is observed as what the other one's window holds. -/
theorem assign_represents (b a : BufferStore) (hb : b.Fits) (ha : a.Fits) :
    (b.assign a).Represents (a.getString a.getLen) := by
  rw [assign_eq _ _ ha]
  exact b.initFrom_represents hb _

/-- Discarding drops from the observed list. -/
theorem represents_discard (b : BufferStore) (hb : b.Fits) {xs : List UInt8} (h : b.Represents xs)
    (n : ℕ) : (b.discardFirstBytes n).Represents (xs.drop n) := by
  obtain ⟨hle, rfl⟩ := (represents_iff b hb xs).mp h
  have hfits : (b.discardFirstBytes n).Fits := hb
  rw [represents_iff _ hfits, List.drop_drop]
  simp only [discardFirstBytes]
  split
  · refine ⟨Nat.le_refl _, ?_⟩
    change b.written.drop b.len = _
    rw [List.drop_of_length_le (by rw [written_length b hb]),
      List.drop_of_length_le (by rw [written_length b hb]; omega)]
  · exact ⟨by omega, rfl⟩

/-- Prepending is observed as prepending exactly when shifting the discarded bytes brings the
new ones to the start of the window. -/
theorem represents_prepend_iff (b : BufferStore) (hb : b.Fits) {xs : List UInt8}
    (h : b.Represents xs) (bytes : List UInt8) :
    (b.prependBytes bytes).Represents (bytes ++ xs) ↔
      (bytes ++ b.discarded).drop b.start = bytes := by
  obtain ⟨hle, rfl⟩ := (represents_iff b hb xs).mp h
  obtain ⟨hfits, hwritten⟩ := b.prependBytes_spec hb bytes
  have hdiscarded : b.discarded.length = b.start := by
    rw [discarded, List.length_take]
    have := hb.1
    have := hb.2
    omega
  have hsplit : b.written = b.discarded ++ b.written.drop b.start := by
    have htake : b.written.take b.start = b.discarded := by
      rw [written, List.take_take, Nat.min_eq_left hle, discarded]
    rw [← htake, List.take_append_drop]
  rw [represents_iff _ hfits, hwritten]
  constructor
  · rintro ⟨-, hdrop⟩
    change (bytes ++ b.written).drop b.start = _ at hdrop
    rw [hsplit, ← List.append_assoc, List.drop_append_of_le_length (by
      rw [List.length_append]; omega), ← hsplit] at hdrop
    exact List.append_cancel_right hdrop
  · intro hdrop
    refine ⟨Nat.le_add_right_of_le hle, ?_⟩
    change (bytes ++ b.written).drop b.start = _
    rw [hsplit, ← List.append_assoc, List.drop_append_of_le_length (by
      rw [List.length_append]; omega), hdrop, ← hsplit]

/-- Truncating is observed as taking exactly when nothing was discarded or nothing is cut. -/
theorem represents_truncate_iff (b : BufferStore) (hb : b.Fits) {xs : List UInt8}
    (h : b.Represents xs) (n : ℕ) :
    (b.truncate n).Represents (xs.take n) ↔ b.start = 0 ∨ b.len ≤ n := by
  obtain ⟨hle, rfl⟩ := (represents_iff b hb xs).mp h
  have hlength := written_length b hb
  have hwindow : (b.written.drop b.start).length = b.len - b.start := by
    rw [List.length_drop, hlength]
  unfold truncate
  split
  next hcut =>
    have hfits : ({ b with len := n } : BufferStore).Fits := ⟨by have := hb.1; simp only; omega, hb.2⟩
    have hwritten : ({ b with len := n } : BufferStore).written = b.written.take n := by
      simp only [written]
      rw [List.take_take, Nat.min_eq_left (by omega)]
    rw [represents_iff _ hfits, hwritten]
    constructor
    · rintro ⟨hstart, heq⟩
      simp only at hstart heq
      have hlen := congrArg List.length heq
      rw [List.length_drop, List.length_take, hlength, List.length_take, hwindow] at hlen
      omega
    · rintro (hzero | hbeyond)
      · simp only [hzero, List.drop_zero, Nat.zero_le, true_and]
      · omega
  next hkeep =>
    rw [List.take_of_length_le (by omega)]
    exact iff_of_true h (Or.inr (by omega))

end BufferStore

end Plptools
