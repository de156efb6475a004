import Plptools.Buffer.Refinement

/-!
# Sequences of buffer operations

A program runs over a pool of named stores, each default-constructed at first. Beside it runs
the same program over lists. The two stay observably equal exactly as long as no prepend and no
truncation meets a store whose discarded bytes make it land elsewhere, and every string that is
appended has fewer than 2³¹ characters.
-/

namespace Plptools

open Plptools.Library

/-- One operation on the pool; the first argument names the store that changes. -/
inductive BufferOp where
  | new (v : ℕ)
  | newFrom (v : ℕ) (bytes : List UInt8)
  | newCopy (v w : ℕ)
  | assign (v w : ℕ)
  | init (v : ℕ)
  | initFrom (v : ℕ) (bytes : List UInt8)
  | addByte (v : ℕ) (cc : UInt8)
  | addWord (v : ℕ) (a : ℤ)
  | addDWord (v : ℕ) (a : ℤ)
  | addString (v : ℕ) (s : List UInt8)
  | addStringT (v : ℕ) (s : List UInt8)
  | addBytes (v : ℕ) (bytes : List UInt8)
  | addBuff (v w : ℕ) (maxLen : ℤ)
  | prependByte (v : ℕ) (cc : UInt8)
  | prependWord (v : ℕ) (a : ℤ)
  | discardFirstBytes (v : ℕ) (n : ℕ)
  | truncate (v : ℕ) (n : ℕ)
deriving DecidableEq, Repr

namespace BufferOp

/-- The store that an operation changes. -/
def target : BufferOp → ℕ
  | new v | newFrom v _ | newCopy v _ | assign v _ | init v | initFrom v _ | addByte v _
  | addWord v _ | addDWord v _ | addString v _ | addStringT v _ | addBytes v _ | addBuff v _ _
  | prependByte v _ | prependWord v _ | discardFirstBytes v _ | truncate v _ => v

/-- What the operation makes of its store, unless it writes outside of that. Assigning a store to itself
does nothing. -/
def onStore (pool : ℕ → BufferStore) : BufferOp → Option BufferStore
  | new _ => some BufferStore.new
  | newFrom _ bytes => some (BufferStore.newFrom bytes)
  | newCopy _ w => some (BufferStore.newCopy (pool w))
  | assign v w => some (if v = w then pool v else (pool v).assign (pool w))
  | init v => some (pool v).init
  | initFrom v bytes => some ((pool v).initFrom bytes)
  | addByte v cc => some ((pool v).addByte cc)
  | addWord v a => some ((pool v).addWord a)
  | addDWord v a => some ((pool v).addDWord a)
  | addString v s => (pool v).addString s
  | addStringT v s => (pool v).addStringT s
  | addBytes v bytes => some ((pool v).addBytes bytes)
  | addBuff v w maxLen => some ((pool v).addBuff (pool w) maxLen)
  | prependByte v cc => some ((pool v).prependByte cc)
  | prependWord v a => some ((pool v).prependWord a)
  | discardFirstBytes v n => some ((pool v).discardFirstBytes n)
  | truncate v n => some ((pool v).truncate n)

/-- The corresponding list operation. -/
def onList (lists : ℕ → List UInt8) : BufferOp → List UInt8
  | new _ => []
  | newFrom _ bytes => bytes
  | newCopy _ w => lists w
  | assign _ w => lists w
  | init _ => []
  | initFrom _ bytes => bytes
  | addByte v cc => lists v ++ [cc]
  | addWord v a => lists v ++ BufferStore.wordBytes a
  | addDWord v a => lists v ++ BufferStore.dwordBytes a
  | addString v s => lists v ++ cString s
  | addStringT v s => lists v ++ (cString s ++ [0])
  | addBytes v bytes => lists v ++ bytes
  | addBuff v w maxLen =>
    lists v ++ (if 0 ≤ maxLen then (lists w).take maxLen.toNat else lists w)
  | prependByte v cc => cc :: lists v
  | prependWord v a => BufferStore.wordBytes a ++ lists v
  | discardFirstBytes v n => (lists v).drop n
  | truncate v n => (lists v).take n

/-- The operation does to the store what it does to the list. A prepend needs the shifted
discarded bytes to bring its own bytes to `start`, which is so when nothing was discarded. A
truncation needs a store from which nothing was discarded, or to cut nothing. A string needs a length
that an `int` can hold. -/
def KeepsList (pool : ℕ → BufferStore) : BufferOp → Prop
  | addString _ s | addStringT _ s => (cString s).length < 2 ^ 31
  | prependByte v cc => ([cc] ++ (pool v).discarded).drop (pool v).start = [cc]
  | prependWord v a =>
    (BufferStore.wordBytes a ++ (pool v).discarded).drop (pool v).start = BufferStore.wordBytes a
  | truncate v n => (pool v).start = 0 ∨ (pool v).len ≤ n
  | _ => True

end BufferOp

/-- Taking the counted bytes is taking `maxLen` of them, or all if that is negative. -/
theorem take_buffCount (xs : List UInt8) (maxLen : ℤ) :
    xs.take (BufferStore.buffCount xs.length maxLen) =
      if 0 ≤ maxLen then xs.take maxLen.toNat else xs := by
  unfold BufferStore.buffCount
  by_cases hneg : 0 ≤ maxLen
  · by_cases hcut : maxLen < xs.length
    · rw [if_pos ⟨hneg, hcut⟩, if_pos hneg]
    · rw [if_neg (fun h => hcut h.2), if_pos hneg, List.take_length,
        List.take_of_length_le (by omega)]
  · rw [if_neg (fun h => hneg h.1), if_neg hneg, List.take_length]

/-- The stores and the lists that a program has made so far. -/
structure BufferRun where
  pool : ℕ → BufferStore
  lists : ℕ → List UInt8

namespace BufferRun

/-- Before the program every store is default-constructed and every list is empty. -/
def start : BufferRun := ⟨fun _ => BufferStore.new, fun _ => []⟩

/-- Perform one operation on the stores and on the lists, if it stays inside its store. -/
def perform (r : BufferRun) (op : BufferOp) : Option BufferRun :=
  (op.onStore r.pool).map fun b =>
    ⟨Function.update r.pool op.target b, Function.update r.lists op.target (op.onList r.lists)⟩

/-- Nothing is performed behind an operation that wrote outside of its store. -/
def step (r : Option BufferRun) (op : BufferOp) : Option BufferRun := r.bind (·.perform op)

/-- Every store is observed as its list. -/
def Observed (r : BufferRun) : Prop := ∀ v, (r.pool v).Represents (r.lists v)

/-- Every store has its window in its block. -/
def Fits (r : BufferRun) : Prop := ∀ v, (r.pool v).Fits

/-- A string appends bytes, if anything. -/
theorem addString_cases {b b' : BufferStore} {s : List UInt8} (h : b.addString s = some b') :
    b' = b.addBytes ((cString s).take (intOf (cString s).length).toNat) := by
  rw [BufferStore.addString] at h
  split at h
  · exact (Option.some.inj h).symm
  · cases h

/-- A string that an `int` can hold the length of is appended whole. -/
theorem addString_short {s : List UInt8} (hs : (cString s).length < 2 ^ 31) (b : BufferStore) :
    b.addString s = some (b.addBytes (cString s)) := by
  have hpos : 0 ≤ intOf (cString s).length := by
    rw [intOf_eq hs]
    exact Int.natCast_nonneg _
  rw [BufferStore.addString, if_pos hpos, intOf_eq hs, Int.toNat_natCast, List.take_length]

/-- A string with its terminating zero appends bytes, if anything. -/
theorem addStringT_cases {b b' : BufferStore} {s : List UInt8} (h : b.addStringT s = some b') :
    b' = (b.addBytes ((cString s).take (intOf (cString s).length).toNat)).addBytes [0] := by
  obtain ⟨b₁, hb₁, rfl⟩ := Option.map_eq_some_iff.mp h
  rw [addString_cases hb₁]
  rfl

/-- The window of a store stays in its block under every operation, whatever it is read as. -/
theorem onStore_fits (pool : ℕ → BufferStore) (hpool : ∀ v, (pool v).Fits) {op : BufferOp} {b : BufferStore}
    (hb : op.onStore pool = some b) : b.Fits := by
  have hadd (v : ℕ) (bytes : List UInt8) : ((pool v).addBytes bytes).Fits :=
    ((pool v).addBytes_spec (hpool v) bytes).1
  cases op with
  | addString v s =>
    have hadded : (pool v).addString s = some b := hb
    rw [addString_cases hadded]
    exact hadd v _
  | addStringT v s =>
    have hadded : (pool v).addStringT s = some b := hb
    rw [addStringT_cases hadded]
    exact (BufferStore.addBytes_spec _ (hadd v _) _).1
  | new v =>
    rw [← Option.some.inj hb]
    exact BufferStore.new_fits
  | newFrom v bytes =>
    rw [← Option.some.inj hb]
    exact (BufferStore.newFrom_spec bytes).1
  | newCopy v w =>
    rw [← Option.some.inj hb, BufferStore.newCopy_eq _ (hpool w)]
    exact (BufferStore.newFrom_spec _).1
  | assign v w =>
    rw [← Option.some.inj hb]
    split
    · exact hpool v
    · exact (pool v).assign_fits (pool w) (hpool v) (hpool w)
  | init v =>
    rw [← Option.some.inj hb]
    exact ⟨Nat.zero_le _, (hpool v).2⟩
  | initFrom v bytes =>
    rw [← Option.some.inj hb]
    exact ((pool v).initFrom_spec (hpool v) bytes).1
  | addByte v cc =>
    rw [← Option.some.inj hb]
    exact hadd v _
  | addWord v a =>
    rw [← Option.some.inj hb]
    exact hadd v _
  | addDWord v a =>
    rw [← Option.some.inj hb]
    exact hadd v _
  | addBytes v bytes =>
    rw [← Option.some.inj hb]
    exact hadd v bytes
  | addBuff v w maxLen =>
    rw [← Option.some.inj hb]
    exact ((pool v).addBuff_spec (pool w) (hpool v) (hpool w) maxLen).1
  | prependByte v cc =>
    rw [← Option.some.inj hb]
    exact ((pool v).prependBytes_spec (hpool v) _).1
  | prependWord v a =>
    rw [← Option.some.inj hb]
    exact ((pool v).prependBytes_spec (hpool v) _).1
  | discardFirstBytes v n =>
    rw [← Option.some.inj hb]
    exact hpool v
  | truncate v n =>
    rw [← Option.some.inj hb, BufferStore.truncate]
    have hv := hpool v
    split
    · exact ⟨by have := hv.1; simp only; omega, hv.2⟩
    · exact hv

/-- What is read as a list has its length. -/
theorem represents_length {b : BufferStore} {xs ys : List UInt8} (hxs : b.Represents xs) (hys : b.Represents ys) :
    xs.length = ys.length := hxs.2.1.symm.trans hys.2.1

/-- A string whose length an `int` cannot hold is not appended whole. -/
theorem not_represents_long {b : BufferStore} {xs s tail : List UInt8} (hs : ¬(cString s).length < 2 ^ 31)
    (hb : b.Represents (xs ++ (cString s).take (intOf (cString s).length).toNat ++ tail)) :
    ¬b.Represents (xs ++ (cString s ++ tail)) := by
  intro h
  have hlength := represents_length h hb
  have hlt := intOf_lt (Nat.le_of_not_lt hs)
  simp only [List.length_append, List.length_take] at hlength
  omega

/-- The changed store is observed as the changed list exactly when the operation keeps lists. -/
theorem onStore_represents_iff (r : BufferRun) (hr : r.Fits) (hobs : r.Observed) (op : BufferOp) :
    (∃ b, op.onStore r.pool = some b ∧ b.Represents (op.onList r.lists)) ↔ op.KeepsList r.pool := by
  have happend : ∀ v bytes, ((r.pool v).addBytes bytes).Represents (r.lists v ++ bytes) :=
    fun v => (r.pool v).addBytes_represents (hr v) (hobs v)
  have hcontent : ∀ w, (r.pool w).getString (r.pool w).getLen = r.lists w :=
    fun w => (r.pool w).getString_getLen (hr w) (hobs w)
  have hsome (b : BufferStore) (xs : List UInt8) :
      (∃ b', some b = some b' ∧ b'.Represents xs) ↔ b.Represents xs :=
    ⟨fun ⟨_, hb, h⟩ => Option.some.inj hb ▸ h, fun h => ⟨b, rfl, h⟩⟩
  cases op with
  | addString v s =>
    constructor
    · rintro ⟨b, hb, hrep⟩
      by_contra hlong
      have hadded : (r.pool v).addString s = some b := hb
      have hcut := happend v ((cString s).take (intOf (cString s).length).toNat)
      rw [← addString_cases hadded, ← List.append_nil (r.lists v ++ _)] at hcut
      refine not_represents_long hlong hcut ?_
      rw [List.append_nil]
      exact hrep
    · intro hs
      exact ⟨_, addString_short hs (r.pool v), happend v _⟩
  | addStringT v s =>
    have hterminated (bytes : List UInt8) :
        (((r.pool v).addBytes bytes).addBytes [0]).Represents (r.lists v ++ bytes ++ [0]) :=
      BufferStore.addBytes_represents _ ((r.pool v).addBytes_spec (hr v) bytes).1 (happend v bytes) [0]
    constructor
    · rintro ⟨b, hb, hrep⟩
      by_contra hlong
      have hadded : (r.pool v).addStringT s = some b := hb
      have hcut := hterminated ((cString s).take (intOf (cString s).length).toNat)
      rw [← addStringT_cases hadded] at hcut
      exact not_represents_long hlong hcut hrep
    · intro hs
      have hadded : (r.pool v).addStringT s = some (((r.pool v).addBytes (cString s)).addByte 0) := by
        rw [BufferStore.addStringT, addString_short hs]
        rfl
      refine ⟨_, hadded, ?_⟩
      have hwhole := hterminated (cString s)
      rw [List.append_assoc] at hwhole
      exact hwhole
  | new v => exact (hsome _ _).trans (iff_of_true BufferStore.new_represents trivial)
  | newFrom v bytes => exact (hsome _ _).trans (iff_of_true (BufferStore.newFrom_represents bytes) trivial)
  | newCopy v w =>
    refine (hsome _ _).trans ?_
    rw [BufferStore.newCopy_eq _ (hr w), hcontent w]
    exact iff_of_true (BufferStore.newFrom_represents _) trivial
  | assign v w =>
    refine (hsome _ _).trans ?_
    rw [BufferOp.onList]
    split
    · rename_i heq
      exact iff_of_true (heq ▸ hobs v) trivial
    · have hassigned := (r.pool v).assign_represents (r.pool w) (hr v) (hr w)
      rw [hcontent w] at hassigned
      exact iff_of_true hassigned trivial
  | init v =>
    have hfits : (r.pool v).init.Fits := ⟨Nat.zero_le _, (hr v).2⟩
    exact (hsome _ _).trans
      (iff_of_true ((BufferStore.represents_iff _ hfits []).mpr ⟨Nat.le_refl _, rfl⟩) trivial)
  | initFrom v bytes => exact (hsome _ _).trans (iff_of_true ((r.pool v).initFrom_represents (hr v) bytes) trivial)
  | addByte v cc => exact (hsome _ _).trans (iff_of_true (happend v _) trivial)
  | addWord v a => exact (hsome _ _).trans (iff_of_true (happend v _) trivial)
  | addDWord v a => exact (hsome _ _).trans (iff_of_true (happend v _) trivial)
  | addBytes v bytes => exact (hsome _ _).trans (iff_of_true (happend v bytes) trivial)
  | addBuff v w maxLen =>
    obtain ⟨hfits, hwritten⟩ := (r.pool v).addBuff_spec (r.pool w) (hr v) (hr w) maxLen
    rw [(hobs w).2.1, (r.pool w).getString_eq (hr w) (hobs w) _ (BufferStore.buffCount_le _ _)]
      at hwritten
    have hstart : ((r.pool v).addBuff (r.pool w) maxLen).start = (r.pool v).start := by
      rw [BufferStore.addBuff]
      split <;> rfl
    have := BufferStore.represents_append _ _ (hr v) hfits (hobs v) hstart hwritten
    rw [take_buffCount] at this
    exact (hsome _ _).trans (iff_of_true this trivial)
  | prependByte v cc => exact (hsome _ _).trans ((r.pool v).represents_prepend_iff (hr v) (hobs v) [cc])
  | prependWord v a => exact (hsome _ _).trans ((r.pool v).represents_prepend_iff (hr v) (hobs v) _)
  | discardFirstBytes v n =>
    exact (hsome _ _).trans (iff_of_true ((r.pool v).represents_discard (hr v) (hobs v) n) trivial)
  | truncate v n => exact (hsome _ _).trans ((r.pool v).represents_truncate_iff (hr v) (hobs v) n)

/-- A step keeps every window in its block. -/
theorem perform_fits {r r' : BufferRun} (hr : r.Fits) {op : BufferOp} (h : r.perform op = some r') : r'.Fits := by
  obtain ⟨b, hb, rfl⟩ := Option.map_eq_some_iff.mp h
  intro v
  dsimp only
  by_cases hv : v = op.target
  · rw [hv, Function.update_self]
    exact onStore_fits r.pool hr hb
  · rw [Function.update_of_ne hv]
    exact hr v

/-- A step keeps stores and lists equal exactly when its operation keeps lists. -/
theorem perform_observed_iff (r : BufferRun) (hr : r.Fits) (hobs : r.Observed) (op : BufferOp) :
    (∃ r', r.perform op = some r' ∧ r'.Observed) ↔ op.KeepsList r.pool := by
  rw [← onStore_represents_iff r hr hobs op]
  constructor
  · rintro ⟨r', hr', h⟩
    obtain ⟨b, hb, rfl⟩ := Option.map_eq_some_iff.mp hr'
    have htarget := h op.target
    dsimp only at htarget
    rw [Function.update_self, Function.update_self] at htarget
    exact ⟨b, hb, htarget⟩
  · rintro ⟨b, hb, h⟩
    refine ⟨_, Option.map_eq_some_iff.mpr ⟨b, hb, rfl⟩, fun v => ?_⟩
    dsimp only
    by_cases hv : v = op.target
    · rw [hv, Function.update_self, Function.update_self]
      exact h
    · rw [Function.update_of_ne hv, Function.update_of_ne hv]
      exact hobs v

/-- The stores of a program are there and are observed as its lists after each of its operations exactly
when every prepend and every truncation keeps lists and no string is too long. -/
theorem observed_iff_keepsList (ops : List BufferOp) :
    (∀ seen, seen <+: ops → ∃ r, runFrom step (some start) seen = some r ∧ r.Observed) ↔
      Admits step (fun r op => ∀ s ∈ r, op.KeepsList s.pool) (some start) ops := by
  -- together with the windows, which stay in their blocks, this is kept by each step that is admitted
  have hstep : ∀ (r : Option BufferRun) (op : BufferOp), (∃ s, r = some s ∧ s.Fits ∧ s.Observed) →
      ((∃ s, step r op = some s ∧ s.Fits ∧ s.Observed) ↔ ∀ s ∈ r, op.KeepsList s.pool) := by
    rintro _ op ⟨s, rfl, hfits, hobs⟩
    have hkeeps := perform_observed_iff s hfits hobs op
    constructor
    · rintro ⟨s', hs', -, hobs'⟩ _ ⟨⟩
      exact hkeeps.mp ⟨s', hs', hobs'⟩
    · intro h
      obtain ⟨s', hs', hobs'⟩ := hkeeps.mpr (h s rfl)
      exact ⟨s', hs', perform_fits hfits hs', hobs'⟩
  have hstart : ∃ s, some start = some s ∧ s.Fits ∧ s.Observed :=
    ⟨start, rfl, fun _ => BufferStore.new_fits, fun _ => BufferStore.new_represents⟩
  rw [← forall_prefix_iff_admits hstep hstart ops]
  have hfits (seen : List BufferOp) : ∀ s ∈ runFrom step (some start) seen, s.Fits := by
    have hkept (r : Option BufferRun) (hr : ∀ s ∈ r, s.Fits) (op : BufferOp) : ∀ s ∈ step r op, s.Fits := by
      intro s hs
      obtain ⟨s', hs', hperform⟩ := Option.bind_eq_some_iff.mp hs
      exact perform_fits (hr s' hs') hperform
    have hnew : ∀ s ∈ some start, s.Fits := by
      rintro _ ⟨⟩
      exact fun _ => BufferStore.new_fits
    exact runFrom_invariant hkept hnew seen
  refine forall₂_congr fun seen _ => exists_congr fun r => and_congr_right fun hr => ?_
  exact (and_iff_right (hfits seen r hr)).symm

/-- A byte put in front of a store from which one was discarded is not the first byte read:
after appending 1 and 2, discarding one byte and prepending 9, the store reads 1, 2. -/
theorem prepend_after_discard_differs :
    ¬∃ r, runFrom step (some start)
      [.addByte 0 1, .addByte 0 2, .discardFirstBytes 0 1, .prependByte 0 9] = some r ∧ r.Observed := by
  rintro ⟨r, hr, h⟩
  obtain rfl := Option.some.inj hr
  have hbyte := (h 0).2.2 0 (by decide)
  revert hbyte
  decide

end BufferRun

end Plptools
