import Plptools.Library.Block
import Plptools.Library.Run
import Plptools.Library.SortedSlots

/-!
# The set of descriptors that the daemon waits for

`IOWatch` keeps the descriptors to wait for in an array, largest first. `addIO` compares the
new descriptor with the slot at its place even when that slot lies behind the last one in use.
-/

namespace Plptools

open Library

namespace IOWatch

/-- The number of slots of the array, and the bound of the descriptors `select` takes. -/
def FD_SETSIZE : ℕ := 1024

/-- The bytes of an `int`. -/
def sizeofInt : ℕ := 4

end IOWatch

/-- The descriptors in use are the first `fileDescriptorCount_` slots. -/
structure IOWatch where
  fileDescriptorCount_ : ℕ
  fileDescriptors_ : Block ℤ

namespace IOWatch

/-- The constructor. `memset` counts bytes, so only the slots that `FD_SETSIZE` bytes cover are
set to `-1`; the others hold what the memory held. -/
def new (memory : ℕ → ℤ) : IOWatch where
  fileDescriptorCount_ := 0
  fileDescriptors_ := ⟨FD_SETSIZE, fun i => if i < FD_SETSIZE / sizeofInt then -1 else memory i⟩

/-- Writing a slot replaces it. -/
def overwrite (_ fd : ℤ) : ℤ := fd

/-- The loop of `addIO` that looks for the place of the descriptor: `left` slots in use from
`pos` on. -/
def addPos (fileDescriptors_ : Block ℤ) (fd : ℤ) : ℕ → ℕ → Option ℕ
  | 0, pos => some pos
  | left + 1, pos => do
    let entry ← fileDescriptors_.load pos
    if fd < entry then addPos fileDescriptors_ fd left (pos + 1) else some pos

/-- Adds a descriptor; nothing where the code leaves the array. -/
def addIO (w : IOWatch) (fd : ℤ) : Option IOWatch := do
  let pos ← addPos w.fileDescriptors_ fd w.fileDescriptorCount_ 0
  let entry ← w.fileDescriptors_.load pos
  if entry = fd then some w
  else do
    let moved ← Block.moveUp overwrite pos w.fileDescriptorCount_ w.fileDescriptors_
    let fileDescriptors_ ← moved.store overwrite pos fd
    some ⟨w.fileDescriptorCount_ + 1, fileDescriptors_⟩

/-- The loop of `remIO` that looks for the descriptor. -/
def remPos (fileDescriptors_ : Block ℤ) (fd : ℤ) : ℕ → ℕ → Option ℕ
  | 0, pos => some pos
  | left + 1, pos => do
    let entry ← fileDescriptors_.load pos
    if fd ≠ entry then remPos fileDescriptors_ fd left (pos + 1) else some pos

/-- Removes a descriptor; nothing where the code leaves the array. -/
def remIO (w : IOWatch) (fd : ℤ) : Option IOWatch := do
  let pos ← remPos w.fileDescriptors_ fd w.fileDescriptorCount_ 0
  if pos ≠ w.fileDescriptorCount_ then do
    let count := w.fileDescriptorCount_ - 1
    let fileDescriptors_ ← Block.moveDown overwrite (count - pos) pos w.fileDescriptors_
    some ⟨count, fileDescriptors_⟩
  else some w

/-- What `watch` passes to `select`: the bound of the descriptors and the set `iop`. -/
def watch (w : IOWatch) : ℤ × List ℤ :=
  let fds := (List.range w.fileDescriptorCount_).map w.fileDescriptors_.cell
  let maxfd := fds.foldl (fun maxfd fd => if fd > maxfd then fd else maxfd) 0
  (maxfd + 1, fds)

/-- `select` waits for a descriptor that is in the set and below the bound. -/
def Watches (w : IOWatch) (fd : ℤ) : Prop :=
  fd ∈ w.watch.2 ∧ fd < w.watch.1

/-! ## The loops that look for a place -/

section Loops

variable {fds : Block ℤ} {pos left : ℕ}

/-- The place of a descriptor has larger ones before it and none larger at it. -/
theorem addPos_spec (fd : ℤ) (hcount : pos + left ≤ fds.size) (hbefore : ∀ i < pos, fd < fds.cell i) :
    ∃ place, addPos fds fd left pos = some place ∧ place ≤ pos + left ∧
      (∀ i < place, fd < fds.cell i) ∧ (place < pos + left → fds.cell place ≤ fd) := by
  induction left generalizing pos with
  | zero => exact ⟨pos, by simp [addPos], by omega, hbefore, by omega⟩
  | succ left ih =>
    have hload : fds.load pos = some (fds.cell pos) := Block.load_of_lt (by omega)
    by_cases hlt : fd < fds.cell pos
    · have hnext : ∀ i < pos + 1, fd < fds.cell i := by
        intro i hi
        rcases Nat.lt_succ_iff_lt_or_eq.mp hi with h | rfl
        · exact hbefore i h
        · exact hlt
      obtain ⟨place, hplace, hle, hlarger, hat⟩ := ih (by omega) hnext
      exact ⟨place, by simp [addPos, hload, hlt, hplace], by omega, hlarger, fun h => hat (by omega)⟩
    · exact ⟨pos, by simp [addPos, hload, hlt], by omega, hbefore, fun _ => not_lt.mp hlt⟩

/-- The search of a removed descriptor stops at it or behind the last slot in use. -/
theorem remPos_spec (fd : ℤ) (hcount : pos + left ≤ fds.size) (hbefore : ∀ i < pos, fds.cell i ≠ fd) :
    ∃ place, remPos fds fd left pos = some place ∧ place ≤ pos + left ∧
      (∀ i < place, fds.cell i ≠ fd) ∧ (place < pos + left → fds.cell place = fd) := by
  induction left generalizing pos with
  | zero => exact ⟨pos, by simp [remPos], by omega, hbefore, by omega⟩
  | succ left ih =>
    have hload : fds.load pos = some (fds.cell pos) := Block.load_of_lt (by omega)
    by_cases heq : fd = fds.cell pos
    · exact ⟨pos, by simp [remPos, hload, heq], by omega, hbefore, fun _ => heq.symm⟩
    · have hnext : ∀ i < pos + 1, fds.cell i ≠ fd := by
        intro i hi
        rcases Nat.lt_succ_iff_lt_or_eq.mp hi with h | rfl
        · exact hbefore i h
        · exact Ne.symm heq
      obtain ⟨place, hplace, hle, hother, hat⟩ := ih (by omega) hnext
      exact ⟨place, by simp [remPos, hload, heq, hplace], by omega, hother, fun h => hat (by omega)⟩

end Loops

/-! ## The operations -/

/-- The entries of the watch are the set, in an array of the size it was made with. -/
structure Holds (w : IOWatch) (s : Finset ℤ) : Prop where
  size : w.fileDescriptors_.size = FD_SETSIZE
  entries : HoldsSet w.fileDescriptors_.cell w.fileDescriptorCount_ s

section Operations

variable {w : IOWatch} {fd : ℤ} {s : Finset ℤ}

/-- A new watch holds no descriptor. -/
theorem holds_new (memory : ℕ → ℤ) : (new memory).Holds ∅ :=
  ⟨rfl, HoldsSet.empty _⟩

/-- The slot that `addIO` takes for the descriptor itself: it does not hold it when the
descriptor is below all others and the slot behind them still has its value. -/
def FreshSlot (w : IOWatch) (s : Finset ℤ) (fd : ℤ) : Prop :=
  (∀ other ∈ s, fd < other) → w.fileDescriptors_.cell w.fileDescriptorCount_ ≠ fd

instance (w : IOWatch) (s : Finset ℤ) (fd : ℤ) : Decidable (FreshSlot w s fd) :=
  inferInstanceAs (Decidable (_ → _))

/-- The entries before the place of a descriptor are larger, the others are not. -/
theorem Holds.place (h : w.Holds s) (hsize : w.fileDescriptorCount_ ≤ FD_SETSIZE) (fd : ℤ) :
    ∃ pos, addPos w.fileDescriptors_ fd w.fileDescriptorCount_ 0 = some pos ∧
      pos ≤ w.fileDescriptorCount_ ∧ (∀ i < pos, fd < w.fileDescriptors_.cell i) ∧
      ∀ i < w.fileDescriptorCount_, pos ≤ i → w.fileDescriptors_.cell i ≤ fd := by
  have hroom : 0 + w.fileDescriptorCount_ ≤ w.fileDescriptors_.size := by
    rw [h.size]
    omega
  obtain ⟨pos, hpos, hle, hbefore, hat⟩ := addPos_spec fd hroom (by omega)
  rw [Nat.zero_add] at hle hat
  refine ⟨pos, hpos, hle, hbefore, fun i hi hpi => ?_⟩
  rcases Nat.eq_or_lt_of_le hpi with rfl | hlt
  · exact hat hi
  · exact (h.entries.descending pos i hlt hi).le.trans (hat (by omega))

/-- A descriptor that is there is not added. -/
theorem addIO_of_mem (h : w.Holds s) (hsize : w.fileDescriptorCount_ ≤ FD_SETSIZE)
    (hin : fd ∈ s) : w.addIO fd = some w := by
  obtain ⟨pos, hpos, -, hbefore, hbehind⟩ := h.place hsize fd
  obtain ⟨hlt, heq⟩ := (h.entries.mem_iff_at hbefore hbehind).mp hin
  have hload : w.fileDescriptors_.load pos = some fd := by
    rw [Block.load_of_lt (by rw [h.size]; omega), heq]
  simp [hpos, hload, addIO]

/-- A descriptor that the slot behind all larger ones still holds is taken for present. -/
theorem addIO_of_stale (h : w.Holds s) (hsize : w.fileDescriptorCount_ < FD_SETSIZE)
    (hstale : ¬ w.FreshSlot s fd) : w.addIO fd = some w := by
  simp only [FreshSlot, Classical.not_imp, not_not] at hstale
  obtain ⟨pos, hpos, hle, -, hbehind⟩ := h.place hsize.le fd
  have hend : pos = w.fileDescriptorCount_ := by
    by_contra hne
    have hlt : pos < w.fileDescriptorCount_ := by omega
    have hlarger := hstale.1 _ ((h.entries.mem _).mpr ⟨pos, hlt, rfl⟩)
    exact absurd (hbehind pos hlt le_rfl) (not_le.mpr hlarger)
  have hload : w.fileDescriptors_.load pos = some fd := by
    rw [Block.load_of_lt (by rw [h.size]; omega), hend, hstale.2]
  simp [hpos, hload, addIO]

/-- Another descriptor is put at its place. -/
theorem addIO_of_fresh (h : w.Holds s) (hsize : w.fileDescriptorCount_ < FD_SETSIZE)
    (hnot : fd ∉ s) (hfresh : w.FreshSlot s fd) :
    ∃ w', w.addIO fd = some w' ∧ w'.Holds (insert fd s) := by
  have hroom : w.fileDescriptorCount_ < w.fileDescriptors_.size := by rwa [h.size]
  obtain ⟨pos, hpos, hle, hbefore, hbehind⟩ := h.place hsize.le fd
  have hload : w.fileDescriptors_.load pos = some (w.fileDescriptors_.cell pos) :=
    Block.load_of_lt (by omega)
  have hother : w.fileDescriptors_.cell pos ≠ fd := by
    by_cases hend : pos = w.fileDescriptorCount_
    · rw [hend]
      apply hfresh
      intro other hin
      obtain ⟨i, hi, rfl⟩ := (h.entries.mem other).mp hin
      exact hbefore i (by omega)
    · exact fun heq => hnot ((h.entries.mem fd).mpr ⟨pos, by omega, heq⟩)
  obtain ⟨moved, hmoved, hmovedSize, hup, hkept⟩ :=
    Block.moveUp_spec overwrite pos w.fileDescriptors_ hroom
  have hstore : moved.store overwrite pos fd = some (moved.set overwrite pos fd) :=
    Block.store_of_lt (by omega)
  refine ⟨⟨w.fileDescriptorCount_ + 1, moved.set overwrite pos fd⟩,
    by simp [hpos, hload, hother, hmoved, hstore, addIO], ?_, ?_⟩
  · simp only [Block.set_size]
    exact hmovedSize.trans h.size
  · apply h.entries.insert hle hbefore
    · intro i hi hpi
      exact lt_of_le_of_ne (hbehind i hi hpi) fun heq => hnot ((h.entries.mem fd).mpr ⟨i, hi, heq⟩)
    · intro i hi
      rw [Block.set_cell_of_ne hi.ne, hkept i (.inl hi.le)]
    · exact Block.set_cell_self
    · intro i hpi hi
      rw [Block.set_cell_of_ne (by omega), hup i hpi hi, overwrite]

/-- Adding a descriptor keeps the entries a set exactly when the slot at its place is fresh. -/
theorem holds_addIO (h : w.Holds s) (hcard : (insert fd s).card ≤ FD_SETSIZE) :
    (∃ w', w.addIO fd = some w' ∧ w'.Holds (insert fd s)) ↔ w.FreshSlot s fd := by
  have hcount := h.entries.card_eq
  by_cases hin : fd ∈ s
  · rw [Finset.insert_eq_of_mem hin] at hcard ⊢
    have hfresh : w.FreshSlot s fd := fun hbelow => absurd (hbelow fd hin) (lt_irrefl fd)
    exact iff_of_true ⟨w, addIO_of_mem h (hcount ▸ hcard) hin, h⟩ hfresh
  · have hsize : w.fileDescriptorCount_ < FD_SETSIZE := by
      rw [Finset.card_insert_of_notMem hin, hcount] at hcard
      exact hcard
    constructor
    · rintro ⟨w', hw', hheld⟩
      by_contra hstale
      obtain rfl : w = w' := Option.some.inj ((addIO_of_stale h hsize hstale).symm.trans hw')
      exact hin ((h.entries.mem fd).mpr ((hheld.entries.mem fd).mp (Finset.mem_insert_self fd s)))
    · exact addIO_of_fresh h hsize hin

/-- Removing a descriptor removes it from the set. -/
theorem holds_remIO (h : w.Holds s) (hcard : s.card ≤ FD_SETSIZE) (fd : ℤ) :
    ∃ w', w.remIO fd = some w' ∧ w'.Holds (s.erase fd) := by
  have hroom : 0 + w.fileDescriptorCount_ ≤ w.fileDescriptors_.size := by
    rw [h.size, ← h.entries.card_eq]
    omega
  obtain ⟨pos, hpos, hle, hbefore, hat⟩ := remPos_spec fd hroom (by omega)
  rw [Nat.zero_add] at hle hat
  by_cases hend : pos = w.fileDescriptorCount_
  · have hnot : fd ∉ s := by
      intro hin
      obtain ⟨i, hi, heq⟩ := (h.entries.mem fd).mp hin
      exact hbefore i (by omega) heq
    rw [Finset.erase_eq_of_notMem hnot]
    exact ⟨w, by simp [hpos, hend, remIO], h⟩
  · obtain ⟨count, hcount⟩ : ∃ count, w.fileDescriptorCount_ = count + 1 :=
      Nat.exists_eq_add_one_of_ne_zero (by omega)
    obtain ⟨moved, hmoved, hmovedSize, hdown, hkept⟩ :=
      Block.moveDown_spec overwrite (count - pos) pos w.fileDescriptors_ (by omega)
    rw [hcount] at hpos hend
    refine ⟨⟨count, moved⟩, by simp [hcount, hpos, hend, hmoved, remIO], hmovedSize.trans h.size, ?_⟩
    have hheld : HoldsSet w.fileDescriptors_.cell (count + 1) s := hcount ▸ h.entries
    rw [← hat (by omega)]
    apply hheld.erase (by omega)
    · exact fun i hi => hkept i (.inl hi)
    · exact fun i hpi hi => hdown i hpi (by omega)

/-- The bound for `select` is above every descriptor of the set. -/
theorem le_maxfd (fds : List ℤ) (maxfd : ℤ) :
    maxfd ≤ fds.foldl (fun maxfd fd => if fd > maxfd then fd else maxfd) maxfd ∧
      ∀ fd ∈ fds, fd ≤ fds.foldl (fun maxfd fd => if fd > maxfd then fd else maxfd) maxfd := by
  induction fds generalizing maxfd with
  | nil => simp
  | cons fd fds ih =>
    obtain ⟨hstart, hall⟩ := ih (if fd > maxfd then fd else maxfd)
    have hboth : maxfd ≤ (if fd > maxfd then fd else maxfd) ∧
        fd ≤ (if fd > maxfd then fd else maxfd) := by
      split <;> omega
    simp only [List.foldl_cons, List.forall_mem_cons]
    exact ⟨hboth.1.trans hstart, hboth.2.trans hstart, hall⟩

/-- Every descriptor of the set is waited for. -/
theorem Holds.watches (h : w.Holds s) (hfd : fd ∈ s) : w.Watches fd := by
  obtain ⟨i, hi, rfl⟩ := (h.entries.mem fd).mp hfd
  have hin : w.fileDescriptors_.cell i ∈ w.watch.2 := by
    simp only [watch, List.mem_map, List.mem_range]
    exact ⟨i, hi, rfl⟩
  refine ⟨hin, ?_⟩
  have hle := (le_maxfd w.watch.2 0).2 _ hin
  exact Int.lt_add_one_of_le hle

end Operations

/-! ## Sequences of calls -/

/-- A call of the watch. -/
inductive Call where
  | addIO (fd : ℤ)
  | remIO (fd : ℤ)
  deriving DecidableEq

/-- The watch, if it is still inside its array, and the descriptors added and not removed since. -/
structure Served where
  watch : Option IOWatch
  live : Finset ℤ

namespace Served

/-- A new watch. -/
def start (memory : ℕ → ℤ) : Served := ⟨some (new memory), ∅⟩

/-- A call on the watch and on the set. -/
def step (r : Served) : Call → Served
  | Call.addIO fd => ⟨r.watch.bind fun w => IOWatch.addIO w fd, insert fd r.live⟩
  | Call.remIO fd => ⟨r.watch.bind fun w => IOWatch.remIO w fd, r.live.erase fd⟩

/-- The live descriptors fit into the array. -/
def Fits (r : Served) : Prop := r.live.card ≤ FD_SETSIZE

/-- The entries are the live descriptors in strictly descending order, and those that a
descriptor set can hold are waited for. -/
def IsSet (r : Served) : Prop :=
  ∃ w, r.watch = some w ∧ w.Holds r.live ∧
    ∀ fd ∈ r.live, 0 ≤ fd → fd < FD_SETSIZE → w.Watches fd

/-- A call adds no descriptor that the slot behind the last one in use still holds while all
live descriptors are larger. -/
def FreshCall (r : Served) : Call → Prop
  | Call.addIO fd => ∀ w ∈ r.watch, w.FreshSlot r.live fd
  | Call.remIO _ => True

instance (r : Served) : Decidable r.Fits := inferInstanceAs (Decidable (_ ≤ _))

instance (r : Served) : ∀ call, Decidable (r.FreshCall call)
  | Call.addIO fd => inferInstanceAs (Decidable (∀ w ∈ r.watch, w.FreshSlot r.live fd))
  | Call.remIO _ => inferInstanceAs (Decidable True)

/-- What is in the array is also waited for. -/
theorem isSet_iff (r : Served) : r.IsSet ↔ ∃ w, r.watch = some w ∧ w.Holds r.live := by
  constructor
  · rintro ⟨w, hw, hheld, -⟩
    exact ⟨w, hw, hheld⟩
  · rintro ⟨w, hw, hheld⟩
    exact ⟨w, hw, hheld, fun fd hfd _ _ => hheld.watches hfd⟩

/-- A call keeps the entries the set of live descriptors exactly when it meets no stale slot. -/
theorem isSet_step (r : Served) (call : Call) (h : r.IsSet) (hfits : (r.step call).Fits)
    (hbefore : r.Fits) : (r.step call).IsSet ↔ r.FreshCall call := by
  obtain ⟨w, hw, hheld, -⟩ := h
  rw [isSet_iff]
  cases call with
  | addIO fd =>
    have hadd := holds_addIO hheld hfits
    simpa [step, FreshCall, hw] using hadd
  | remIO fd =>
    have hrem := holds_remIO hheld hbefore fd
    simpa [step, FreshCall, hw] using hrem

end Served

/-- Descriptors are added one after the other. -/
def adding (fds : List ℤ) : List Call := fds.map Call.addIO

/-- Descriptors are removed one after the other. -/
def removing (fds : List ℤ) : List Call := fds.map Call.remIO

end IOWatch

end Plptools
