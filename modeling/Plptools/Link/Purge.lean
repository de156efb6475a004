import Plptools.Link.Numbers

/-!
# Purging a channel

When the peer disconnects a channel, the NCP has the link forget the packets for it. `purgeQueue`
looks at the first byte of what is queued. In `holdQueue` that is the remote channel, in
`ackWaitQueue` it is the first byte of the link header, and `waitQueue` is not looked at.
-/

namespace Plptools

open Plptools.Library

/-- The remote channel that the packet of an element is for; a packet of the negotiation is for
none. -/
def addressee (e : AckWaitQueueElement) : Option UInt8 :=
  if IsData e.data then (header e.data).2.2.head? else none

/-- The content of a frame with one byte is empty. -/
theorem header_singleton (byte : UInt8) : (header [byte]).2.2 = [] := by
  unfold header
  dsimp only
  split <;> rfl

/-- The frames of the negotiation are for no channel. -/
theorem addressee_of_isControl {e : AckWaitQueueElement} (h : IsControl e.data) : addressee e = none := by
  obtain ⟨seq, content, hheader, -⟩ := h.header
  rw [addressee, if_neg]
  simp [IsData, hheader]

/-- The addressee is the first byte of the packet that was numbered. -/
theorem addressee_of_frameOf {e : AckWaitQueueElement} {buf : List UInt8} (hseq : e.seq < 2048)
    (h : e.data = Link.frameOf e.seq buf) : addressee e = buf.head? := by
  unfold Link.frameOf at h
  by_cases hempty : buf = []
  · rw [if_pos hempty] at h
    rw [addressee, h, header_singleton, hempty]
    exact ite_self _
  · rw [if_neg hempty] at h
    rw [addressee, h, if_pos (isData_seqBytes hseq buf), header_seqBytes (.inr rfl) hseq]

namespace Link

/-- In every state that a link comes to, an element is of the negotiation and for no channel, or its
addressee is the first byte of the packet at its index. -/
theorem lived_addressee (env : Env) (conMagic : ℤ) (events : List LifeEvent) :
    ∀ e ∈ (lived env conMagic events).ackWaitQueue, (IsControl e.data ∧ addressee e = none) ∨
      ∃ buf, (lived env conMagic events).numbered[e.index]? = some buf ∧ addressee e = buf.head? := by
  intro e he
  have hsound := lived_sound env conMagic events
  have helement := hsound.queue e he
  rcases helement.carries with hcontrol | ⟨buf, hbuf, hframe⟩
  · exact .inl ⟨hcontrol, addressee_of_isControl hcontrol⟩
  · have hseq : e.seq < 2048 := Nat.lt_succ_of_le (helement.seq.trans hsound.mask_le)
    exact .inr ⟨buf, hbuf, addressee_of_frameOf hseq hframe⟩

/-- The queues have lost the packets for a channel and nothing else. -/
structure Purged (c : UInt8) (l m : Link) : Prop where
  ackWaitQueue : m.ackWaitQueue = l.ackWaitQueue.filter fun e => addressee e ≠ some c
  holdQueue : m.holdQueue = l.holdQueue.filter fun buf => buf.head? ≠ some c
  waitQueue : m.waitQueue = l.waitQueue.filter fun buf => buf.head? ≠ some c

/-- The packets for the channel are those that `purgeQueue` finds: the frames that wait for an
acknowledgement start with the number of the channel just when they are for it, no empty packet is
held when the channel is 0, and no packet for the channel waits for the window. -/
structure PurgeFinds (c : UInt8) (l : Link) : Prop where
  ackWaitQueue : ∀ e ∈ l.ackWaitQueue, e.data.getD 0 0 = c ↔ addressee e = some c
  holdQueue : c = 0 → [] ∉ l.holdQueue
  waitQueue : ∀ buf ∈ l.waitQueue, buf.head? ≠ some c

/-- Two tests keep the same elements of a list exactly when they agree on all of them. -/
theorem filter_eq_filter_iff {A : Type*} {p q : A → Bool} {l : List A} :
    l.filter p = l.filter q ↔ ∀ a ∈ l, p a = q a := by
  constructor
  · intro heq a ha
    rw [Bool.eq_iff_iff]
    have hmem : a ∈ l.filter p ↔ a ∈ l.filter q := by rw [heq]
    simpa [List.mem_filter, ha] using hmem
  · exact List.filter_congr

/-- The first byte of a packet, where an empty one reads as 0. -/
theorem getD_eq_iff_head? {buf : List UInt8} {c : UInt8} :
    (buf.getD 0 0 = c ↔ buf.head? = some c) ↔ ¬(c = 0 ∧ buf = []) := by
  cases buf with
  | nil => simp [eq_comm]
  | cons first rest => simp

/-- A purge removes the packets for the channel, and no others, exactly when it finds them. -/
theorem purged_iff (c : UInt8) (l : Link) : Purged c l (l.purgeQueue c.toNat) ↔ PurgeFinds c l := by
  have hwait : l.waitQueue = (l.waitQueue.filter fun buf => buf.head? ≠ some c) ↔
      ∀ buf ∈ l.waitQueue, buf.head? ≠ some c := by
    rw [eq_comm, List.filter_eq_self]
    simp
  have hhold : (l.purgeQueue c.toNat).holdQueue = (l.holdQueue.filter fun buf => buf.head? ≠ some c) ↔
      (c = 0 → [] ∉ l.holdQueue) := by
    rw [purgeQueue, filter_eq_filter_iff]
    simp only [ne_eq, UInt8.toNat_inj, decide_eq_decide, not_iff_not, getD_eq_iff_head?]
    constructor
    · intro h hzero hmem
      exact h [] hmem ⟨hzero, rfl⟩
    · rintro h buf hbuf ⟨hzero, rfl⟩
      exact h hzero hbuf
  have hack : (l.purgeQueue c.toNat).ackWaitQueue =
      (l.ackWaitQueue.filter fun e => addressee e ≠ some c) ↔
        ∀ e ∈ l.ackWaitQueue, e.data.getD 0 0 = c ↔ addressee e = some c := by
    rw [purgeQueue, filter_eq_filter_iff]
    simp only [ne_eq, UInt8.toNat_inj, decide_eq_decide, not_iff_not]
  constructor
  · rintro ⟨h, h', h''⟩
    exact ⟨hack.mp h, hhold.mp h', hwait.mp h''⟩
  · rintro ⟨h, h', h''⟩
    exact ⟨hack.mpr h, hhold.mpr h', hwait.mpr h''⟩

/-- Over the life of a link, every purge removes the packets for its channel, and no others, exactly
when each purge finds them. -/
theorem purges_iff (env : Env) (conMagic : ℤ) (events : List LifeEvent) :
    (∀ seen c, seen ++ [.event (.purgeQueue c.toNat)] <+: events →
        Purged c (lived env conMagic seen)
          (live env (lived env conMagic seen) (.event (.purgeQueue c.toNat)))) ↔
      ∀ seen (c : UInt8), seen ++ [.event (.purgeQueue c.toNat)] <+: events →
        PurgeFinds c (lived env conMagic seen) := by
  constructor
  · intro hall seen c hseen
    exact (purged_iff c _).mp (hall seen c hseen)
  · intro hall seen c hseen
    exact (purged_iff c _).mpr (hall seen c hseen)

/-- A packet for the channel that waits for its acknowledgement is not removed. -/
theorem purge_misses_packet : ¬ ∀ (env : Env) (conMagic : ℤ) (events : List LifeEvent) (c : UInt8),
    Purged c (lived env conMagic events) ((lived env conMagic events).purgeQueue c.toNat) := by
  intro hall
  have hpurged := hall stillEnv 0 [.event (.receive [0x20]), .event (.send [5, 1])] 5
  exact absurd hpurged.ackWaitQueue (by decide)

end Link

end Plptools
