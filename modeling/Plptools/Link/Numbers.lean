import Plptools.Link.Reset
import Plptools.Link.Session
import Plptools.Link.Handshake

/-!
# The numbers of a link

Over the whole life of a link, resets and new negotiations included, its sequence numbers stay under
the mask, except that a link that has accepted nothing yet remembers -1. An element that waits for an
acknowledgement is a packet of the negotiation, or has the frame of the packet at its index.
-/

namespace Plptools

open Plptools.Library

namespace Link

/-- The element is of the negotiation, or carries the packet that was numbered at its index. -/
def Carries (l : Link) (e : AckWaitQueueElement) : Prop :=
  IsControl e.data ∨ ∃ buf, l.numbered[e.index]? = some buf ∧ e.data = frameOf e.seq buf

/-- An element that waits for an acknowledgement: its number is under the mask, and its stamp was
read from the clock. -/
structure SoundElement (env : Env) (l : Link) (e : AckWaitQueueElement) : Prop where
  seq : e.seq ≤ l.seqMask
  stamp : ∃ reads, e.stamp = env.gettimeofday reads
  carries : l.Carries e

/-- The numbers of a link are under its mask, which is that of a new link until a packet is
accepted. -/
structure Sound (env : Env) (l : Link) : Prop where
  mask : l.seqMask = 7 ∨ l.seqMask = 0x7ff
  fresh : l.rxSequence = -1 → l.seqMask = 7
  tx : l.txSequence ≤ l.seqMask
  least : -1 ≤ l.rxSequence
  most : l.rxSequence ≤ l.seqMask
  queue : ∀ e ∈ l.ackWaitQueue, l.SoundElement env e

variable {env : Env} {l m : Link}

/-- No number has more than eleven bits. -/
theorem Sound.mask_le (h : l.Sound env) : l.seqMask ≤ 0x7ff := by
  rcases h.mask with heq | heq <;> simp [heq]

/-- An element that waited before, perhaps with a stamp of its own. -/
def Before (env : Env) (l : Link) (e : AckWaitQueueElement) : Prop :=
  ∃ e' ∈ l.ackWaitQueue, packet e' = packet e ∧
    (e.stamp = e'.stamp ∨ ∃ reads, e.stamp = env.gettimeofday reads)

/-- A packet that waits was numbered before. -/
theorem before_of_mem {e : AckWaitQueueElement} (he : e ∈ l.ackWaitQueue) : Before env l e :=
  ⟨e, he, rfl, .inl rfl⟩

/-- An element that was sound still is where the mask and the packets with a number have grown. -/
theorem SoundElement.before (h : l.Sound env) {e : AckWaitQueueElement} (he : Before env l e)
    (hmask : l.seqMask ≤ m.seqMask) (hnumbered : l.numbered <+: m.numbered) : m.SoundElement env e := by
  obtain ⟨e', he', hsame, hstamp⟩ := he
  obtain ⟨hseq, hdata, hindex⟩ := packet_inj hsame
  have hold := h.queue e' he'
  refine ⟨hseq ▸ hold.seq.trans hmask, ?_, ?_⟩
  · rcases hstamp with heq | hclock
    · exact heq ▸ hold.stamp
    · exact hclock
  · rcases hold.carries with hcontrol | ⟨buf, hbuf, hframe⟩
    · exact .inl (hdata ▸ hcontrol)
    · refine .inr ⟨buf, ?_, ?_⟩
      · obtain ⟨later, hlater⟩ := hnumbered
        rw [← hindex, ← hlater, List.getElem?_append_left (List.getElem?_eq_some_iff.mp hbuf).1, hbuf]
      · rw [← hdata, hframe, hseq]

/-- A step that leaves the numbers alone and adds no element. -/
theorem Sound.keep (h : l.Sound env) (hmask : m.seqMask = l.seqMask)
    (htx : m.txSequence = l.txSequence) (hrx : m.rxSequence = l.rxSequence)
    (hnumbered : m.numbered = l.numbered) (hqueue : ∀ e ∈ m.ackWaitQueue, Before env l e) :
    m.Sound env := by
  refine ⟨hmask ▸ h.mask, hmask ▸ hrx ▸ h.fresh, ?_, hrx ▸ h.least, ?_, fun e he => ?_⟩
  · rw [htx, hmask]
    exact h.tx
  · rw [hrx, hmask]
    exact h.most
  · exact .before h (hqueue e he) hmask.ge (hnumbered ▸ List.prefix_rfl)

/-- Polling keeps the numbers sound. -/
theorem Sound.hasFailed (h : l.Sound env) : (l.hasFailed env).Sound env :=
  h.keep rfl rfl rfl rfl fun _ he => before_of_mem he

/-- Empty queues are sound. -/
theorem Sound.purgeAllQueues (h : l.Sound env) : l.purgeAllQueues.Sound env :=
  h.keep rfl rfl rfl rfl fun _ he => (List.not_mem_nil he).elim

/-- What is left in the queues is sound. -/
theorem Sound.purgeQueue (h : l.Sound env) (channel : ℕ) : (l.purgeQueue channel).Sound env :=
  h.keep rfl rfl rfl rfl fun _ he => before_of_mem (List.mem_of_mem_filter he)

/-- An acknowledgement keeps the numbers sound. -/
theorem Sound.sendAck (h : l.Sound env) (seq : ℤ) : (l.sendAck env seq).Sound env := by
  rcases sendAck_cases env seq l with heq | heq <;> rw [heq]
  · exact h.hasFailed
  · exact h.keep rfl rfl rfl rfl fun _ he => before_of_mem he

/-- The request and the confirmation of a link are queued as number 0. -/
theorem Sound.sendControl (h : l.Sound env) {data : List UInt8} (hdata : IsControl data) :
    (l.sendControl env data).Sound env := by
  rcases sendControl_cases env data l with ⟨-, heq⟩ | ⟨-, heq⟩ <;> rw [heq]
  · exact h.hasFailed
  · refine { h with queue := fun e he => ?_ }
    rcases List.mem_append.mp he with hold | hnew
    · exact .before h (before_of_mem hold) le_rfl List.prefix_rfl
    · rw [List.mem_singleton.mp hnew]
      exact ⟨Nat.zero_le _, ⟨_, rfl⟩, .inl hdata⟩

/-- A packet that is numbered is queued with its frame, and the next number is masked. -/
theorem Sound.number (h : l.Sound env) (buf : List UInt8) : (l.number env buf).Sound env := by
  refine ⟨h.mask, h.fresh, Nat.and_le_right, h.least, h.most, fun e he => ?_⟩
  rcases List.mem_append.mp he with hold | hnew
  · exact .before h (before_of_mem hold) le_rfl (List.prefix_append _ _)
  · have hframe : e.seq = l.txSequence ∧ e.stamp = env.gettimeofday l.reads ∧
        e.index = l.numbered.length ∧ e.data = frameOf l.txSequence buf := by
      rw [List.mem_singleton.mp hnew]
      unfold frameOf
      by_cases hempty : buf = []
      · simp [hempty]
      · simp [hempty]
    obtain ⟨hseq, hstamp, hindex, hdata⟩ := hframe
    refine ⟨?_, ⟨_, hstamp⟩, .inr ⟨buf, ?_, ?_⟩⟩
    · rw [hseq]
      exact h.tx
    · rw [hindex, Link.number, List.getElem?_concat_length]
    · rw [hseq, hdata]

/-- Transmitting keeps the numbers sound. -/
theorem Sound.transmit (h : l.Sound env) (buf : List UInt8) : (l.transmit env buf).Sound env := by
  rcases transmit_cases env buf l with ⟨-, heq⟩ | ⟨-, -, heq⟩ | ⟨-, -, -, heq⟩ | ⟨-, -, -, heq⟩ <;>
    rw [heq]
  · exact h.hasFailed
  · exact h.keep rfl rfl rfl rfl fun _ he => before_of_mem he
  · exact h.keep rfl rfl rfl rfl fun _ he => before_of_mem he
  · exact h.hasFailed.number buf

/-- Transmitting packets keeps the numbers sound. -/
theorem Sound.transmitAll (h : l.Sound env) (packets : List (List UInt8)) :
    (transmitAll env packets l).Sound env := by
  induction packets generalizing l with
  | nil => exact h
  | cons buf rest ih => exact ih (h.transmit buf)

/-- Transmitting what was held keeps the numbers sound. -/
theorem Sound.transmitHoldQueue (h : l.Sound env) (channel : UInt8) :
    (l.transmitHoldQueue env channel).Sound env := by
  apply Sound.transmitAll
  exact h.keep rfl rfl rfl rfl fun _ he => before_of_mem he

/-- Transmitting what waited keeps the numbers sound. -/
theorem Sound.transmitWaitQueue (h : l.Sound env) : (l.transmitWaitQueue env).Sound env := by
  apply Sound.transmitAll
  exact h.keep rfl rfl rfl rfl fun _ he => before_of_mem he

/-- Sending keeps the numbers sound. -/
theorem Sound.send (h : l.Sound env) (buff : List UInt8) : (l.send env buff).Sound env := by
  unfold Link.send
  dsimp only
  split
  · exact h.keep rfl rfl rfl rfl fun _ he => before_of_mem he
  · apply Sound.transmit
    exact h.keep rfl rfl rfl rfl fun _ he => before_of_mem he

/-- A data packet that is accepted moves the number under the mask. -/
theorem Sound.accept (h : l.Sound env) (buff : List UInt8) : (l.accept l.nextSequence buff).Sound env := by
  refine ⟨h.mask, fun hnone => ?_, h.tx, ?_, ?_,
    fun e he => .before h (before_of_mem he) le_rfl List.prefix_rfl⟩
  · change (l.nextSequence : ℤ) = -1 at hnone
    omega
  · change (-1 : ℤ) ≤ (l.nextSequence : ℤ)
    omega
  · exact Int.ofNat_le.mpr Nat.and_le_right

/-- Data keeps the numbers sound. -/
theorem Sound.receiveData (h : l.Sound env) (seq : ℕ) (buff : List UInt8) :
    (l.receiveData env seq buff).Sound env := by
  have haccept (hnext : l.nextSequence = seq) : ((l.accept seq buff).sendAck env seq).Sound env :=
    (hnext ▸ h.accept buff).sendAck _
  rcases receiveData_cases env seq buff l with ⟨-, heq⟩ | ⟨hnext, -, heq⟩ | ⟨hnext, -, heq⟩ |
    ⟨hnext, -, -, heq⟩ <;> rw [heq]
  · exact h.sendAck _
  · exact (haccept hnext).keep rfl rfl rfl rfl fun _ he => before_of_mem he
  · apply Sound.transmitHoldQueue
    exact (haccept hnext).keep rfl rfl rfl rfl fun _ he => before_of_mem he
  · exact (haccept hnext).keep rfl rfl rfl rfl fun _ he => before_of_mem he

/-- The numbers that a SIBO link starts with. -/
theorem sound_becomeSibo : l.becomeSibo.Sound env :=
  ⟨.inl rfl, fun _ => rfl, (by decide : 1 ≤ 7), (by decide : (-1 : ℤ) ≤ 0), (by decide : (0 : ℤ) ≤ 7),
    fun _ he => (List.not_mem_nil he).elim⟩

/-- Acknowledging several packets keeps the numbers sound. -/
theorem Sound.multiAck (h : l.Sound env) (refstamp : Timeval) : (l.multiAck refstamp).Sound env :=
  h.keep rfl rfl rfl rfl fun _ he => before_of_mem (List.mem_of_mem_filter he)

/-- An acknowledged packet keeps the numbers sound. -/
theorem Sound.matched (h : l.Sound env) (seq : ℕ) (e : AckWaitQueueElement) :
    (l.matched seq e).Sound env := by
  unfold Link.matched
  dsimp only
  split
  · exact sound_becomeSibo.multiAck e.stamp
  · apply Sound.multiAck
    exact h.keep rfl rfl rfl rfl fun _ he => before_of_mem (List.mem_of_mem_eraseP he)

/-- An element that the hint of an acknowledgement leaves in the queue. -/
theorem before_resendLoop {reads seq : ℕ} {e : AckWaitQueueElement}
    (he : e ∈ (resendLoop (env.gettimeofday reads) seq l.ackWaitQueue).1) : Before env l e := by
  rcases resendLoop_cases (env.gettimeofday reads) seq l.ackWaitQueue with hloop |
    ⟨first, d, rest, hqueue, -, hloop | hloop⟩ <;> rw [hloop] at he
  · exact before_of_mem he
  · refine before_of_mem ?_
    rw [hqueue]
    rcases List.mem_append.mp he with h | h <;> simp [h]
  · rcases List.mem_append.mp he with hfirst | hrest
    · exact before_of_mem (hqueue ▸ List.mem_append_left _ hfirst)
    rcases List.mem_cons.mp hrest with rfl | hlater
    · exact ⟨d, by simp [hqueue], rfl, .inr ⟨reads, rfl⟩⟩
    · exact before_of_mem (by simp [hqueue, hlater])

/-- An element that the round of the retransmit thread leaves in the queue. -/
theorem before_retransmitLoop {now expired : Timeval} {queue : List AckWaitQueueElement}
    {e : AckWaitQueueElement} (he : e ∈ (retransmitLoop now expired queue).1) :
    ∃ e' ∈ queue, packet e' = packet e ∧ (e.stamp = e'.stamp ∨ e.stamp = now) := by
  induction queue with
  | nil => exact (List.not_mem_nil he).elim
  | cons d rest ih =>
    have hrest (h : e ∈ (retransmitLoop now expired rest).1) :
        ∃ e' ∈ d :: rest, packet e' = packet e ∧ (e.stamp = e'.stamp ∨ e.stamp = now) := by
      obtain ⟨e', he', hsame⟩ := ih h
      exact ⟨e', List.mem_cons_of_mem d he', hsame⟩
    rw [retransmitLoop] at he
    dsimp only at he
    split at he
    · split at he
      · exact hrest he
      · rcases List.mem_cons.mp he with rfl | hlater
        · exact ⟨d, List.mem_cons_self, rfl, .inr rfl⟩
        · exact hrest hlater
    · rcases List.mem_cons.mp he with rfl | hlater
      · exact ⟨e, List.mem_cons_self, rfl, .inl rfl⟩
      · exact hrest hlater

/-- Resending keeps the numbers sound. -/
theorem Sound.retransmit (h : l.Sound env) : (l.retransmit env).Sound env := by
  rcases retransmit_cases env l with ⟨-, heq⟩ | ⟨-, heq⟩ <;> rw [heq]
  · exact h.hasFailed.purgeAllQueues
  · refine h.keep rfl rfl rfl rfl fun e he => ?_
    obtain ⟨e', he', hsame, hstamp⟩ := before_retransmitLoop he
    exact ⟨e', he', hsame, hstamp.imp_right fun hnow => ⟨l.reads, hnow⟩⟩

/-- An acknowledgement that arrives keeps the numbers sound. -/
theorem Sound.receiveAck (h : l.Sound env) (seq : ℕ) : (l.receiveAck env seq).Sound env := by
  rcases receiveAck_cases env seq l with ⟨e, _, _, -, -, -, heq⟩ | ⟨-, heq⟩ <;> rw [heq]
  · exact (h.matched seq e).transmitWaitQueue
  · exact h.keep rfl rfl rfl rfl fun _ he => before_resendLoop he

/-- The numbers of an EPOC link that starts: the elements of the link before stay in range. -/
theorem Sound.becomeEpoc (h : l.Sound env) (hmask : m.seqMask = 0x7ff) (htx : m.txSequence ≤ 1)
    (hrx : m.rxSequence = 0) (hnumbered : m.numbered = l.numbered)
    (hqueue : m.ackWaitQueue ⊆ l.ackWaitQueue) : m.Sound env := by
  refine ⟨.inr hmask, fun hnone => ?_, ?_, ?_, ?_, fun e he => ?_⟩
  · rw [hrx] at hnone
    cases hnone
  · rw [hmask]
    exact htx.trans (by decide)
  · simp [hrx]
  · simp [hrx]
  · exact .before h (before_of_mem (hqueue he)) (hmask ▸ h.mask_le) (hnumbered ▸ List.prefix_rfl)

/-- A request keeps the numbers sound. -/
theorem Sound.receiveReq (h : l.Sound env) (seq : ℕ) : (l.receiveReq env seq).Sound env := by
  unfold Link.receiveReq
  split
  · apply Sound.sendAck
    exact h.becomeEpoc rfl le_rfl rfl rfl fun _ he => List.mem_of_mem_eraseP he
  dsimp only
  split
  · apply Sound.sendControl _ (.inr ⟨_, rfl⟩)
    exact h.becomeEpoc rfl (Nat.zero_le 1) rfl rfl fun _ he => he
  · exact sound_becomeSibo.sendAck 0

/-- A frame keeps the numbers sound. -/
theorem Sound.receive (h : l.Sound env) (frame : List UInt8) : (l.receive env frame).Sound env := by
  unfold Link.receive
  dsimp only
  split
  · exact h.receiveData _ _
  split
  · exact h.receiveAck _
  split
  · exact h.receiveReq _
  split
  · exact h.keep rfl rfl rfl rfl fun _ he => before_of_mem he
  · exact h

/-- Every event keeps the numbers of a link under its mask. -/
theorem Sound.step (h : l.Sound env) (e : Event) : (l.step env e).Sound env := by
  cases e with
  | send buff => exact h.send buff
  | receive frame => exact h.receive frame
  | retransmit => exact h.retransmit
  | purgeQueue channel => exact h.purgeQueue channel

/-- A link that has nothing but its request to send. -/
theorem sound_sendReqReq (hmask : l.seqMask = 7) (htx : l.txSequence = 1) (hrx : l.rxSequence = -1)
    (hqueue : l.ackWaitQueue = []) : (l.sendReqReq env).Sound env := by
  apply Sound.sendControl _ (.inl rfl)
  refine ⟨.inl hmask, fun _ => hmask, ?_, ?_, ?_, fun e he => ?_⟩
  · simp [htx, hmask]
  · simp [hrx]
  · simp [hrx, hmask]
  · rw [hqueue] at he
    exact (List.not_mem_nil he).elim

/-- In every state that a link comes to, its numbers are under its mask. -/
theorem lived_sound (env : Env) (conMagic : ℤ) (events : List LifeEvent) :
    (lived env conMagic events).Sound env := by
  apply runFrom_invariant _ (sound_sendReqReq rfl rfl rfl rfl) events
  intro l h e
  cases e with
  | event e => exact h.step e
  | reset => exact sound_sendReqReq rfl rfl rfl rfl

end Link

end Plptools
