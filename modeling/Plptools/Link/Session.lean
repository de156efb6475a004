import Plptools.Link.FlowControl
import Plptools.Link.Running

/-!
# What a new link takes over from the old one

Four branches of `receive` set up a link: the acknowledgement that makes the peer a SIBO machine,
the confirmation of an own request, and the two kinds of request. Each of them resets a part of the
state. Here they are met in every state that a link comes to, through resets of its own as well: the
packets of the link that was before are gone from `ackWaitQueue` only where the branch purges the
queues, and no branch starts the channels that the peer has stopped.
-/

namespace Plptools

open Plptools.Library

namespace Link

/-- What happens to a link over its life: an event, or a reset. -/
inductive LifeEvent where
  | event (e : Event)
  | reset

/-- One event or reset of a link. -/
def live (env : Env) (l : Link) : LifeEvent → Link
  | .event e => l.step env e
  | .reset => l.reset env

/-- The state of a link after a part of its life. -/
def lived (env : Env) (conMagic : ℤ) (events : List LifeEvent) : Link :=
  runFrom (live env) (construct env conMagic) events

/-- A state that comes from another without a reset: what waits for an acknowledgement has been
waiting, or is a packet of the negotiation, or has been numbered in between. -/
structure Onward (l m : Link) : Prop where
  numbered : l.numbered <+: m.numbered
  queue : ∀ e ∈ m.ackWaitQueue, (∃ e' ∈ l.ackWaitQueue, packet e' = packet e) ∨ ¬IsData e.data ∨
    (l.numbered.length ≤ e.index ∧ e.index < m.numbered.length)

/-- A part of what has been waiting still waits. -/
theorem Onward.of_subset {l m : Link} (hnumbered : m.numbered = l.numbered)
    (hqueue : ∀ e ∈ m.ackWaitQueue, ∃ e' ∈ l.ackWaitQueue, packet e' = packet e) : l.Onward m :=
  ⟨hnumbered ▸ List.prefix_rfl, fun e he => .inl (hqueue e he)⟩

/-- A link goes on from itself. -/
theorem Onward.refl (l : Link) : l.Onward l := .of_subset rfl fun e he => ⟨e, he, rfl⟩

/-- One step after the other. -/
theorem Onward.trans {l m n : Link} (h : l.Onward m) (h' : m.Onward n) : l.Onward n := by
  have hlm := h.numbered.length_le
  have hmn := h'.numbered.length_le
  refine ⟨h.numbered.trans h'.numbered, fun e he => ?_⟩
  rcases h'.queue e he with ⟨e', he', hsame⟩ | hcontrol | ⟨hfrom, hto⟩
  · obtain ⟨-, hdata, hindex⟩ := packet_inj hsame
    rcases h.queue e' he' with ⟨e₀, he₀, hsame₀⟩ | hcontrol | ⟨hfrom, hto⟩
    · exact .inl ⟨e₀, he₀, hsame₀.trans hsame⟩
    · exact .inr (.inl (hdata ▸ hcontrol))
    · exact .inr (.inr (by omega))
  · exact .inr (.inl hcontrol)
  · exact .inr (.inr (by omega))

section Steps

variable {env : Env} {l : Link}

/-- Polling leaves the packets. -/
theorem onward_hasFailed : l.Onward (l.hasFailed env) := .of_subset rfl fun e he => ⟨e, he, rfl⟩

/-- A packet that is numbered has the next number. -/
theorem onward_number (buf : List UInt8) : l.Onward (l.number env buf) := by
  refine ⟨List.prefix_append _ _, fun e he => ?_⟩
  rcases List.mem_append.mp he with hold | hnew
  · exact .inl ⟨e, hold, rfl⟩
  · have hindex : e.index = l.numbered.length := by
      rw [List.mem_singleton.mp hnew]
      split <;> rfl
    refine .inr (.inr ⟨hindex.ge, ?_⟩)
    rw [hindex, Link.number, List.length_append]
    exact Nat.lt_succ_self _

/-- Transmitting goes on. -/
theorem onward_transmit (buf : List UInt8) : l.Onward (l.transmit env buf) := by
  rcases transmit_cases env buf l with ⟨-, heq⟩ | ⟨-, -, heq⟩ | ⟨-, -, -, heq⟩ | ⟨-, -, -, heq⟩ <;>
    rw [heq]
  · exact onward_hasFailed
  · exact .of_subset rfl fun e he => ⟨e, he, rfl⟩
  · exact .of_subset rfl fun e he => ⟨e, he, rfl⟩
  · exact onward_hasFailed.trans (onward_number buf)

/-- Transmitting packets goes on. -/
theorem onward_transmitAll (packets : List (List UInt8)) : l.Onward (transmitAll env packets l) := by
  induction packets generalizing l with
  | nil => exact .refl l
  | cons buf rest ih => exact (onward_transmit buf).trans ih

/-- Transmitting what was held goes on. -/
theorem onward_transmitHoldQueue (channel : UInt8) : l.Onward (l.transmitHoldQueue env channel) := by
  refine Onward.trans ?_ (onward_transmitAll _)
  exact .of_subset rfl fun e he => ⟨e, he, rfl⟩

/-- Transmitting what waited goes on. -/
theorem onward_transmitWaitQueue : l.Onward (l.transmitWaitQueue env) := by
  refine Onward.trans ?_ (onward_transmitAll _)
  exact .of_subset rfl fun e he => ⟨e, he, rfl⟩

/-- An acknowledgement leaves the packets. -/
theorem onward_sendAck (seq : ℤ) : l.Onward (l.sendAck env seq) := by
  rcases sendAck_cases env seq l with heq | heq <;> rw [heq]
  · exact onward_hasFailed
  · exact .of_subset rfl fun e he => ⟨e, he, rfl⟩

/-- A packet of the negotiation is no data packet. -/
theorem onward_sendControl {data : List UInt8} (hdata : ¬IsData data) :
    l.Onward (l.sendControl env data) := by
  rcases sendControl_cases env data l with ⟨-, heq⟩ | ⟨-, heq⟩ <;> rw [heq]
  · exact onward_hasFailed
  · refine ⟨List.prefix_rfl, fun e he => ?_⟩
    rcases List.mem_append.mp he with hold | hnew
    · exact .inl ⟨e, hold, rfl⟩
    · rw [List.mem_singleton.mp hnew]
      exact .inr (.inl hdata)

/-- A request for a link is no data. -/
theorem not_isData_reqReq : ¬IsData [0x21] := by decide

/-- A confirmation is no data. -/
theorem not_isData_reqCon (conMagic : ℤ) : ¬IsData (0x24 :: BufferStore.dwordBytes conMagic) := by
  simp [IsData, header]

/-- A link of the other protocol starts without packets. -/
theorem onward_becomeSibo : l.Onward l.becomeSibo := .of_subset rfl fun _ he => (List.not_mem_nil he).elim

/-- Data goes on. -/
theorem onward_receiveData (seq : ℕ) (buff : List UInt8) : l.Onward (l.receiveData env seq buff) := by
  have haccept : l.Onward ((l.accept seq buff).sendAck env seq) := by
    refine Onward.trans ?_ (onward_sendAck seq)
    exact .of_subset rfl fun e he => ⟨e, he, rfl⟩
  rcases receiveData_cases env seq buff l with ⟨-, heq⟩ | ⟨-, -, heq⟩ | ⟨-, -, heq⟩ |
    ⟨-, -, -, heq⟩ <;> rw [heq]
  · exact onward_sendAck _
  · exact haccept.trans (.of_subset rfl fun e he => ⟨e, he, rfl⟩)
  · refine Onward.trans (haccept.trans ?_) (onward_transmitHoldQueue _)
    exact .of_subset rfl fun e he => ⟨e, he, rfl⟩
  · exact haccept.trans (.of_subset rfl fun e he => ⟨e, he, rfl⟩)

/-- An acknowledged packet is gone. -/
theorem onward_matched (seq : ℕ) (e : AckWaitQueueElement) : l.Onward (l.matched seq e) := by
  refine .of_subset (numbered_matched seq e l) fun d hd => ?_
  unfold matched at hd
  dsimp only at hd
  split at hd
  · exact (List.not_mem_nil (List.mem_filter.mp hd).1).elim
  · exact ⟨d, List.mem_of_mem_eraseP (List.mem_filter.mp hd).1, rfl⟩

/-- An acknowledgement goes on. -/
theorem onward_receiveAck (seq : ℕ) : l.Onward (l.receiveAck env seq) := by
  rcases receiveAck_cases env seq l with ⟨e, _, _, -, -, -, heq⟩ | ⟨-, heq⟩ <;> rw [heq]
  · exact (onward_matched seq e).trans onward_transmitWaitQueue
  · refine .of_subset rfl fun d hd => ?_
    change d ∈ (resendLoop (env.gettimeofday l.reads) (seq + 1) l.ackWaitQueue).1 at hd
    rcases resendLoop_cases (env.gettimeofday l.reads) (seq + 1) l.ackWaitQueue with hloop |
      ⟨before, e, after, hqueue, -, hloop | hloop⟩ <;> rw [hloop] at hd
    · exact ⟨d, hd, rfl⟩
    · rw [hqueue]
      refine ⟨d, ?_, rfl⟩
      rcases List.mem_append.mp hd with h | h <;> simp [h]
    · rw [hqueue]
      simp only [List.mem_append, List.mem_cons] at hd
      rcases hd with h | rfl | h
      · exact ⟨d, by simp [h], rfl⟩
      · exact ⟨e, by simp, rfl⟩
      · exact ⟨d, by simp [h], rfl⟩

/-- A request goes on. -/
theorem onward_receiveReq (seq : ℕ) : l.Onward (l.receiveReq env seq) := by
  unfold receiveReq
  split
  · refine Onward.trans ?_ (onward_sendAck 0)
    exact .of_subset rfl fun e he => ⟨e, List.mem_of_mem_eraseP he, rfl⟩
  dsimp only
  split
  · refine Onward.trans ?_ (onward_sendControl (not_isData_reqCon l.conMagic))
    exact .of_subset rfl fun e he => ⟨e, he, rfl⟩
  · exact (Onward.trans (.of_subset rfl fun e he => ⟨e, he, rfl⟩) onward_becomeSibo).trans
      (onward_sendAck 0)

/-- A frame goes on. -/
theorem onward_receive (frame : List UInt8) : l.Onward (l.receive env frame) := by
  unfold receive
  dsimp only
  split
  · exact onward_receiveData _ _
  split
  · exact onward_receiveAck _
  split
  · exact onward_receiveReq _
  split
  · exact .of_subset rfl fun e he => ⟨e, he, rfl⟩
  · exact .refl l

/-- Resending goes on. -/
theorem onward_retransmit : l.Onward (l.retransmit env) := by
  rcases retransmit_cases env l with ⟨-, heq⟩ | ⟨-, heq⟩ <;> rw [heq]
  · exact .of_subset rfl fun _ he => (List.not_mem_nil he).elim
  · exact .of_subset rfl fun e he => mem_retransmitLoop he

/-- Sending goes on. -/
theorem onward_send (buff : List UInt8) : l.Onward (l.send env buff) := by
  unfold send
  dsimp only
  split
  · exact .of_subset rfl fun e he => ⟨e, he, rfl⟩
  · refine Onward.trans ?_ (onward_transmit buff)
    exact .of_subset rfl fun e he => ⟨e, he, rfl⟩

/-- Every event leads on from the state before it. -/
theorem onward_step (e : Event) : l.Onward (l.step env e) := by
  cases e with
  | send buff => exact onward_send buff
  | receive frame => exact onward_receive frame
  | retransmit => exact onward_retransmit
  | purgeQueue channel => exact .of_subset rfl fun e he => ⟨e, (List.mem_filter.mp he).1, rfl⟩

end Steps

/-- Every data packet that waits for an acknowledgement has been numbered since the last reset. -/
def Indexed (l : Link) : Prop :=
  ∀ e ∈ l.ackWaitQueue, IsData e.data → e.index < l.numbered.length

/-- Going on keeps the indices those of the packets. -/
theorem Indexed.onward {l m : Link} (h : l.Indexed) (hon : l.Onward m) : m.Indexed := by
  intro e he hdata
  rcases hon.queue e he with ⟨e', he', hsame⟩ | hcontrol | ⟨-, hto⟩
  · obtain ⟨-, hsameData, hindex⟩ := packet_inj hsame
    rw [← hindex]
    exact lt_of_lt_of_le (h e' he' (hsameData ▸ hdata)) hon.numbered.length_le
  · exact absurd hdata hcontrol
  · exact hto

/-- Behind a link request nothing else waits. -/
theorem indexed_sendReqReq {env : Env} {l : Link} (hqueue : l.ackWaitQueue = []) :
    (l.sendReqReq env).Indexed := by
  have hempty : l.Indexed := by
    intro e he
    rw [hqueue] at he
    cases he
  exact hempty.onward (onward_sendControl not_isData_reqReq)

/-- In every state that a link comes to, its data packets have been numbered since the last reset. -/
theorem lived_indexed (env : Env) (conMagic : ℤ) (events : List LifeEvent) :
    (lived env conMagic events).Indexed := by
  apply runFrom_invariant _ (indexed_sendReqReq rfl) events
  intro l h e
  cases e with
  | event e => exact h.onward (onward_step e)
  | reset => exact indexed_sendReqReq rfl

/-- The frame sets up a link: it is the acknowledgement that makes the peer a SIBO machine, or a
confirmation or request. -/
def Establishes (l : Link) (frame : List UInt8) : Prop :=
  (header frame).1 = 0x20 ∨
    (header frame).1 = 0x00 ∧ (header frame).2.1 = 0 ∧ l.linkType = .LINK_TYPE_UNKNOWN ∧
      ∃ e ∈ l.ackWaitQueue, e.seq = 0

/-- Nothing of the link before is left: the data packets that wait for an acknowledgement have been
numbered since, and no channel that was stopped is stopped still. -/
structure NewSession (l m : Link) : Prop where
  queue : ∀ e ∈ m.ackWaitQueue, IsData e.data → l.numbered.length ≤ e.index
  xoff : ∀ c, l.xoff c = true → m.xoff c = false

/-- There is nothing that the frame would have to remove: no channel is stopped, and unless the frame
is one for a SIBO link, no data packet waits for an acknowledgement. -/
structure NothingToForget (l : Link) (frame : List UInt8) : Prop where
  xoff : ∀ c, l.xoff c = false
  queue : (header frame).1 = 0x20 → (header frame).2.1 ≠ 0 → ∀ e ∈ l.ackWaitQueue, ¬IsData e.data

section Xoff

variable {env : Env} {l : Link}

/-- Transmitting stops no channel. -/
@[simp] theorem xoff_transmit (buf : List UInt8) : (l.transmit env buf).xoff = l.xoff := by
  rcases transmit_cases env buf l with ⟨-, heq⟩ | ⟨-, -, heq⟩ | ⟨-, -, -, heq⟩ | ⟨-, -, -, heq⟩ <;>
    rw [heq] <;> rfl

/-- Transmitting packets stops no channel. -/
@[simp] theorem xoff_transmitAll (packets : List (List UInt8)) :
    (transmitAll env packets l).xoff = l.xoff := by
  induction packets generalizing l with
  | nil => rfl
  | cons buf rest ih => simp [transmitAll, ih]

/-- An acknowledgement stops no channel. -/
@[simp] theorem xoff_sendAck (seq : ℤ) : (l.sendAck env seq).xoff = l.xoff := by
  rcases sendAck_cases env seq l with heq | heq <;> rw [heq] <;> rfl

/-- A control frame stops no channel. -/
@[simp] theorem xoff_sendControl (data : List UInt8) : (l.sendControl env data).xoff = l.xoff := by
  rcases sendControl_cases env data l with ⟨-, heq⟩ | ⟨-, heq⟩ <;> rw [heq] <;> rfl

end Xoff

/-- The acknowledgement that makes the peer a SIBO machine empties the queue before it transmits the
packets that wait. -/
theorem receive_siboAck (env : Env) {l : Link} {frame : List UInt8} (htype : (header frame).1 = 0x00)
    (hseq : (header frame).2.1 = 0) (hunknown : l.linkType = .LINK_TYPE_UNKNOWN)
    (hfound : ∃ e ∈ l.ackWaitQueue, e.seq = 0) :
    ∃ m : Link, l.receive env frame = m.transmitWaitQueue env ∧ m.ackWaitQueue = [] ∧
      m.numbered = l.numbered ∧ m.xoff = l.xoff := by
  rw [receive_of_isAck env htype, hseq]
  rcases receiveAck_cases env 0 l with ⟨e, _, _, -, -, -, heq⟩ | ⟨hnone, -⟩
  · refine ⟨l.matched 0 e, heq, ?_, numbered_matched 0 e l, ?_⟩ <;>
      simp [matched, hunknown, multiAck, becomeSibo, purgeAllQueues]
  · obtain ⟨e, he, hzero⟩ := hfound
    exact absurd hzero (hnone e he)

/-- A confirmation or request is handled by `receiveReq`. -/
theorem receive_of_isReq (env : Env) {l : Link} {frame : List UInt8} (htype : (header frame).1 = 0x20) :
    l.receive env frame = l.receiveReq env (header frame).2.1 := by
  unfold receive
  dsimp only
  rw [htype, if_neg (by decide), if_neg (by decide), if_pos rfl]

/-- What waits for an acknowledgement still does when an acknowledgement is sent. -/
@[simp] theorem ackWaitQueue_sendAck (env : Env) (seq : ℤ) (l : Link) :
    (l.sendAck env seq).ackWaitQueue = l.ackWaitQueue := by
  rcases sendAck_cases env seq l with heq | heq <;> rw [heq] <;> rfl

/-- What waits for an acknowledgement still does behind a packet of the negotiation. -/
theorem ackWaitQueue_sendControl (env : Env) (data : List UInt8) (l : Link) :
    l.ackWaitQueue ⊆ (l.sendControl env data).ackWaitQueue := by
  rcases sendControl_cases env data l with ⟨-, heq⟩ | ⟨-, heq⟩ <;> rw [heq]
  · exact List.Subset.refl _
  · exact List.subset_append_left _ _

/-- A link request of a SIBO machine empties the queue. -/
theorem ackWaitQueue_receiveReq_sibo (env : Env) (l : Link) : (l.receiveReq env 0).ackWaitQueue = [] := by
  simp [receiveReq, becomeSibo, purgeAllQueues]

/-- The confirmation and the request of an EPOC machine leave the data packets in the queue. -/
theorem mem_receiveReq_epoc (env : Env) {l : Link} {seq : ℕ} (hseq : seq ≠ 0)
    {e : AckWaitQueueElement} (he : e ∈ l.ackWaitQueue) (hdata : IsData e.data) :
    e ∈ (l.receiveReq env seq).ackWaitQueue := by
  unfold receiveReq
  split
  · have hother : isReqReq e = false := by
      rw [isReqReq, Bool.and_eq_false_iff]
      refine .inr (decide_eq_false fun hreq => ?_)
      cases hbytes : e.data with
      | nil => simp [hbytes] at hreq
      | cons first rest =>
        rw [hbytes] at hreq hdata
        simp only [List.getD_cons_zero] at hreq
        subst hreq
        simp [IsData, header] at hdata
    simpa using (List.mem_eraseP_of_neg (by simp [hother])).mpr he
  · dsimp only
    rw [if_pos (Nat.pos_of_ne_zero hseq)]
    exact ackWaitQueue_sendControl env _ _ he

/-- No confirmation or request starts a channel. -/
theorem xoff_receiveReq (env : Env) (l : Link) (seq : ℕ) : (l.receiveReq env seq).xoff = l.xoff := by
  unfold receiveReq
  split
  · rw [xoff_sendAck]
  dsimp only
  split
  · rw [sendReqCon, xoff_sendControl]
  · rw [xoff_sendAck]
    rfl

/-- No frame that sets up a link starts a channel. -/
theorem xoff_establishes (env : Env) {l : Link} {frame : List UInt8} (h : l.Establishes frame) :
    (l.receive env frame).xoff = l.xoff := by
  rcases h with hreq | ⟨hack, hseq, hunknown, hfound⟩
  · rw [receive_of_isReq env hreq, xoff_receiveReq]
  · obtain ⟨m, hreceive, -, -, hxoff⟩ := receive_siboAck env hack hseq hunknown hfound
    rw [hreceive, transmitWaitQueue, xoff_transmitAll, ← hxoff]

/-- A frame that sets up a link leaves nothing of the link before exactly when there was nothing to
forget. -/
theorem newSession_iff (env : Env) {l : Link} (h : l.Indexed) {frame : List UInt8}
    (hframe : l.Establishes frame) :
    NewSession l (l.receive env frame) ↔ l.NothingToForget frame := by
  have hxoff := xoff_establishes env hframe
  constructor
  · intro hnew
    refine ⟨fun c => ?_, fun hreq hseq e he hdata => ?_⟩
    · by_contra hstopped
      have hstarted := hnew.xoff c (by simpa using hstopped)
      rw [hxoff] at hstarted
      exact hstopped hstarted
    · have hlater := hnew.queue e (by
        rw [receive_of_isReq env hreq]
        exact mem_receiveReq_epoc env hseq he hdata) hdata
      exact absurd (h e he hdata) (Nat.not_lt.mpr hlater)
  · intro hnothing
    refine ⟨fun e he hdata => ?_, fun c hstopped => ?_⟩
    swap
    · rw [hnothing.xoff c] at hstopped
      cases hstopped
    rcases hframe with hreq | ⟨hack, hseq, hunknown, hfound⟩
    · by_cases hsibo : (header frame).2.1 = 0
      · rw [receive_of_isReq env hreq, hsibo, ackWaitQueue_receiveReq_sibo] at he
        cases he
      · rcases (onward_receive frame).queue e he with ⟨e', he', hsame⟩ | hcontrol | ⟨hfrom, -⟩
        · exact absurd ((packet_inj hsame).2.1 ▸ hdata) (hnothing.queue hreq hsibo e' he')
        · exact absurd hdata hcontrol
        · exact hfrom
    · obtain ⟨m, hreceive, hempty, hnumbered, -⟩ := receive_siboAck env hack hseq hunknown hfound
      rw [hreceive] at he
      rcases onward_transmitWaitQueue.queue e he with ⟨e', he', -⟩ | hcontrol | ⟨hfrom, -⟩
      · rw [hempty] at he'
        cases he'
      · exact absurd hdata hcontrol
      · rwa [hnumbered] at hfrom

/-- Over the life of a link, all frames that set up a link leave nothing of the link before exactly
when there was nothing to forget at any of them. -/
theorem newSessions_iff (env : Env) (conMagic : ℤ) (events : List LifeEvent) :
    (∀ seen frame, seen ++ [.event (.receive frame)] <+: events →
        (lived env conMagic seen).Establishes frame →
        NewSession (lived env conMagic seen) (live env (lived env conMagic seen) (.event (.receive frame)))) ↔
      ∀ seen frame, seen ++ [.event (.receive frame)] <+: events →
        (lived env conMagic seen).Establishes frame → (lived env conMagic seen).NothingToForget frame := by
  have hone (seen : List LifeEvent) {frame : List UInt8}
      (hframe : (lived env conMagic seen).Establishes frame) :=
    newSession_iff env (lived_indexed env conMagic seen) hframe
  constructor
  · intro hall seen frame hseen hframe
    exact (hone seen hframe).mp (hall seen frame hseen hframe)
  · intro hall seen frame hseen hframe
    exact (hone seen hframe).mpr (hall seen frame hseen hframe)

/-- An EPOC machine that requests a link again finds the packet of the link before in the queue. -/
theorem packet_outlives_session : ¬ ∀ (env : Env) (conMagic : ℤ) (events : List LifeEvent)
    (frame : List UInt8), (lived env conMagic events).Establishes frame →
      NewSession (lived env conMagic events)
        (live env (lived env conMagic events) (.event (.receive frame))) := by
  intro hall
  have hnew := hall stillEnv 0 [.event (.receive [0x21]), .event (.send [5, 1])] [0x21]
    (.inl (by decide))
  exact absurd hnew.queue (by decide)

end Link

end Plptools
