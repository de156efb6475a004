import Plptools.Link.FlowControl
import Mathlib.Data.List.Perm.Subperm

/-!
# What a reset leaves behind

`reset` empties two of the three queues: a packet in `waitQueue` is still there. When it is empty,
every packet that is given a number afterwards was submitted afterwards, and every frame is an
acknowledgement, a packet of the negotiation or carries such a packet.
-/

namespace Plptools

open Plptools.Library

namespace Link

/-- The packet that an event submits. -/
def Event.submits : Event → List (List UInt8)
  | .send buff => [buff]
  | .receive _ | .retransmit | .purgeQueue _ => []

/-- The frame of a packet with a given number. -/
def frameOf (seq : ℕ) (buf : List UInt8) : List UInt8 :=
  if buf = [] then [lowByte (0x20 + seq)] else seqBytes 0x30 seq ++ buf

/-- The frame is one of the negotiation, or that of a packet that was numbered. -/
def Owns (l : Link) (bytes : List UInt8) : Prop :=
  bytes = [0x21] ∨ bytes = 0x24 :: BufferStore.dwordBytes l.conMagic ∨
    ∃ buf ∈ l.numbered, ∃ seq, bytes = frameOf seq buf

/-- How often a packet was numbered, is held and waits. -/
def carried (l : Link) (buf : List UInt8) : ℕ :=
  l.numbered.count buf + l.holdQueue.count buf + l.waitQueue.count buf

/-- No packet is carried more often than it was submitted, with the pending ones counted; the
frames behind those sent before, and those kept for a retransmission, are the link's own. -/
structure Fresh (before : List Packet) (submitted pending : List (List UInt8)) (l : Link) :
    Prop where
  carried : ∀ buf, l.carried buf + pending.count buf ≤ submitted.count buf
  queue : ∀ e ∈ l.ackWaitQueue, l.Owns e.data
  sent : ∃ later, l.sent = before ++ later ∧
    ∀ f ∈ later, (∃ seq, f.bytes = seqBytes 0 seq) ∨ l.Owns f.bytes

section Steps

variable {env : Env} {l m : Link} {before : List Packet} {submitted pending : List (List UInt8)}

/-- A link owns what it owned before. -/
theorem Owns.mono {bytes : List UInt8} (h : l.Owns bytes) (hmagic : m.conMagic = l.conMagic)
    (hnumbered : l.numbered <+: m.numbered) : m.Owns bytes := by
  rcases h with h | h | ⟨buf, hbuf, h⟩
  · exact .inl h
  · exact .inr (.inl (hmagic ▸ h))
  · exact .inr (.inr ⟨buf, hnumbered.subset hbuf, h⟩)

/-- A function that drops packets and frames, keeps the sent ones and numbers none. -/
theorem Fresh.drop (h : l.Fresh before submitted pending) {rest : List (List UInt8)}
    (hcarried : ∀ buf, m.carried buf + rest.count buf ≤ l.carried buf + pending.count buf)
    (hqueue : ∀ e ∈ m.ackWaitQueue, ∃ e' ∈ l.ackWaitQueue, e.data = e'.data)
    (hsent : m.sent = l.sent) (hmagic : m.conMagic = l.conMagic)
    (hnumbered : m.numbered = l.numbered) : m.Fresh before submitted rest := by
  have hmono : ∀ bytes, l.Owns bytes → m.Owns bytes :=
    fun bytes hown => hown.mono hmagic (hnumbered ▸ List.prefix_rfl)
  refine ⟨fun buf => (hcarried buf).trans (h.carried buf), fun e he => ?_, ?_⟩
  · obtain ⟨e', he', hdata⟩ := hqueue e he
    exact hmono _ (hdata ▸ h.queue e' he')
  · obtain ⟨later, hlater, hown⟩ := h.sent
    exact ⟨later, hsent.trans hlater, fun f hf => (hown f hf).imp_right (hmono _)⟩

/-- Sending frames again, acknowledgements, or packets of the negotiation. -/
theorem Fresh.resend (h : l.Fresh before submitted pending) {frames : List Packet}
    (hcarried : ∀ buf, m.carried buf ≤ l.carried buf)
    (hqueue : ∀ e ∈ m.ackWaitQueue, l.Owns e.data) (hsent : m.sent = l.sent ++ frames)
    (hframes : ∀ f ∈ frames, (∃ seq, f.bytes = seqBytes 0 seq) ∨ l.Owns f.bytes)
    (hmagic : m.conMagic = l.conMagic) (hnumbered : m.numbered = l.numbered) :
    m.Fresh before submitted pending := by
  have hmono : ∀ bytes, l.Owns bytes → m.Owns bytes :=
    fun bytes hown => hown.mono hmagic (hnumbered ▸ List.prefix_rfl)
  refine ⟨fun buf => ?_, fun e he => hmono _ (hqueue e he), ?_⟩
  · have := hcarried buf
    have := h.carried buf
    omega
  · obtain ⟨later, hlater, hown⟩ := h.sent
    refine ⟨later ++ frames, by rw [hsent, hlater, List.append_assoc], ?_⟩
    refine List.forall_mem_append.mpr ⟨fun f hf => (hown f hf).imp_right (hmono _), ?_⟩
    exact fun f hf => (hframes f hf).imp_right (hmono _)

/-- Polling keeps a link fresh. -/
theorem Fresh.hasFailed (h : l.Fresh before submitted pending) :
    (l.hasFailed env).Fresh before submitted pending :=
  h.drop (fun _ => le_rfl) (fun e he => ⟨e, he, rfl⟩) rfl rfl rfl

/-- A packet that is numbered is pending no more. -/
theorem Fresh.number {buf : List UInt8} (h : l.Fresh before submitted (buf :: pending)) :
    (l.number env buf).Fresh before submitted pending := by
  have hmono : ∀ bytes, l.Owns bytes → (l.number env buf).Owns bytes :=
    fun bytes hown => hown.mono rfl (List.prefix_append _ _)
  have hframe : (l.number env buf).Owns (frameOf l.txSequence buf) :=
    .inr (.inr ⟨buf, List.mem_append_right _ (List.mem_singleton_self buf), l.txSequence, rfl⟩)
  have hdata : ∀ e, (l.number env buf).ackWaitQueue = l.ackWaitQueue ++ [e] →
      e.data = frameOf l.txSequence buf := by
    intro e he
    obtain rfl := List.singleton_inj.mp (List.append_cancel_left he)
    unfold frameOf
    split <;> rfl
  refine ⟨fun other => ?_, ?_, ?_⟩
  · have := h.carried other
    simp only [Link.carried, Link.number, List.count_append, List.count_cons, List.count_nil] at this ⊢
    omega
  · refine List.forall_mem_append.mpr ⟨fun e he => hmono _ (h.queue e he), ?_⟩
    refine List.forall_mem_singleton.mpr ?_
    rw [hdata _ rfl]
    exact hframe
  · obtain ⟨later, hlater, hown⟩ := h.sent
    refine ⟨later ++ _, (congrArg (· ++ _) hlater).trans (List.append_assoc ..), ?_⟩
    refine List.forall_mem_append.mpr ⟨fun f hf => (hown f hf).imp_right (hmono _), ?_⟩
    refine List.forall_mem_singleton.mpr (.inr ?_)
    rw [hdata _ rfl]
    exact hframe

/-- A transmitted packet is pending no more. -/
theorem Fresh.transmit {buf : List UInt8} (h : l.Fresh before submitted (buf :: pending)) :
    (l.transmit env buf).Fresh before submitted pending := by
  have hkept : (l.hasFailed env).Fresh before submitted (buf :: pending) := h.hasFailed
  rcases transmit_cases env buf l with ⟨-, heq⟩ | ⟨-, -, heq⟩ | ⟨-, -, -, heq⟩ | ⟨-, -, -, heq⟩ <;>
    rw [heq]
  · refine h.drop (fun other => ?_) (fun e he => ⟨e, he, rfl⟩) rfl rfl rfl
    exact Nat.add_le_add_left (List.count_le_count_cons ..) _
  · refine h.drop (fun other => ?_) (fun e he => ⟨e, he, rfl⟩) rfl rfl rfl
    simp only [Link.carried, Link.hasFailed, List.count_append, List.count_cons, List.count_nil]
    omega
  · refine h.drop (fun other => ?_) (fun e he => ⟨e, he, rfl⟩) rfl rfl rfl
    simp only [Link.carried, Link.hasFailed, List.count_append, List.count_cons, List.count_nil]
    omega
  · exact hkept.number

/-- Transmitting packets in turn leaves none of them pending. -/
theorem Fresh.transmitAll {packets : List (List UInt8)} (h : l.Fresh before submitted packets) :
    (transmitAll env packets l).Fresh before submitted [] := by
  induction packets generalizing l with
  | nil => exact h
  | cons buf rest ih => exact ih h.transmit

/-- The packets that wait are taken out and transmitted. -/
theorem Fresh.transmitWaitQueue (h : l.Fresh before submitted []) :
    (l.transmitWaitQueue env).Fresh before submitted [] := by
  refine Fresh.transmitAll (h.drop (fun buf => ?_) (fun e he => ⟨e, he, rfl⟩) rfl rfl rfl)
  simp only [Link.carried, List.count_nil]
  omega

/-- The packets that are held for a channel are taken out and transmitted. -/
theorem Fresh.transmitHoldQueue (h : l.Fresh before submitted []) (channel : UInt8) :
    (l.transmitHoldQueue env channel).Fresh before submitted [] := by
  refine Fresh.transmitAll (h.drop (fun buf => ?_) (fun e he => ⟨e, he, rfl⟩) rfl rfl rfl)
  have hsplit : (l.holdQueue.filter fun buf => decide (remoteChan buf = channel)).count buf +
      (l.holdQueue.filter fun buf => decide (remoteChan buf ≠ channel)).count buf =
        l.holdQueue.count buf := by
    have hperm := List.filter_append_perm (fun buf => decide (remoteChan buf = channel)) l.holdQueue
    simpa only [List.count_append, decide_not] using hperm.count_eq buf
  simp only [Link.carried, List.count_nil]
  omega

/-- An acknowledgement keeps a link fresh. -/
theorem Fresh.sendAck (h : l.Fresh before submitted pending) (seq : ℤ) :
    (l.sendAck env seq).Fresh before submitted pending := by
  rcases sendAck_cases env seq l with heq | heq <;> rw [heq]
  · exact h.hasFailed
  · exact h.resend (fun _ => le_rfl) h.queue rfl
      (List.forall_mem_singleton.mpr (.inl ⟨seq, rfl⟩)) rfl rfl

/-- A packet of the negotiation joins the queue and is sent. -/
theorem Fresh.sendControl (h : l.Fresh before submitted pending) {data : List UInt8}
    (hdata : l.Owns data) : (l.sendControl env data).Fresh before submitted pending := by
  rcases sendControl_cases env data l with ⟨-, heq⟩ | ⟨-, heq⟩ <;> rw [heq]
  · exact h.hasFailed
  · refine h.resend (fun _ => le_rfl) ?_ rfl (List.forall_mem_singleton.mpr (.inr hdata)) rfl rfl
    exact List.forall_mem_append.mpr ⟨h.queue, List.forall_mem_singleton.mpr hdata⟩

/-- A link of the other protocol is fresh. -/
theorem Fresh.becomeSibo (h : l.Fresh before submitted pending) :
    l.becomeSibo.Fresh before submitted pending := by
  refine h.drop (fun buf => ?_) (List.forall_mem_nil _) rfl rfl rfl
  simp only [Link.carried, Link.becomeSibo, purgeAllQueues, List.count_nil]
  omega

/-- Accepting a packet keeps a link fresh. -/
theorem Fresh.accept (h : l.Fresh before submitted pending) (seq : ℕ) (buff : List UInt8) :
    (l.accept seq buff).Fresh before submitted pending :=
  h.drop (fun _ => le_rfl) (fun e he => ⟨e, he, rfl⟩) rfl rfl rfl

/-- Data keeps a link fresh. -/
theorem Fresh.receiveData (h : l.Fresh before submitted []) (seq : ℕ) (buff : List UInt8) :
    (l.receiveData env seq buff).Fresh before submitted [] := by
  have haccepted : ((l.accept seq buff).sendAck env seq).Fresh before submitted [] :=
    (h.accept seq buff).sendAck seq
  rcases receiveData_cases env seq buff l with ⟨-, heq⟩ | ⟨-, -, heq⟩ | ⟨-, -, heq⟩ |
    ⟨-, -, -, heq⟩ <;> rw [heq]
  · exact h.sendAck _
  · exact haccepted.drop (fun _ => le_rfl) (fun e he => ⟨e, he, rfl⟩) rfl rfl rfl
  · apply Fresh.transmitHoldQueue
    exact haccepted.drop (fun _ => le_rfl) (fun e he => ⟨e, he, rfl⟩) rfl rfl rfl
  · exact haccepted.drop (fun _ => le_rfl) (fun e he => ⟨e, he, rfl⟩) rfl rfl rfl

/-- The acknowledged packets leave the queue. -/
theorem Fresh.matched (h : l.Fresh before submitted []) (seq : ℕ) (e : AckWaitQueueElement) :
    (l.matched seq e).Fresh before submitted [] := by
  have herased : Fresh before submitted [] { l with
      ackWaitQueue := l.ackWaitQueue.eraseP fun e => e.seq = seq
      acked := l.acked ++ [e] } :=
    h.drop (fun _ => le_rfl) (fun e he => ⟨e, List.mem_of_mem_eraseP he, rfl⟩) rfl rfl rfl
  unfold Link.matched
  dsimp only
  split
  · exact herased.becomeSibo.drop (fun _ => le_rfl)
      (fun e he => ⟨e, (List.mem_filter.mp he).1, rfl⟩) rfl rfl rfl
  · exact herased.drop (fun _ => le_rfl) (fun e he => ⟨e, (List.mem_filter.mp he).1, rfl⟩) rfl rfl rfl

/-- An acknowledgement that arrives keeps a link fresh. -/
theorem Fresh.receiveAck (h : l.Fresh before submitted []) (seq : ℕ) :
    (l.receiveAck env seq).Fresh before submitted [] := by
  rcases receiveAck_cases env seq l with ⟨e, _, _, -, -, -, heq⟩ | ⟨-, heq⟩ <;> rw [heq]
  · exact (h.matched seq e).transmitWaitQueue
  · rcases resendLoop_cases (env.gettimeofday l.reads) (seq + 1) l.ackWaitQueue with hloop |
      ⟨first, e, rest, hqueue, -, hloop | hloop⟩ <;> rw [hloop]
    · exact h.resend (fun _ => le_rfl) h.queue rfl (List.forall_mem_nil _) rfl rfl
    · have hall := h.queue
      simp only [hqueue, List.forall_mem_append, List.forall_mem_cons] at hall
      refine h.resend (fun _ => le_rfl) ?_ rfl (List.forall_mem_nil _) rfl rfl
      exact List.forall_mem_append.mpr ⟨hall.1, hall.2.2⟩
    · have hall := h.queue
      simp only [hqueue, List.forall_mem_append, List.forall_mem_cons] at hall
      refine h.resend (fun _ => le_rfl) ?_ rfl
        (List.forall_mem_singleton.mpr (.inr hall.2.1)) rfl rfl
      exact List.forall_mem_append.mpr ⟨hall.1, List.forall_mem_cons.mpr hall.2⟩

/-- A request keeps a link fresh. -/
theorem Fresh.receiveReq (h : l.Fresh before submitted []) (seq : ℕ) :
    (l.receiveReq env seq).Fresh before submitted [] := by
  unfold Link.receiveReq
  split
  · apply Fresh.sendAck
    exact h.drop (fun _ => le_rfl) (fun e he => ⟨e, List.mem_of_mem_eraseP he, rfl⟩) rfl rfl rfl
  dsimp only
  split
  · apply Fresh.sendControl
    · exact h.drop (fun _ => le_rfl) (fun e he => ⟨e, he, rfl⟩) rfl rfl rfl
    · exact .inr (.inl rfl)
  · apply Fresh.sendAck
    apply Fresh.becomeSibo
    exact h.drop (fun _ => le_rfl) (fun e he => ⟨e, he, rfl⟩) rfl rfl rfl

/-- A frame keeps a link fresh. -/
theorem Fresh.receive (h : l.Fresh before submitted []) (frame : List UInt8) :
    (l.receive env frame).Fresh before submitted [] := by
  unfold Link.receive
  dsimp only
  split
  · exact h.receiveData _ _
  split
  · exact h.receiveAck _
  split
  · exact h.receiveReq _
  split
  · exact h.drop (fun _ => le_rfl) (fun e he => ⟨e, he, rfl⟩) rfl rfl rfl
  · exact h

/-- Resending keeps a link fresh. -/
theorem Fresh.retransmit (h : l.Fresh before submitted []) :
    (l.retransmit env).Fresh before submitted [] := by
  rcases retransmit_cases env l with ⟨-, heq⟩ | ⟨-, heq⟩ <;> rw [heq]
  · refine h.drop (fun buf => ?_) (List.forall_mem_nil _) rfl rfl rfl
    simp only [Link.carried, Link.hasFailed, purgeAllQueues, List.count_nil]
    omega
  · refine h.resend (fun _ => le_rfl) (fun e he => ?_) rfl (fun f hf => ?_) rfl rfl
    · obtain ⟨e', he', hsame⟩ := mem_retransmitLoop he
      rw [← (packet_inj hsame).2.1]
      exact h.queue e' he'
    · obtain ⟨e, he, rfl⟩ := retransmitLoop_sent hf
      exact .inr (h.queue e he)

/-- What is left in the queues is fresh. -/
theorem Fresh.purgeQueue (h : l.Fresh before submitted []) (channel : ℕ) :
    (l.purgeQueue channel).Fresh before submitted [] := by
  refine h.drop (fun buf => ?_) (fun e he => ⟨e, (List.mem_filter.mp he).1, rfl⟩) rfl rfl rfl
  have hheld := (List.filter_sublist (p := fun b => decide ((b.getD 0 0).toNat ≠ channel))
    (l := l.holdQueue)).count_le buf
  simp only [Link.carried, Link.purgeQueue, List.count_nil]
  omega

/-- A submitted packet is dropped or transmitted. -/
theorem Fresh.send (h : l.Fresh before submitted []) (buff : List UInt8) :
    (l.send env buff).Fresh before (submitted ++ [buff]) [] := by
  have hnoted : Fresh before (submitted ++ [buff]) [buff]
      { l with submitted := l.submitted ++ [buff] } := by
    obtain ⟨hcarried, hqueue, hsent⟩ := h
    refine ⟨fun buf => ?_, hqueue, hsent⟩
    have := hcarried buf
    simp only [Link.carried, List.count_append, List.count_nil] at this ⊢
    omega
  unfold Link.send
  dsimp only
  split
  · refine hnoted.drop (fun buf => ?_) (fun e he => ⟨e, he, rfl⟩) rfl rfl rfl
    exact Nat.add_le_add_left (Nat.zero_le _) _
  · exact hnoted.transmit

/-- Every event keeps what the link carries within what was submitted. -/
theorem Fresh.step (h : l.Fresh before submitted []) (event : Event) :
    (l.step env event).Fresh before (submitted ++ event.submits) [] := by
  cases event with
  | receive frame =>
    rw [Event.submits, List.append_nil]
    exact h.receive frame
  | send buff => exact h.send buff
  | retransmit =>
    rw [Event.submits, List.append_nil]
    exact h.retransmit
  | purgeQueue channel =>
    rw [Event.submits, List.append_nil]
    exact h.purgeQueue channel

/-- A run keeps what the link carries within what was submitted. -/
theorem Fresh.run (h : l.Fresh before submitted []) (events : List Event) :
    (runFrom (Link.step env) l events).Fresh before (submitted ++ events.flatMap Event.submits) [] := by
  induction events generalizing l submitted with
  | nil => simpa using h
  | cons event rest ih =>
    rw [List.flatMap_cons, ← List.append_assoc]
    exact ih (h.step event)

/-- Behind a reset with nothing waiting the link carries nothing. -/
theorem fresh_reset (hwait : l.waitQueue = []) : (l.reset env).Fresh l.sent [] [] := by
  refine Fresh.sendControl ⟨fun buf => ?_, List.forall_mem_nil _, [], by simp [purgeAllQueues], ?_⟩
    (.inl rfl)
  · simp [Link.carried, purgeAllQueues, hwait]
  · exact List.forall_mem_nil _

end Steps

/-- After a reset and some events, every packet that was numbered was submitted by one of them,
each as often as it was submitted, and every frame sent since is an acknowledgement, a packet of
the negotiation, or the frame of such a packet. -/
def NothingSurvives (env : Env) (l : Link) (events : List Event) : Prop :=
  let m := runFrom (step env) (l.reset env) events
  m.numbered.Subperm (events.flatMap Event.submits) ∧
    ∃ later, m.sent = l.sent ++ later ∧
      ∀ f ∈ later, (∃ seq, f.bytes = seqBytes 0 seq) ∨ m.Owns f.bytes

/-- The answer of a SIBO peer to the link request has the first packet that waits transmitted. -/
theorem drain_waitQueue {l : Link} {buf : List UInt8} {rest : List (List UInt8)}
    (hwait : l.waitQueue = buf :: rest) :
    [buf] <+: (runFrom (step stillEnv) (l.reset stillEnv) [.receive [0]]).numbered := by
  let m := (l.reset stillEnv).matched 0 ⟨0, 4, ⟨0, 0⟩, [0x21], 0⟩
  have hdrain : runFrom (step stillEnv) (l.reset stillEnv) [.receive [0]] =
      transmitAll stillEnv l.waitQueue { m with waitQueue := [] } := rfl
  have hfirst : (transmit stillEnv buf { m with waitQueue := [] }).numbered = [buf] := rfl
  rw [hdrain, hwait, transmitAll, ← hfirst]
  exact numbered_transmitAll stillEnv rest _

/-- Whatever happens after the reset, nothing survives it, if and only if no packet was waiting. -/
theorem nothingSurvives_iff (l : Link) :
    (∀ env events, NothingSurvives env l events) ↔ l.waitQueue = [] := by
  constructor
  · intro hall
    by_contra hne
    obtain ⟨buf, rest, hwait⟩ := List.exists_cons_of_ne_nil hne
    have hnone : (runFrom (step stillEnv) (l.reset stillEnv) [.receive [0]]).numbered = [] :=
      List.subperm_nil.mp (hall stillEnv [.receive [0]]).1
    have hbuf := (drain_waitQueue hwait).subset (List.mem_singleton_self buf)
    rw [hnone] at hbuf
    exact absurd hbuf List.not_mem_nil
  · intro hwait env events
    have hstart : (l.reset env).Fresh l.sent [] [] := fresh_reset hwait
    have hfresh : Fresh l.sent _ [] (runFrom (step env) (l.reset env) events) := hstart.run events
    rw [List.nil_append] at hfresh
    refine ⟨List.subperm_ext_iff.mpr fun buf _ => ?_, hfresh.sent⟩
    have := hfresh.carried buf
    simp only [carried] at this
    omega

/-- A new link that is given a packet before its link request is answered. -/
def waiting : Link := (construct stillEnv 0).send stillEnv [1]

/-- That packet waits, and is transmitted after a reset when the peer answers the new request. -/
theorem waiting_survives : ¬ ∀ (env : Env) (l : Link) (events : List Event),
    NothingSurvives env l events := by
  intro hall
  have hdrained : [[1]] <+: (runFrom (step stillEnv) (waiting.reset stillEnv) [.receive [0]]).numbered :=
    drain_waitQueue rfl
  have hsub := (hall stillEnv waiting [.receive [0]]).1
  exact absurd (hdrained.sublist.subperm.trans hsub) (by decide)

end Link

end Plptools
