import Plptools.Link.Model
import Mathlib.Data.List.Infix

/-!
# What the functions of a link do

Each function that polls the data link or looks at the window takes one of a few courses. They are
listed here once, with the conditions under which they are taken.
-/

namespace Plptools

namespace Link

/-- Another packet can be numbered. -/
def WindowOpen (l : Link) : Prop := l.ackWaitQueue.length < l.maxOutstanding

instance (l : Link) : Decidable l.WindowOpen :=
  inferInstanceAs (Decidable (l.ackWaitQueue.length < l.maxOutstanding))

/-- A packet is dropped, held, made to wait, or numbered. -/
theorem transmit_cases (env : Env) (buf : List UInt8) (l : Link) :
    ((l.hasFailed env).failed = true ∧ l.transmit env buf = l.hasFailed env) ∨
    (l.xoff (remoteChan buf) = true ∧ (l.hasFailed env).failed = false ∧
      l.transmit env buf = { l.hasFailed env with holdQueue := l.holdQueue ++ [buf] }) ∨
    (l.xoff (remoteChan buf) = false ∧ (l.hasFailed env).failed = false ∧ ¬l.WindowOpen ∧
      l.transmit env buf = { l.hasFailed env with waitQueue := l.waitQueue ++ [buf] }) ∨
    (l.xoff (remoteChan buf) = false ∧ (l.hasFailed env).failed = false ∧ l.WindowOpen ∧
      l.transmit env buf = (l.hasFailed env).number env buf) := by
  unfold transmit
  dsimp only
  cases hfailed : (l.hasFailed env).failed with
  | true => exact .inl ⟨rfl, if_pos rfl⟩
  | false =>
    have hxoff : (l.hasFailed env).xoff = l.xoff := rfl
    rw [if_neg Bool.false_ne_true, hxoff]
    cases hchan : l.xoff (remoteChan buf) with
    | true => exact .inr (.inl ⟨rfl, rfl, if_pos rfl⟩)
    | false =>
      rw [if_neg Bool.false_ne_true]
      by_cases hopen : l.WindowOpen
      · exact .inr (.inr (.inr ⟨rfl, rfl, hopen, if_neg (Nat.not_le.mpr hopen)⟩))
      · exact .inr (.inr (.inl ⟨rfl, rfl, hopen, if_pos (Nat.not_lt.mp hopen)⟩))

/-- At most one acknowledgement is sent. -/
theorem sendAck_cases (env : Env) (seq : ℤ) (l : Link) :
    l.sendAck env seq = l.hasFailed env ∨
    l.sendAck env seq =
      { l.hasFailed env with sent := l.sent ++ [⟨seqBytes 0 seq, l.accepted.length⟩] } := by
  unfold sendAck
  dsimp only
  by_cases hfailed : (l.hasFailed env).failed = true
  · exact .inl (if_pos hfailed)
  · exact .inr (if_neg hfailed)

/-- The frame stops or resumes a channel: `value` is 1 or 2. -/
def IsFlowControl (value : UInt8) (buff : List UInt8) : Prop :=
  buff.length = 3 ∧ buff.getD 0 0 = 0 ∧ buff.getD 2 0 = value

instance (value : UInt8) (buff : List UInt8) : Decidable (IsFlowControl value buff) :=
  inferInstanceAs (Decidable (_ ∧ _))

/-- The sequence number of the next data packet that is accepted. -/
def nextSequence (l : Link) : ℕ := (l.rxSequence + 1).toNat &&& l.seqMask

/-- The data packet is taken from the peer, before it is acknowledged. -/
def accept (seq : ℕ) (buff : List UInt8) (l : Link) : Link :=
  { l with rxSequence := seq, accepted := l.accepted ++ [buff] }

/-- A data packet is a duplicate, or it is accepted and stops a channel, resumes one, or goes to the
NCP. -/
theorem receiveData_cases (env : Env) (seq : ℕ) (buff : List UInt8) (l : Link) :
    (l.nextSequence ≠ seq ∧ l.receiveData env seq buff = l.sendAck env l.rxSequence) ∨
    (l.nextSequence = seq ∧ IsFlowControl 1 buff ∧ l.receiveData env seq buff =
      { (l.accept seq buff).sendAck env seq with
        xoff := Function.update ((l.accept seq buff).sendAck env seq).xoff (buff.getD 1 0) true }) ∨
    (l.nextSequence = seq ∧ IsFlowControl 2 buff ∧ l.receiveData env seq buff =
      transmitHoldQueue env (buff.getD 1 0) { (l.accept seq buff).sendAck env seq with
        xoff := Function.update ((l.accept seq buff).sendAck env seq).xoff (buff.getD 1 0) false }) ∨
    (l.nextSequence = seq ∧ ¬IsFlowControl 1 buff ∧ ¬IsFlowControl 2 buff ∧
      l.receiveData env seq buff =
        { (l.accept seq buff).sendAck env seq with
          received := ((l.accept seq buff).sendAck env seq).received ++ [buff] }) := by
  by_cases hnext : l.nextSequence = seq
  swap
  · exact .inl ⟨hnext, if_neg hnext⟩
  have hdata : l.receiveData env seq buff =
      if buff.length = 3 ∧ buff.getD 0 0 = 0 then
        if buff.getD 2 0 = 1 then { (l.accept seq buff).sendAck env seq with
          xoff := Function.update ((l.accept seq buff).sendAck env seq).xoff (buff.getD 1 0) true }
        else if buff.getD 2 0 = 2 then
          transmitHoldQueue env (buff.getD 1 0) { (l.accept seq buff).sendAck env seq with
            xoff := Function.update ((l.accept seq buff).sendAck env seq).xoff (buff.getD 1 0) false }
        else { (l.accept seq buff).sendAck env seq with
          received := ((l.accept seq buff).sendAck env seq).received ++ [buff] }
      else { (l.accept seq buff).sendAck env seq with
        received := ((l.accept seq buff).sendAck env seq).received ++ [buff] } := by
    subst hnext
    exact if_pos rfl
  rw [hdata]
  by_cases hshort : buff.length = 3 ∧ buff.getD 0 0 = 0
  swap
  · exact .inr (.inr (.inr ⟨hnext, fun h => hshort ⟨h.1, h.2.1⟩, fun h => hshort ⟨h.1, h.2.1⟩,
      if_neg hshort⟩))
  rw [if_pos hshort]
  by_cases hone : buff.getD 2 0 = 1
  · exact .inr (.inl ⟨hnext, ⟨hshort.1, hshort.2, hone⟩, if_pos hone⟩)
  rw [if_neg hone]
  by_cases htwo : buff.getD 2 0 = 2
  · exact .inr (.inr (.inl ⟨hnext, ⟨hshort.1, hshort.2, htwo⟩, if_pos htwo⟩))
  · exact .inr (.inr (.inr ⟨hnext, fun h => hone h.2.2, fun h => htwo h.2.2, if_neg htwo⟩))

/-- A packet of the negotiation is queued and sent unless the link has failed. -/
theorem sendControl_cases (env : Env) (data : List UInt8) (l : Link) :
    ((l.hasFailed env).failed = true ∧ l.sendControl env data = l.hasFailed env) ∨
    ((l.hasFailed env).failed = false ∧ l.sendControl env data =
      { l.hasFailed env with
        ackWaitQueue := l.ackWaitQueue ++ [⟨0, 4, env.gettimeofday l.reads, data, 0⟩]
        reads := l.reads + 1
        sent := l.sent ++ [⟨data, 0⟩] }) := by
  unfold sendControl
  dsimp only
  cases hfailed : (l.hasFailed env).failed with
  | true => exact .inl ⟨rfl, if_pos rfl⟩
  | false => exact .inr ⟨rfl, if_neg Bool.false_ne_true⟩

/-- The round of the retransmit thread over the elements of a link. -/
def expiredRound (env : Env) (l : Link) : List AckWaitQueueElement × List Packet × Bool :=
  retransmitLoop (env.gettimeofday l.reads)
    (timesub (env.gettimeofday l.reads) (l.retransTimeout env)) l.ackWaitQueue

/-- The retransmit thread empties the queues of a failed link, else it makes its round. -/
theorem retransmit_cases (env : Env) (l : Link) :
    ((l.hasFailed env).failed = true ∧ l.retransmit env = (l.hasFailed env).purgeAllQueues) ∨
    ((l.hasFailed env).failed = false ∧ l.retransmit env =
      { l.hasFailed env with
        reads := l.reads + 1
        ackWaitQueue := (l.expiredRound env).1
        failed := (l.expiredRound env).2.2
        sent := l.sent ++ (l.expiredRound env).2.1 }) := by
  unfold retransmit
  dsimp only
  cases hfailed : (l.hasFailed env).failed with
  | true => exact .inl ⟨rfl, if_pos rfl⟩
  | false => exact .inr ⟨rfl, if_neg Bool.false_ne_true⟩

/-- What `receiveAck` does with the first element that has the number: it is removed, and before
the queue that waits is drained, so are those sent earlier. -/
def matched (seq : ℕ) (e : AckWaitQueueElement) (l : Link) : Link :=
  let l := { l with
    ackWaitQueue := l.ackWaitQueue.eraseP fun e => e.seq = seq
    acked := l.acked ++ [e] }
  (if l.linkType = .LINK_TYPE_UNKNOWN ∧ seq = 0 then l.becomeSibo else l).multiAck e.stamp

/-- An acknowledgement finds its packet, or has the next one sent again. -/
theorem receiveAck_cases (env : Env) (seq : ℕ) (l : Link) :
    (∃ e before after, l.ackWaitQueue = before ++ e :: after ∧ (∀ b ∈ before, b.seq ≠ seq) ∧
      e.seq = seq ∧ l.receiveAck env seq = (l.matched seq e).transmitWaitQueue env) ∨
    ((∀ e ∈ l.ackWaitQueue, e.seq ≠ seq) ∧ l.receiveAck env seq =
      { l with
        reads := l.reads + 1
        ackWaitQueue := (resendLoop (env.gettimeofday l.reads) (seq + 1) l.ackWaitQueue).1
        sent := l.sent ++ (resendLoop (env.gettimeofday l.reads) (seq + 1) l.ackWaitQueue).2 }) := by
  unfold receiveAck
  cases hfind : l.ackWaitQueue.find? fun e => e.seq = seq with
  | none =>
    refine .inr ⟨fun e he => ?_, rfl⟩
    simpa using List.find?_eq_none.mp hfind e he
  | some e =>
    obtain ⟨hseq, before, after, hsplit, hbefore⟩ := List.find?_eq_some_iff_append.mp hfind
    refine .inl ⟨e, before, after, hsplit, fun b hb => ?_, by simpa using hseq, rfl⟩
    simpa using hbefore b hb

/-! ## The rounds over the elements that wait for an acknowledgement -/

/-- The packet that an element carries, whatever its time and the number of its retries. -/
def packet (e : AckWaitQueueElement) : ℕ × List UInt8 × ℕ := (e.seq, e.data, e.index)

/-- What is numbered tells its packet. -/
theorem packet_inj {e e' : AckWaitQueueElement} (h : packet e = packet e') :
    e.seq = e'.seq ∧ e.data = e'.data ∧ e.index = e'.index := by
  simpa only [packet, Prod.mk.injEq] using h

/-- A round keeps packets, in their order. -/
theorem retransmitLoop_kept (now expired : Timeval) (queue : List AckWaitQueueElement) :
    ((retransmitLoop now expired queue).1.map packet).Sublist (queue.map packet) := by
  induction queue with
  | nil => exact List.Sublist.refl _
  | cons e rest ih =>
    rw [retransmitLoop]
    dsimp only
    split
    · split
      · exact ih.trans (List.sublist_cons_self _ _)
      · exact ih.cons_cons (packet e)
    · exact ih.cons_cons (packet e)

/-- A round that gives up no packet keeps them all. -/
theorem retransmitLoop_all_kept {now expired : Timeval} {queue : List AckWaitQueueElement}
    (h : (retransmitLoop now expired queue).2.2 = false) :
    (retransmitLoop now expired queue).1.map packet = queue.map packet := by
  induction queue with
  | nil => rfl
  | cons e rest ih =>
    rw [retransmitLoop] at h ⊢
    dsimp only at h ⊢
    split at h
    · next hold =>
      rw [if_pos hold]
      split at h
      · cases h
      · next htx =>
        rw [if_neg htx]
        exact congrArg (packet e :: ·) (ih h)
    · next hold =>
      rw [if_neg hold]
      exact congrArg (packet e :: ·) (ih h)

/-- An element that a round keeps was in the queue. -/
theorem mem_retransmitLoop {now expired : Timeval} {queue : List AckWaitQueueElement}
    {e' : AckWaitQueueElement} (he' : e' ∈ (retransmitLoop now expired queue).1) :
    ∃ e ∈ queue, packet e = packet e' :=
  List.mem_map.mp ((retransmitLoop_kept now expired queue).subset (List.mem_map_of_mem he'))

/-- A round sends packets of the queue again. -/
theorem retransmitLoop_sent {now expired : Timeval} {queue : List AckWaitQueueElement} {f : Packet}
    (hf : f ∈ (retransmitLoop now expired queue).2.1) : ∃ e ∈ queue, f = ⟨e.data, e.index⟩ := by
  induction queue with
  | nil => cases hf
  | cons e rest ih =>
    have hrest : f ∈ (retransmitLoop now expired rest).2.1 → ∃ d ∈ e :: rest, f = ⟨d.data, d.index⟩ := by
      intro h
      obtain ⟨d, hd, heq⟩ := ih h
      exact ⟨d, List.mem_cons_of_mem e hd, heq⟩
    rw [retransmitLoop] at hf
    dsimp only at hf
    split at hf
    · split at hf
      · exact hrest hf
      · rcases List.mem_cons.mp hf with rfl | hf
        · exact ⟨e, List.mem_cons_self, rfl⟩
        · exact hrest hf
    · exact hrest hf

/-- A packet whose time has not come, or that may be sent once more, is kept. -/
theorem retransmitLoop_survives {now expired : Timeval} {queue : List AckWaitQueueElement}
    {e : AckWaitQueueElement} (he : e ∈ queue)
    (hkeeps : olderthan e.stamp expired = true → e.txcount ≠ 0) :
    ∃ e' ∈ (retransmitLoop now expired queue).1, packet e' = packet e := by
  induction queue with
  | nil => cases he
  | cons d rest ih =>
    rw [retransmitLoop]
    dsimp only
    rcases List.mem_cons.mp he with rfl | he
    · split
      · next hold =>
        rw [if_neg (hkeeps hold)]
        exact ⟨_, List.mem_cons_self, rfl⟩
      · exact ⟨e, List.mem_cons_self, rfl⟩
    · obtain ⟨e', he', hsame⟩ := ih he
      split
      · split
        · exact ⟨e', he', hsame⟩
        · exact ⟨e', List.mem_cons_of_mem _ he', hsame⟩
      · exact ⟨e', List.mem_cons_of_mem _ he', hsame⟩

/-- A hint finds no packet to send again, gives one up, or sends one again. -/
theorem resendLoop_cases (now : Timeval) (seq : ℕ) (queue : List AckWaitQueueElement) :
    resendLoop now seq queue = (queue, []) ∨
    ∃ before e after, queue = before ++ e :: after ∧ e.seq = seq ∧
      (resendLoop now seq queue = (before ++ after, []) ∨
        resendLoop now seq queue =
          (before ++ { e with txcount := e.txcount - 1, stamp := now } :: after,
            [⟨e.data, e.index⟩])) := by
  induction queue with
  | nil => exact .inl rfl
  | cons d rest ih =>
    rw [resendLoop]
    by_cases hseq : d.seq = seq
    · rw [if_pos hseq]
      refine .inr ⟨[], d, rest, rfl, hseq, ?_⟩
      split
      · exact .inl rfl
      · exact .inr rfl
    · rw [if_neg hseq]
      rcases ih with h | ⟨before, e, after, rfl, he, h⟩
      · exact .inl (by rw [h])
      · refine .inr ⟨d :: before, e, after, rfl, he, ?_⟩
        rcases h with h | h
        · exact .inl (by rw [h]; rfl)
        · exact .inr (by rw [h]; rfl)

/-! ## Packets that have a number keep it -/

/-- Transmitting numbers one more packet at most. -/
theorem numbered_transmit (env : Env) (buf : List UInt8) (l : Link) :
    l.numbered <+: (l.transmit env buf).numbered := by
  rcases transmit_cases env buf l with ⟨-, h⟩ | ⟨-, -, h⟩ | ⟨-, -, -, h⟩ | ⟨-, -, -, h⟩ <;> rw [h]
  · exact List.prefix_rfl
  · exact List.prefix_rfl
  · exact List.prefix_rfl
  · exact List.prefix_append _ _

/-- Transmitting packets numbers more of them. -/
theorem numbered_transmitAll (env : Env) (packets : List (List UInt8)) (l : Link) :
    l.numbered <+: (transmitAll env packets l).numbered := by
  induction packets generalizing l with
  | nil => exact List.prefix_rfl
  | cons buf rest ih => exact (numbered_transmit env buf l).trans (ih _)

/-- Transmitting what was held numbers more packets. -/
theorem numbered_transmitHoldQueue (env : Env) (channel : UInt8) (l : Link) :
    l.numbered <+: (l.transmitHoldQueue env channel).numbered :=
  numbered_transmitAll env _ { l with holdQueue := l.holdQueue.filter fun buf => remoteChan buf ≠ channel }

/-- Transmitting what waited numbers more packets. -/
theorem numbered_transmitWaitQueue (env : Env) (l : Link) :
    l.numbered <+: (l.transmitWaitQueue env).numbered :=
  numbered_transmitAll env l.waitQueue { l with waitQueue := [] }

/-- An acknowledgement numbers nothing. -/
theorem numbered_sendAck (env : Env) (seq : ℤ) (l : Link) : (l.sendAck env seq).numbered = l.numbered := by
  rcases sendAck_cases env seq l with h | h <;> rw [h] <;> rfl

/-- A control frame numbers nothing. -/
theorem numbered_sendControl (env : Env) (data : List UInt8) (l : Link) :
    (l.sendControl env data).numbered = l.numbered := by
  rcases sendControl_cases env data l with ⟨-, h⟩ | ⟨-, h⟩ <;> rw [h] <;> rfl

/-- An acknowledged packet numbers nothing. -/
theorem numbered_matched (seq : ℕ) (e : AckWaitQueueElement) (l : Link) :
    (l.matched seq e).numbered = l.numbered := by
  unfold matched
  dsimp only
  split <;> rfl

/-- Sending numbers one more packet at most. -/
theorem numbered_send (env : Env) (buff : List UInt8) (l : Link) :
    l.numbered <+: (l.send env buff).numbered := by
  unfold send
  dsimp only
  split
  · exact List.prefix_rfl
  · exact numbered_transmit env buff { l with submitted := l.submitted ++ [buff] }

/-- Resending numbers nothing. -/
theorem numbered_retransmit (env : Env) (l : Link) : (l.retransmit env).numbered = l.numbered := by
  rcases retransmit_cases env l with ⟨-, h⟩ | ⟨-, h⟩ <;> rw [h] <;> rfl

/-- Data numbers what was held at most. -/
theorem numbered_receiveData (env : Env) (seq : ℕ) (buff : List UInt8) (l : Link) :
    l.numbered <+: (l.receiveData env seq buff).numbered := by
  have haccept : ((l.accept seq buff).sendAck env seq).numbered = l.numbered := numbered_sendAck env _ _
  rcases receiveData_cases env seq buff l with ⟨-, h⟩ | ⟨-, -, h⟩ | ⟨-, -, h⟩ | ⟨-, -, -, h⟩ <;> rw [h]
  · rw [numbered_sendAck]
  · exact haccept ▸ List.prefix_rfl
  · refine List.IsPrefix.trans ?_ (numbered_transmitHoldQueue env _ _)
    exact haccept ▸ List.prefix_rfl
  · exact haccept ▸ List.prefix_rfl

/-- An acknowledgement that arrives numbers what waited at most. -/
theorem numbered_receiveAck (env : Env) (seq : ℕ) (l : Link) :
    l.numbered <+: (l.receiveAck env seq).numbered := by
  rcases receiveAck_cases env seq l with ⟨e, _, _, -, -, -, h⟩ | ⟨-, h⟩ <;> rw [h]
  rw [← numbered_matched seq e l]
  exact numbered_transmitWaitQueue env _

/-- A request numbers nothing. -/
theorem numbered_receiveReq (env : Env) (seq : ℕ) (l : Link) :
    (l.receiveReq env seq).numbered = l.numbered := by
  unfold receiveReq
  split
  · rw [numbered_sendAck]
  dsimp only
  split
  · rw [sendReqCon, numbered_sendControl]
  · rw [numbered_sendAck]
    rfl

/-- A frame keeps what has been numbered. -/
theorem numbered_receive (env : Env) (buff : List UInt8) (l : Link) :
    l.numbered <+: (l.receive env buff).numbered := by
  unfold receive
  dsimp only
  split
  · exact numbered_receiveData env _ _ l
  split
  · exact numbered_receiveAck env _ l
  split
  · rw [numbered_receiveReq]
  split <;> exact List.prefix_rfl

/-! ## What sending does not touch -/

/-- Two states of a link that differ in the queues and in what has been sent, not in what has been
received, negotiated and passed on. -/
structure SameReceived (l m : Link) : Prop where
  linkType : m.linkType = l.linkType
  rxSequence : m.rxSequence = l.rxSequence
  xoff : m.xoff = l.xoff
  received : m.received = l.received
  submitted : m.submitted = l.submitted
  accepted : m.accepted = l.accepted
  acked : m.acked = l.acked

/-- One step after the other. -/
theorem SameReceived.trans {l m n : Link} (h : SameReceived l m) (h' : SameReceived m n) : SameReceived l n :=
  ⟨h'.linkType.trans h.linkType, h'.rxSequence.trans h.rxSequence, h'.xoff.trans h.xoff,
    h'.received.trans h.received, h'.submitted.trans h.submitted, h'.accepted.trans h.accepted,
    h'.acked.trans h.acked⟩

/-- Transmitting receives nothing. -/
theorem sameReceived_transmit (env : Env) (buf : List UInt8) (l : Link) :
    SameReceived l (l.transmit env buf) := by
  rcases transmit_cases env buf l with ⟨-, h⟩ | ⟨-, -, h⟩ | ⟨-, -, -, h⟩ | ⟨-, -, -, h⟩ <;> rw [h] <;>
    exact ⟨rfl, rfl, rfl, rfl, rfl, rfl, rfl⟩

/-- Transmitting packets receives nothing. -/
theorem sameReceived_transmitAll (env : Env) (packets : List (List UInt8)) (l : Link) :
    SameReceived l (transmitAll env packets l) := by
  induction packets generalizing l with
  | nil => exact ⟨rfl, rfl, rfl, rfl, rfl, rfl, rfl⟩
  | cons buf rest ih => exact (sameReceived_transmit env buf l).trans (ih _)

/-- An acknowledgement receives nothing. -/
theorem sameReceived_sendAck (env : Env) (seq : ℤ) (l : Link) : SameReceived l (l.sendAck env seq) := by
  rcases sendAck_cases env seq l with h | h <;> rw [h] <;> exact ⟨rfl, rfl, rfl, rfl, rfl, rfl, rfl⟩

/-- A control frame receives nothing. -/
theorem sameReceived_sendControl (env : Env) (data : List UInt8) (l : Link) :
    SameReceived l (l.sendControl env data) := by
  rcases sendControl_cases env data l with ⟨-, h⟩ | ⟨-, h⟩ <;> rw [h] <;>
    exact ⟨rfl, rfl, rfl, rfl, rfl, rfl, rfl⟩

/-- Resending receives nothing. -/
theorem sameReceived_retransmit (env : Env) (l : Link) : SameReceived l (l.retransmit env) := by
  rcases retransmit_cases env l with ⟨-, h⟩ | ⟨-, h⟩ <;> rw [h] <;>
    exact ⟨rfl, rfl, rfl, rfl, rfl, rfl, rfl⟩

/-- Sending a packet of the NCP only notes it. -/
theorem sameReceived_send (env : Env) (buff : List UInt8) (l : Link) :
    SameReceived { l with submitted := l.submitted ++ [buff] } (l.send env buff) := by
  unfold send
  dsimp only
  split
  · exact ⟨rfl, rfl, rfl, rfl, rfl, rfl, rfl⟩
  · exact sameReceived_transmit env buff { l with submitted := l.submitted ++ [buff] }

/-- The next data packet is accepted, another one is not. -/
theorem accepted_receiveData (env : Env) (seq : ℕ) (buff : List UInt8) (l : Link) :
    (l.receiveData env seq buff).accepted =
      if l.nextSequence = seq then l.accepted ++ [buff] else l.accepted := by
  have haccept : ((l.accept seq buff).sendAck env seq).accepted = l.accepted ++ [buff] :=
    (sameReceived_sendAck env _ _).accepted
  rcases receiveData_cases env seq buff l with ⟨hne, h⟩ | ⟨hnext, -, h⟩ | ⟨hnext, -, h⟩ |
    ⟨hnext, -, -, h⟩ <;> rw [h]
  · rw [if_neg hne, (sameReceived_sendAck env _ _).accepted]
  · rw [if_pos hnext, ← haccept]
  · rw [if_pos hnext, ← haccept]
    exact (sameReceived_transmitAll env _ _).accepted
  · rw [if_pos hnext, ← haccept]

/-- An acknowledgement is not accepted as data. -/
theorem accepted_receiveAck (env : Env) (seq : ℕ) (l : Link) :
    (l.receiveAck env seq).accepted = l.accepted := by
  rcases receiveAck_cases env seq l with ⟨e, _, _, -, -, -, h⟩ | ⟨-, h⟩ <;> rw [h]
  apply (sameReceived_transmitAll env _ _).accepted.trans
  unfold matched
  dsimp only
  split <;> rfl

/-- Nor is a request. -/
theorem accepted_receiveReq (env : Env) (seq : ℕ) (l : Link) :
    (l.receiveReq env seq).accepted = l.accepted := by
  unfold receiveReq
  split
  · rw [(sameReceived_sendAck env _ _).accepted]
  dsimp only
  split
  · rw [sendReqCon, (sameReceived_sendControl env _ _).accepted]
  · rw [(sameReceived_sendAck env _ _).accepted]
    rfl

/-- What has been accepted stays accepted. -/
theorem accepted_receive (env : Env) (buff : List UInt8) (l : Link) :
    l.accepted <+: (l.receive env buff).accepted := by
  unfold receive
  dsimp only
  split
  · rw [accepted_receiveData]
    split
    · exact List.prefix_append _ _
    · exact List.prefix_rfl
  split
  · rw [accepted_receiveAck]
  split
  · rw [accepted_receiveReq]
  split <;> exact List.prefix_rfl

/-- A data packet acknowledges nothing. -/
theorem acked_receiveData (env : Env) (seq : ℕ) (buff : List UInt8) (l : Link) :
    (l.receiveData env seq buff).acked = l.acked := by
  have haccept : ((l.accept seq buff).sendAck env seq).acked = l.acked := (sameReceived_sendAck env _ _).acked
  rcases receiveData_cases env seq buff l with ⟨-, h⟩ | ⟨-, -, h⟩ | ⟨-, -, h⟩ | ⟨-, -, -, h⟩ <;> rw [h]
  · exact (sameReceived_sendAck env _ l).acked
  · exact haccept
  · exact (sameReceived_transmitAll env _ _).acked.trans haccept
  · exact haccept

end Link

end Plptools
