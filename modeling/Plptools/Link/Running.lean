import Plptools.Link.Pair
import Plptools.Link.Frame

/-!
# An established link

Once a link is established its ends exchange data packets and acknowledgements only. The sequence
numbers stay in the range of the link, so that each frame is read as what it was sent as, and only
data packets that are accepted move the number of the next one.
-/

namespace Plptools

/-- The size of the window and the number of sequence numbers, for the two types of links. -/
def Protocol (W N : ℕ) : Prop := (W = 1 ∧ N = 8) ∨ (W = 8 ∧ N = 2048)

namespace Protocol

variable {W N : ℕ}

/-- The window is far smaller than the range of numbers. -/
theorem window (h : Protocol W N) : W * W + W + 1 < N := by
  rcases h with ⟨rfl, rfl⟩ | ⟨rfl, rfl⟩ <;> decide

/-- There are numbers. -/
theorem modulus_pos (h : Protocol W N) : 0 < N := Nat.zero_lt_of_lt h.window

/-- No protocol has more numbers than two bytes hold. -/
theorem le (h : Protocol W N) : N ≤ 2048 := by rcases h with ⟨-, rfl⟩ | ⟨-, rfl⟩ <;> decide

/-- Masking a number reduces it. -/
theorem mask (h : Protocol W N) {seqMask : ℕ} (hmask : seqMask + 1 = N) (x : ℕ) : x &&& seqMask = x % N := by
  rcases h with ⟨-, rfl⟩ | ⟨-, rfl⟩
  · cases Nat.succ.inj hmask
    exact Nat.and_two_pow_sub_one_eq_mod x 3
  · cases Nat.succ.inj hmask
    exact Nat.and_two_pow_sub_one_eq_mod x 11

end Protocol

/-- The frame is a data packet. -/
def IsData (bytes : List UInt8) : Prop := (header bytes).1 = 0x30

/-- The frame is an acknowledgement. -/
def IsAck (bytes : List UInt8) : Prop := (header bytes).1 = 0x00

instance (bytes : List UInt8) : Decidable (IsData bytes) := inferInstanceAs (Decidable (_ = _))

instance (bytes : List UInt8) : Decidable (IsAck bytes) := inferInstanceAs (Decidable (_ = _))

/-- A data packet is told by its type. -/
theorem isData_seqBytes {seq : ℕ} (h : seq < 2048) (buf : List UInt8) : IsData (seqBytes 0x30 seq ++ buf) := by
  rw [IsData, header_seqBytes (.inr rfl) h]

/-- The number of an acknowledgement is read back. -/
theorem header_ack {seq : ℕ} (h : seq < 2048) : header (seqBytes 0x00 seq) = (0x00, seq, []) := by
  have := header_seqBytes (.inl rfl) h []
  rwa [List.append_nil] at this

/-- An acknowledgement is told by its type. -/
theorem isAck_seqBytes {seq : ℕ} (h : seq < 2048) : IsAck (seqBytes 0x00 seq) := by
  rw [IsAck, header_ack h]

/-- Data is no acknowledgement. -/
theorem IsData.not_isAck {bytes : List UInt8} (h : IsData bytes) : ¬IsAck bytes := by
  intro hack
  rw [IsData] at h
  rw [IsAck, h] at hack
  cases hack

/-- The acknowledgements among some frames. -/
def acksOf (frames : List Packet) : List Packet := frames.filter fun f => IsAck f.bytes

/-- The indices of the data packets among some frames. -/
def dataIndices (frames : List Packet) : List ℕ :=
  (frames.filter fun f => IsData f.bytes).map (·.index)

/-- No frames, no acknowledgements. -/
@[simp] theorem acksOf_nil : acksOf [] = [] := rfl

/-- The acknowledgements of frames one behind the other. -/
@[simp] theorem acksOf_append (first rest : List Packet) :
    acksOf (first ++ rest) = acksOf first ++ acksOf rest := List.filter_append ..

/-- The data packets of frames one behind the other. -/
@[simp] theorem dataIndices_append (first rest : List Packet) :
    dataIndices (first ++ rest) = dataIndices first ++ dataIndices rest := by
  rw [dataIndices, List.filter_append, List.map_append]
  rfl

/-- An acknowledgement first. -/
theorem acksOf_cons {f : Packet} (h : IsAck f.bytes) (rest : List Packet) :
    acksOf (f :: rest) = f :: acksOf rest :=
  List.filter_cons_of_pos (by simpa using h)

/-- A data packet first. -/
theorem dataIndices_cons {f : Packet} (h : IsData f.bytes) (rest : List Packet) :
    dataIndices (f :: rest) = f.index :: dataIndices rest := by
  rw [dataIndices, List.filter_cons_of_pos (by simpa using h)]
  rfl

/-- There is no acknowledgement among data packets. -/
theorem acksOf_eq_nil {frames : List Packet} (h : ∀ f ∈ frames, IsData f.bytes) : acksOf frames = [] := by
  rw [acksOf, List.filter_eq_nil_iff]
  exact fun f hf => by simpa using (h f hf).not_isAck

/-- All frames are data packets. -/
theorem dataIndices_of_isData {frames : List Packet} (h : ∀ f ∈ frames, IsData f.bytes) :
    dataIndices frames = frames.map (·.index) := by
  rw [dataIndices, List.filter_eq_self.mpr]
  exact fun f hf => by simpa using h f hf

/-- There is no data packet among acknowledgements. -/
theorem dataIndices_of_isAck {frames : List Packet} (h : ∀ f ∈ frames, IsAck f.bytes) :
    dataIndices frames = [] := by
  rw [dataIndices, List.filter_eq_nil_iff.mpr, List.map_nil]
  exact fun f hf => by simpa using fun hdata : IsData f.bytes => hdata.not_isAck (h f hf)

namespace Link

/-- A packet with content that is numbered. -/
theorem number_of_ne_nil {env : Env} {buf : List UInt8} (h : buf ≠ []) (l : Link) :
    l.number env buf = { l with
      txSequence := (l.txSequence + 1) &&& l.seqMask
      reads := l.reads + 1
      ackWaitQueue := l.ackWaitQueue ++ [⟨l.txSequence, 8, env.gettimeofday l.reads,
        seqBytes 0x30 l.txSequence ++ buf, l.numbered.length⟩]
      numbered := l.numbered ++ [buf]
      sent := l.sent ++ [⟨seqBytes 0x30 l.txSequence ++ buf, l.numbered.length⟩] } := by
  rw [number, if_neg h]

/-- What is done with a data packet. -/
theorem receive_of_isData (env : Env) {bytes : List UInt8} (h : IsData bytes) (l : Link) :
    l.receive env bytes = l.receiveData env (header bytes).2.1 (header bytes).2.2 := if_pos h

/-- What is done with an acknowledgement. -/
theorem receive_of_isAck (env : Env) {bytes : List UInt8} (h : IsAck bytes) (l : Link) :
    l.receive env bytes = l.receiveAck env (header bytes).2.1 :=
  (if_neg fun hdata => IsData.not_isAck hdata h).trans (if_pos h)

/-- A link that is established: its numbers are in range, and nothing but data packets waits for an
acknowledgement. -/
structure Running (W N : ℕ) (l : Link) : Prop where
  linkType : l.linkType ≠ .LINK_TYPE_UNKNOWN
  maxOutstanding : l.maxOutstanding = W
  seqMask : l.seqMask + 1 = N
  tx : l.txSequence < N
  rx : ∃ rx : ℕ, l.rxSequence = rx ∧ rx < N
  waiting : ∀ buf ∈ l.waitQueue, buf ≠ []
  held : ∀ buf ∈ l.holdQueue, buf ≠ []
  queue : ∀ e ∈ l.ackWaitQueue, IsData e.data
  sent : ∀ f ∈ l.sent, IsData f.bytes ∨ IsAck f.bytes

/-- What only the receiving side changes: the number of the last packet accepted, the packets
accepted, and the acknowledgements sent. -/
def receiverView (l : Link) : ℤ × List (List UInt8) × List Packet :=
  (l.rxSequence, l.accepted, acksOf l.sent)

variable {W N : ℕ} {env : Env} {l : Link}

/-- Transmitting a packet does not touch what has been received. -/
theorem Running.transmit (hp : Protocol W N) (h : l.Running W N) {buf : List UInt8} (hbuf : buf ≠ []) :
    (l.transmit env buf).Running W N ∧ (l.transmit env buf).receiverView = l.receiverView := by
  rcases transmit_cases env buf l with ⟨-, heq⟩ | ⟨-, -, heq⟩ | ⟨-, -, -, heq⟩ | ⟨-, -, -, heq⟩ <;> rw [heq]
  · exact ⟨{ h with }, rfl⟩
  · refine ⟨{ h with held := ?_ }, rfl⟩
    simp only [List.forall_mem_append, List.forall_mem_singleton]
    exact ⟨h.held, hbuf⟩
  · refine ⟨{ h with waiting := ?_ }, rfl⟩
    simp only [List.forall_mem_append, List.forall_mem_singleton]
    exact ⟨h.waiting, hbuf⟩
  · have hdata : IsData (seqBytes 0x30 l.txSequence ++ buf) :=
      isData_seqBytes (h.tx.trans_le hp.le) buf
    rw [number_of_ne_nil hbuf]
    refine ⟨{ h with tx := ?_, queue := ?_, sent := ?_ }, ?_⟩
    · change (l.txSequence + 1) &&& l.seqMask < N
      rw [hp.mask h.seqMask]
      exact Nat.mod_lt _ hp.modulus_pos
    · simp only [List.forall_mem_append, List.forall_mem_singleton]
      exact ⟨h.queue, hdata⟩
    · simp only [List.forall_mem_append, List.forall_mem_singleton]
      exact ⟨h.sent, .inl hdata⟩
    · have hnone : acksOf [⟨seqBytes 0x30 l.txSequence ++ buf, l.numbered.length⟩] = [] :=
        acksOf_eq_nil (List.forall_mem_singleton.mpr hdata)
      have hacks := acksOf_append l.sent [⟨seqBytes 0x30 l.txSequence ++ buf, l.numbered.length⟩]
      rw [hnone, List.append_nil] at hacks
      exact congrArg (fun acks => (l.rxSequence, l.accepted, acks)) hacks

/-- Transmitting packets does not touch what has been received. -/
theorem Running.transmitAll (hp : Protocol W N) {packets : List (List UInt8)} (h : l.Running W N)
    (hpackets : ∀ buf ∈ packets, buf ≠ []) :
    (transmitAll env packets l).Running W N ∧
      (Link.transmitAll env packets l).receiverView = l.receiverView := by
  induction packets generalizing l with
  | nil => exact ⟨h, rfl⟩
  | cons buf rest ih =>
    obtain ⟨hfirst, hview⟩ : (l.transmit env buf).Running W N ∧ (l.transmit env buf).receiverView = l.receiverView :=
      h.transmit hp (hpackets buf List.mem_cons_self)
    obtain ⟨hrest, hview'⟩ := ih hfirst fun other hother => hpackets other (List.mem_cons_of_mem _ hother)
    exact ⟨hrest, hview'.trans hview⟩

/-- The acknowledgement of what has been accepted, if it is sent. -/
def IsReply (rx : ℕ) (accepted : List (List UInt8)) (acks : List Packet) : Prop :=
  acks = [] ∨ acks = [⟨seqBytes 0x00 rx, accepted.length⟩]

/-- An acknowledgement is all that is added. -/
theorem Running.sendAck (env : Env) (hp : Protocol W N) (h : l.Running W N) {seq : ℕ} (hseq : seq < N) :
    (l.sendAck env seq).Running W N ∧ ∃ acks, IsReply seq l.accepted acks ∧
      (l.sendAck env seq).receiverView = (l.rxSequence, l.accepted, acksOf l.sent ++ acks) := by
  rcases sendAck_cases env seq l with heq | heq <;> rw [heq]
  · refine ⟨{ h with }, [], .inl rfl, ?_⟩
    rw [List.append_nil]
    rfl
  · have hack : IsAck (seqBytes 0x00 seq) := isAck_seqBytes (hseq.trans_le hp.le)
    refine ⟨{ h with sent := ?_ }, [⟨seqBytes 0x00 seq, l.accepted.length⟩], .inr rfl, ?_⟩
    · simp only [List.forall_mem_append, List.forall_mem_singleton]
      exact ⟨h.sent, .inr hack⟩
    · have hself : acksOf [⟨seqBytes 0x00 seq, l.accepted.length⟩] =
          [⟨seqBytes 0x00 seq, l.accepted.length⟩] :=
        List.filter_eq_self.mpr (by simpa using hack)
      simp only [receiverView, acksOf_append, hself]
      rfl

/-- Resending does not touch what has been received. -/
theorem Running.retransmit (h : l.Running W N) :
    (l.retransmit env).Running W N ∧ (l.retransmit env).receiverView = l.receiverView := by
  rcases retransmit_cases env l with ⟨-, heq⟩ | ⟨-, heq⟩ <;> rw [heq]
  · exact ⟨{ h with held := List.forall_mem_nil _, queue := List.forall_mem_nil _ }, rfl⟩
  · have hsent : ∀ f ∈ (l.expiredRound env).2.1, IsData f.bytes := by
      intro f hf
      obtain ⟨e, he, rfl⟩ := retransmitLoop_sent hf
      exact h.queue e he
    refine ⟨{ h with queue := fun e' he' => ?_, sent := ?_ }, ?_⟩
    · obtain ⟨e, he, hpacket⟩ := mem_retransmitLoop he'
      rw [← (packet_inj hpacket).2.1]
      exact h.queue e he
    · exact List.forall_mem_append.mpr ⟨h.sent, fun f hf => .inl (hsent f hf)⟩
    · simp only [receiverView, acksOf_append, acksOf_eq_nil hsent, List.append_nil]
      rfl

/-- Sending does not touch what has been received. -/
theorem Running.send (hp : Protocol W N) (h : l.Running W N) {buff : List UInt8} (hbuff : buff ≠ []) :
    (l.send env buff).Running W N ∧ (l.send env buff).receiverView = l.receiverView := by
  unfold Link.send
  dsimp only
  split
  · exact ⟨{ h with }, rfl⟩
  · have hsubmitted : Running W N { l with submitted := l.submitted ++ [buff] } := { h with }
    exact hsubmitted.transmit hp hbuff

/-- An acknowledgement of the first of the packets with its number removes it, and those that were
sent before it. -/
theorem matched_eq (htype : l.linkType ≠ .LINK_TYPE_UNKNOWN) {seq : ℕ} {e : AckWaitQueueElement}
    {before after : List AckWaitQueueElement} (hsplit : l.ackWaitQueue = before ++ e :: after)
    (hbefore : ∀ b ∈ before, b.seq ≠ seq) (hseq : e.seq = seq) :
    l.matched seq e = { l with
      ackWaitQueue := (before ++ after).filter fun d => !olderthan d.stamp e.stamp
      acked := l.acked ++ [e] ++ (before ++ after).filter fun d => olderthan d.stamp e.stamp } := by
  have herase : (l.ackWaitQueue.eraseP fun d => d.seq = seq) = before ++ after := by
    rw [hsplit, List.eraseP_append_right _ (fun b hb => by simpa using hbefore b hb),
      List.eraseP_cons_of_pos (by simpa using hseq)]
  rw [matched]
  dsimp only
  rw [if_neg fun hunknown => htype hunknown.1, multiAck, herase]

/-- An acknowledged packet does not touch what has been received. -/
theorem Running.matched (h : l.Running W N) {seq : ℕ} {e : AckWaitQueueElement}
    {before after : List AckWaitQueueElement} (hsplit : l.ackWaitQueue = before ++ e :: after)
    (hbefore : ∀ b ∈ before, b.seq ≠ seq) (hseq : e.seq = seq) :
    (l.matched seq e).Running W N ∧ (l.matched seq e).receiverView = l.receiverView := by
  rw [matched_eq h.linkType hsplit hbefore hseq]
  refine ⟨{ h with queue := fun d hd => h.queue d ?_ }, rfl⟩
  rw [hsplit]
  exact ((List.sublist_cons_self e after).append_left before).subset (List.mem_of_mem_filter hd)

/-- Transmitting what waited does not touch what has been received. -/
theorem Running.transmitWaitQueue (env : Env) (hp : Protocol W N) (h : l.Running W N) :
    (l.transmitWaitQueue env).Running W N ∧ (l.transmitWaitQueue env).receiverView = l.receiverView := by
  have hempty : Running W N { l with waitQueue := [] } :=
    { h with waiting := List.forall_mem_nil _ }
  exact hempty.transmitAll hp h.waiting

/-- An acknowledgement does not touch what has been received. -/
theorem Running.receiveAck (hp : Protocol W N) (h : l.Running W N) (seq : ℕ) :
    (l.receiveAck env seq).Running W N ∧ (l.receiveAck env seq).receiverView = l.receiverView := by
  rcases receiveAck_cases env seq l with ⟨e, before, after, hsplit, hbefore, hseq, heq⟩ | ⟨-, heq⟩
  · rw [heq]
    obtain ⟨hrun, hview⟩ := h.matched hsplit hbefore hseq
    obtain ⟨hdrained, hdview⟩ := hrun.transmitWaitQueue env hp
    exact ⟨hdrained, hdview.trans hview⟩
  · rw [heq]
    have hqueue := h.queue
    rcases resendLoop_cases (env.gettimeofday l.reads) (seq + 1) l.ackWaitQueue with
      hnone | ⟨before, e, after, hsplit, -, hgone | hagain⟩
    · rw [hnone, List.append_nil]
      exact ⟨{ h with }, rfl⟩
    · rw [hgone, List.append_nil]
      rw [hsplit, List.forall_mem_append, List.forall_mem_cons] at hqueue
      exact ⟨{ h with queue := List.forall_mem_append.mpr ⟨hqueue.1, hqueue.2.2⟩ }, rfl⟩
    · rw [hagain]
      rw [hsplit, List.forall_mem_append, List.forall_mem_cons] at hqueue
      obtain ⟨hbefore, he, hafter⟩ := hqueue
      refine ⟨{ h with queue := ?_, sent := ?_ }, ?_⟩
      · simp only [List.forall_mem_append, List.forall_mem_cons]
        exact ⟨hbefore, he, hafter⟩
      · simp only [List.forall_mem_append, List.forall_mem_singleton]
        exact ⟨h.sent, .inl he⟩
      · have hnone : acksOf [⟨e.data, e.index⟩] = [] :=
          acksOf_eq_nil (List.forall_mem_singleton.mpr he)
        simp only [receiverView, acksOf_append, hnone, List.append_nil]

/-- Transmitting what was held does not touch what has been received. -/
theorem Running.transmitHoldQueue (hp : Protocol W N) (h : l.Running W N) (channel : UInt8) :
    (l.transmitHoldQueue env channel).Running W N ∧
      (l.transmitHoldQueue env channel).receiverView = l.receiverView := by
  have hkept : Running W N { l with holdQueue := l.holdQueue.filter fun buf => remoteChan buf ≠ channel } :=
    { h with held := fun buf hbuf => h.held buf (List.mem_of_mem_filter hbuf) }
  exact hkept.transmitAll hp fun buf hbuf => h.held buf (List.mem_of_mem_filter hbuf)

/-- The next number follows that of the last packet. -/
theorem Running.nextSequence (hp : Protocol W N) (h : l.Running W N) {rx : ℕ} (hrx : l.rxSequence = rx) :
    l.nextSequence = (rx + 1) % N := by
  rw [Link.nextSequence, hp.mask h.seqMask, hrx]
  rfl

/-- A data packet is accepted if it is the next one, and what has been accepted is acknowledged. -/
theorem Running.receiveData (env : Env) (hp : Protocol W N) (h : l.Running W N) (seq : ℕ) (buff : List UInt8) :
    (l.receiveData env seq buff).Running W N ∧ ∃ (rx : ℕ) (accepted : List (List UInt8)) (acks : List Packet),
      ((l.nextSequence ≠ seq ∧ l.rxSequence = rx ∧ accepted = l.accepted) ∨
        (l.nextSequence = seq ∧ rx = seq ∧ accepted = l.accepted ++ [buff])) ∧
      IsReply rx accepted acks ∧
      (l.receiveData env seq buff).receiverView = ((rx : ℤ), accepted, acksOf l.sent ++ acks) := by
  obtain ⟨rx, hrx, hlt⟩ := h.rx
  by_cases hnext : l.nextSequence = seq
  swap
  · rcases receiveData_cases env seq buff l with ⟨-, heq⟩ | ⟨hfalse, -⟩ | ⟨hfalse, -⟩ | ⟨hfalse, -⟩
    · obtain ⟨hack, acks, hreply, hview⟩ := h.sendAck env hp hlt
      rw [heq, hrx]
      exact ⟨hack, rx, l.accepted, acks, .inl ⟨hnext, rfl, rfl⟩, hreply, hrx ▸ hview⟩
    all_goals exact absurd hfalse hnext
  have hseq : seq < N := by
    rw [← hnext, h.nextSequence hp hrx]
    exact Nat.mod_lt _ hp.modulus_pos
  have haccept : (l.accept seq buff).Running W N := { h with rx := ⟨seq, rfl, hseq⟩ }
  obtain ⟨hack, acks, hreply, hview⟩ := haccept.sendAck env hp hseq
  have hacked : ∀ xoff, Running W N { (l.accept seq buff).sendAck env seq with xoff := xoff } :=
    fun xoff => { hack with }
  suffices hresult : (l.receiveData env seq buff).Running W N ∧
      (l.receiveData env seq buff).receiverView = ((l.accept seq buff).sendAck env seq).receiverView from
    ⟨hresult.1, seq, l.accepted ++ [buff], acks, .inr ⟨hnext, rfl, rfl⟩, hreply, hresult.2.trans hview⟩
  rcases receiveData_cases env seq buff l with ⟨hfalse, -⟩ | ⟨-, -, heq⟩ | ⟨-, -, heq⟩ | ⟨-, -, -, heq⟩
  · exact absurd hnext hfalse
  · rw [heq]
    exact ⟨hacked _, rfl⟩
  · rw [heq]
    exact (hacked _).transmitHoldQueue hp _
  · rw [heq]
    exact ⟨{ hack with }, rfl⟩

end Link

end Plptools
