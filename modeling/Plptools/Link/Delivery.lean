import Plptools.Link.Direction

/-!
# In-order delivery

One end sends, the other only receives. The packets are numbered in the order in which they were
submitted as long as none is sent through an open window while others wait for it: the element that
an unmatched acknowledgement gives up leaves room in the window, and nothing takes the waiting
packets first. Together with the direction this makes what is accepted a first part of what was
submitted.
-/

namespace Plptools

open Plptools.Library

namespace Link

/-- The packets submitted are the numbered ones, those that wait and those still to be transmitted,
in this order. A link that has failed numbers no more of them. -/
def InOrder (l : Link) (rest : List (List UInt8)) : Prop :=
  (l.failed = false ∧ l.numbered ++ l.waitQueue ++ rest = l.submitted) ∨
    (l.failed = true ∧ l.numbered <+: l.submitted)

/-- A packet that is transmitted now passes none that waits. -/
def NoneWaits (l : Link) : Prop := l.failed = false → l.WindowOpen → l.waitQueue = []

instance (l : Link) : Decidable l.NoneWaits := inferInstanceAs (Decidable (_ → _ → _))

variable {env : Env} {l : Link} {rest : List (List UInt8)}

/-- What was numbered was submitted first. -/
theorem InOrder.numbered_part (h : l.InOrder rest) : l.numbered <+: l.submitted := by
  rcases h with ⟨-, heq⟩ | ⟨-, hpart⟩
  · rw [← heq, List.append_assoc]
    exact List.prefix_append _ _
  · exact hpart

/-- The link may fail. -/
theorem InOrder.congr (h : l.InOrder rest) {m : Link} (hsubmitted : m.submitted = l.submitted)
    (hnumbered : m.numbered = l.numbered) (hwait : m.waitQueue = l.waitQueue)
    (hfailed : m.failed = false → l.failed = false) : m.InOrder rest := by
  cases hm : m.failed with
  | true => exact .inr ⟨hm, by rw [hnumbered, hsubmitted]; exact h.numbered_part⟩
  | false =>
    rcases h with ⟨-, heq⟩ | ⟨hfalse, -⟩
    · exact .inl ⟨hm, by rw [hnumbered, hwait, hsubmitted]; exact heq⟩
    · rw [hfailed hm] at hfalse
      cases hfalse

/-- A packet that is transmitted passes none. -/
theorem InOrder.transmit {buf : List UInt8} (h : l.InOrder (buf :: rest)) (hxoff : ∀ c, l.xoff c = false)
    (hready : l.NoneWaits) : (l.transmit env buf).InOrder rest ∧ (l.transmit env buf).NoneWaits := by
  rcases transmit_cases env buf l with ⟨hfailed, heq⟩ | ⟨hheld, -, heq⟩ | ⟨-, hfailed, hfull, heq⟩ |
    ⟨-, hfailed, hopen, heq⟩
  · rw [heq]
    exact ⟨.inr ⟨hfailed, h.numbered_part⟩, fun hfalse => by rw [hfailed] at hfalse; cases hfalse⟩
  · rw [hxoff] at hheld
    cases hheld
  all_goals
    have hbefore : l.failed = false := (Bool.or_eq_false_iff.mp hfailed).1
    have hsubmitted : l.numbered ++ l.waitQueue ++ buf :: rest = l.submitted := by
      rcases h with ⟨-, hsubmitted⟩ | ⟨hfalse, -⟩
      · exact hsubmitted
      · rw [hbefore] at hfalse
        cases hfalse
    rw [heq]
  · refine ⟨.inl ⟨hfailed, ?_⟩, fun _ hopen => absurd hopen hfull⟩
    change l.numbered ++ (l.waitQueue ++ [buf]) ++ rest = l.submitted
    rw [← hsubmitted, List.append_assoc, List.append_assoc, List.append_assoc, List.singleton_append]
  · have hwait := hready hbefore hopen
    refine ⟨.inl ⟨hfailed, ?_⟩, fun _ _ => hwait⟩
    rw [hwait, List.append_nil] at hsubmitted
    change l.numbered ++ [buf] ++ l.waitQueue ++ rest = l.submitted
    rw [hwait, List.append_nil, ← hsubmitted, List.append_assoc, List.singleton_append]

/-- Packets that are transmitted in turn pass none. -/
theorem InOrder.transmitAll {packets : List (List UInt8)} (h : l.InOrder packets)
    (hxoff : ∀ c, l.xoff c = false) (hready : l.NoneWaits) : (transmitAll env packets l).InOrder [] := by
  induction packets generalizing l with
  | nil => exact h
  | cons buf rest ih =>
    obtain ⟨hfirst, hready'⟩ : (l.transmit env buf).InOrder rest ∧ (l.transmit env buf).NoneWaits :=
      h.transmit hxoff hready
    refine ih hfirst ?_ hready'
    rw [(sameReceived_transmit env buf l).xoff]
    exact hxoff

/-- A packet of the NCP, sent while none waits for an open window. -/
theorem InOrder.send (h : l.InOrder []) (hxoff : ∀ c, l.xoff c = false) (hready : l.NoneWaits)
    (buff : List UInt8) : (l.send env buff).InOrder [] := by
  unfold Link.send
  dsimp only
  have hnext : InOrder { l with submitted := l.submitted ++ [buff] } [buff] := by
    rcases h with ⟨hfailed, heq⟩ | ⟨hfailed, hpart⟩
    · refine .inl ⟨hfailed, ?_⟩
      change l.numbered ++ l.waitQueue ++ [buff] = l.submitted ++ [buff]
      rw [← heq, List.append_nil]
    · exact .inr ⟨hfailed, hpart.trans (List.prefix_append _ _)⟩
  split
  · exact .inr ⟨rfl, hnext.numbered_part⟩
  · exact (hnext.transmit hxoff hready).1

/-- Resending leaves the order. -/
theorem InOrder.retransmit (h : l.InOrder []) : (l.retransmit env).InOrder [] := by
  rcases retransmit_cases env l with ⟨hfailed, heq⟩ | ⟨hfailed, heq⟩ <;> rw [heq]
  · refine h.congr rfl rfl rfl fun hfalse => ?_
    rw [show (l.hasFailed env).failed = false from hfalse] at hfailed
    cases hfailed
  · exact h.congr rfl rfl rfl fun _ => (Bool.or_eq_false_iff.mp hfailed).1

/-- An acknowledgement lets the packets go that wait, in their order. -/
theorem InOrder.receiveAck (h : l.InOrder []) (htype : l.linkType ≠ .LINK_TYPE_UNKNOWN)
    (hxoff : ∀ c, l.xoff c = false) (seq : ℕ) : (l.receiveAck env seq).InOrder [] := by
  rcases receiveAck_cases env seq l with ⟨e, before, after, hsplit, hbefore, hseq, heq⟩ | ⟨-, heq⟩ <;> rw [heq]
  · rw [matched_eq htype hsplit hbefore hseq]
    refine InOrder.transmitAll ?_ hxoff fun _ _ => rfl
    rcases h with ⟨hfailed, hsubmitted⟩ | ⟨hfailed, hpart⟩
    · refine .inl ⟨hfailed, ?_⟩
      rw [List.append_nil] at hsubmitted
      change l.numbered ++ [] ++ l.waitQueue = l.submitted
      rw [List.append_nil, hsubmitted]
    · exact .inr ⟨hfailed, hpart⟩
  · exact h.congr rfl rfl rfl id

/-- The packets that are for the NCP and not for the link itself. -/
def forNcp (packets : List (List UInt8)) : List (List UInt8) :=
  packets.filter fun buff => ¬IsFlowControl 1 buff ∧ ¬IsFlowControl 2 buff

/-- A link that only receives: it has no packet to send, and has handed on what it has accepted. -/
structure Silent (l : Link) : Prop where
  ackWaitQueue : l.ackWaitQueue = []
  waitQueue : l.waitQueue = []
  holdQueue : l.holdQueue = []
  sent : ∀ f ∈ l.sent, IsAck f.bytes
  received : l.received = forNcp l.accepted

/-- The frames that were sent make no difference. -/
theorem Silent.quiet (h : l.Silent) : l.quiet.Silent :=
  { h with sent := List.forall_mem_nil _ }

/-- Resending changes nothing. -/
theorem Silent.retransmit (h : l.Silent) : (l.retransmit env).Silent := by
  have hround : l.expiredRound env = ([], [], false) := by
    rw [expiredRound, h.ackWaitQueue]
    rfl
  rcases retransmit_cases env l with ⟨-, heq⟩ | ⟨-, heq⟩ <;> rw [heq]
  · exact ⟨rfl, h.waitQueue, rfl, h.sent, h.received⟩
  · rw [hround, List.append_nil]
    exact ⟨rfl, h.waitQueue, h.holdQueue, h.sent, h.received⟩

/-- An acknowledgement changes nothing. -/
theorem Silent.receiveAck (h : l.Silent) (seq : ℕ) : (l.receiveAck env seq).Silent := by
  rcases receiveAck_cases env seq l with ⟨e, before, after, hsplit, -, -, -⟩ | ⟨-, heq⟩
  · rw [h.ackWaitQueue] at hsplit
    exact absurd hsplit (by simp)
  · rw [heq, h.ackWaitQueue, resendLoop, List.append_nil]
    exact ⟨rfl, h.waitQueue, h.holdQueue, h.sent, h.received⟩

variable {W N : ℕ}

/-- Acknowledging a number in the range of the link. -/
theorem sent_sendAck (hp : Protocol W N) (hsent : ∀ f ∈ l.sent, IsAck f.bytes) {seq : ℕ} (hseq : seq < N) :
    ∀ f ∈ (l.sendAck env seq).sent, IsAck f.bytes := by
  rcases sendAck_cases env seq l with heq | heq <;> rw [heq]
  · exact hsent
  · simp only [List.forall_mem_append, List.forall_mem_singleton]
    exact ⟨hsent, isAck_seqBytes (hseq.trans_le hp.le)⟩

/-- A data packet is handed on, or is for the link. -/
theorem Silent.receiveData (hp : Protocol W N) (hrun : l.Running W N) (h : l.Silent) (seq : ℕ)
    (buff : List UInt8) : (l.receiveData env seq buff).Silent := by
  obtain ⟨rx, hrx, hlt⟩ := hrun.rx
  have hack : ∀ n < N, ∀ m : Link, m.ackWaitQueue = [] → m.waitQueue = [] → m.holdQueue = [] →
      m.sent = l.sent → (m.sendAck env n).ackWaitQueue = [] ∧ (m.sendAck env n).waitQueue = [] ∧
        (m.sendAck env n).holdQueue = [] ∧ ∀ f ∈ (m.sendAck env n).sent, IsAck f.bytes := by
    intro n hn m hqueue hwait hhold hsent
    have hsent' : ∀ f ∈ (m.sendAck env n).sent, IsAck f.bytes := sent_sendAck hp (hsent ▸ h.sent) hn
    rcases sendAck_cases env n m with heq | heq <;> rw [heq] at hsent' ⊢ <;>
      exact ⟨hqueue, hwait, hhold, hsent'⟩
  have hsplit : forNcp (l.accepted ++ [buff]) = forNcp l.accepted ++ forNcp [buff] := List.filter_append ..
  rcases receiveData_cases env seq buff l with ⟨-, heq⟩ | ⟨hnext, hflow, heq⟩ | ⟨hnext, hflow, heq⟩ |
    ⟨hnext, hone, htwo, heq⟩ <;> rw [heq]
  · obtain ⟨hqueue, hwait, hhold, hsent⟩ := hack rx hlt l h.ackWaitQueue h.waitQueue h.holdQueue rfl
    have hsame := sameReceived_sendAck env rx l
    rw [hrx]
    exact ⟨hqueue, hwait, hhold, hsent, by rw [hsame.received, hsame.accepted, h.received]⟩
  all_goals
    have hseq : seq < N := by
      rw [← hnext, hrun.nextSequence hp hrx]
      exact Nat.mod_lt _ hp.modulus_pos
    obtain ⟨hqueue, hwait, hhold, hsent⟩ :=
      hack seq hseq (l.accept seq buff) h.ackWaitQueue h.waitQueue h.holdQueue rfl
    have hsame := sameReceived_sendAck env seq (l.accept seq buff)
    have haccepted : ((l.accept seq buff).sendAck env seq).accepted = l.accepted ++ [buff] := hsame.accepted
    have hreceived : ((l.accept seq buff).sendAck env seq).received = forNcp l.accepted :=
      hsame.received.trans h.received
  · have hnone : forNcp [buff] = [] := by simp [forNcp, hflow]
    refine ⟨hqueue, hwait, hhold, hsent, ?_⟩
    change ((l.accept seq buff).sendAck env seq).received = forNcp ((l.accept seq buff).sendAck env seq).accepted
    rw [haccepted, hreceived, hsplit, hnone, List.append_nil]
  · have hnone : forNcp [buff] = [] := by simp [forNcp, hflow]
    rw [transmitHoldQueue]
    dsimp only
    rw [hhold]
    refine ⟨hqueue, hwait, rfl, hsent, ?_⟩
    change ((l.accept seq buff).sendAck env seq).received = forNcp ((l.accept seq buff).sendAck env seq).accepted
    rw [haccepted, hreceived, hsplit, hnone, List.append_nil]
  · have hself : forNcp [buff] = [buff] := by simp [forNcp, hone, htwo]
    refine ⟨hqueue, hwait, hhold, hsent, ?_⟩
    change ((l.accept seq buff).sendAck env seq).received ++ [buff] =
      forNcp ((l.accept seq buff).sendAck env seq).accepted
    rw [haccepted, hreceived, hsplit, hself]

/-- An acknowledgement stops no channel. -/
theorem xoff_receiveAck (htype : l.linkType ≠ .LINK_TYPE_UNKNOWN) (seq : ℕ) :
    (l.receiveAck env seq).xoff = l.xoff := by
  rcases receiveAck_cases env seq l with ⟨e, before, after, hsplit, hbefore, hseq, heq⟩ | ⟨-, heq⟩ <;> rw [heq]
  rw [matched_eq htype hsplit hbefore hseq]
  exact (sameReceived_transmitAll env _ _).xoff

end Link

namespace Pair

/-- The packets that are kept at the sending end and its next one have different numbers. Only this end
sends packets, none is empty, and none is sent through an open window while others wait for it. -/
def DeliversInOrder (s : Side) (p : Pair) (e : Event) : Prop :=
  (p.link s).NumbersDiffer ∧ e.SubmitsData ∧
    match e with
    | .submit r _ => r = s ∧ (p.link s).NoneWaits
    | _ => True

instance (s : Side) (p : Pair) : ∀ e, Decidable (p.DeliversInOrder s e)
  | .submit r _ => inferInstanceAs (Decidable (_ ∧ _ ∧ r = s ∧ _))
  | .deliver _ _ => inferInstanceAs (Decidable (_ ∧ _ ∧ True))
  | .tick _ => inferInstanceAs (Decidable (_ ∧ _ ∧ True))
  | .lose _ _ => inferInstanceAs (Decidable (_ ∧ _ ∧ True))

/-- One end sends in order, and the other one only receives. -/
structure OneWay (s : Side) (p : Pair) : Prop where
  sender : (p.link s).InOrder []
  xoff : ∀ c, (p.link s).xoff c = false
  receiver : (p.link s.other).quiet.Silent
  acks : ∀ f ∈ p.wire s, IsAck f.bytes

variable {W N t : ℕ} {s : Side} {p : Pair}

/-- The sending end acts. -/
theorem OneWay.actSender (h : p.OneWay s) {op : Link → Link} (hsender : (op (p.link s).quiet).InOrder [])
    (hxoff : (op (p.link s).quiet).xoff = (p.link s).xoff) : (p.act s op).OneWay s := by
  refine ⟨?_, ?_, ?_, ?_⟩
  · rw [act_link_self]
    exact hsender
  · rw [act_link_self]
    exact fun c => (congrFun hxoff c).trans (h.xoff c)
  · rw [act_link_other]
    exact h.receiver
  · rw [act_wire_self]
    exact h.acks

/-- The receiving end acts. -/
theorem OneWay.actReceiver (h : p.OneWay s) {op : Link → Link}
    (hreceiver : (op (p.link s.other).quiet).Silent) : (p.act s.other op).OneWay s := by
  refine ⟨?_, ?_, ?_, ?_⟩
  · rw [act_other_link]
    exact h.sender
  · rw [act_other_link]
    exact h.xoff
  · rw [act_link_self]
    exact hreceiver.quiet
  · rw [act_other_wire]
    exact List.forall_mem_append.mpr ⟨h.acks, hreceiver.sent⟩

/-- Frames are lost on the way. -/
theorem OneWay.setWire (h : p.OneWay s) {r : Side} {frames : List Packet}
    (hsub : frames.Sublist (p.wire r)) : (p.setWire r frames).OneWay s :=
  ⟨h.sender, h.xoff, h.receiver, fun f hf => h.acks f ((setWire_sublist hsub s).subset hf)⟩

/-- An event in order keeps the one end sending in order and the other one receiving. -/
theorem OneWay.step (hp : Protocol W N) (h : p.OneWay s) (hdirection : p.Direction W N t s)
    (env : Side → Env) {e : Event} (hinorder : p.DeliversInOrder s e) : (p.step env e).OneWay s := by
  obtain ⟨-, -, hsubmit⟩ := hinorder
  have hsender : (p.link s).quiet.InOrder [] := h.sender
  rcases step_cases env p e with ⟨r, i, rfl, heq⟩ | ⟨r, buff, rfl, heq⟩ | ⟨r, rfl, heq⟩ |
    ⟨r, again, rfl, -, heq⟩ | ⟨r, again, f, rest, rfl, hwire, heq⟩ <;> rw [heq]
  · exact h.setWire (List.eraseIdx_sublist ..)
  · obtain ⟨rfl, hnone⟩ := hsubmit
    exact h.actSender (hsender.send h.xoff hnone buff) (Link.sameReceived_send ..).xoff
  · rcases s.eq_or_eq_other r with rfl | rfl
    · exact h.actSender hsender.retransmit (Link.sameReceived_retransmit ..).xoff
    · exact h.actReceiver h.receiver.retransmit
  · exact h
  · have hsub := delivered_sublist hwire again
    have hmem : f ∈ p.wire r := hwire ▸ List.mem_cons_self
    have hset := h.setWire hsub
    rcases s.eq_or_eq_other r with rfl | rfl
    · have htype := (hdirection.running r).linkType
      apply hset.actSender
      · rw [Link.receive_of_isAck (env r) (h.acks f hmem)]
        exact hsender.receiveAck htype h.xoff _
      · rw [Link.receive_of_isAck (env r) (h.acks f hmem)]
        exact Link.xoff_receiveAck htype _
    · apply hset.actReceiver
      rcases hdirection.traffic s.other f hmem with hdata | hisack
      · rw [Link.receive_of_isData (env s.other) hdata]
        exact h.receiver.receiveData hp (hdirection.running s.other) _ _
      · rw [Link.receive_of_isAck (env s.other) hisack]
        exact h.receiver.receiveAck _

/-- In a run of two established links of which one sends, in which the numbers in use stay different
and no packet is sent through an open window while others wait for it, the packets that the other end
accepts are the first ones of those submitted: none is left out, repeated or out of order. It hands
on each that is not for the link itself. -/
theorem accepted_prefix_submitted (env : Side → Env) {type : LinkType} {p : Pair}
    (hestablished : p.Established type) {s : Side} (hagrees : p.Agrees s)
    (hxoff : ∀ c, (p.link s).xoff c = false) {events : List Event}
    (hinorder : Admits (step env) (DeliversInOrder s) p events) :
    let q := runFrom (step env) p events
    (q.link s.other).accepted <+: (q.link s).submitted ∧
      (q.link s.other).received = Link.forNcp (q.link s.other).accepted := by
  obtain ⟨W, N, hp, hparameters⟩ := hestablished.protocol
  obtain ⟨hsubmitted, hnumbered, -, -, -⟩ := (hestablished.link s).history
  obtain ⟨-, hwait, -⟩ := (hestablished.link s).queues
  obtain ⟨hqueue, hwait', hhold⟩ := (hestablished.link s.other).queues
  obtain ⟨-, -, haccepted, hreceived, -⟩ := (hestablished.link s.other).history
  have hstart : p.Delivering W N (p.link s).txSequence s ∧ p.OneWay s := by
    refine ⟨⟨fun _ => hestablished.direction hp hparameters hagrees, ?_⟩, ?_, hxoff, ?_, ?_⟩
    · rw [haccepted]
      exact List.nil_prefix
    · rw [Link.InOrder, hsubmitted, hnumbered, hwait]
      cases (p.link s).failed with
      | false => exact .inl ⟨rfl, rfl⟩
      | true => exact .inr ⟨rfl, List.prefix_rfl⟩
    · refine ⟨hqueue, hwait', hhold, List.forall_mem_nil _, ?_⟩
      change (p.link s.other).received = Link.forNcp (p.link s.other).accepted
      rw [hreceived, haccepted]
      rfl
    · rw [hestablished.wire s]
      exact List.forall_mem_nil _
  have hstep : ∀ (q : Pair) e, q.Delivering W N (p.link s).txSequence s ∧ q.OneWay s → q.DeliversInOrder s e →
      (q.step env e).Delivering W N (p.link s).txSequence s ∧ (q.step env e).OneWay s :=
    fun q e h hok => ⟨h.1.step hp env hok.1 hok.2.1, h.2.step hp (h.1.direction hok.1) env hok⟩
  have hend := hinorder.invariant hstep hstart
  exact ⟨hend.1.accepted.trans hend.2.sender.numbered_part, hend.2.receiver.received⟩

/-- Two packets on a SIBO link: the second waits for the acknowledgement of the first. -/
theorem accepted_prefix_submitted_two :
    let q := runFrom (step fun _ => stillEnv) (start .LINK_TYPE_SIBO)
      [.submit .near [5, 1], .submit .near [5, 2], .deliver .far true, .deliver .far false,
        .deliver .near true, .deliver .near false, .deliver .far false]
    (q.link .far).accepted <+: (q.link .near).submitted ∧
      (q.link .far).received = Link.forNcp (q.link .far).accepted :=
  accepted_prefix_submitted (fun _ => stillEnv) (start_established (by decide)) (start_agrees _ .near)
    (fun _ => rfl) (by decide +kernel)

/-- The second of three packets is in flight, and the third waits. The acknowledgement of the first
comes in nine times more, has the second packet sent again eight times, and then given up; the fourth
packet finds the window open and is numbered before the third. -/
theorem accepted_out_of_order :
    let q := runFrom (step fun _ => stillEnv) (start .LINK_TYPE_SIBO)
      ([.submit .near [5, 1], .deliver .far false, .deliver .near true, .submit .near [5, 2],
        .submit .near [5, 3]] ++ List.replicate 9 (.deliver .near true) ++
        [.submit .near [5, 4], .deliver .far false] ++ List.replicate 8 (.lose .far 0) ++
        [.deliver .far false])
    (q.link .near).submitted = [[5, 1], [5, 2], [5, 3], [5, 4]] ∧
      (q.link .far).accepted = [[5, 1], [5, 2], [5, 4]] ∧
      ¬(q.link .far).accepted <+: (q.link .near).submitted ∧
      (q.link .near).failed = false := by
  decide +kernel

end Pair

end Plptools
