import Plptools.Link.Pair
import Plptools.Link.Frame

/-!
# Agreement on the sequence numbers

Both ends request a link, confirm the request of the other, and acknowledge the confirmation. The
confirmation of the own request sets the next number to send to 1, as the branches for SIBO machines
do; confirming the request of the other end sets it to 0. So an end agrees with the other once its
own request is confirmed, and as long as no other request is handled then.
-/

namespace Plptools

open Plptools.Library

/-- The frame requests or confirms a link. -/
def IsControl (bytes : List UInt8) : Prop := bytes = [0x21] ∨ ∃ magic, bytes = 0x24 :: magic

/-- What passes between the ends while a link is negotiated. -/
def IsNegotiation (bytes : List UInt8) : Prop := IsControl bytes ∨ bytes = [0x00]

/-- The frames that ask for a link and confirm it have a type of their own, and a number. -/
theorem IsControl.header {bytes : List UInt8} (h : IsControl bytes) :
    ∃ seq content, header bytes = (0x20, seq, content) ∧ 0 < seq := by
  rcases h with rfl | ⟨magic, rfl⟩
  · exact ⟨1, [], header_req, by decide⟩
  · exact ⟨4, magic, header_con magic, by decide⟩

namespace Link

/-- The own request for a link is not answered yet. -/
def Outstanding (l : Link) : Prop := l.ackWaitQueue.any isReqReq = true

instance (l : Link) : Decidable l.Outstanding := inferInstanceAs (Decidable (_ = true))

/-- A link that has sent nothing but frames of the negotiation. If it believes in an EPOC peer, its
own request is still to be confirmed, or it starts with the numbers that the peer expects. -/
structure Negotiating (l : Link) : Prop where
  queue : ∀ e ∈ l.ackWaitQueue, e.seq = 0 ∧ IsControl e.data
  sent : ∀ f ∈ l.sent, IsNegotiation f.bytes
  agreed : l.linkType = .LINK_TYPE_EPOC →
    l.Outstanding ∨ (l.txSequence = 1 ∧ l.rxSequence = 0 ∧ l.seqMask = 0x7ff)

/-- What the negotiation depends on. -/
def negotiation (l : Link) : LinkType × ℕ × ℤ × ℕ × List AckWaitQueueElement × List Packet :=
  (l.linkType, l.txSequence, l.rxSequence, l.seqMask, l.ackWaitQueue, l.sent)

/-- What negotiating means is read off these parts. -/
theorem Negotiating.congr {l m : Link} (h : l.Negotiating) (heq : m.negotiation = l.negotiation) :
    m.Negotiating := by
  simp only [negotiation, Prod.mk.injEq] at heq
  obtain ⟨htype, htx, hrx, hmask, hqueue, hsent⟩ := heq
  refine ⟨?_, ?_, ?_⟩
  · rw [hqueue]
    exact h.queue
  · rw [hsent]
    exact h.sent
  · rw [htype, htx, hrx, hmask, Outstanding, hqueue]
    exact h.agreed

/-- The frames that were sent make no difference. -/
theorem Negotiating.quiet {l : Link} (h : l.Negotiating) : l.quiet.Negotiating :=
  ⟨h.queue, List.forall_mem_nil _, h.agreed⟩

/-- As long as nothing gets a number, transmitting does not touch the negotiation. -/
theorem negotiation_transmit {env : Env} {buf : List UInt8} {l : Link}
    (h : (l.transmit env buf).numbered = []) : (l.transmit env buf).negotiation = l.negotiation := by
  rcases transmit_cases env buf l with ⟨-, heq⟩ | ⟨-, -, heq⟩ | ⟨-, -, -, heq⟩ | ⟨-, -, -, heq⟩
  · rw [heq]
    rfl
  · rw [heq]
    rfl
  · rw [heq]
    rfl
  · rw [heq] at h
    exact absurd h (List.append_ne_nil_of_right_ne_nil _ (List.cons_ne_nil _ _))

/-- Where nothing is numbered, nothing of the negotiation changes. -/
theorem negotiation_transmitAll {env : Env} {packets : List (List UInt8)} {l : Link}
    (h : (transmitAll env packets l).numbered = []) :
    (transmitAll env packets l).negotiation = l.negotiation := by
  induction packets generalizing l with
  | nil => rfl
  | cons buf rest ih =>
    rw [transmitAll] at h ⊢
    have hfirst : (l.transmit env buf).numbered = [] :=
      List.prefix_nil.mp (h ▸ numbered_transmitAll env rest _)
    exact (ih h).trans (negotiation_transmit hfirst)

/-- An acknowledgement goes on negotiating. -/
theorem Negotiating.sendAck {l : Link} (h : l.Negotiating) (env : Env) :
    (l.sendAck env 0).Negotiating := by
  rcases sendAck_cases env 0 l with heq | heq <;> rw [heq]
  · exact h.congr rfl
  · refine ⟨h.queue, ?_, h.agreed⟩
    simp only [List.forall_mem_append, List.forall_mem_singleton]
    exact ⟨h.sent, .inr rfl⟩

/-- Queueing and sending another frame of the negotiation. -/
theorem Negotiating.sendControl {l : Link} (h : l.Negotiating) (env : Env) {data : List UInt8}
    (hdata : IsControl data) : (l.sendControl env data).Negotiating := by
  rcases sendControl_cases env data l with ⟨-, heq⟩ | ⟨-, heq⟩ <;> rw [heq]
  · exact h.congr rfl
  · refine ⟨?_, ?_, fun htype => ?_⟩
    · rw [List.forall_mem_append, List.forall_mem_singleton]
      exact ⟨h.queue, rfl, hdata⟩
    · simp only [List.forall_mem_append, List.forall_mem_singleton]
      exact ⟨h.sent, .inl hdata⟩
    · refine (h.agreed htype).imp (fun hout => ?_) id
      exact List.any_append.trans (Bool.or_eq_true_iff.mpr (.inl hout))

/-- The round of the retransmit thread gives up no own request of an end that needs its answer. -/
def TickKeepsRequest (env : Env) (l : Link) : Prop :=
  l.linkType = .LINK_TYPE_EPOC → l.Outstanding →
    (l.hasFailed env).failed = false ∧
      ∀ e ∈ l.ackWaitQueue, isReqReq e = true →
        olderthan e.stamp (timesub (env.gettimeofday l.reads) (l.retransTimeout env)) = true →
          e.txcount ≠ 0

/-- A request or confirmation is handled while the own request is not answered, and the answer is
not taken for the acknowledgement of something else. -/
def FrameKeepsRequest (l : Link) (bytes : List UInt8) : Prop :=
  ((header bytes).1 = 0x20 → l.Outstanding) ∧
    ((header bytes).1 = 0x00 → (header bytes).2.1 = 0 → l.linkType = .LINK_TYPE_EPOC → ¬l.Outstanding)

instance (env : Env) (l : Link) : Decidable (l.TickKeepsRequest env) :=
  inferInstanceAs (Decidable (_ → _ → _ ∧ _))

instance (l : Link) (bytes : List UInt8) : Decidable (l.FrameKeepsRequest bytes) :=
  inferInstanceAs (Decidable (_ ∧ _))

/-- Resending the request goes on negotiating. -/
theorem Negotiating.retransmit {l : Link} (h : l.Negotiating) {env : Env}
    (hkeeps : l.TickKeepsRequest env) : (l.retransmit env).Negotiating := by
  rcases retransmit_cases env l with ⟨hfailed, heq⟩ | ⟨-, heq⟩ <;> rw [heq]
  · refine ⟨List.forall_mem_nil _, h.sent, fun htype => .inr ?_⟩
    rcases h.agreed htype with hout | hagreed
    · rw [(hkeeps htype hout).1] at hfailed
      cases hfailed
    · exact hagreed
  · refine ⟨fun e' he' => ?_, ?_, fun htype => ?_⟩
    · obtain ⟨e, he, hpacket⟩ := mem_retransmitLoop he'
      obtain ⟨hseq, hdata, -⟩ := packet_inj hpacket
      rw [← hseq, ← hdata]
      exact h.queue e he
    · refine List.forall_mem_append.mpr ⟨h.sent, fun f hf => ?_⟩
      obtain ⟨e, he, rfl⟩ := retransmitLoop_sent hf
      exact .inl (h.queue e he).2
    · refine (h.agreed htype).imp (fun hout => ?_) id
      obtain ⟨e, he, hreq⟩ := List.any_eq_true.mp hout
      obtain ⟨e', he', hpacket⟩ := retransmitLoop_survives he ((hkeeps htype hout).2 e he hreq)
      obtain ⟨hseq, hdata, -⟩ := packet_inj hpacket
      refine List.any_eq_true.mpr ⟨e', he', ?_⟩
      rw [isReqReq, hseq, hdata]
      exact hreq

/-- An acknowledgement that is not taken for an answer to the own request. -/
theorem Negotiating.receiveAck {l : Link} (h : l.Negotiating) {env : Env}
    (hkeeps : l.linkType = .LINK_TYPE_EPOC → ¬l.Outstanding)
    (hnumbered : (l.receiveAck env 0).numbered = []) : (l.receiveAck env 0).Negotiating := by
  rcases receiveAck_cases env 0 l with ⟨e, before, after, hsplit, -, -, heq⟩ | ⟨-, heq⟩
  · rw [heq] at hnumbered ⊢
    refine Negotiating.congr ?_ (negotiation_transmitAll hnumbered)
    unfold matched
    dsimp only
    split
    · exact ⟨List.forall_mem_nil _, h.sent, fun htype => by cases htype⟩
    · refine ⟨fun d hd => ?_, h.sent, fun htype => .inr ?_⟩
      · exact h.queue d (List.mem_of_mem_eraseP (List.mem_of_mem_filter hd))
      · exact (h.agreed htype).resolve_left (hkeeps htype)
  · rw [heq]
    have hnone : resendLoop (env.gettimeofday l.reads) (0 + 1) l.ackWaitQueue = (l.ackWaitQueue, []) := by
      rcases resendLoop_cases (env.gettimeofday l.reads) (0 + 1) l.ackWaitQueue with
        hnone | ⟨before, e, after, hsplit, hseq, -⟩
      · exact hnone
      · have he : e ∈ l.ackWaitQueue := by
          rw [hsplit]
          exact List.mem_append_right _ List.mem_cons_self
        rw [(h.queue e he).1] at hseq
        cases hseq
    apply h.congr
    simp only [negotiation, hnone, List.append_nil]

/-- A request or confirmation, while the own request is not answered. -/
theorem Negotiating.receiveReq {l : Link} (h : l.Negotiating) {env : Env} {seq : ℕ} (hseq : 0 < seq)
    (hout : l.Outstanding) : (l.receiveReq env seq).Negotiating := by
  unfold Link.receiveReq
  split
  · apply Negotiating.sendAck
    exact ⟨fun e he => h.queue e (List.mem_of_mem_eraseP he), h.sent, fun _ => .inr ⟨rfl, rfl, rfl⟩⟩
  · dsimp only
    apply Negotiating.sendControl
    · exact ⟨h.queue, h.sent, fun _ => .inl hout⟩
    · exact .inr ⟨_, rfl⟩

/-- A frame of the negotiation. -/
theorem Negotiating.receive {l : Link} (h : l.Negotiating) {env : Env} {bytes : List UInt8}
    (hbytes : IsNegotiation bytes) (hkeeps : l.FrameKeepsRequest bytes)
    (hnumbered : (l.receive env bytes).numbered = []) : (l.receive env bytes).Negotiating := by
  rcases hbytes with hcontrol | rfl
  · obtain ⟨seq, content, hheader, hseq⟩ := hcontrol.header
    have hreq : l.receive env bytes = l.receiveReq env seq := by
      simp [Link.receive, hheader]
    rw [hreq]
    exact h.receiveReq hseq (hkeeps.1 (by rw [hheader]))
  · have hack : l.receive env [0x00] = l.receiveAck env 0 := rfl
    rw [hack] at hnumbered ⊢
    exact h.receiveAck (hkeeps.2 rfl rfl) hnumbered

/-- A packet that does not get a number yet. -/
theorem Negotiating.send {l : Link} (h : l.Negotiating) {env : Env} {buff : List UInt8}
    (hnumbered : (l.send env buff).numbered = []) : (l.send env buff).Negotiating := by
  unfold Link.send at hnumbered ⊢
  dsimp only at hnumbered ⊢
  split at hnumbered
  · next hlong =>
    rw [if_pos hlong]
    exact h.congr rfl
  · next hlong =>
    rw [if_neg hlong]
    exact h.congr (negotiation_transmit hnumbered)

/-- A link that has just been constructed or reset, with nothing on the wire. -/
def JustStarted (env : Env) (l : Link) : Prop :=
  (∃ conMagic, l = construct env conMagic) ∨ ∃ before : Link, before.sent = [] ∧ l = before.reset env

/-- A new link negotiates. -/
theorem JustStarted.negotiating {env : Env} {l : Link} (h : l.JustStarted env) : l.Negotiating := by
  rcases h with ⟨conMagic, rfl⟩ | ⟨before, hsent, rfl⟩
  · apply Negotiating.sendControl _ _ (.inl rfl)
    exact ⟨List.forall_mem_nil _, List.forall_mem_nil _, fun htype => by cases htype⟩
  · apply Negotiating.sendControl _ _ (.inl rfl)
    refine ⟨List.forall_mem_nil _, ?_, fun htype => by cases htype⟩
    change ∀ f ∈ before.sent, _
    rw [hsent]
    exact List.forall_mem_nil _

end Link

namespace Pair

/-- The event leaves the own request of an end to be answered by a confirmation. -/
def KeepsRequest (env : Side → Env) (p : Pair) : Event → Prop
  | .tick s => (p.link s).TickKeepsRequest (env s)
  | .deliver s _ => ∀ f ∈ (p.wire s).head?, (p.link s).FrameKeepsRequest f.bytes
  | .submit _ _ => True
  | .lose _ _ => True

instance (env : Side → Env) (p : Pair) : ∀ e, Decidable (p.KeepsRequest env e)
  | .tick s => inferInstanceAs (Decidable ((p.link s).TickKeepsRequest (env s)))
  | .deliver s _ => inferInstanceAs (Decidable (∀ f ∈ (p.wire s).head?, (p.link s).FrameKeepsRequest f.bytes))
  | .submit _ _ => isTrue trivial
  | .lose _ _ => isTrue trivial

/-- No data has been sent at either end. -/
def NoData (p : Pair) : Prop := ∀ s, (p.link s).numbered = []

/-- Both ends are negotiating, and so are the frames on the way. -/
structure Negotiating (p : Pair) : Prop where
  link : ∀ s, (p.link s).Negotiating
  wire : ∀ s, ∀ f ∈ p.wire s, IsNegotiation f.bytes

/-- Frames that are lost make no difference. -/
theorem Negotiating.setWire {p : Pair} (h : p.Negotiating) {s : Side} {frames : List Packet}
    (hsub : frames.Sublist (p.wire s)) : (p.setWire s frames).Negotiating :=
  ⟨h.link, fun r f hf => h.wire r f ((setWire_sublist hsub r).subset hf)⟩

/-- An end that goes on negotiating. -/
theorem Negotiating.act {p : Pair} (h : p.Negotiating) {s : Side} {op : Link → Link}
    (hop : (op (p.link s).quiet).Negotiating) : (p.act s op).Negotiating := by
  refine ⟨s.forall_of ?_ ?_, s.forall_of ?_ ?_⟩
  · rw [act_link_self]
    exact hop.quiet
  · rw [act_link_other]
    exact h.link s.other
  · rw [act_wire_self]
    exact h.wire s
  · rw [act_wire_other]
    exact List.forall_mem_append.mpr ⟨h.wire s.other, hop.sent⟩

/-- What has a number when an end has acted includes what had one before. -/
theorem NoData.of_act {p : Pair} {s : Side} {op : Link → Link} (h : (p.act s op).NoData)
    (hop : (p.link s).quiet.numbered <+: (op (p.link s).quiet).numbered) :
    p.NoData ∧ (op (p.link s).quiet).numbered = [] := by
  have hself := h s
  have hother := h s.other
  rw [act_link_self] at hself
  rw [act_link_other] at hother
  have hbefore : (p.link s).numbered = [] := List.prefix_nil.mp (hself ▸ hop)
  exact ⟨s.forall_of hbefore hother, hself⟩

/-- As long as no data is sent, the ends keep negotiating. -/
theorem step_negotiating (env : Side → Env) (p : Pair) (e : Event) (h : p.NoData → p.Negotiating)
    (hkeeps : p.KeepsRequest env e) (hnodata : (p.step env e).NoData) : (p.step env e).Negotiating := by
  rcases step_cases env p e with ⟨s, i, rfl, heq⟩ | ⟨s, buff, rfl, heq⟩ | ⟨s, rfl, heq⟩ |
    ⟨s, again, rfl, -, heq⟩ | ⟨s, again, f, rest, rfl, hwire, heq⟩
  · rw [heq] at hnodata ⊢
    exact (h hnodata).setWire (List.eraseIdx_sublist ..)
  · rw [heq] at hnodata ⊢
    obtain ⟨hbefore, hnumbered⟩ := hnodata.of_act (Link.numbered_send (env s) buff _)
    exact (h hbefore).act (((h hbefore).link s).quiet.send hnumbered)
  · rw [heq] at hnodata ⊢
    have hsame := Link.numbered_retransmit (env s) (p.link s).quiet
    obtain ⟨hbefore, -⟩ := hnodata.of_act (hsame ▸ List.prefix_rfl)
    exact (h hbefore).act (((h hbefore).link s).quiet.retransmit hkeeps)
  · rw [heq] at hnodata ⊢
    exact h hnodata
  · rw [heq] at hnodata ⊢
    obtain ⟨hbefore, hnumbered⟩ := hnodata.of_act (Link.numbered_receive (env s) f.bytes _)
    have hframe : IsNegotiation f.bytes := (h hbefore).wire s f (hwire ▸ List.mem_cons_self)
    apply ((h hbefore).setWire (delivered_sublist hwire again)).act
    apply ((h hbefore).link s).quiet.receive hframe _ hnumbered
    exact hkeeps f (by rw [hwire]; rfl)

/-- In a run of two links that have just been started, in which every own request is answered by a
confirmation and no other request is handled then, the ends agree: when both believe in an EPOC peer
and have an answer, and no data has been sent, each starts with the number that the other expects,
so that its first data packet is accepted. -/
theorem handshake_agrees (env : Side → Env) {start : Side → Link}
    (hstart : ∀ s, (start s).JustStarted (env s)) {events : List Event}
    (hkeeps : Admits (step env) (KeepsRequest env) (connect start) events)
    (hepoc : ∀ s, ((runFrom (step env) (connect start) events).link s).linkType = .LINK_TYPE_EPOC)
    (hanswered : ∀ s, ¬((runFrom (step env) (connect start) events).link s).Outstanding)
    (hnodata : (runFrom (step env) (connect start) events).NoData) (s : Side) :
    let p := runFrom (step env) (connect start) events
    (p.link s).txSequence = ((p.link s.other).rxSequence + 1).toNat &&& (p.link s.other).seqMask ∧
      ∀ buff, ((p.link s.other).receive (env s.other)
        (seqBytes 0x30 (p.link s).txSequence ++ buff)).accepted = (p.link s.other).accepted ++ [buff] := by
  have hinit : (connect start).NoData → (connect start).Negotiating := fun _ =>
    ⟨fun s => (hstart s).negotiating.quiet, fun s => (hstart s.other).negotiating.sent⟩
  have hstep : ∀ (p : Pair) e, (p.NoData → p.Negotiating) → p.KeepsRequest env e →
      (p.step env e).NoData → (p.step env e).Negotiating := fun p e h hok => step_negotiating env p e h hok
  have hinv := hkeeps.invariant hstep hinit hnodata
  intro p
  obtain ⟨htx, -, -⟩ := ((hinv.link s).agreed (hepoc s)).resolve_left (hanswered s)
  obtain ⟨-, hrx, hmask⟩ := ((hinv.link s.other).agreed (hepoc s.other)).resolve_left (hanswered s.other)
  have hnext : (p.link s.other).nextSequence = 1 := by
    rw [Link.nextSequence, hrx, hmask]
    rfl
  refine ⟨htx.trans hnext.symm, fun buff => ?_⟩
  have hdata : header (seqBytes 0x30 (p.link s).txSequence ++ buff) = (0x30, 1, buff) := by
    rw [htx]
    exact header_seqBytes (.inr rfl) (by decide) buff
  have hreceive : (p.link s.other).receive (env s.other) (seqBytes 0x30 (p.link s).txSequence ++ buff) =
      (p.link s.other).receiveData (env s.other) 1 buff := by
    simp [Link.receive, hdata]
  rw [hreceive, Link.accepted_receiveData, if_pos hnext]

/-- Both requests cross, both are confirmed, and both confirmations are acknowledged. -/
def crossingRequests : List Event :=
  [.deliver .far false, .deliver .near false, .deliver .far false, .deliver .near false,
    .deliver .far false, .deliver .near false]

/-- Requests that cross on the line. -/
theorem handshake_agrees_crossing :
    let p := runFrom (step fun _ => stillEnv) (connect fun _ => Link.construct stillEnv 0) crossingRequests
    (p.link .near).txSequence = ((p.link .far).rxSequence + 1).toNat &&& (p.link .far).seqMask ∧
      ∀ buff, ((p.link .far).receive stillEnv (seqBytes 0x30 (p.link .near).txSequence ++ buff)).accepted =
        (p.link .far).accepted ++ [buff] :=
  handshake_agrees (fun _ => stillEnv) (fun _ => .inl ⟨0, rfl⟩) (by decide +kernel) (by decide +kernel)
    (by decide +kernel) (by unfold NoData; decide +kernel) .near

/-- The request of the far end is lost, and repeated after the end has confirmed that of the near
one. The acknowledgement of the confirmation is then taken for the answer to the request, and drops
the older confirmation: nothing is outstanding, and the far end starts with number 0 although the
near one expects 1. -/
theorem handshake_disagrees :
    let p := runFrom (step fun _ => tickingEnv) (connect fun _ => Link.construct tickingEnv 0)
      [.lose .near 0, .deliver .far false, .tick .far, .deliver .near false, .lose .near 0,
        .deliver .far false]
    (∀ s, (p.link s).linkType = .LINK_TYPE_EPOC ∧ (p.link s).failed = false ∧
      (p.link s).ackWaitQueue = [] ∧ p.wire s = [] ∧ (p.link s).numbered = []) ∧
    (p.link .far).txSequence = 0 ∧
    ((p.link .near).rxSequence + 1).toNat &&& (p.link .near).seqMask = 1 := by
  decide +kernel

end Pair

end Plptools
