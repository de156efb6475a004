import Plptools.Link.Direction

/-!
# Implicit acknowledgement

An acknowledgement removes the packet with its number, and every packet that was sent before that one
by the clock. The clock does not tell the order of the numbers: a packet that is sent again gets a
new time, so packets behind it become older. Where no packet behind the acknowledged one is older,
only packets that the peer has accepted are removed.
-/

namespace Plptools

open Plptools.Library

namespace Link

/-- Of the packets with other numbers, none behind the first one with the number `seq` was sent before
it. -/
def SentInOrder (l : Link) (seq : ℕ) : Prop :=
  ∀ e ∈ (l.ackWaitQueue.dropWhile fun e => e.seq ≠ seq).head?,
    ∀ d ∈ l.ackWaitQueue.dropWhile fun e => e.seq ≠ seq, olderthan d.stamp e.stamp = false

instance (l : Link) (seq : ℕ) : Decidable (l.SentInOrder seq) := by
  unfold SentInOrder
  infer_instance

/-- What was sent later is not older. -/
theorem SentInOrder.not_older {l : Link} {seq : ℕ} (h : l.SentInOrder seq) {e : AckWaitQueueElement}
    {before after : List AckWaitQueueElement} (hsplit : l.ackWaitQueue = before ++ e :: after)
    (hbefore : ∀ b ∈ before, b.seq ≠ seq) (hseq : e.seq = seq) :
    ∀ d ∈ after, olderthan d.stamp e.stamp = false := by
  have hdrop : (l.ackWaitQueue.dropWhile fun e => e.seq ≠ seq) = e :: after := by
    rw [hsplit, List.dropWhile_append_of_pos fun b hb => by simpa using hbefore b hb,
      List.dropWhile_cons_of_neg (by simpa using hseq)]
  rw [SentInOrder, hdrop] at h
  exact fun d hd => h e rfl d (List.mem_cons_of_mem e hd)

/-- What an acknowledgement removes was removed before, is the first packet with its number, or was
sent before that one. -/
theorem mem_acked_receiveAck {env : Env} {l : Link} (htype : l.linkType ≠ .LINK_TYPE_UNKNOWN) {seq : ℕ}
    {d : AckWaitQueueElement} (hd : d ∈ (l.receiveAck env seq).acked) :
    d ∈ l.acked ∨ ∃ e before after, l.ackWaitQueue = before ++ e :: after ∧ (∀ b ∈ before, b.seq ≠ seq) ∧
      e.seq = seq ∧ (d = e ∨ d ∈ before ∨ d ∈ after ∧ olderthan d.stamp e.stamp = true) := by
  rcases receiveAck_cases env seq l with ⟨e, before, after, hsplit, hbefore, hseq, heq⟩ | ⟨-, heq⟩
  · rw [heq, transmitWaitQueue, (sameReceived_transmitAll env _ _).acked,
      matched_eq htype hsplit hbefore hseq] at hd
    rcases List.mem_append.mp hd with hd | hd
    · rcases List.mem_append.mp hd with hd | hd
      · exact .inl hd
      · exact .inr ⟨e, before, after, hsplit, hbefore, hseq, .inl (List.mem_singleton.mp hd)⟩
    · obtain ⟨hmem, holder⟩ := List.mem_filter.mp hd
      refine .inr ⟨e, before, after, hsplit, hbefore, hseq, .inr ?_⟩
      exact (List.mem_append.mp hmem).imp id fun hafter => ⟨hafter, holder⟩
  · rw [heq] at hd
    exact .inl hd

end Link

namespace Pair

/-- The numbers in use at both ends are different, no empty packet is sent, and an acknowledgement
that comes in finds no packet behind the acknowledged one that was sent before it. -/
def AcknowledgesInOrder (p : Pair) (e : Event) : Prop :=
  (∀ s, (p.link s).NumbersDiffer) ∧ e.SubmitsData ∧
    match e with
    | .deliver s _ => ∀ f ∈ (p.wire s).head?, IsAck f.bytes → (p.link s).SentInOrder (header f.bytes).2.1
    | _ => True

instance (p : Pair) : ∀ e, Decidable (p.AcknowledgesInOrder e)
  | .deliver s _ => inferInstanceAs (Decidable (_ ∧ _ ∧ ∀ f ∈ (p.wire s).head?, _ → _))
  | .submit _ _ => inferInstanceAs (Decidable (_ ∧ _ ∧ True))
  | .tick _ => inferInstanceAs (Decidable (_ ∧ _ ∧ True))
  | .lose _ _ => inferInstanceAs (Decidable (_ ∧ _ ∧ True))

/-- The packet of an element is the one with its index, and the peer has accepted it. -/
def Accepted (N t : ℕ) (numbered accepted : List (List UInt8)) (e : AckWaitQueueElement) : Prop :=
  e.index < accepted.length ∧ e.seq = (t + e.index) % N ∧ Carries N t numbered e.index e.data

variable {W N t : ℕ} {s : Side} {p : Pair}

/-- An acknowledgement that comes in removes packets that the peer has accepted. -/
theorem Direction.acked_receive (hp : Protocol W N) (h : p.Direction W N t s) {env : Env} {f : Packet}
    (hf : f ∈ p.wire s) (hfree : (p.link s).NumbersDiffer)
    (horder : IsAck f.bytes → (p.link s).SentInOrder (header f.bytes).2.1)
    (hbefore : ∀ d ∈ (p.link s).acked, Accepted N t (p.link s).numbered (p.link s.other).accepted d) :
    ∀ d ∈ ((p.link s).quiet.receive env f.bytes).acked,
      Accepted N t (p.link s).numbered (p.link s.other).accepted d := by
  intro d hd
  rcases h.traffic s f hf with hdata | hack
  · rw [Link.receive_of_isData env hdata, Link.acked_receiveData] at hd
    exact hbefore d hd
  obtain ⟨hbytes, heard, hheard, hle, hsending⟩ := h.ack_bounds hf hack
  have hlt : Link.ackSequence N t f.index < 2048 := (Nat.mod_lt _ hp.modulus_pos).trans_le hp.le
  have hheader : header f.bytes = (0x00, Link.ackSequence N t f.index, []) := hbytes ▸ header_ack hlt
  rw [Link.receive_of_isAck env hack, hheader] at hd
  rcases Link.mem_acked_receiveAck (h.running s).linkType hd with hd | ⟨e, before, after, hsplit, hnot, hseq, hcase⟩
  · exact hbefore d hd
  have he : e ∈ (p.link s).quiet.ackWaitQueue := hsplit ▸ List.mem_append_right _ List.mem_cons_self
  have hindex := hsending.index_of_ack hp he (hsending.lt_of_free hfree.free he) hheard hle hseq
  have hinorder := horder hack
  rw [hheader] at hinorder
  -- the packets removed are in front of the acknowledged one, up to which the peer has accepted all
  have hfront : d ∈ (p.link s).quiet.ackWaitQueue ∧ d.index ≤ e.index := by
    rcases hcase with rfl | hd | ⟨hd, holder⟩
    · exact ⟨he, le_rfl⟩
    · exact ⟨hsplit ▸ List.mem_append_left _ hd, ((hsending.index_lt hsplit).1 d hd).le⟩
    · rw [hinorder.not_older hsplit hnot hseq d hd] at holder
      cases holder
  obtain ⟨hmem, hfirst⟩ := hfront
  exact ⟨by omega, (hsending.queue d hmem).1, (hsending.queue d hmem).2⟩

/-- Both directions are kept up, and what an end has taken for acknowledged its peer has accepted. -/
structure Acknowledged (W N : ℕ) (first : Side → ℕ) (p : Pair) : Prop where
  delivering : ∀ s, p.Delivering W N (first s) s
  acked : ∀ s, ∀ e ∈ (p.link s).acked,
    Accepted N (first s) (p.link s).numbered (p.link s.other).accepted e

/-- More packets may be numbered and accepted. -/
theorem Accepted.mono {numbered numbered' accepted accepted' : List (List UInt8)} {e : AckWaitQueueElement}
    (h : Accepted N t numbered accepted e) (hnumbered : numbered <+: numbered')
    (haccepted : accepted <+: accepted') : Accepted N t numbered' accepted' e :=
  ⟨h.1.trans_le haccepted.length_le, h.2.1, h.2.2.mono hnumbered⟩

/-- An end acts: if all that it takes for acknowledged then had been accepted, that is so afterwards,
at both ends. -/
theorem acked_act {first : Side → ℕ} {r : Side} {op : Link → Link}
    (hbefore : ∀ s, ∀ e ∈ (p.link s).acked, Accepted N (first s) (p.link s).numbered (p.link s.other).accepted e)
    (hnumbered : (p.link r).quiet.numbered <+: (op (p.link r).quiet).numbered)
    (haccepted : (p.link r).quiet.accepted <+: (op (p.link r).quiet).accepted)
    (hacked : ∀ e ∈ (op (p.link r).quiet).acked,
      Accepted N (first r) (p.link r).numbered (p.link r.other).accepted e) :
    ∀ s, ∀ e ∈ ((p.act r op).link s).acked,
      Accepted N (first s) ((p.act r op).link s).numbered ((p.act r op).link s.other).accepted e := by
  refine r.forall_of ?_ ?_
  · rw [act_link_self, act_link_other]
    exact fun e he => (hacked e he).mono hnumbered List.prefix_rfl
  · rw [act_link_other, Side.other_other, act_link_self]
    intro e he
    have := hbefore r.other e he
    rw [Side.other_other] at this
    exact this.mono List.prefix_rfl haccepted

/-- What both ends take for acknowledged has been accepted, after every event in order. -/
theorem step_acknowledged (hp : Protocol W N) (env : Side → Env) {first : Side → ℕ} (p : Pair) (e : Event)
    (h : p.Acknowledged W N first) (hinorder : p.AcknowledgesInOrder e) :
    (p.step env e).Acknowledged W N first := by
  obtain ⟨hfree, hsubmits, horder⟩ := hinorder
  refine ⟨fun s => (h.delivering s).step hp env (hfree s) hsubmits, ?_⟩
  rcases step_cases env p e with ⟨r, i, rfl, heq⟩ | ⟨r, buff, rfl, heq⟩ | ⟨r, rfl, heq⟩ |
    ⟨r, again, rfl, -, heq⟩ | ⟨r, again, f, rest, rfl, hwire, heq⟩
  · rw [heq]
    exact h.acked
  · rw [heq]
    have hsame := Link.sameReceived_send (env r) buff (p.link r).quiet
    apply acked_act h.acked (Link.numbered_send ..)
    · rw [hsame.accepted]
    · rw [hsame.acked]
      exact h.acked r
  · rw [heq]
    have hsame := Link.sameReceived_retransmit (env r) (p.link r).quiet
    apply acked_act h.acked
    · rw [Link.numbered_retransmit]
    · rw [hsame.accepted]
    · rw [hsame.acked]
      exact h.acked r
  · rw [heq]
    exact h.acked
  · rw [heq]
    have hmem : f ∈ p.wire r := hwire ▸ List.mem_cons_self
    refine acked_act (p := p.setWire r _) h.acked (Link.numbered_receive ..) (Link.accepted_receive ..) ?_
    exact ((h.delivering r).direction (hfree r)).acked_receive hp hmem (hfree r)
      (horder f (by rw [hwire]; rfl)) (h.acked r)

/-- In a run of two established links in which the numbers in use stay different and each
acknowledgement finds no older packet behind the acknowledged one, every packet that an
acknowledgement has removed has been accepted by the peer. -/
theorem acknowledged_accepted (env : Side → Env) {type : LinkType} {p : Pair} (hestablished : p.Established type)
    (hagrees : ∀ s, p.Agrees s) {events : List Event}
    (hinorder : Admits (step env) AcknowledgesInOrder p events) (s : Side) :
    let q := runFrom (step env) p events
    ∀ e ∈ (q.link s).acked, ∃ buf, (q.link s.other).accepted[e.index]? = some buf ∧
      e.data = seqBytes 0x30 e.seq ++ buf := by
  obtain ⟨W, N, hp, hparameters⟩ := hestablished.protocol
  have hstart : p.Acknowledged W N fun s => (p.link s).txSequence := by
    refine ⟨fun s => ⟨fun _ => hestablished.direction hp hparameters (hagrees s), ?_⟩, fun s e he => ?_⟩
    · rw [(hestablished.link s.other).history.2.2.1]
      exact List.nil_prefix
    · simp [(hestablished.link s).history.2.2.2.2] at he
  intro q e he
  have hend := hinorder.invariant (step_acknowledged hp env) hstart
  obtain ⟨hlt, hseq, buf, hbuf, hdata⟩ := hend.acked s e he
  refine ⟨buf, ?_, ?_⟩
  · obtain ⟨rest, hrest⟩ := (hend.delivering s).accepted
    rw [← hrest, List.getElem?_append_left hlt] at hbuf
    exact hbuf
  · rw [hseq]
    exact hdata

/-- The acknowledgement of the first of two packets is lost; that of the second stands for both. -/
theorem acknowledged_accepted_implicitly :
    let q := runFrom (step fun _ => tickingEnv) (start .LINK_TYPE_EPOC)
      [.submit .near [5, 1], .submit .near [5, 2], .deliver .far false, .deliver .far false,
        .lose .near 0, .deliver .near false]
    (q.link .near).acked.map (·.index) = [1, 0] ∧
      ∀ e ∈ (q.link .near).acked, ∃ buf, (q.link .far).accepted[e.index]? = some buf ∧
        e.data = seqBytes 0x30 e.seq ++ buf :=
  ⟨by decide +kernel, acknowledged_accepted (fun _ => tickingEnv) (start_established (by decide))
    (fun _ => start_agrees _ _) (by decide +kernel) .near⟩

/-- Of two packets the second is lost. The first is sent again before its acknowledgement comes in,
so the second is older then, and is removed with it. -/
theorem acknowledged_not_accepted :
    let q := runFrom (step fun _ => tickingEnv) (start .LINK_TYPE_EPOC)
      [.submit .near [5, 1], .submit .near [5, 2], .deliver .far false, .lose .far 0, .tick .near,
        .deliver .near false]
    (q.link .near).acked.map (·.seq) = [1, 2] ∧ (q.link .near).ackWaitQueue = [] ∧
      (q.link .far).accepted = [[5, 1]] := by
  decide +kernel

end Pair

end Plptools
