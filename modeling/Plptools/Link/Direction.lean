import Plptools.Link.Sending

/-!
# One direction of an established link

The packets of one end are accepted by the other in order, each once, and the acknowledgements that
come back are for packets that have been accepted. This holds in every run in which no number comes up
again while a packet with it is kept; what the other end sends does not matter.
-/

namespace Plptools

open Plptools.Library

/-- The next element continues a first part of a list. -/
theorem prefix_concat {A : Type*} {first all : List A} {a : A} (h : first <+: all)
    (ha : all[first.length]? = some a) : first ++ [a] <+: all := by
  obtain ⟨rest, rfl⟩ := h
  rw [List.getElem?_append_right le_rfl, Nat.sub_self] at ha
  cases rest with
  | nil => cases ha
  | cons b rest =>
    cases ha
    exact ⟨rest, by rw [List.append_assoc, List.singleton_append]⟩

namespace Link

/-- The packets that are kept and the next one have different numbers. -/
def NumbersDiffer (l : Link) : Prop := (l.keptNumbers ++ [l.txSequence]).Nodup

instance (l : Link) : Decidable l.NumbersDiffer := inferInstanceAs (Decidable (List.Nodup _))

variable {W N t expected acked : ℕ} {wire : List Packet} {acks : List ℕ} {env : Env} {l : Link}

/-- The next number is not in use. -/
theorem NumbersDiffer.free (h : l.NumbersDiffer) : l.txSequence ∉ l.keptNumbers :=
  fun hmem => (List.nodup_append.mp h).2.2 _ hmem _ (List.mem_singleton.mpr rfl) rfl

/-- The numbers in use differ. -/
theorem NumbersDiffer.kept (h : l.NumbersDiffer) : l.keptNumbers.Nodup := (List.nodup_append.mp h).1

/-- The frames that a link has sent are put on the wire. -/
theorem Sending.flush (h : l.Sending W N t expected acked wire acks) :
    l.quiet.Sending W N t expected acked (wire ++ l.sent) acks := by
  refine ⟨h.tx, h.queue, fun f hf => h.frames f ?_, ?_⟩
  · simpa [quiet] using hf
  · have hwindow := h.window
    simp only [Link.window, quiet, List.append_nil] at hwindow ⊢
    exact hwindow

/-- Frames are lost. -/
theorem Sending.lose (h : l.Sending W N t expected acked wire acks) {wire' : List Packet}
    {acks' : List ℕ} (hwire : wire'.Sublist wire) (hacks : acks'.Sublist acks) :
    l.Sending W N t expected acked wire' acks' := by
  have hsub : (wire' ++ l.sent).Sublist (wire ++ l.sent) := hwire.append (List.Sublist.refl _)
  exact ⟨h.tx, h.queue, fun f hf => h.frames f (hsub.subset hf),
    h.window.lose ((hsub.filter _).map _) hacks id⟩

/-- The peer accepts the next packet. -/
theorem Sending.accepted (h : l.Sending W N t expected acked wire acks) (hlt : expected < l.numbered.length)
    (hrecent : ∀ j ∈ dataIndices (wire ++ l.sent), expected + 1 < j + N) :
    l.Sending W N t (expected + 1) acked wire acks :=
  ⟨h.tx, h.queue, h.frames, h.window.accept hlt hrecent⟩

/-- The peer acknowledges what it has accepted. -/
theorem Sending.acknowledged (h : l.Sending W N t expected acked wire acks) :
    l.Sending W N t expected acked wire (acks ++ [expected]) :=
  ⟨h.tx, h.queue, h.frames, h.window.sendAck⟩

/-- The frames that were sent make no difference. -/
theorem Running.quiet (h : l.Running W N) : l.quiet.Running W N :=
  { h with sent := List.forall_mem_nil _ }

end Link

namespace Pair

/-- The direction from an end to the opposite one: both links are established, the frames on the way
are data packets and acknowledgements, the other end has accepted a first part of what this one has
numbered and acknowledges that, and the packets of this end form a sliding window. -/
structure Direction (W N t : ℕ) (s : Side) (p : Pair) : Prop where
  running : ∀ r, (p.link r).quiet.Running W N
  traffic : ∀ r, ∀ f ∈ p.wire r, IsData f.bytes ∨ IsAck f.bytes
  acks : ∀ f ∈ acksOf (p.wire s), f.bytes = seqBytes 0x00 (Link.ackSequence N t f.index)
  rx : (p.link s.other).rxSequence = (Link.ackSequence N t (p.link s.other).accepted.length : ℕ)
  accepted : (p.link s.other).accepted <+: (p.link s).numbered
  window : ∃ heard, (p.link s).quiet.Sending W N t (p.link s.other).accepted.length heard (p.wire s.other)
    ((acksOf (p.wire s)).map (·.index))

variable {W N t : ℕ} {s : Side} {p : Pair}

/-- Frames are lost on the way. -/
theorem Direction.setWire (h : p.Direction W N t s) {r : Side} {frames : List Packet}
    (hsub : frames.Sublist (p.wire r)) : (p.setWire r frames).Direction W N t s := by
  have hwire := setWire_sublist hsub
  obtain ⟨heard, hsending⟩ := h.window
  refine ⟨h.running, fun q f hf => h.traffic q f ((hwire q).subset hf), fun f hf => ?_, h.rx, h.accepted,
    heard, ?_⟩
  · exact h.acks f (((hwire s).filter _).subset hf)
  · exact hsending.lose (hwire s.other) (((hwire s).filter _).map _)

/-- The sending end acts. -/
theorem Direction.actSender (h : p.Direction W N t s) {op : Link → Link} {heard : ℕ}
    (hrun : (op (p.link s).quiet).Running W N)
    (hnumbered : (p.link s).quiet.numbered <+: (op (p.link s).quiet).numbered)
    (hsending : (op (p.link s).quiet).Sending W N t (p.link s.other).accepted.length heard
      (p.wire s.other) ((acksOf (p.wire s)).map (·.index))) :
    (p.act s op).Direction W N t s := by
  refine ⟨s.forall_of ?_ ?_, s.forall_of ?_ ?_, ?_, ?_, ?_, heard, ?_⟩
  · rw [act_link_self]
    exact hrun.quiet
  · rw [act_link_other]
    exact h.running s.other
  · rw [act_wire_self]
    exact h.traffic s
  · rw [act_wire_other]
    exact List.forall_mem_append.mpr ⟨h.traffic s.other, hrun.sent⟩
  · rw [act_wire_self]
    exact h.acks
  · rw [act_link_other]
    exact h.rx
  · rw [act_link_other, act_link_self]
    exact h.accepted.trans hnumbered
  · rw [act_link_other, act_link_self, act_wire_other, act_wire_self]
    exact hsending.flush

/-- The receiving end acts: it may accept the next packet, and acknowledge what it has accepted. -/
theorem Direction.actReceiver (h : p.Direction W N t s) {op : Link → Link} {accepted : List (List UInt8)}
    {replies : List Packet} (hrun : (op (p.link s.other).quiet).Running W N)
    (hview : (op (p.link s.other).quiet).receiverView =
      (((Link.ackSequence N t accepted.length : ℕ) : ℤ), accepted, replies))
    (hreplies : Link.IsReply (Link.ackSequence N t accepted.length) accepted replies)
    (haccepted : accepted = (p.link s.other).accepted ∨
      ∃ buf, accepted = (p.link s.other).accepted ++ [buf] ∧ accepted <+: (p.link s).numbered ∧
        ∀ j ∈ dataIndices (p.wire s.other), accepted.length < j + N) :
    (p.act s.other op).Direction W N t s := by
  obtain ⟨heard, hsending⟩ := h.window
  simp only [Link.receiverView, Prod.mk.injEq] at hview
  obtain ⟨hrx, hacc, hsent⟩ := hview
  have hnext : (p.link s).quiet.Sending W N t accepted.length heard (p.wire s.other)
      ((acksOf (p.wire s)).map (·.index)) := by
    rcases haccepted with rfl | ⟨buf, rfl, hpart, hrecent⟩
    · exact hsending
    · have hlength := hpart.length_le
      rw [List.length_append, List.length_singleton] at hlength hrecent ⊢
      refine hsending.accepted hlength fun j hj => hrecent j ?_
      simpa [Link.quiet] using hj
  have hreplied : (p.link s).quiet.Sending W N t accepted.length heard (p.wire s.other)
      ((acksOf (p.wire s) ++ replies).map (·.index)) := by
    rcases hreplies with rfl | rfl
    · rwa [List.append_nil]
    · rw [List.map_append]
      exact hnext.acknowledged
  have hpart : accepted <+: (p.link s).numbered := by
    rcases haccepted with rfl | ⟨buf, -, hpart, -⟩
    · exact h.accepted
    · exact hpart
  refine ⟨s.forall_of ?_ ?_, s.forall_of ?_ ?_, ?_, ?_, ?_, heard, ?_⟩
  · rw [act_other_link]
    exact h.running s
  · rw [act_link_self]
    exact hrun.quiet
  · rw [act_other_wire]
    exact List.forall_mem_append.mpr ⟨h.traffic s, hrun.sent⟩
  · rw [act_wire_self]
    exact h.traffic s.other
  · rw [act_other_wire, acksOf_append, hsent]
    refine List.forall_mem_append.mpr ⟨h.acks, ?_⟩
    rcases hreplies with rfl | rfl
    · exact List.forall_mem_nil _
    · exact List.forall_mem_singleton.mpr rfl
  · rw [act_link_self]
    change (op (p.link s.other).quiet).rxSequence = (Link.ackSequence N t (op (p.link s.other).quiet).accepted.length : ℕ)
    rw [hrx, hacc]
  · rw [act_link_self, act_other_link]
    change (op (p.link s.other).quiet).accepted <+: _
    rw [hacc]
    exact hpart
  · rw [act_link_self, act_other_link, act_wire_self, act_other_wire, acksOf_append, hsent]
    change (p.link s).quiet.Sending W N t (op (p.link s.other).quiet).accepted.length heard _ _
    rw [hacc]
    exact hreplied

/-- The receiving end acts without accepting a packet or acknowledging one. -/
theorem Direction.actOther (h : p.Direction W N t s) {op : Link → Link}
    (hop : (op (p.link s.other).quiet).Running W N ∧
      (op (p.link s.other).quiet).receiverView = (p.link s.other).quiet.receiverView) :
    (p.act s.other op).Direction W N t s := by
  refine h.actReceiver hop.1 (hop.2.trans ?_) (.inl rfl) (.inl rfl)
  simp only [Link.receiverView, Link.quiet, h.rx, acksOf_nil]

/-- No empty packet is sent; that would be a request for a new link. -/
def Event.SubmitsData : Event → Prop
  | .submit _ buff => buff ≠ []
  | .tick _ => True
  | .deliver _ _ => True
  | .lose _ _ => True

instance : ∀ e, Decidable (Event.SubmitsData e)
  | .submit _ buff => inferInstanceAs (Decidable (buff ≠ []))
  | .tick _ => isTrue trivial
  | .deliver _ _ => isTrue trivial
  | .lose _ _ => isTrue trivial

/-- A frame that arrives at the sending end is a data packet of the other direction, or acknowledges
packets of this one. -/
theorem Direction.deliverSender (hp : Protocol W N) (h : p.Direction W N t s)
    (hfree : (p.link s).txSequence ∉ (p.link s).keptNumbers) {env : Env} {f : Packet}
    (hkept : ((p.link s).quiet.receive env f.bytes).keptNumbers.Nodup) (hf : IsData f.bytes ∨ IsAck f.bytes)
    (hack : IsAck f.bytes → f.bytes = seqBytes 0x00 (Link.ackSequence N t f.index) ∧
      f.index ≤ (p.link s.other).accepted.length ∧
      (∀ g ∈ acksOf (p.wire s), f.index ≤ g.index) ∧
      ∃ heard, heard ≤ f.index ∧ (p.link s).quiet.Sending W N t (p.link s.other).accepted.length heard
        (p.wire s.other) ((acksOf (p.wire s)).map (·.index))) :
    (p.act s (Link.receive env f.bytes)).Direction W N t s := by
  have hrun := h.running s
  have hnumbered := Link.numbered_receive env f.bytes (p.link s).quiet
  rcases hf with hdata | hisack
  · obtain ⟨heard, hsending⟩ := h.window
    have hreceive := Link.receive_of_isData env hdata (p.link s).quiet
    rw [hreceive] at hkept
    refine h.actSender ?_ hnumbered (hreceive ▸ hsending.receiveData hp hrun _ _ hkept)
    exact hreceive ▸ (hrun.receiveData env hp _ _).1
  · obtain ⟨hbytes, hle, hacks, heard, hheard, hsending⟩ := hack hisack
    have hlt : Link.ackSequence N t f.index < 2048 := (Nat.mod_lt _ hp.modulus_pos).trans_le hp.le
    have hreceive : (p.link s).quiet.receive env f.bytes =
        (p.link s).quiet.receiveAck env (Link.ackSequence N t f.index) := by
      rw [Link.receive, hbytes, header_ack hlt]
      rfl
    rw [hreceive] at hkept
    have hsending' := hsending.receiveAck hp hrun hfree hheard hle (fun b hb => by
      obtain ⟨g, hg, rfl⟩ := List.mem_map.mp hb
      exact hacks g hg) hkept
    exact h.actSender (hreceive ▸ (hrun.receiveAck hp _).1) hnumbered (hreceive ▸ hsending')

/-- A frame that arrives at the receiving end is the packet it expects, a duplicate, or an
acknowledgement of the other direction. -/
theorem Direction.deliverReceiver (hp : Protocol W N) (h : p.Direction W N t s) {env : Env} {f : Packet}
    (hf : IsData f.bytes ∨ IsAck f.bytes)
    (hdata : IsData f.bytes → Carries N t (p.link s).numbered f.index f.bytes ∧
      ((t + (p.link s.other).accepted.length) % N = (t + f.index) % N →
        f.index = (p.link s.other).accepted.length) ∧
      ∀ j ∈ dataIndices (p.wire s.other), f.index + 1 < j + N) :
    (p.act s.other (Link.receive env f.bytes)).Direction W N t s := by
  have hrun := h.running s.other
  rcases hf with hisdata | hisack
  swap
  · apply h.actOther
    rw [Link.receive_of_isAck env hisack]
    exact hrun.receiveAck hp _
  obtain ⟨⟨buf, hbuf, hbytes⟩, hexpected, hrecent⟩ := hdata hisdata
  have hlt : (t + f.index) % N < 2048 := (Nat.mod_lt _ hp.modulus_pos).trans_le hp.le
  have hreceive : (p.link s.other).quiet.receive env f.bytes =
      (p.link s.other).quiet.receiveData env ((t + f.index) % N) buf := by
    rw [Link.receive, hbytes, header_seqBytes (.inr rfl) hlt]
    rfl
  obtain ⟨hrun', rx, accepted, replies, hcase, hreplies, hview⟩ :=
    hrun.receiveData env hp ((t + f.index) % N) buf
  have hnext : (p.link s.other).quiet.nextSequence = (t + (p.link s.other).accepted.length) % N := by
    rw [hrun.nextSequence hp h.rx, Link.ackSequence_succ hp]
  have hquiet : (p.link s.other).quiet.accepted = (p.link s.other).accepted := rfl
  rw [hquiet] at hcase
  have hrx : rx = Link.ackSequence N t accepted.length ∧ (accepted = (p.link s.other).accepted ∨
      ∃ buf, accepted = (p.link s.other).accepted ++ [buf] ∧ accepted <+: (p.link s).numbered ∧
        ∀ j ∈ dataIndices (p.wire s.other), accepted.length < j + N) := by
    rcases hcase with ⟨-, hsame, rfl⟩ | ⟨hmatch, rfl, rfl⟩
    · exact ⟨Int.ofNat_inj.mp (hsame.symm.trans h.rx), .inl rfl⟩
    · rw [hnext] at hmatch
      have hindex := hexpected hmatch
      have hlength : ((p.link s.other).accepted ++ [buf]).length = f.index + 1 := by
        rw [List.length_append, List.length_singleton, hindex]
      refine ⟨?_, .inr ⟨buf, rfl, prefix_concat h.accepted (hindex ▸ hbuf), fun j hj => ?_⟩⟩
      · have hpos := hp.modulus_pos
        rw [hlength, Link.ackSequence, Nat.add_assoc t, Nat.add_assoc f.index, Nat.add_sub_cancel' hpos,
          ← Nat.add_assoc, Nat.add_mod_right]
      · rw [hlength]
        exact hrecent j hj
  obtain ⟨rfl, haccepted⟩ := hrx
  refine h.actReceiver (hreceive ▸ hrun') ?_ hreplies haccepted
  rw [hreceive, hview]
  rfl

/-- An acknowledgement on the way is for packets that have been accepted, and for no fewer than the
last one that came in. -/
theorem Direction.ack_bounds (h : p.Direction W N t s) {f : Packet} (hf : f ∈ p.wire s) (hack : IsAck f.bytes) :
    f.bytes = seqBytes 0x00 (Link.ackSequence N t f.index) ∧ ∃ heard, heard ≤ f.index ∧
      f.index ≤ (p.link s.other).accepted.length ∧
      (p.link s).quiet.Sending W N t (p.link s.other).accepted.length heard (p.wire s.other)
        ((acksOf (p.wire s)).map (·.index)) := by
  have hmem : f ∈ acksOf (p.wire s) := List.mem_filter.mpr ⟨hf, decide_eq_true hack⟩
  obtain ⟨heard, hsending⟩ := h.window
  obtain ⟨hheard, hle⟩ := hsending.window.acks_mem f.index (List.mem_map_of_mem hmem)
  exact ⟨h.acks f hmem, heard, hheard, hle, hsending⟩

/-- The direction survives every event that leaves the numbers in use different. -/
theorem Direction.step (hp : Protocol W N) (h : p.Direction W N t s) (env : Side → Env) {e : Event}
    (hfree : (p.link s).NumbersDiffer) (hfree' : ((p.step env e).link s).NumbersDiffer)
    (hsubmits : e.SubmitsData) : (p.step env e).Direction W N t s := by
  obtain ⟨heard, hsending⟩ := h.window
  rcases step_cases env p e with ⟨r, i, rfl, heq⟩ | ⟨r, buff, rfl, heq⟩ | ⟨r, rfl, heq⟩ |
    ⟨r, again, rfl, -, heq⟩ | ⟨r, again, f, rest, rfl, hwire, heq⟩
  · rw [heq]
    exact h.setWire (List.eraseIdx_sublist _ _)
  · rw [heq] at hfree' ⊢
    rcases s.eq_or_eq_other r with rfl | rfl
    · rw [act_link_self] at hfree'
      exact h.actSender ((h.running r).send hp hsubmits).1 (Link.numbered_send ..)
        (hsending.send hp (h.running r) hsubmits hfree'.kept)
    · exact h.actOther ((h.running s.other).send hp hsubmits)
  · rw [heq]
    rcases s.eq_or_eq_other r with rfl | rfl
    · refine h.actSender (h.running r).retransmit.1 ?_
        (hsending.retransmit (h.running r) hfree.free)
      rw [Link.numbered_retransmit]
    · exact h.actOther (h.running s.other).retransmit
  · rw [heq]
    exact h
  · rw [heq] at hfree' ⊢
    have hsub := delivered_sublist hwire again
    have hmem : f ∈ p.wire r := hwire ▸ List.mem_cons_self
    have hset := h.setWire hsub
    rcases s.eq_or_eq_other r with rfl | rfl
    · rw [act_link_self] at hfree'
      apply hset.deliverSender hp hfree.free hfree'.kept (h.traffic r f hmem)
      intro hack
      obtain ⟨hbytes, heard, hheard, hle, hsending⟩ := h.ack_bounds hmem hack
      have hsorted : ((acksOf (p.wire r)).map (·.index)).Pairwise (· ≤ ·) := hsending.window.acks_sorted
      have hfirst : ∀ g ∈ acksOf (p.wire r), f.index ≤ g.index := by
        intro g hg
        rw [hwire, acksOf_cons hack, List.map_cons, List.pairwise_cons] at hsorted
        rw [hwire, acksOf_cons hack] at hg
        rcases List.mem_cons.mp hg with rfl | hg
        · exact le_rfl
        · exact hsorted.1 _ (List.mem_map_of_mem hg)
      refine ⟨hbytes, hle, fun g hg => ?_, heard, hheard, ?_⟩
      · rw [setWire_wire_self] at hg
        exact hfirst g ((hsub.filter _).subset hg)
      · rw [setWire_wire_self, setWire_wire_other]
        exact hsending.lose (List.Sublist.refl _) ((hsub.filter _).map _)
    · apply hset.deliverReceiver hp (h.traffic s.other f hmem)
      intro hdata
      have hquiet : p.wire s.other ++ (p.link s).quiet.sent = p.wire s.other := List.append_nil _
      have hmemdata : f.index ∈ dataIndices (p.wire s.other ++ (p.link s).quiet.sent) := by
        rw [hquiet]
        exact List.mem_map_of_mem (List.mem_filter.mpr ⟨hmem, decide_eq_true hdata⟩)
      have horder : (dataIndices (p.wire s.other ++ (p.link s).quiet.sent)).Pairwise
          fun j k => j + 1 < k + N := hsending.window.data_order
      refine ⟨hsending.frames f (List.mem_append_left _ hmem) hdata,
        fun hmod => hsending.window.data_eq hp.window hmemdata hmod, fun j hj => ?_⟩
      rw [setWire_wire_self] at hj
      have hj : j ∈ dataIndices (p.wire s.other) := ((hsub.filter _).map _).subset hj
      rw [hquiet, hwire, dataIndices_cons hdata, List.pairwise_cons] at horder
      rw [hwire, dataIndices_cons hdata] at hj
      rcases List.mem_cons.mp hj with rfl | hj
      · have := hp.window
        omega
      · exact horder.1 j hj

/-- An event makes one end act, so the packets of an end become more, or that end is as before. -/
theorem step_link (env : Side → Env) (p : Pair) (e : Event) (s : Side) :
    ((p.step env e).link s.other = p.link s.other ∧
      (p.link s).numbered <+: ((p.step env e).link s).numbered) ∨
    (p.step env e).link s = p.link s := by
  have hact : ∀ (q : Pair) (r : Side) (op : Link → Link), q.link = p.link →
      (q.link r).quiet.numbered <+: (op (q.link r).quiet).numbered →
      ((q.act r op).link s.other = p.link s.other ∧ (p.link s).numbered <+: ((q.act r op).link s).numbered) ∨
        (q.act r op).link s = p.link s := by
    intro q r op hq hnumbered
    rcases s.eq_or_eq_other r with rfl | rfl
    · refine .inl ⟨by rw [act_link_other, hq], ?_⟩
      rw [act_link_self, ← hq]
      exact hnumbered
    · exact .inr (by rw [act_other_link, hq])
  rcases step_cases env p e with ⟨r, i, rfl, heq⟩ | ⟨r, buff, rfl, heq⟩ | ⟨r, rfl, heq⟩ |
    ⟨r, again, rfl, -, heq⟩ | ⟨r, again, f, rest, rfl, -, heq⟩ <;> rw [heq]
  · exact .inr rfl
  · exact hact p r _ rfl (Link.numbered_send ..)
  · apply hact p r _ rfl
    rw [Link.numbered_retransmit]
  · exact .inr rfl
  · exact hact (p.setWire r _) r _ rfl (Link.numbered_receive ..)

/-- The direction holds as long as the numbers in use are different, and the packets accepted are the
first ones of those numbered in any case. -/
structure Delivering (W N t : ℕ) (s : Side) (p : Pair) : Prop where
  direction : (p.link s).NumbersDiffer → p.Direction W N t s
  accepted : (p.link s.other).accepted <+: (p.link s).numbered

/-- What the other end does leaves the numbers of this one as they are, so the packets it accepts are
the next ones even if this end comes to a number that is in use. -/
theorem Delivering.step (hp : Protocol W N) (h : p.Delivering W N t s) (env : Side → Env) {e : Event}
    (hfree : (p.link s).NumbersDiffer) (hsubmits : e.SubmitsData) : (p.step env e).Delivering W N t s := by
  have hdirection := fun hfree' => (h.direction hfree).step hp env hfree hfree' hsubmits
  refine ⟨hdirection, ?_⟩
  rcases step_link env p e s with ⟨hother, hnumbered⟩ | hself
  · rw [hother]
    exact h.accepted.trans hnumbered
  · exact (hdirection (hself ▸ hfree)).accepted

end Pair

/-- A link of the given type that has just been established: its numbers are in the range of the
type, nothing is queued, and nothing has happened on it yet. -/
structure Link.Established (type : LinkType) (l : Link) : Prop where
  linkType : l.linkType = type
  parameters : (type = .LINK_TYPE_SIBO ∧ l.seqMask = 7 ∧ l.maxOutstanding = 1) ∨
    (type = .LINK_TYPE_EPOC ∧ l.seqMask = 0x7ff ∧ l.maxOutstanding = 8)
  tx : l.txSequence ≤ l.seqMask
  rx : 0 ≤ l.rxSequence ∧ l.rxSequence ≤ l.seqMask
  queues : l.ackWaitQueue = [] ∧ l.waitQueue = [] ∧ l.holdQueue = []
  history : l.submitted = [] ∧ l.numbered = [] ∧ l.accepted = [] ∧ l.received = [] ∧ l.acked = []

namespace Pair

/-- Two links of one type that have just been established, with nothing on the way. -/
structure Established (type : LinkType) (p : Pair) : Prop where
  link : ∀ s, (p.link s).Established type
  wire : ∀ s, p.wire s = []

/-- The next number of an end is the one that the other end accepts next. -/
def Agrees (s : Side) (p : Pair) : Prop :=
  (p.link s).txSequence = ((p.link s.other).rxSequence + 1).toNat &&& (p.link s.other).seqMask

variable {p : Pair} {type : LinkType}

/-- Both ends run the same protocol. -/
theorem Established.protocol (h : p.Established type) :
    ∃ W N, Protocol W N ∧ ∀ s, (p.link s).maxOutstanding = W ∧ (p.link s).seqMask + 1 = N := by
  cases type with
  | LINK_TYPE_UNKNOWN => rcases (h.link .near).parameters with ⟨hfalse, -⟩ | ⟨hfalse, -⟩ <;> cases hfalse
  | LINK_TYPE_SIBO =>
    refine ⟨1, 8, .inl ⟨rfl, rfl⟩, fun s => ?_⟩
    rcases (h.link s).parameters with ⟨-, hmask, hmax⟩ | ⟨hfalse, -⟩
    · exact ⟨hmax, by rw [hmask]⟩
    · cases hfalse
  | LINK_TYPE_EPOC =>
    refine ⟨8, 2048, .inr ⟨rfl, rfl⟩, fun s => ?_⟩
    rcases (h.link s).parameters with ⟨hfalse, -⟩ | ⟨-, hmask, hmax⟩
    · cases hfalse
    · exact ⟨hmax, by rw [hmask]⟩

/-- Both ends are running. -/
theorem Established.running (h : p.Established type) {W N : ℕ}
    (hparameters : ∀ s, (p.link s).maxOutstanding = W ∧ (p.link s).seqMask + 1 = N) (s : Side) :
    (p.link s).quiet.Running W N := by
  obtain ⟨hqueue, hwait, hhold⟩ := (h.link s).queues
  obtain ⟨hmax, hmask⟩ := hparameters s
  obtain ⟨hpos, hle⟩ := (h.link s).rx
  have htx := (h.link s).tx
  refine ⟨fun hunknown => ?_, hmax, hmask, ?_, ⟨(p.link s).rxSequence.toNat, ?_, ?_⟩, ?_, ?_, ?_, ?_⟩
  · have htype : (p.link s).linkType = .LINK_TYPE_UNKNOWN := hunknown
    rw [(h.link s).linkType] at htype
    subst htype
    rcases (h.link s).parameters with ⟨hfalse, -⟩ | ⟨hfalse, -⟩ <;> cases hfalse
  · change (p.link s).txSequence < N
    omega
  · exact (Int.toNat_of_nonneg hpos).symm
  · omega
  · simp [Link.quiet, hwait]
  · simp [Link.quiet, hhold]
  · simp [Link.quiet, hqueue]
  · simp [Link.quiet]

/-- Each direction in which the numbers agree starts well. -/
theorem Established.direction (h : p.Established type) {W N : ℕ} (hp : Protocol W N)
    (hparameters : ∀ s, (p.link s).maxOutstanding = W ∧ (p.link s).seqMask + 1 = N) {s : Side}
    (hagrees : p.Agrees s) : p.Direction W N (p.link s).txSequence s := by
  have hrun := h.running hparameters
  obtain ⟨-, hnumbered, -, -, -⟩ := (h.link s).history
  obtain ⟨-, -, haccepted, -, -⟩ := (h.link s.other).history
  obtain ⟨hqueue, -, -⟩ := (h.link s).queues
  obtain ⟨rx, hrx, hlt⟩ := (hrun s.other).rx
  have htx : (p.link s).txSequence = (rx + 1) % N := hagrees.trans ((hrun s.other).nextSequence hp hrx)
  have hzero : (p.link s).numbered.length = 0 := by rw [hnumbered, List.length_nil]
  refine ⟨hrun, ?_, ?_, ?_, ?_, 0, ?_⟩
  · simp [h.wire]
  · simp [h.wire]
  · have hpos := hp.modulus_pos
    change (p.link s.other).quiet.rxSequence = _
    rw [hrx, haccepted, List.length_nil, Link.ackSequence, htx, Nat.add_zero, Nat.mod_add_mod, Nat.add_assoc,
      Nat.add_sub_cancel' hpos, Nat.add_mod_right, Nat.mod_eq_of_lt hlt]
  · rw [haccepted]
    exact List.nil_prefix
  · rw [haccepted, h.wire, h.wire]
    refine ⟨?_, ?_, List.forall_mem_nil _, ?_⟩
    · change (p.link s).txSequence = ((p.link s).txSequence + (p.link s).numbered.length) % N
      have hlt' : (p.link s).txSequence < N := (hrun s).tx
      rw [hzero, Nat.add_zero, Nat.mod_eq_of_lt hlt']
    · simp [Link.quiet, hqueue]
    · have hwindow : (p.link s).quiet.window 0 0 [] [] = ⟨0, [], 0, 0, [], [], (p.link s).failed⟩ := by
        simp only [Link.window, Link.quiet, hqueue, hzero]
        rfl
      change ((p.link s).quiet.window 0 0 [] []).Inv W N
      rw [hwindow]
      exact Window.Inv.init W N _

end Pair

/-- A link of the given type as the negotiation leaves it. -/
def Link.negotiated (type : LinkType) : Link where
  failed := false
  linkType := type
  txSequence := 1
  rxSequence := 0
  seqMask := if type = .LINK_TYPE_EPOC then 0x7ff else 7
  maxOutstanding := if type = .LINK_TYPE_EPOC then 8 else 1
  conMagic := 0
  ackWaitQueue := []
  holdQueue := []
  waitQueue := []
  xoff := fun _ => false
  reads := 0
  polls := 0
  sent := []
  received := []
  submitted := []
  numbered := []
  accepted := []
  acked := []

/-- A link that has been negotiated. -/
theorem Link.negotiated_established {type : LinkType} (h : type ≠ .LINK_TYPE_UNKNOWN) :
    (negotiated type).Established type := by
  refine ⟨rfl, ?_, ?_, ?_, ⟨rfl, rfl, rfl⟩, ⟨rfl, rfl, rfl, rfl, rfl⟩⟩ <;> cases type
  all_goals first
    | exact absurd rfl h
    | decide

namespace Pair

/-- Two links of the given type as the negotiation leaves them. -/
def start (type : LinkType) : Pair := ⟨fun _ => Link.negotiated type, fun _ => []⟩

/-- A pair that has been negotiated. -/
theorem start_established {type : LinkType} (h : type ≠ .LINK_TYPE_UNKNOWN) : (start type).Established type :=
  ⟨fun _ => Link.negotiated_established h, fun _ => rfl⟩

/-- Nothing has been sent yet. -/
theorem start_agrees (type : LinkType) (s : Side) : (start type).Agrees s := by
  rw [Agrees]
  cases type <;> cases s <;> decide

end Pair

end Plptools
