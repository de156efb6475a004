import Plptools.Link.Exhaustion
import Plptools.Link.Numbers

/-!
# The acknowledgements of a link

`receive` acknowledges the number of the last packet that was accepted. A link that has accepted none
remembers -1, and acknowledges that when a data packet other than the first arrives.
-/

namespace Plptools

open Plptools.Library

namespace Link

/-- The own request is confirmed by an EPOC machine. -/
def confirmed (l : Link) : Link :=
  { l with
    ackWaitQueue := l.ackWaitQueue.eraseP isReqReq
    linkType := .LINK_TYPE_EPOC
    failed := false
    seqMask := 0x7ff
    maxOutstanding := 8
    rxSequence := 0
    txSequence := 1 }

/-- The frame is that of a packet that waits for its acknowledgement. -/
def Awaits (l : Link) (f : Packet) : Prop := ∃ e ∈ l.ackWaitQueue, f = ⟨e.data, e.index⟩

/-- The frame is an acknowledgement, and the peer reads in it the number of the last packet that was
accepted, which is under the mask. -/
structure WellFormedAck (l : Link) (bytes : List UInt8) : Prop where
  type : (header bytes).1 = 0x00
  seq : ((header bytes).2.1 : ℤ) = l.rxSequence
  range : 0 ≤ l.rxSequence ∧ l.rxSequence ≤ l.seqMask

/-- The frames that the link sends when it receives one. -/
def answers (env : Env) (l : Link) (frame : List UInt8) : List Packet :=
  (l.receive env frame).sent.drop l.sent.length

/-- What the link sends for a frame is packets that wait for an acknowledgement themselves, and
well-formed acknowledgements. -/
def AcksWell (env : Env) (l : Link) (frame : List UInt8) : Prop :=
  ∀ f ∈ l.answers env frame, (l.receive env frame).Awaits f ∨ WellFormedAck (l.receive env frame) f.bytes

/-- No packet has been accepted, and a data packet other than the first arrives; the link has not
failed. -/
structure NothingToAck (env : Env) (l : Link) (frame : List UInt8) : Prop where
  unmarked : ¬l.Marked env
  data : IsData frame
  none : l.rxSequence = -1
  later : (header frame).2.1 ≠ 0

variable {env : Env} {l m : Link} {frame : List UInt8}

/-- An acknowledgement is one frame, or none when the link has failed. -/
theorem sendAck_sent (env : Env) (seq : ℤ) (l : Link) : (l.sendAck env seq).sent =
    l.sent ++ if l.Marked env then [] else [⟨seqBytes 0 seq, l.accepted.length⟩] := by
  by_cases hmarked : l.Marked env
  · have hfailed : (l.hasFailed env).failed = true := hmarked
    rw [sendAck, if_pos hfailed, if_pos hmarked, List.append_nil]
    rfl
  · have hworks : ¬(l.hasFailed env).failed = true := hmarked
    rw [sendAck, if_neg hworks, if_neg hmarked]
    rfl

/-! ## Everything else that is sent waits for an acknowledgement -/

/-- Packets are sent, all of which wait for an acknowledgement then, and nothing is acknowledged. -/
structure Transmits (l m : Link) : Prop where
  sent : ∃ frames, m.sent = l.sent ++ frames ∧ ∀ f ∈ frames, m.Awaits f
  queue : l.ackWaitQueue ⊆ m.ackWaitQueue
  rxSequence : m.rxSequence = l.rxSequence

/-- Nothing is sent. -/
theorem Transmits.of_eq (hsent : m.sent = l.sent) (hqueue : l.ackWaitQueue ⊆ m.ackWaitQueue)
    (hrx : m.rxSequence = l.rxSequence) : Transmits l m where
  sent := ⟨[], by rw [hsent, List.append_nil], fun _ hf => (List.not_mem_nil hf).elim⟩
  queue := hqueue
  rxSequence := hrx

/-- One transmission after the other. -/
theorem Transmits.trans {k : Link} (h : Transmits l m) (h' : Transmits m k) : Transmits l k where
  sent := by
    obtain ⟨frames, hsent, hwait⟩ := h.sent
    obtain ⟨frames', hsent', hwait'⟩ := h'.sent
    refine ⟨frames ++ frames', by rw [hsent', hsent, List.append_assoc], fun f hf => ?_⟩
    rcases List.mem_append.mp hf with hf | hf
    · obtain ⟨e, he, hframe⟩ := hwait f hf
      exact ⟨e, h'.queue he, hframe⟩
    · exact hwait' f hf
  queue := List.Subset.trans h.queue h'.queue
  rxSequence := h'.rxSequence.trans h.rxSequence

/-- A packet that is numbered is sent as the last element of the queue. -/
theorem transmits_number (env : Env) (buf : List UInt8) (l : Link) : Transmits l (l.number env buf) where
  sent := ⟨_, rfl, fun _ hf => ⟨_, List.mem_append_right _ (List.mem_singleton_self _), List.mem_singleton.mp hf⟩⟩
  queue := List.subset_append_left _ _
  rxSequence := rfl

/-- One packet is sent at most. -/
theorem transmits_transmit (env : Env) (buf : List UInt8) (l : Link) : Transmits l (l.transmit env buf) := by
  rcases transmit_cases env buf l with ⟨-, heq⟩ | ⟨-, -, heq⟩ | ⟨-, -, -, heq⟩ | ⟨-, -, -, heq⟩ <;> rw [heq]
  · exact .of_eq rfl (List.Subset.refl _) rfl
  · exact .of_eq rfl (List.Subset.refl _) rfl
  · exact .of_eq rfl (List.Subset.refl _) rfl
  · have hpolled : Transmits l (l.hasFailed env) := .of_eq rfl (List.Subset.refl _) rfl
    exact hpolled.trans (transmits_number env buf _)

/-- Packets are sent. -/
theorem transmits_transmitAll (env : Env) (packets : List (List UInt8)) (l : Link) :
    Transmits l (transmitAll env packets l) := by
  induction packets generalizing l with
  | nil => exact .of_eq rfl (List.Subset.refl _) rfl
  | cons buf rest ih => exact (transmits_transmit env buf l).trans (ih _)

/-- A packet of the negotiation is sent as the last element of the queue, too. -/
theorem transmits_sendControl (env : Env) (data : List UInt8) (l : Link) :
    Transmits l (l.sendControl env data) := by
  rcases sendControl_cases env data l with ⟨-, heq⟩ | ⟨-, heq⟩ <;> rw [heq]
  · exact .of_eq rfl (List.Subset.refl _) rfl
  · exact {
      sent := ⟨_, rfl, fun _ hf =>
        ⟨_, List.mem_append_right _ (List.mem_singleton_self _), List.mem_singleton.mp hf⟩⟩
      queue := List.subset_append_left _ _
      rxSequence := rfl }

/-! ## What `receive` sends -/

/-- What is sent for a frame is `acks`, acknowledgements of the last packet that was accepted, and
after them `frames`, packets that wait for one. If no packet has been accepted, the frame was a data
packet other than the next one. -/
structure Sends (env : Env) (l : Link) (frame : List UInt8) (acks frames : List Packet) : Prop where
  sent : (l.receive env frame).sent = l.sent ++ acks ++ frames
  number : ∀ f ∈ acks, f.bytes = seqBytes 0 (l.receive env frame).rxSequence
  awaits : ∀ f ∈ frames, (l.receive env frame).Awaits f
  accepted : acks ≠ [] → 0 ≤ (l.receive env frame).rxSequence ∨
    ¬l.Marked env ∧ IsData frame ∧ l.nextSequence ≠ (header frame).2.1 ∧
      (l.receive env frame).rxSequence = l.rxSequence

/-- An acknowledgement, and packets after it. -/
theorem sends_of_sendAck (seq : ℤ) (hreceive : Transmits (m.sendAck env seq) (l.receive env frame))
    (hsent : m.sent = l.sent) (hrx : m.rxSequence = seq)
    (haccepted : ¬m.Marked env → 0 ≤ seq ∨ ¬l.Marked env ∧ IsData frame ∧
      l.nextSequence ≠ (header frame).2.1 ∧ seq = l.rxSequence) :
    ∃ acks frames, Sends env l frame acks frames := by
  obtain ⟨frames, hframes, hwait⟩ := hreceive.sent
  have hlast : (l.receive env frame).rxSequence = seq := by
    rw [hreceive.rxSequence]
    rcases sendAck_cases env seq m with heq | heq <;> rw [heq] <;> exact hrx
  refine ⟨if m.Marked env then [] else [⟨seqBytes 0 seq, m.accepted.length⟩], frames, ?_, ?_, hwait, ?_⟩
  · rw [hframes, sendAck_sent, hsent]
  · intro f hf
    split at hf
    · cases hf
    · rw [List.mem_singleton.mp hf, hlast]
  · intro hacks
    rw [hlast]
    exact haccepted fun hmarked => hacks (if_pos hmarked)

/-- No acknowledgement, but packets. -/
theorem sends_of_transmits (hsent : m.sent = l.sent) (h : Transmits m (l.receive env frame)) :
    ∃ acks frames, Sends env l frame acks frames := by
  obtain ⟨frames, hframes, hwait⟩ := h.sent
  refine ⟨[], frames, ?_, fun f hf => (List.not_mem_nil hf).elim, hwait, fun h => (h rfl).elim⟩
  rw [hframes, hsent, List.append_nil]

/-- A packet that is sent again after a hint stays in the queue. -/
theorem awaits_resendLoop {now : Timeval} {seq : ℕ} {queue : List AckWaitQueueElement} {f : Packet}
    (hf : f ∈ (resendLoop now seq queue).2) : ∃ e ∈ (resendLoop now seq queue).1, f = ⟨e.data, e.index⟩ := by
  rcases resendLoop_cases now seq queue with heq | ⟨before, e, after, -, -, heq | heq⟩ <;>
    rw [heq] at hf ⊢
  · cases hf
  · cases hf
  · exact ⟨_, List.mem_append_right _ List.mem_cons_self, List.mem_singleton.mp hf⟩

/-- A data packet is acknowledged. -/
theorem sends_receiveData (hdata : IsData frame) : ∃ acks frames, Sends env l frame acks frames := by
  have hreceive := receive_of_isData env hdata l
  rcases receiveData_cases env (header frame).2.1 (header frame).2.2 l with ⟨hdup, heq⟩ |
    ⟨-, -, heq⟩ | ⟨-, -, heq⟩ | ⟨-, -, -, heq⟩ <;> rw [heq] at hreceive
  · refine sends_of_sendAck (m := l) l.rxSequence ?_ rfl rfl
      fun hunmarked => .inr ⟨hunmarked, hdata, hdup, rfl⟩
    rw [hreceive]
    exact .of_eq rfl (List.Subset.refl _) rfl
  · refine sends_of_sendAck (m := l.accept (header frame).2.1 (header frame).2.2)
      (header frame).2.1 ?_ rfl rfl fun _ => .inl (Int.natCast_nonneg _)
    rw [hreceive]
    exact .of_eq rfl (List.Subset.refl _) rfl
  · refine sends_of_sendAck (m := l.accept (header frame).2.1 (header frame).2.2)
      (header frame).2.1 ?_ rfl rfl fun _ => .inl (Int.natCast_nonneg _)
    rw [hreceive]
    refine Transmits.trans ?_ (transmits_transmitAll env _ _)
    exact .of_eq rfl (List.Subset.refl _) rfl
  · refine sends_of_sendAck (m := l.accept (header frame).2.1 (header frame).2.2)
      (header frame).2.1 ?_ rfl rfl fun _ => .inl (Int.natCast_nonneg _)
    rw [hreceive]
    exact .of_eq rfl (List.Subset.refl _) rfl

/-- An acknowledgement is not acknowledged. -/
theorem sends_receiveAck (hack : IsAck frame) : ∃ acks frames, Sends env l frame acks frames := by
  have hreceive := receive_of_isAck env hack l
  rcases receiveAck_cases env (header frame).2.1 l with ⟨e, -, -, -, -, -, heq⟩ | ⟨-, heq⟩ <;>
    rw [heq] at hreceive
  · have hsent : (l.matched (header frame).2.1 e).sent = l.sent := by
      unfold matched
      dsimp only
      split <;> rfl
    refine sends_of_transmits (m := { l.matched (header frame).2.1 e with waitQueue := [] }) hsent ?_
    rw [hreceive]
    exact transmits_transmitAll env _ _
  · refine ⟨[], (resendLoop (env.gettimeofday l.reads) ((header frame).2.1 + 1) l.ackWaitQueue).2, ?_,
      fun f hf => (List.not_mem_nil hf).elim, fun f hf => ?_, fun h => (h rfl).elim⟩
    · rw [hreceive, List.append_nil]
    · rw [hreceive]
      exact awaits_resendLoop hf

/-- A request for a link is acknowledged, or confirmed. -/
theorem sends_receiveReq (hreq : (header frame).1 = 0x20) : ∃ acks frames, Sends env l frame acks frames := by
  have hreceive := receive_of_isReq env (l := l) hreq
  unfold receiveReq at hreceive
  dsimp only at hreceive
  split at hreceive
  · refine sends_of_sendAck (m := l.confirmed) 0 ?_ rfl rfl fun _ => .inl (Int.le_refl 0)
    rw [hreceive]
    exact .of_eq rfl (List.Subset.refl _) rfl
  split at hreceive
  · refine sends_of_transmits (m := { l with
      linkType := .LINK_TYPE_EPOC
      rxSequence := 0
      txSequence := 0
      seqMask := 0x7ff
      maxOutstanding := 8
      failed := false }) rfl ?_
    rw [hreceive]
    exact transmits_sendControl env _ _
  · refine sends_of_sendAck (m := l.becomeSibo) 0 ?_ rfl rfl fun _ => .inl (Int.le_refl 0)
    rw [hreceive]
    exact .of_eq rfl (List.Subset.refl _) rfl

/-- Whatever frame arrives, nothing but an acknowledgement and packets is sent. -/
theorem receive_sends (env : Env) (l : Link) (frame : List UInt8) :
    ∃ acks frames, Sends env l frame acks frames := by
  by_cases hdata : IsData frame
  · exact sends_receiveData hdata
  by_cases hack : IsAck frame
  · exact sends_receiveAck hack
  by_cases hreq : (header frame).1 = 0x20
  · exact sends_receiveReq hreq
  refine sends_of_transmits (m := l) rfl ?_
  unfold receive
  dsimp only
  rw [if_neg (show (header frame).1 ≠ 0x30 from hdata), if_neg (show (header frame).1 ≠ 0x00 from hack),
    if_neg hreq]
  split
  · exact .of_eq rfl (List.Subset.refl _) rfl
  · exact .of_eq rfl (List.Subset.refl _) rfl

/-! ## They are well formed -/

/-- A number under the mask is read as it was sent. -/
theorem wellFormedAck_of_nonneg (h : m.Sound env) (hnonneg : 0 ≤ m.rxSequence) :
    WellFormedAck m (seqBytes 0 m.rxSequence) := by
  obtain ⟨rx, hrx⟩ := Int.eq_ofNat_of_zero_le hnonneg
  have hmask : rx ≤ m.seqMask := by
    have := h.most
    omega
  have hheader := header_ack (Nat.lt_succ_of_le (hmask.trans h.mask_le))
  rw [hrx]
  refine ⟨?_, ?_, hnonneg, h.most⟩
  · rw [hheader]
  · rw [hheader, hrx]

/-- The first packet that a link accepts is number 0. -/
theorem nextSequence_of_none (h : l.rxSequence = -1) : l.nextSequence = 0 := by
  rw [nextSequence, h]
  exact Nat.zero_and _

/-- No packet of a link that has accepted nothing looks like the acknowledgement of -1. -/
theorem Sound.not_awaits (h : l.Sound env) (hnone : l.rxSequence = -1) {f : Packet}
    (hf : f.bytes = [0xff]) : ¬l.Awaits f := by
  rintro ⟨e, he, rfl⟩
  obtain ⟨hseq, -, hcontrol | ⟨buf, -, hframe⟩⟩ := h.queue e he
  · obtain ⟨seq, content, hheader, -⟩ := hcontrol.header
    have htype := congrArg Prod.fst hheader
    rw [show e.data = [0xff] from hf] at htype
    exact absurd htype (by decide : (header [0xff]).1 ≠ 0x20)
  · rw [h.fresh hnone] at hseq
    dsimp only at hf
    rw [hframe, frameOf] at hf
    split at hf
    · have hbyte := congrArg UInt8.toNat (List.head_eq_of_cons_eq hf)
      have hlt : 0x20 + e.seq < 256 := by omega
      rw [show (0x20 + e.seq : ℤ) = (0x20 + e.seq : ℕ) from rfl, lowByte_natCast hlt,
        UInt8.toNat_ofNat_of_lt' hlt] at hbyte
      change 0x20 + e.seq = 255 at hbyte
      omega
    · have hdata := isData_seqBytes (Nat.lt_of_le_of_lt hseq (by decide)) buf
      rw [hf] at hdata
      exact absurd hdata (by decide)

/-- The acknowledgements for a frame are well formed exactly when there is something to
acknowledge. -/
theorem acksWell_iff (h : l.Sound env) : l.AcksWell env frame ↔ ¬l.NothingToAck env frame := by
  constructor
  · rintro hwell ⟨hunmarked, hdata, hnone, hlater⟩
    have hdup : l.nextSequence ≠ (header frame).2.1 := by
      rw [nextSequence_of_none hnone]
      exact hlater.symm
    have hreceive : l.receive env frame = l.sendAck env (-1) := by
      rw [receive_of_isData env hdata, ← hnone]
      exact if_neg hdup
    have hrx : (l.receive env frame).rxSequence = -1 := by
      rw [hreceive, ← hnone]
      rcases sendAck_cases env l.rxSequence l with heq | heq <;> rw [heq] <;> rfl
    have hanswers : l.answers env frame = [⟨[0xff], l.accepted.length⟩] := by
      rw [answers, hreceive, sendAck_sent, if_neg hunmarked, List.drop_left]
      rfl
    rcases hwell _ (hanswers ▸ List.mem_singleton_self _) with hawaits | hformed
    · exact (h.receive frame).not_awaits hrx rfl hawaits
    · exact absurd (hformed.range.1.trans_eq hrx) (by decide)
  · intro hsome f hf
    obtain ⟨acks, frames, hsends⟩ := receive_sends env l frame
    rw [answers, hsends.sent, List.append_assoc, List.drop_left] at hf
    rcases List.mem_append.mp hf with hf | hf
    · refine .inr ?_
      rw [hsends.number f hf]
      apply wellFormedAck_of_nonneg (h.receive frame)
      rcases hsends.accepted (List.ne_nil_of_mem hf) with hnonneg | ⟨hunmarked, hdata, hdup, hrx⟩
      · exact hnonneg
      · by_contra hneg
        have hleast := h.least
        have hnone : l.rxSequence = -1 := by omega
        rw [nextSequence_of_none hnone] at hdup
        exact hsome ⟨hunmarked, hdata, hnone, hdup.symm⟩
    · exact .inl (hsends.awaits f hf)

/-- Over the life of a link, what is sent for a received frame is always well formed, packets apart,
exactly when there is something to acknowledge at each of the frames that are acknowledged. -/
theorem acks_well_formed_iff (env : Env) (conMagic : ℤ) (events : List LifeEvent) :
    (∀ seen frame, seen ++ [.event (.receive frame)] <+: events →
        (lived env conMagic seen).AcksWell env frame) ↔
      ∀ seen frame, seen ++ [.event (.receive frame)] <+: events →
        ¬(lived env conMagic seen).NothingToAck env frame := by
  constructor
  · intro hall seen frame hseen
    exact (acksWell_iff (lived_sound env conMagic seen)).mp (hall seen frame hseen)
  · intro hall seen frame hseen
    exact (acksWell_iff (lived_sound env conMagic seen)).mpr (hall seen frame hseen)

/-- A new link that receives data packet 1 sends the byte `0xff`. -/
theorem acknowledges_nothing : ¬ ∀ (env : Env) (conMagic : ℤ) (events : List LifeEvent)
    (frame : List UInt8), (lived env conMagic events).AcksWell env frame := by
  intro hall
  have hwell := hall stillEnv 0 [] [0x31, 5]
  rw [acksWell_iff (lived_sound stillEnv 0 [])] at hwell
  exact hwell ⟨by decide, by decide, rfl, by decide⟩

end Link

end Plptools
