import Plptools.Link.Running
import Plptools.Library.SlidingWindow

/-!
# The sending side of an established link

The packets that a link has numbered, the elements that wait for an acknowledgement and the frames on
the way form a sliding window. Sending, sending again, giving up and acknowledging are its moves. The
invariant of the window survives as long as no number comes up again while a packet with it is kept.
-/

namespace Plptools

open Plptools.Library

/-- The frame carries the packet that was numbered as the `i`-th, where the numbers start at `t`. -/
def Carries (N t : ℕ) (numbered : List (List UInt8)) (i : ℕ) (bytes : List UInt8) : Prop :=
  ∃ buf, numbered[i]? = some buf ∧ bytes = seqBytes 0x30 ((t + i) % N : ℕ) ++ buf

/-- More packets may be numbered. -/
theorem Carries.mono {N t i : ℕ} {numbered numbered' : List (List UInt8)} {bytes : List UInt8}
    (h : Carries N t numbered i bytes) (hpart : numbered <+: numbered') : Carries N t numbered' i bytes := by
  obtain ⟨buf, hbuf, hbytes⟩ := h
  obtain ⟨rest, rfl⟩ := hpart
  refine ⟨buf, ?_, hbytes⟩
  rw [List.getElem?_append_left (List.getElem?_eq_some_iff.mp hbuf).1]
  exact hbuf

namespace Link

/-- The window of a link whose peer has accepted `expected` packets and has been heard to have
accepted `acked`, with the frames on the way to the peer and the acknowledgements on the way back. -/
def window (expected acked : ℕ) (wire : List Packet) (acks : List ℕ) (l : Link) : Window where
  next := l.numbered.length
  unacked := l.ackWaitQueue.map (·.index)
  expected := expected
  acked := acked
  data := dataIndices (wire ++ l.sent)
  acks := acks
  closed := l.failed

/-- A link that numbers its packets from `t` on, modulo `N`, and the packets that are kept or on the
way to its peer. -/
structure Sending (W N t expected acked : ℕ) (wire : List Packet) (acks : List ℕ) (l : Link) : Prop where
  tx : l.txSequence = (t + l.numbered.length) % N
  queue : ∀ e ∈ l.ackWaitQueue, e.seq = (t + e.index) % N ∧ Carries N t l.numbered e.index e.data
  frames : ∀ f ∈ wire ++ l.sent, IsData f.bytes → Carries N t l.numbered f.index f.bytes
  window : (l.window expected acked wire acks).Inv W N

/-- The sequence numbers of the packets that are kept. -/
def keptNumbers (l : Link) : List ℕ := l.ackWaitQueue.map (·.seq)

variable {W N t expected acked : ℕ} {wire : List Packet} {acks : List ℕ} {env : Env} {l : Link}

/-- Nothing but acknowledgements is sent, and the link may fail. -/
theorem Sending.sendAcks (h : l.Sending W N t expected acked wire acks) {m : Link} {replies : List Packet}
    (htx : m.txSequence = l.txSequence) (hqueue : m.ackWaitQueue = l.ackWaitQueue)
    (hnumbered : m.numbered = l.numbered) (hsent : m.sent = l.sent ++ replies)
    (hreplies : ∀ f ∈ replies, IsAck f.bytes) (hfailed : m.failed = false → l.failed = false) :
    m.Sending W N t expected acked wire acks := by
  have hdata : dataIndices (wire ++ m.sent) = dataIndices (wire ++ l.sent) := by
    rw [hsent, ← List.append_assoc, dataIndices_append, dataIndices_of_isAck hreplies, List.append_nil]
  refine ⟨by rw [htx, hnumbered]; exact h.tx, ?_, ?_, ?_⟩
  · rw [hqueue, hnumbered]
    exact h.queue
  · rw [hsent, hnumbered, ← List.append_assoc, List.forall_mem_append]
    exact ⟨h.frames, fun f hf hisdata => absurd (hreplies f hf) hisdata.not_isAck⟩
  · have hwindow := h.window.lose (List.Sublist.refl _) (List.Sublist.refl _) hfailed
    rw [Link.window] at hwindow ⊢
    rw [hdata, hqueue, hnumbered]
    exact hwindow

/-- The sending side does not depend on anything but the numbers, the elements that wait for an
acknowledgement, the frames sent, and whether the link has failed. -/
theorem Sending.congr (h : l.Sending W N t expected acked wire acks) {m : Link}
    (htx : m.txSequence = l.txSequence) (hqueue : m.ackWaitQueue = l.ackWaitQueue)
    (hnumbered : m.numbered = l.numbered) (hsent : m.sent = l.sent)
    (hfailed : m.failed = false → l.failed = false) : m.Sending W N t expected acked wire acks := by
  have hnone : m.sent = l.sent ++ [] := by rw [hsent, List.append_nil]
  exact h.sendAcks htx hqueue hnumbered hnone (List.forall_mem_nil _) hfailed

/-- A link that has not failed after polling the line had not failed before. -/
theorem failed_of_hasFailed (h : (l.hasFailed env).failed = false) : l.failed = false :=
  (Bool.or_eq_false_iff.mp h).1

/-- If the next number is not in use, then no packet is kept that is a round older. -/
theorem Sending.lt_of_free (h : l.Sending W N t expected acked wire acks)
    (hfree : l.txSequence ∉ l.keptNumbers) {e : AckWaitQueueElement} (he : e ∈ l.ackWaitQueue) :
    l.numbered.length < e.index + N := by
  refine lt_of_le_of_ne (h.window.fresh e.index (List.mem_map_of_mem he)) fun heq => hfree ?_
  change l.numbered.length = e.index + N at heq
  have hseq : l.txSequence = e.seq := by
    rw [h.tx, heq, ← Nat.add_assoc, Nat.add_mod_right, (h.queue e he).1]
  exact hseq ▸ List.mem_map_of_mem he

/-- No packet on the way has the next number. -/
theorem Sending.indices_lt_of_free (h : l.Sending W N t expected acked wire acks)
    (hfree : l.txSequence ∉ l.keptNumbers) :
    ∀ q ∈ (l.window expected acked wire acks).unacked, l.numbered.length < q + N := by
  intro q hq
  obtain ⟨e, he, rfl⟩ := List.mem_map.mp hq
  exact h.lt_of_free hfree he

/-- A packet is numbered while there is room in the window. -/
theorem Sending.number (hp : Protocol W N) (hrun : l.Running W N)
    (h : l.Sending W N t expected acked wire acks) (hfree : l.txSequence ∉ l.keptNumbers)
    (hopen : l.failed = false) (hroom : l.ackWaitQueue.length < W) {buf : List UInt8} (hbuf : buf ≠ []) :
    (l.number env buf).Sending W N t expected acked wire acks := by
  rw [number_of_ne_nil hbuf]
  have hgrows : l.numbered <+: l.numbered ++ [buf] := List.prefix_append _ _
  have hcarries : Carries N t (l.numbered ++ [buf]) l.numbered.length (seqBytes 0x30 l.txSequence ++ buf) :=
    ⟨buf, List.getElem?_concat_length, by rw [h.tx]⟩
  have hdata : IsData (seqBytes 0x30 l.txSequence ++ buf) := isData_seqBytes (hrun.tx.trans_le hp.le) buf
  refine ⟨?_, ?_, ?_, ?_⟩
  · change (l.txSequence + 1) &&& l.seqMask = (t + (l.numbered ++ [buf]).length) % N
    rw [hp.mask hrun.seqMask, h.tx, Nat.mod_add_mod, List.length_append, List.length_singleton, Nat.add_assoc]
  · simp only [List.forall_mem_append, List.forall_mem_singleton]
    exact ⟨fun e he => ⟨(h.queue e he).1, (h.queue e he).2.mono hgrows⟩, h.tx, hcarries⟩
  · change ∀ f ∈ wire ++ (l.sent ++ [_]), _
    rw [← List.append_assoc, List.forall_mem_append, List.forall_mem_singleton]
    exact ⟨fun f hf hisdata => (h.frames f hf hisdata).mono hgrows, fun _ => hcarries⟩
  · have hindices : dataIndices [⟨seqBytes 0x30 l.txSequence ++ buf, l.numbered.length⟩] = [l.numbered.length] :=
      dataIndices_of_isData (List.forall_mem_singleton.mpr hdata)
    have hwindow := h.window.send hp.window hopen (by simpa [Link.window] using hroom)
      (h.indices_lt_of_free hfree)
    simp only [Link.window, List.map_append, List.length_append, ← List.append_assoc, dataIndices_append,
      hindices] at hwindow ⊢
    exact hwindow

/-- A packet is transmitted. If it is numbered, then with a number that is not in use. -/
theorem Sending.transmit (hp : Protocol W N) (hrun : l.Running W N)
    (h : l.Sending W N t expected acked wire acks) {buf : List UInt8} (hbuf : buf ≠ [])
    (hnodup : (l.transmit env buf).keptNumbers.Nodup) :
    (l.transmit env buf).Sending W N t expected acked wire acks := by
  rcases transmit_cases env buf l with ⟨-, heq⟩ | ⟨-, -, heq⟩ | ⟨-, -, -, heq⟩ | ⟨-, hopen, hroom, heq⟩ <;>
    rw [heq] at hnodup ⊢
  · exact h.congr rfl rfl rfl rfl failed_of_hasFailed
  · exact h.congr rfl rfl rfl rfl failed_of_hasFailed
  · exact h.congr rfl rfl rfl rfl failed_of_hasFailed
  · have hpolled : (l.hasFailed env).Running W N := { hrun with }
    have hsending : (l.hasFailed env).Sending W N t expected acked wire acks :=
      h.congr rfl rfl rfl rfl failed_of_hasFailed
    rw [WindowOpen, hrun.maxOutstanding] at hroom
    refine hsending.number hp hpolled (fun hmem => ?_) hopen hroom hbuf
    rw [number_of_ne_nil hbuf, keptNumbers, List.map_append, List.nodup_append] at hnodup
    exact hnodup.2.2 _ hmem _ (List.mem_singleton.mpr rfl) rfl

/-- Transmitting only adds to the packets that are kept. -/
theorem keptNumbers_transmit (env : Env) (buf : List UInt8) (l : Link) :
    l.keptNumbers <+: (l.transmit env buf).keptNumbers := by
  rcases transmit_cases env buf l with ⟨-, h⟩ | ⟨-, -, h⟩ | ⟨-, -, -, h⟩ | ⟨-, -, -, h⟩ <;> rw [h]
  · exact List.prefix_rfl
  · exact List.prefix_rfl
  · exact List.prefix_rfl
  · exact (List.prefix_append _ _).map _

/-- Transmitting packets adds numbers. -/
theorem keptNumbers_transmitAll (env : Env) (packets : List (List UInt8)) (l : Link) :
    l.keptNumbers <+: (transmitAll env packets l).keptNumbers := by
  induction packets generalizing l with
  | nil => exact List.prefix_rfl
  | cons buf rest ih => exact (keptNumbers_transmit env buf l).trans (ih _)

/-- Some packets are transmitted in turn. -/
theorem Sending.transmitAll (hp : Protocol W N) {packets : List (List UInt8)} (hrun : l.Running W N)
    (h : l.Sending W N t expected acked wire acks) (hpackets : ∀ buf ∈ packets, buf ≠ [])
    (hnodup : (transmitAll env packets l).keptNumbers.Nodup) :
    (transmitAll env packets l).Sending W N t expected acked wire acks := by
  induction packets generalizing l with
  | nil => exact h
  | cons buf rest ih =>
    have hbuf := hpackets buf List.mem_cons_self
    have hfirst : (l.transmit env buf).keptNumbers.Nodup :=
      hnodup.sublist (keptNumbers_transmitAll env rest _).sublist
    exact ih (hrun.transmit hp hbuf).1 (h.transmit hp hrun hbuf hfirst)
      (fun other hother => hpackets other (List.mem_cons_of_mem _ hother)) hnodup

/-- Packets that wait for an acknowledgement and are sent again carry what they carried before. -/
theorem Sending.carries_of_mem (h : l.Sending W N t expected acked wire acks) {e : AckWaitQueueElement}
    (he : e ∈ l.ackWaitQueue) : Carries N t l.numbered e.index e.data := (h.queue e he).2

/-- Some of the packets that wait for an acknowledgement are sent again. -/
theorem Sending.resendAll (hrun : l.Running W N) (h : l.Sending W N t expected acked wire acks)
    (hfree : l.txSequence ∉ l.keptNumbers) {frames : List Packet}
    (hframes : ∀ f ∈ frames, ∃ e ∈ l.ackWaitQueue, f = ⟨e.data, e.index⟩) :
    Sending W N t expected acked wire acks { l with sent := l.sent ++ frames } := by
  have hdata : ∀ f ∈ frames, IsData f.bytes := by
    intro f hf
    obtain ⟨e, he, rfl⟩ := hframes f hf
    exact hrun.queue e he
  have hmem : ∀ q ∈ frames.map (·.index), q ∈ (l.window expected acked wire acks).unacked := by
    intro q hq
    obtain ⟨f, hf, rfl⟩ := List.mem_map.mp hq
    obtain ⟨e, he, rfl⟩ := hframes f hf
    exact List.mem_map_of_mem he
  refine ⟨h.tx, h.queue, ?_, ?_⟩
  · change ∀ f ∈ wire ++ (l.sent ++ frames), _
    rw [← List.append_assoc, List.forall_mem_append]
    refine ⟨h.frames, fun f hf _ => ?_⟩
    obtain ⟨e, he, rfl⟩ := hframes f hf
    exact h.carries_of_mem he
  · have hwindow := h.window.resendAll hmem (h.indices_lt_of_free hfree)
    simp only [Link.window, ← List.append_assoc, dataIndices_append, dataIndices_of_isData hdata] at hwindow ⊢
    exact hwindow

/-- The elements that wait for an acknowledgement get other times and counts; if the link fails, some
of them may be given up. -/
theorem Sending.requeue (h : l.Sending W N t expected acked wire acks) {queue : List AckWaitQueueElement}
    {failed : Bool} (hkept : (queue.map packet).Sublist (l.ackWaitQueue.map packet))
    (hall : failed = false → l.failed = false ∧ queue.map packet = l.ackWaitQueue.map packet) :
    Sending W N t expected acked wire acks { l with ackWaitQueue := queue, failed := failed } := by
  have hindices : ∀ queue : List AckWaitQueueElement,
      queue.map (·.index) = (queue.map packet).map (·.2.2) := by simp [packet]
  refine ⟨h.tx, fun e' he' => ?_, h.frames, ?_⟩
  · obtain ⟨e, he, hpacket⟩ := List.mem_map.mp (hkept.subset (List.mem_map_of_mem he'))
    obtain ⟨hseq, hbytes, hindex⟩ := packet_inj hpacket
    rw [← hseq, ← hbytes, ← hindex]
    exact h.queue e he
  · have hwindow := h.window
    simp only [Link.window, hindices] at hwindow ⊢
    cases failed with
    | true => exact hwindow.close (hkept.map _)
    | false =>
      obtain ⟨hopen, hsame⟩ := hall rfl
      rw [hsame, ← hopen]
      exact hwindow

/-- The round of the retransmit thread. -/
theorem Sending.retransmit (hrun : l.Running W N) (h : l.Sending W N t expected acked wire acks)
    (hfree : l.txSequence ∉ l.keptNumbers) :
    (l.retransmit env).Sending W N t expected acked wire acks := by
  rcases retransmit_cases env l with ⟨hfailed, heq⟩ | ⟨hfailed, heq⟩ <;> rw [heq]
  · have hpurged : Sending W N t expected acked wire acks { l with ackWaitQueue := [], failed := true } :=
      h.requeue (List.nil_sublist _) (by simp)
    refine hpurged.congr rfl rfl rfl rfl fun hopen => ?_
    change (l.hasFailed env).failed = false at hopen
    rw [hfailed] at hopen
    cases hopen
  · have hframes : ∀ f ∈ (l.expiredRound env).2.1, ∃ e ∈ l.ackWaitQueue, f = ⟨e.data, e.index⟩ :=
      fun _ hf => retransmitLoop_sent hf
    have hresent := h.resendAll hrun hfree hframes
    have hkept : ((l.expiredRound env).1.map packet).Sublist (l.ackWaitQueue.map packet) :=
      retransmitLoop_kept _ _ _
    have hall : (l.expiredRound env).2.2 = false →
        l.failed = false ∧ (l.expiredRound env).1.map packet = l.ackWaitQueue.map packet :=
      fun hgaveup => ⟨failed_of_hasFailed hfailed, retransmitLoop_all_kept hgaveup⟩
    have hround := hresent.requeue hkept hall
    exact hround.congr rfl rfl rfl rfl id

/-- A packet that the NCP sends. -/
theorem Sending.send (hp : Protocol W N) (hrun : l.Running W N)
    (h : l.Sending W N t expected acked wire acks) {buff : List UInt8} (hbuff : buff ≠ [])
    (hnodup : (l.send env buff).keptNumbers.Nodup) :
    (l.send env buff).Sending W N t expected acked wire acks := by
  unfold Link.send at hnodup ⊢
  dsimp only at hnodup ⊢
  split at hnodup
  · next hlong =>
    rw [if_pos hlong]
    exact h.congr rfl rfl rfl rfl fun hfailed => by cases hfailed
  · next hlong =>
    rw [if_neg hlong]
    have hsubmitted : Running W N { l with submitted := l.submitted ++ [buff] } := { hrun with }
    have hsending : Sending W N t expected acked wire acks { l with submitted := l.submitted ++ [buff] } :=
      h.congr rfl rfl rfl rfl id
    exact hsending.transmit hp hsubmitted hbuff hnodup

/-- Acknowledging sends no data. -/
theorem Sending.sendAck (hp : Protocol W N) (h : l.Sending W N t expected acked wire acks) {seq : ℕ}
    (hseq : seq < N) : (l.sendAck env seq).Sending W N t expected acked wire acks := by
  rcases sendAck_cases env seq l with heq | heq <;> rw [heq]
  · exact h.congr rfl rfl rfl rfl failed_of_hasFailed
  · refine h.sendAcks rfl rfl rfl rfl ?_ failed_of_hasFailed
    exact List.forall_mem_singleton.mpr (isAck_seqBytes (hseq.trans_le hp.le))

/-- A data packet of the peer, which may release packets that were held. -/
theorem Sending.receiveData (hp : Protocol W N) (hrun : l.Running W N)
    (h : l.Sending W N t expected acked wire acks) (seq : ℕ) (buff : List UInt8)
    (hnodup : (l.receiveData env seq buff).keptNumbers.Nodup) :
    (l.receiveData env seq buff).Sending W N t expected acked wire acks := by
  obtain ⟨rx, hrx, hlt⟩ := hrun.rx
  rcases receiveData_cases env seq buff l with ⟨-, heq⟩ | ⟨hnext, -, heq⟩ | ⟨hnext, -, heq⟩ |
    ⟨hnext, -, -, heq⟩
  · rw [heq, hrx]
    exact h.sendAck hp hlt
  all_goals
    have hseq : seq < N := by
      rw [← hnext, hrun.nextSequence hp hrx]
      exact Nat.mod_lt _ hp.modulus_pos
    have haccept : (l.accept seq buff).Running W N := { hrun with rx := ⟨seq, rfl, hseq⟩ }
    have hsending : (l.accept seq buff).Sending W N t expected acked wire acks := h.congr rfl rfl rfl rfl id
    have hack : ((l.accept seq buff).sendAck env seq).Sending W N t expected acked wire acks :=
      hsending.sendAck hp hseq
    rw [heq] at hnodup ⊢
  · exact hack.congr rfl rfl rfl rfl id
  · have hrunning := (haccept.sendAck env hp hseq).1
    refine Sending.transmitAll hp ?_ ?_ ?_ hnodup
    · exact { hrunning with held := fun buf hbuf => hrunning.held buf (List.mem_of_mem_filter hbuf) }
    · exact hack.congr rfl rfl rfl rfl id
    · exact fun buf hbuf => hrunning.held buf (List.mem_of_mem_filter hbuf)
  · exact hack.congr rfl rfl rfl rfl id

/-- The number that acknowledges the first `a` packets: that of the last of them. -/
def ackSequence (N t a : ℕ) : ℕ := (t + a + (N - 1)) % N

/-- The number behind an acknowledged one. -/
theorem ackSequence_succ (hp : Protocol W N) (a : ℕ) : (ackSequence N t a + 1) % N = (t + a) % N := by
  have hpos := hp.modulus_pos
  rw [ackSequence, Nat.mod_add_mod, Nat.add_assoc, Nat.sub_add_cancel hpos, Nat.add_mod_right]

/-- The packet that an acknowledgement finds is the last of the packets it acknowledges. -/
theorem Sending.index_of_ack (hp : Protocol W N) (h : l.Sending W N t expected acked wire acks)
    {e : AckWaitQueueElement} (he : e ∈ l.ackWaitQueue) (hfresh : l.numbered.length < e.index + N) {a : ℕ}
    (hacked : acked ≤ a) (hle : a ≤ expected) (hseq : e.seq = ackSequence N t a) : e.index + 1 = a := by
  refine h.window.ack_eq hp.window (List.mem_map_of_mem he) hfresh hacked hle (t := t) ?_
  rw [← ackSequence_succ hp a, ← hseq, (h.queue e he).1, Nat.mod_add_mod, Nat.add_assoc]

/-- The packet that an acknowledgement hints at is the one behind those it acknowledges. -/
theorem Sending.index_of_hint (hp : Protocol W N) (h : l.Sending W N t expected acked wire acks)
    {e : AckWaitQueueElement} (he : e ∈ l.ackWaitQueue) (hfresh : l.numbered.length < e.index + N) {a : ℕ}
    (hacked : acked ≤ a) (hle : a ≤ expected) (hseq : e.seq = ackSequence N t a + 1) : e.index = a := by
  refine h.window.hint_eq hp.window (List.mem_map_of_mem he) hfresh hacked hle (t := t) ?_
  have hlt : e.seq < N := by
    rw [(h.queue e he).1]
    exact Nat.mod_lt _ hp.modulus_pos
  rw [← ackSequence_succ hp a, ← hseq, Nat.mod_eq_of_lt hlt, (h.queue e he).1]

/-- The indices of the packets that are kept increase. -/
theorem Sending.index_lt (h : l.Sending W N t expected acked wire acks) {e : AckWaitQueueElement}
    {before after : List AckWaitQueueElement} (hsplit : l.ackWaitQueue = before ++ e :: after) :
    (∀ b ∈ before, b.index < e.index) ∧ ∀ b ∈ after, e.index < b.index := by
  have hsorted : (l.ackWaitQueue.map (·.index)).Pairwise (· < ·) := h.window.sorted
  rw [hsplit, List.map_append, List.map_cons, List.pairwise_append, List.pairwise_cons] at hsorted
  obtain ⟨-, ⟨hafter, -⟩, hbefore⟩ := hsorted
  exact ⟨fun b hb => hbefore _ (List.mem_map_of_mem hb) _ List.mem_cons_self,
    fun b hb => hafter _ (List.mem_map_of_mem hb)⟩

/-- The elements of a split queue other than the one in the middle. -/
theorem Sending.others (h : l.Sending W N t expected acked wire acks) {e : AckWaitQueueElement}
    {before after : List AckWaitQueueElement} (hsplit : l.ackWaitQueue = before ++ e :: after) :
    (before ++ after).Sublist l.ackWaitQueue ∧ e.index ∉ (before ++ after).map (·.index) := by
  refine ⟨?_, fun hmem => ?_⟩
  · rw [hsplit]
    exact (List.sublist_cons_self e after).append_left before
  · obtain ⟨b, hb, heq⟩ := List.mem_map.mp hmem
    obtain ⟨hbefore, hafter⟩ := h.index_lt hsplit
    rcases List.mem_append.mp hb with hb | hb
    · exact absurd heq (hbefore b hb).ne
    · exact absurd heq (hafter b hb).ne'

/-- An acknowledgement has the last packet it acknowledges removed, with those that were sent before
that one. -/
theorem Sending.matched (hp : Protocol W N) (hrun : l.Running W N)
    (h : l.Sending W N t expected acked wire acks) (hfree : l.txSequence ∉ l.keptNumbers) {a : ℕ}
    (hacked : acked ≤ a) (hle : a ≤ expected) (hacks : ∀ b ∈ acks, a ≤ b) {e : AckWaitQueueElement}
    {before after : List AckWaitQueueElement} (hsplit : l.ackWaitQueue = before ++ e :: after)
    (hbefore : ∀ b ∈ before, b.seq ≠ ackSequence N t a) (hseq : e.seq = ackSequence N t a) :
    (l.matched (ackSequence N t a) e).Sending W N t expected a wire acks := by
  have he : e ∈ l.ackWaitQueue := by simp [hsplit]
  obtain ⟨hsub, hgone⟩ := h.others hsplit
  have hindex := h.index_of_ack hp he (h.lt_of_free hfree he) hacked hle hseq
  have hkept : ((before ++ after).filter fun d => !olderthan d.stamp e.stamp).Sublist (before ++ after) :=
    List.filter_sublist
  have hwindow := h.window.acknowledge hacked hle hacks ((hkept.trans hsub).map (·.index))
    (.inr ⟨e.index, List.mem_map_of_mem he, by omega, fun hmem => hgone ((hkept.map _).subset hmem)⟩)
  rw [matched_eq hrun.linkType hsplit hbefore hseq]
  exact ⟨h.tx, fun d hd => h.queue d ((hkept.trans hsub).subset hd), h.frames, hwindow⟩

/-- A packet that waits for an acknowledgement is sent again, at another time. -/
theorem Sending.resend (hrun : l.Running W N) (h : l.Sending W N t expected acked wire acks)
    (hfree : l.txSequence ∉ l.keptNumbers) {e : AckWaitQueueElement}
    {before after : List AckWaitQueueElement} (hsplit : l.ackWaitQueue = before ++ e :: after)
    (txcount : ℕ) (stamp : Timeval) : Sending W N t expected acked wire acks { l with
      ackWaitQueue := before ++ ⟨e.seq, txcount, stamp, e.data, e.index⟩ :: after
      sent := l.sent ++ [⟨e.data, e.index⟩] } := by
  have hpackets : (before ++ ⟨e.seq, txcount, stamp, e.data, e.index⟩ :: after).map packet =
      l.ackWaitQueue.map packet := by
    rw [hsplit, List.map_append, List.map_append]
    rfl
  have he : e ∈ l.ackWaitQueue := by simp [hsplit]
  have hresent := h.resendAll hrun hfree (List.forall_mem_singleton.mpr ⟨e, he, rfl⟩)
  exact hresent.requeue (hpackets ▸ List.Sublist.refl _) fun hopen => ⟨hopen, hpackets⟩

/-- An acknowledgement has the last packet it acknowledges removed, and the packets that wait are
transmitted; or it has the next packet sent again or given up. -/
theorem Sending.receiveAck (hp : Protocol W N) (hrun : l.Running W N)
    (h : l.Sending W N t expected acked wire acks)
    (hfree : l.txSequence ∉ l.keptNumbers) {a : ℕ} (hacked : acked ≤ a) (hle : a ≤ expected)
    (hacks : ∀ b ∈ acks, a ≤ b) (hnodup : (l.receiveAck env (ackSequence N t a)).keptNumbers.Nodup) :
    (l.receiveAck env (ackSequence N t a)).Sending W N t expected a wire acks := by
  have hheard : l.Sending W N t expected a wire acks :=
    ⟨h.tx, h.queue, h.frames, h.window.acknowledge hacked hle hacks (List.Sublist.refl _) (.inl rfl)⟩
  rcases receiveAck_cases env (ackSequence N t a) l with
    ⟨e, before, after, hsplit, hbefore, hseq, heq⟩ | ⟨-, heq⟩
  · have hrunning := (hrun.matched hsplit hbefore hseq).1
    have hsending := h.matched hp hrun hfree hacked hle hacks hsplit hbefore hseq
    rw [heq] at hnodup ⊢
    refine Sending.transmitAll hp ?_ ?_ hrunning.waiting hnodup
    · exact { hrunning with waiting := List.forall_mem_nil _ }
    · exact hsending.congr rfl rfl rfl rfl id
  · rw [heq]
    rcases resendLoop_cases (env.gettimeofday l.reads) (ackSequence N t a + 1) l.ackWaitQueue with
      hnext | ⟨before, e, after, hsplit, hseq, hgaveup | hagain⟩
    · rw [hnext, List.append_nil]
      exact hheard.congr rfl rfl rfl rfl id
    · have he : e ∈ l.ackWaitQueue := by simp [hsplit]
      obtain ⟨hsub, hgone⟩ := h.others hsplit
      have hindex := h.index_of_hint hp he (h.lt_of_free hfree he) hacked hle hseq
      rw [hgaveup, List.append_nil]
      exact ⟨h.tx, fun d hd => h.queue d (hsub.subset hd), h.frames,
        h.window.acknowledge hacked hle hacks (hsub.map (·.index))
          (.inr ⟨e.index, List.mem_map_of_mem he, hindex.le, hgone⟩)⟩
    · rw [hagain]
      exact (hheard.resend hrun hfree hsplit _ _).congr rfl rfl rfl rfl id

end Link

end Plptools
