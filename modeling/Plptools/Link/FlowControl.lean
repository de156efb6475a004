import Plptools.Link.Steps
import Plptools.Library.Run

/-!
# The order of the packets for one channel

A packet passed to `send` is numbered at once, waits for the window, or is held until its channel is
resumed. The packets of a channel keep their order through the three queues as long as the window
is not open while a packet of that channel waits, and no packet is sent back to wait behind one that
is held. Neither is ensured: a link confirmation widens the window and leaves `waitQueue` alone.
-/

namespace Plptools

open Plptools.Library

/-- The packets for a channel. -/
def onChannel (c : UInt8) (packets : List (List UInt8)) : List (List UInt8) :=
  packets.filter fun buf => remoteChan buf = c

/-- No packets. -/
@[simp] theorem onChannel_nil (c : UInt8) : onChannel c [] = [] := rfl

/-- Packets one behind the other. -/
@[simp] theorem onChannel_append (c : UInt8) (first rest : List (List UInt8)) :
    onChannel c (first ++ rest) = onChannel c first ++ onChannel c rest := List.filter_append ..

/-- The first packet. -/
theorem onChannel_cons (c : UInt8) (buf : List UInt8) (rest : List (List UInt8)) :
    onChannel c (buf :: rest) = onChannel c [buf] ++ onChannel c rest := by
  rw [← onChannel_append, List.singleton_append]

/-- A part of the packets. -/
theorem onChannel_sublist {c : UInt8} {first rest : List (List UInt8)} (h : first.Sublist rest) :
    (onChannel c first).Sublist (onChannel c rest) := h.filter _

/-- A packet for another channel. -/
theorem onChannel_singleton_of_ne {c : UInt8} {buf : List UInt8} (h : remoteChan buf ≠ c) :
    onChannel c [buf] = [] := by
  rw [onChannel, List.filter_singleton, decide_eq_false h]
  rfl

namespace Link

/-- What happens at one link: the NCP sends a packet or purges a channel, a frame arrives, or the
retransmit thread wakes up. -/
inductive Event where
  | send (buff : List UInt8)
  | receive (buff : List UInt8)
  | retransmit
  | purgeQueue (channel : ℕ)

/-- One event at a link. -/
def step (env : Env) (l : Link) : Event → Link
  | .send buff => l.send env buff
  | .receive buff => l.receive env buff
  | .retransmit => l.retransmit env
  | .purgeQueue channel => l.purgeQueue channel

/-- A packet for the channel that is transmitted now passes none that waits. -/
def Ready (c : UInt8) (l : Link) : Prop := l.WindowOpen → onChannel c l.waitQueue = []

instance (c : UInt8) (l : Link) : Decidable (l.Ready c) :=
  inferInstanceAs (Decidable (l.WindowOpen → _))

/-- The frame is the next data packet and resumes a channel. -/
def Resumes (l : Link) (seq : ℕ) (buff : List UInt8) : Prop :=
  l.nextSequence = seq ∧ IsFlowControl 2 buff

instance (l : Link) (seq : ℕ) (buff : List UInt8) : Decidable (l.Resumes seq buff) :=
  inferInstanceAs (Decidable (_ ∧ _))

/-- The frame acknowledges a packet, and is not the answer of a SIBO machine to the request. -/
def Acknowledges (l : Link) (seq : ℕ) : Prop :=
  (l.ackWaitQueue.any fun e => e.seq = seq) = true ∧ ¬(l.linkType = .LINK_TYPE_UNKNOWN ∧ seq = 0)

instance (l : Link) (seq : ℕ) : Decidable (l.Acknowledges seq) :=
  inferInstanceAs (Decidable (_ ∧ _))

/-- No packet that waits is for a channel with held packets. -/
def WaitsAlone (l : Link) : Prop :=
  ∀ buf ∈ l.waitQueue, l.xoff (remoteChan buf) = true → onChannel (remoteChan buf) l.holdQueue = []

instance (l : Link) : Decidable l.WaitsAlone := by
  unfold WaitsAlone
  infer_instance

/-- The event lets no packet pass an earlier one for its channel. A packet that is sent, and the
held packets of a channel that is resumed, find none of their channel waiting behind an open window;
and an acknowledgement finds none waiting for a channel that holds others. -/
def KeepsOrder (l : Link) : Event → Prop
  | .send buff => l.xoff (remoteChan buff) = false → l.Ready (remoteChan buff)
  | .receive buff =>
    match header buff with
    | (type, seq, buff) =>
      (type = 0x30 → l.Resumes seq buff → onChannel (buff.getD 1 0) l.holdQueue ≠ [] →
        l.Ready (buff.getD 1 0)) ∧
      (type = 0x00 → l.Acknowledges seq → l.WaitsAlone)
  | .retransmit => True
  | .purgeQueue _ => True

instance (l : Link) : ∀ e, Decidable (l.KeepsOrder e)
  | .send buff => inferInstanceAs (Decidable (l.xoff (remoteChan buff) = false → _))
  | .receive buff => by
    unfold KeepsOrder
    infer_instance
  | .retransmit => isTrue trivial
  | .purgeQueue _ => isTrue trivial

/-- Behind the numbered packets of a channel come those that wait, those that are held, and those
still to be transmitted, in the order of their submission; only a stopped channel holds packets. -/
structure Fifo (l : Link) (rest : List (List UInt8)) : Prop where
  order : ∀ c, (onChannel c (l.numbered ++ l.waitQueue ++ l.holdQueue ++ rest)).Sublist
    (onChannel c l.submitted)
  released : ∀ c, l.xoff c = false → onChannel c l.holdQueue = []

/-- Packets may be dropped. -/
theorem Fifo.mono {l m : Link} {rest : List (List UInt8)} (h : l.Fifo rest)
    (hsubmitted : m.submitted = l.submitted) (hxoff : m.xoff = l.xoff)
    (hnumbered : m.numbered = l.numbered) (hwait : m.waitQueue = l.waitQueue)
    (hhold : m.holdQueue.Sublist l.holdQueue) : m.Fifo rest := by
  constructor
  · intro c
    rw [hsubmitted, hnumbered, hwait]
    refine (onChannel_sublist ?_).trans (h.order c)
    exact ((List.Sublist.refl _).append hhold).append (List.Sublist.refl _)
  · intro c hc
    rw [hxoff] at hc
    exact List.sublist_nil.mp (h.released c hc ▸ onChannel_sublist hhold)

/-- What the order of the packets depends on. -/
def queues (l : Link) :
    List (List UInt8) × (UInt8 → Bool) × List (List UInt8) × List (List UInt8) × List (List UInt8) :=
  (l.submitted, l.xoff, l.numbered, l.waitQueue, l.holdQueue)

/-- The order is that of the queues. -/
theorem Fifo.congr {l m : Link} {rest : List (List UInt8)} (h : l.Fifo rest)
    (hqueues : m.queues = l.queues) : m.Fifo rest := by
  simp only [queues, Prod.mk.injEq] at hqueues
  obtain ⟨hsubmitted, hxoff, hnumbered, hwait, hhold⟩ := hqueues
  exact h.mono hsubmitted hxoff hnumbered hwait (hhold ▸ List.Sublist.refl _)

/-- An acknowledgement leaves the queues. -/
theorem queues_sendAck (env : Env) (seq : ℤ) (l : Link) : (l.sendAck env seq).queues = l.queues := by
  rcases sendAck_cases env seq l with h | h <;> rw [h] <;> rfl

/-- A control frame leaves the queues. -/
theorem queues_sendControl (env : Env) (data : List UInt8) (l : Link) :
    (l.sendControl env data).queues = l.queues := by
  rcases sendControl_cases env data l with ⟨-, h⟩ | ⟨-, h⟩ <;> rw [h] <;> rfl

/-- A packet that is transmitted keeps its place. -/
theorem Fifo.transmit {env : Env} {buf : List UInt8} {rest : List (List UInt8)} {l : Link}
    (h : l.Fifo (buf :: rest)) (hready : l.xoff (remoteChan buf) = false → l.Ready (remoteChan buf)) :
    (l.transmit env buf).Fifo rest := by
  have horder := fun c => h.order c
  simp only [onChannel_append, onChannel_cons _ buf rest, List.append_assoc] at horder
  -- what is held is for other channels, unless that of the packet is stopped
  have hpass : ∀ {others : List (List UInt8)}, onChannel (remoteChan buf) others = [] → ∀ c,
      onChannel c [buf] ++ onChannel c others = onChannel c others ++ onChannel c [buf] := by
    intro others hothers c
    by_cases hc : remoteChan buf = c
    · rw [← hc, hothers, List.append_nil, List.nil_append]
    · rw [onChannel_singleton_of_ne hc, List.append_nil, List.nil_append]
  rcases transmit_cases env buf l with ⟨-, heq⟩ | ⟨hxoff, -, heq⟩ | ⟨hxoff, -, -, heq⟩ |
    ⟨hxoff, -, hopen, heq⟩
  · -- dropped
    rw [heq]
    refine ⟨fun c => (onChannel_sublist ?_).trans (h.order c), h.released⟩
    exact (List.Sublist.refl _).append (List.sublist_cons_self buf rest)
  · -- held
    rw [heq]
    constructor
    · intro c
      change (onChannel c (l.numbered ++ l.waitQueue ++ (l.holdQueue ++ [buf]) ++ rest)).Sublist
        (onChannel c l.submitted)
      simpa only [onChannel_append, List.append_assoc] using horder c
    · intro c hc
      have hne : remoteChan buf ≠ c := by
        rintro rfl
        exact absurd (hxoff.symm.trans hc) (by decide)
      change onChannel c (l.holdQueue ++ [buf]) = []
      rw [onChannel_append, h.released c hc, onChannel_singleton_of_ne hne]
      rfl
  · -- made to wait
    rw [heq]
    refine ⟨fun c => ?_, h.released⟩
    change (onChannel c (l.numbered ++ (l.waitQueue ++ [buf]) ++ l.holdQueue ++ rest)).Sublist _
    simp only [onChannel_append, List.append_assoc]
    rw [← List.append_assoc (onChannel c [buf]), hpass (h.released _ hxoff) c, List.append_assoc]
    exact horder c
  · -- numbered
    rw [heq]
    refine ⟨fun c => ?_, h.released⟩
    change (onChannel c (l.numbered ++ [buf] ++ l.waitQueue ++ l.holdQueue ++ rest)).Sublist _
    simp only [onChannel_append, List.append_assoc]
    rw [← List.append_assoc (onChannel c [buf]), hpass (hready hxoff hopen) c, List.append_assoc,
      ← List.append_assoc (onChannel c [buf]), hpass (h.released _ hxoff) c, List.append_assoc]
    exact horder c

/-- Transmitting a packet makes none wait behind an open window. -/
theorem Ready.transmit {env : Env} {c : UInt8} {l : Link} (h : l.Ready c) (buf : List UInt8) :
    (l.transmit env buf).Ready c := by
  rcases transmit_cases env buf l with ⟨-, heq⟩ | ⟨-, -, heq⟩ | ⟨-, -, hfull, heq⟩ |
    ⟨-, -, hopen, heq⟩
  · exact heq ▸ h
  · exact heq ▸ h
  · exact heq ▸ fun hopen => absurd hopen hfull
  · exact heq ▸ fun _ => h hopen

/-- Packets that are transmitted in turn keep their order. -/
theorem Fifo.transmitAll {env : Env} {rest : List (List UInt8)} {l : Link} (h : l.Fifo rest)
    (hready : ∀ buf ∈ rest, l.xoff (remoteChan buf) = false → l.Ready (remoteChan buf)) :
    (transmitAll env rest l).Fifo [] := by
  induction rest generalizing l with
  | nil => exact h
  | cons buf rest ih =>
    apply ih (h.transmit (hready buf List.mem_cons_self))
    intro other hother hxoff
    rw [(sameReceived_transmit env buf l).xoff] at hxoff
    exact (hready other (List.mem_cons_of_mem _ hother) hxoff).transmit buf

/-- Resuming a channel of which no packet waits behind an open window. -/
theorem Fifo.transmitHoldQueue {env : Env} {channel : UInt8} {l : Link} (h : l.Fifo [])
    (hready : onChannel channel l.holdQueue ≠ [] → l.Ready channel) :
    (Link.transmitHoldQueue env channel
      { l with xoff := Function.update l.xoff channel false }).Fifo [] := by
  apply Fifo.transmitAll
  · constructor
    · intro c
      have horder := h.order c
      change (onChannel c (l.numbered ++ l.waitQueue ++
        l.holdQueue.filter (fun buf => remoteChan buf ≠ channel) ++
          onChannel channel l.holdQueue)).Sublist (onChannel c l.submitted)
      rw [List.append_nil, onChannel_append] at horder
      rw [List.append_assoc, onChannel_append]
      refine List.Sublist.trans (List.Sublist.append (List.Sublist.refl _) ?_) horder
      rw [onChannel_append]
      by_cases hc : c = channel
      · have hkept : onChannel c (l.holdQueue.filter fun buf => remoteChan buf ≠ channel) = [] := by
          simp [onChannel, List.filter_filter, hc]
        rw [hkept, List.nil_append]
        exact onChannel_sublist List.filter_sublist
      · have hmoved : onChannel c (onChannel channel l.holdQueue) = [] := by
          rw [onChannel, List.filter_eq_nil_iff]
          intro buf hbuf
          have : remoteChan buf = channel := by simpa using (List.mem_filter.mp hbuf).2
          simp [this, Ne.symm hc]
        rw [hmoved, List.append_nil]
        exact onChannel_sublist List.filter_sublist
    · intro c hc
      change onChannel c (l.holdQueue.filter fun buf => remoteChan buf ≠ channel) = []
      by_cases heq : c = channel
      · simp [onChannel, List.filter_filter, heq]
      · have hempty := h.released c ((Function.update_of_ne heq false l.xoff).symm.trans hc)
        exact List.sublist_nil.mp (hempty ▸ onChannel_sublist List.filter_sublist)
  · intro buf hbuf _
    have hchan : remoteChan buf = channel := by simpa using (List.mem_filter.mp hbuf).2
    rw [hchan]
    exact hready (List.ne_nil_of_mem hbuf)

/-- Draining a queue whose packets are not for a channel with held packets. -/
theorem Fifo.transmitWaitQueue {env : Env} {l : Link} (h : l.Fifo []) (halone : l.WaitsAlone) :
    (l.transmitWaitQueue env).Fifo [] := by
  apply Fifo.transmitAll
  · refine ⟨fun c => ?_, h.released⟩
    have horder := h.order c
    change (onChannel c (l.numbered ++ [] ++ l.holdQueue ++ l.waitQueue)).Sublist _
    have hcomm : onChannel c l.holdQueue ++ onChannel c l.waitQueue =
        onChannel c l.waitQueue ++ onChannel c l.holdQueue := by
      by_cases hhold : onChannel c l.holdQueue = []
      · rw [hhold, List.append_nil, List.nil_append]
      · have hwait : onChannel c l.waitQueue = [] := by
          rw [onChannel, List.filter_eq_nil_iff]
          intro buf hbuf
          simp only [decide_eq_true_eq]
          rintro rfl
          apply hhold
          by_cases hxoff : l.xoff (remoteChan buf) = true
          · exact halone buf hbuf hxoff
          · exact h.released _ (by simpa using hxoff)
        rw [hwait, List.append_nil, List.nil_append]
    simp only [onChannel_append, List.append_nil, List.append_assoc] at horder ⊢
    rw [hcomm]
    exact horder
  · exact fun buf _ _ _ => rfl

/-- A data packet, which may stop or resume a channel. -/
theorem Fifo.receiveData {env : Env} {seq : ℕ} {buff : List UInt8} {l : Link} (h : l.Fifo [])
    (hready : l.Resumes seq buff → onChannel (buff.getD 1 0) l.holdQueue ≠ [] →
      l.Ready (buff.getD 1 0)) : (l.receiveData env seq buff).Fifo [] := by
  have hqueues : ((l.accept seq buff).sendAck env seq).queues = l.queues := queues_sendAck env _ _
  have haccept : ((l.accept seq buff).sendAck env seq).Fifo [] := h.congr hqueues
  rcases receiveData_cases env seq buff l with ⟨-, heq⟩ | ⟨-, -, heq⟩ | ⟨hnext, hflow, heq⟩ |
    ⟨-, -, -, heq⟩ <;> rw [heq]
  · exact h.congr (queues_sendAck env _ l)
  · refine ⟨haccept.order, fun c hc => ?_⟩
    apply haccept.released
    by_cases hchan : c = buff.getD 1 0
    · rw [hchan] at hc
      exact absurd ((Function.update_self _ _ _).symm.trans hc) (by decide)
    · exact (Function.update_of_ne hchan true _).symm.trans hc
  · apply haccept.transmitHoldQueue
    simp only [queues, Prod.mk.injEq] at hqueues
    rw [hqueues.2.2.2.2]
    intro hheld
    have hopen := hready ⟨hnext, hflow⟩ hheld
    rcases sendAck_cases env seq (l.accept seq buff) with h | h <;> rw [h] <;> exact hopen
  · exact haccept.congr rfl

/-- An acknowledgement. -/
theorem Fifo.receiveAck {env : Env} {seq : ℕ} {l : Link} (h : l.Fifo [])
    (halone : l.Acknowledges seq → l.WaitsAlone) : (l.receiveAck env seq).Fifo [] := by
  rcases receiveAck_cases env seq l with ⟨e, before, after, hsplit, -, hseq, heq⟩ | ⟨-, heq⟩
  · rw [heq]
    unfold matched
    dsimp only
    split
    · refine Fifo.transmitWaitQueue ?_ fun buf _ _ => rfl
      exact h.mono rfl rfl rfl rfl (List.nil_sublist _)
    · next hsibo =>
      refine Fifo.transmitWaitQueue (h.congr rfl) (halone ⟨?_, hsibo⟩)
      rw [hsplit]
      simp [hseq]
  · exact heq ▸ h.congr rfl

/-- A link request or confirmation. -/
theorem Fifo.receiveReq {env : Env} {seq : ℕ} {l : Link} (h : l.Fifo []) :
    (l.receiveReq env seq).Fifo [] := by
  unfold Link.receiveReq
  split
  · exact h.congr (queues_sendAck env 0 _)
  dsimp only
  split
  · exact h.congr (queues_sendControl env _ _)
  · refine Fifo.congr ?_ (queues_sendAck env 0 _)
    exact h.mono rfl rfl rfl rfl (List.nil_sublist _)

/-- An event that lets no packet pass another keeps the order. -/
theorem step_fifo (env : Env) (l : Link) (e : Event) (h : l.Fifo []) (hkeeps : l.KeepsOrder e) :
    (l.step env e).Fifo [] := by
  cases e with
  | send buff =>
    change (l.send env buff).Fifo []
    unfold Link.send
    dsimp only
    have hsent : Fifo { l with submitted := l.submitted ++ [buff] } [buff] := by
      refine ⟨fun c => ?_, h.released⟩
      have horder := h.order c
      change (onChannel c (l.numbered ++ l.waitQueue ++ l.holdQueue ++ [buff])).Sublist
        (onChannel c (l.submitted ++ [buff]))
      rw [List.append_nil] at horder
      rw [onChannel_append, onChannel_append c l.submitted]
      exact horder.append (List.Sublist.refl _)
    split
    · refine ⟨fun c => ?_, h.released⟩
      refine (onChannel_sublist ?_).trans (hsent.order c)
      exact (List.Sublist.refl _).append (List.nil_sublist _)
    · exact hsent.transmit hkeeps
  | receive buff =>
    change (l.receive env buff).Fifo []
    obtain ⟨⟨type, seq, content⟩, hparsed⟩ : ∃ parsed, header buff = parsed := ⟨_, rfl⟩
    simp only [KeepsOrder, hparsed] at hkeeps
    simp only [Link.receive, hparsed]
    by_cases hdata : type = 0x30
    · rw [if_pos hdata]
      exact h.receiveData (hkeeps.1 hdata)
    rw [if_neg hdata]
    by_cases hack : type = 0x00
    · rw [if_pos hack]
      exact h.receiveAck (hkeeps.2 hack)
    rw [if_neg hack]
    split
    · exact h.receiveReq
    split
    · exact h.congr rfl
    · exact h
  | retransmit =>
    change (l.retransmit env).Fifo []
    rcases retransmit_cases env l with ⟨-, heq⟩ | ⟨-, heq⟩
    · exact heq ▸ h.mono rfl rfl rfl rfl (List.nil_sublist _)
    · exact heq ▸ h.congr rfl
  | purgeQueue channel => exact h.mono rfl rfl rfl rfl List.filter_sublist

/-- In a run of a new link in which no packet is let past an earlier one, the packets of each
channel are numbered in the order of their submission, and those that wait or are held come behind
them in that order. -/
theorem numbered_in_order (env : Env) (conMagic : ℤ) {events : List Event}
    (hkeeps : Admits (step env) KeepsOrder (construct env conMagic) events) (c : UInt8) :
    let l := runFrom (step env) (construct env conMagic) events
    (onChannel c l.numbered ++ onChannel c l.waitQueue ++ onChannel c l.holdQueue).Sublist
      (onChannel c l.submitted) := by
  have hstart : (construct env conMagic).Fifo [] :=
    Fifo.congr ⟨fun _ => List.Sublist.refl _, fun _ _ => rfl⟩ (queues_sendControl env [0x21] _)
  have horder := (hkeeps.invariant (step_fifo env) hstart).order c
  simpa only [onChannel_append, onChannel_nil, List.append_nil] using horder

/-- A packet that waits for the answer to the link request is numbered before the next one if that
is sent after the acknowledgement of a SIBO machine. -/
theorem numbered_in_order_sibo :
    let l := runFrom (step stillEnv) (construct stillEnv 0)
      [.send [5, 1], .receive [0x00], .send [5, 2]]
    (onChannel 5 l.numbered ++ onChannel 5 l.waitQueue ++ onChannel 5 l.holdQueue).Sublist
      (onChannel 5 l.submitted) :=
  numbered_in_order stillEnv 0 (by decide +kernel) 5

/-- A packet that waits for the answer to the link request is passed by the next one if an EPOC
machine confirms the link in between. -/
theorem numbered_out_of_order :
    let l := runFrom (step stillEnv) (construct stillEnv 0)
      [.send [5, 1], .receive [0x24, 0, 0, 0, 0], .send [5, 2], .receive [0x01]]
    onChannel 5 l.submitted = [[5, 1], [5, 2]] ∧ onChannel 5 l.numbered = [[5, 2], [5, 1]] ∧
      l.failed = false := by
  decide +kernel

end Link

end Plptools
