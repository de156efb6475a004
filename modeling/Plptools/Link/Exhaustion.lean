import Plptools.Link.Session

/-!
# Packets that are given up

A packet that has been sent again as often as it may is dropped from `ackWaitQueue`, by the
retransmit thread or by an acknowledgement that matches no packet. The thread then marks the link as
failed, and it stays so until a reset or a new negotiation. The acknowledgement drops the packet
without a mark.
-/

namespace Plptools

open Plptools.Library

namespace Link

/-- The next call of `hasFailed` says that the link has failed. -/
def Marked (env : Env) (l : Link) : Prop := (l.hasFailed env).failed = true

instance (env : Env) (l : Link) : Decidable (l.Marked env) := inferInstanceAs (Decidable (_ = _))

/-- The event starts the link over or negotiates a new one. -/
def Renegotiates (l : Link) : LifeEvent → Prop
  | .event (.receive frame) => l.Establishes frame
  | .event _ => False
  | .reset => True

/-- The event drops an element that is not acknowledged because it has no tries left: it makes the
queue shorter, and it is the round of the retransmit thread over a link that works, or an
acknowledgement of a packet that is not in the queue. -/
def GivesUp (env : Env) (l : Link) : Event → Prop
  | .retransmit => ¬l.Marked env ∧ (l.retransmit env).ackWaitQueue.length < l.ackWaitQueue.length
  | .receive frame => IsAck frame ∧ (∀ e ∈ l.ackWaitQueue, e.seq ≠ (header frame).2.1) ∧
      (l.receive env frame).ackWaitQueue.length < l.ackWaitQueue.length
  | .send _ | .purgeQueue _ => False

/-- The frame acknowledges a packet that is not in the queue, and the next one has no tries left;
the link has not failed. -/
structure DropsSilently (env : Env) (l : Link) (frame : List UInt8) : Prop where
  unmarked : ¬l.Marked env
  ack : IsAck frame
  unmatched : ∀ e ∈ l.ackWaitQueue, e.seq ≠ (header frame).2.1
  exhausted : ∃ e, (l.ackWaitQueue.find? fun e => e.seq = (header frame).2.1 + 1) = some e ∧ e.txcount = 0

section Marks

variable {env : Env} {l m : Link}

/-- A link that has failed is marked. -/
theorem marked_of_failed (h : l.failed = true) : l.Marked env := by
  rw [Marked, Link.hasFailed, h, Bool.true_or]

/-- A state whose mark and line are the same. -/
theorem Marked.congr (h : l.Marked env) (hfailed : m.failed = l.failed) (hpolls : m.polls = l.polls) :
    m.Marked env := by
  rw [Marked, Link.hasFailed, hfailed, hpolls]
  exact h

/-- Transmitting leaves the mark. -/
theorem Marked.transmit (h : l.Marked env) (buf : List UInt8) : (l.transmit env buf).Marked env := by
  have hnot : (l.hasFailed env).failed ≠ false := by simp [show (l.hasFailed env).failed = true from h]
  rcases transmit_cases env buf l with ⟨hfailed, heq⟩ | ⟨-, hworks, -⟩ | ⟨-, hworks, -⟩ | ⟨-, hworks, -⟩
  · exact marked_of_failed (heq ▸ hfailed)
  · exact absurd hworks hnot
  · exact absurd hworks hnot
  · exact absurd hworks hnot

/-- Transmitting packets leaves the mark. -/
theorem Marked.transmitAll (h : l.Marked env) (packets : List (List UInt8)) :
    (transmitAll env packets l).Marked env := by
  induction packets generalizing l with
  | nil => exact h
  | cons buf rest ih => exact ih (h.transmit buf)

/-- Transmitting what was held leaves the mark. -/
theorem Marked.transmitHoldQueue (h : l.Marked env) (channel : UInt8) :
    (l.transmitHoldQueue env channel).Marked env := by
  apply Marked.transmitAll
  exact h.congr rfl rfl

/-- Transmitting what waited leaves the mark. -/
theorem Marked.transmitWaitQueue (h : l.Marked env) : (l.transmitWaitQueue env).Marked env := by
  apply Marked.transmitAll
  exact h.congr rfl rfl

/-- Of a link that works, only too long a packet makes a failed one. -/
theorem failed_send_iff (h : ¬l.Marked env) {buff : List UInt8} :
    (l.send env buff).failed = true ↔ 300 < buff.length := by
  unfold Link.send
  dsimp only
  split
  · next hlong => exact iff_of_true rfl hlong
  · next hshort =>
    refine iff_of_false ?_ hshort
    have hworks : (Link.hasFailed env { l with submitted := l.submitted ++ [buff] }).failed = false :=
      Bool.eq_false_iff.mpr h
    rcases transmit_cases env buff { l with submitted := l.submitted ++ [buff] } with ⟨hfailed, -⟩ |
      ⟨-, -, heq⟩ | ⟨-, -, -, heq⟩ | ⟨-, -, -, heq⟩
    · rw [hworks] at hfailed
      cases hfailed
    · rw [heq]
      exact Bool.eq_false_iff.mp hworks
    · rw [heq]
      exact Bool.eq_false_iff.mp hworks
    · rw [heq]
      exact Bool.eq_false_iff.mp hworks

/-- Sending an acknowledgement finds that the link has failed. -/
theorem Marked.sendAck (h : l.Marked env) (seq : ℤ) : (l.sendAck env seq).Marked env := by
  rcases sendAck_cases env seq l with heq | heq <;> rw [heq]
  · exact marked_of_failed h
  · exact marked_of_failed h

/-- Data leaves the mark. -/
theorem Marked.receiveData (h : l.Marked env) (seq : ℕ) (buff : List UInt8) :
    (l.receiveData env seq buff).Marked env := by
  have haccept : ((l.accept seq buff).sendAck env seq).Marked env := by
    apply Marked.sendAck
    exact h.congr rfl rfl
  rcases receiveData_cases env seq buff l with ⟨-, heq⟩ | ⟨-, -, heq⟩ | ⟨-, -, heq⟩ |
    ⟨-, -, -, heq⟩ <;> rw [heq]
  · exact h.sendAck _
  · exact haccept.congr rfl rfl
  · apply Marked.transmitHoldQueue
    exact haccept.congr rfl rfl
  · exact haccept.congr rfl rfl

/-- An acknowledgement that does not make the peer a SIBO machine leaves the mark. -/
theorem Marked.receiveAck (h : l.Marked env) {seq : ℕ}
    (hsibo : ¬(seq = 0 ∧ l.linkType = .LINK_TYPE_UNKNOWN ∧ ∃ e ∈ l.ackWaitQueue, e.seq = 0)) :
    (l.receiveAck env seq).Marked env := by
  rcases receiveAck_cases env seq l with ⟨e, before, after, hqueue, -, hseq, heq⟩ | ⟨-, heq⟩ <;> rw [heq]
  · apply Marked.transmitWaitQueue
    have hknown : ¬(l.linkType = .LINK_TYPE_UNKNOWN ∧ seq = 0) := by
      rintro ⟨hunknown, hzero⟩
      exact hsibo ⟨hzero, hunknown, e, by simp [hqueue], hseq.trans hzero⟩
    unfold matched
    dsimp only
    rw [if_neg hknown]
    exact h.congr rfl rfl
  · exact h.congr rfl rfl

/-- The mark of a link stays until the link is negotiated again. -/
theorem Marked.goesOn (h : l.Marked env) {e : LifeEvent} (hkeeps : ¬l.Renegotiates e) :
    (live env l e).Marked env := by
  cases e with
  | reset => exact absurd trivial hkeeps
  | event e =>
    cases e with
    | send buff =>
      change (l.send env buff).Marked env
      unfold Link.send
      dsimp only
      split
      · exact marked_of_failed rfl
      · apply Marked.transmit
        exact h.congr rfl rfl
    | receive frame =>
      have hreq : (header frame).1 ≠ 0x20 := fun htype => hkeeps (.inl htype)
      change (l.receive env frame).Marked env
      unfold Link.receive
      dsimp only
      split
      · exact h.receiveData _ _
      split
      · next hack =>
        apply h.receiveAck
        rintro ⟨hzero, hunknown, hfound⟩
        exact hkeeps (.inr ⟨hack, hzero, hunknown, hfound⟩)
      split
      · exact marked_of_failed rfl
      · exact h
    | retransmit =>
      change (l.retransmit env).Marked env
      rcases retransmit_cases env l with ⟨hfailed, heq⟩ | ⟨hworks, -⟩
      · exact marked_of_failed (heq ▸ hfailed)
      · rw [Marked, hworks] at h
        cases h
    | purgeQueue channel => exact h.congr rfl rfl

end Marks

/-- While no link is negotiated, a link that is marked stays marked. -/
theorem Marked.run {env : Env} {l : Link} (h : l.Marked env) {later : List LifeEvent}
    (hkeeps : Admits (live env) (fun l e => ¬l.Renegotiates e) l later) :
    (runFrom (live env) l later).Marked env :=
  hkeeps.invariant (fun _ _ hmarked hkeep => hmarked.goesOn hkeep) h

section GivingUp

variable {env : Env} {l : Link}

/-- The retransmit thread marks the link when it gives a packet up. -/
theorem marked_of_givesUp_retransmit (h : l.GivesUp env .retransmit) : (l.retransmit env).Marked env := by
  obtain ⟨hworks, hshorter⟩ := h
  rcases retransmit_cases env l with ⟨hfailed, -⟩ | ⟨-, heq⟩
  · exact absurd hfailed hworks
  rw [heq] at hshorter ⊢
  apply marked_of_failed
  change (l.expiredRound env).2.2 = true
  by_contra hnone
  have hkept := retransmitLoop_all_kept (Bool.eq_false_iff.mpr hnone)
  have hlength := congrArg List.length hkept
  rw [List.length_map, List.length_map] at hlength
  exact absurd hlength hshorter.ne

/-- A hint that shortens the queue has dropped the first element with the next number, which had no
tries left. -/
theorem length_resendLoop_lt_iff {now : Timeval} {seq : ℕ} {queue : List AckWaitQueueElement} :
    (resendLoop now seq queue).1.length < queue.length ↔
      ∃ e, (queue.find? fun e => e.seq = seq) = some e ∧ e.txcount = 0 := by
  induction queue with
  | nil => simp [resendLoop]
  | cons d rest ih =>
    rw [resendLoop]
    by_cases hseq : d.seq = seq
    · rw [if_pos hseq, List.find?_cons_of_pos (by simpa using hseq)]
      split
      · next hlast => simp [hlast]
      · next hleft => simp [hleft]
    · rw [if_neg hseq, List.find?_cons_of_neg (by simpa using hseq), ← ih]
      simp

/-- An acknowledgement gives a packet up when it matches none and the next one has no tries left. -/
theorem givesUp_receive_iff (frame : List UInt8) : l.GivesUp env (.receive frame) ↔
    IsAck frame ∧ (∀ e ∈ l.ackWaitQueue, e.seq ≠ (header frame).2.1) ∧
      ∃ e, (l.ackWaitQueue.find? fun e => e.seq = (header frame).2.1 + 1) = some e ∧ e.txcount = 0 := by
  have hhint (hack : IsAck frame) (hnone : ∀ e ∈ l.ackWaitQueue, e.seq ≠ (header frame).2.1) :
      (l.receive env frame).ackWaitQueue.length < l.ackWaitQueue.length ↔
        ∃ e, (l.ackWaitQueue.find? fun e => e.seq = (header frame).2.1 + 1) = some e ∧ e.txcount = 0 := by
    rw [receive_of_isAck env hack]
    rcases receiveAck_cases env (header frame).2.1 l with ⟨e, before, after, hqueue, -, hseq, -⟩ |
      ⟨-, heq⟩
    · exact absurd hseq (hnone e (by simp [hqueue]))
    · rw [heq, ← length_resendLoop_lt_iff]
  constructor
  · rintro ⟨hack, hnone, hshorter⟩
    exact ⟨hack, hnone, (hhint hack hnone).mp hshorter⟩
  · rintro ⟨hack, hnone, hlast⟩
    exact ⟨hack, hnone, (hhint hack hnone).mpr hlast⟩

/-- An acknowledgement that matches no packet leaves the mark of the link as it is. -/
theorem marked_receive_unmatched {frame : List UInt8} (hack : IsAck frame)
    (hnone : ∀ e ∈ l.ackWaitQueue, e.seq ≠ (header frame).2.1) :
    (l.receive env frame).Marked env ↔ l.Marked env := by
  rw [receive_of_isAck env hack]
  rcases receiveAck_cases env (header frame).2.1 l with ⟨e, before, after, hqueue, -, hseq, -⟩ | ⟨-, heq⟩
  · exact absurd hseq (hnone e (by simp [hqueue]))
  · rw [heq]
    exact Iff.rfl

/-- A link is marked when a packet is given up, exactly when it is not dropped silently. -/
theorem marked_of_givesUp_iff {e : Event} (h : l.GivesUp env e) :
    (live env l (.event e)).Marked env ↔ ∀ frame, e = .receive frame → ¬l.DropsSilently env frame := by
  cases e with
  | send buff => exact h.elim
  | purgeQueue channel => exact h.elim
  | retransmit =>
    refine iff_of_true (marked_of_givesUp_retransmit h) fun frame hframe => ?_
    cases hframe
  | receive frame =>
    obtain ⟨hack, hnone, hlast⟩ := (givesUp_receive_iff frame).mp h
    change (l.receive env frame).Marked env ↔ _
    rw [marked_receive_unmatched hack hnone]
    constructor
    · intro hmarked other hother hsilent
      cases hother
      exact hsilent.unmarked hmarked
    · intro hnot
      by_contra hunmarked
      exact hnot frame rfl ⟨hunmarked, hack, hnone, hlast⟩

end GivingUp

/-- Over the life of a link, every packet that is given up marks the link until a reset or a new
negotiation, exactly when none is dropped silently. -/
theorem exhaustion_marked_iff (env : Env) (conMagic : ℤ) (events : List LifeEvent) :
    (∀ seen e later, seen ++ .event e :: later <+: events → (lived env conMagic seen).GivesUp env e →
        Admits (live env) (fun l e => ¬l.Renegotiates e) (lived env conMagic (seen ++ [.event e])) later →
        (lived env conMagic (seen ++ .event e :: later)).Marked env) ↔
      ∀ seen frame, seen ++ [.event (.receive frame)] <+: events →
        ¬(lived env conMagic seen).DropsSilently env frame := by
  have hone (seen : List LifeEvent) (e : Event) :
      lived env conMagic (seen ++ [.event e]) = live env (lived env conMagic seen) (.event e) :=
    runFrom_append _ _ seen [.event e]
  constructor
  · intro hall seen frame hseen hsilent
    have hgives : (lived env conMagic seen).GivesUp env (.receive frame) :=
      (givesUp_receive_iff frame).mpr ⟨hsilent.ack, hsilent.unmatched, hsilent.exhausted⟩
    have hmarked := hall seen (.receive frame) [] hseen hgives trivial
    rw [hone] at hmarked
    exact (marked_of_givesUp_iff hgives).mp hmarked frame rfl hsilent
  · intro hnone seen e later hseen hgives hkeeps
    have hfirst : seen ++ [.event e] <+: events := by
      rw [List.append_cons] at hseen
      exact (List.prefix_append _ _).trans hseen
    have hmarked : (lived env conMagic (seen ++ [.event e])).Marked env := by
      rw [hone]
      refine (marked_of_givesUp_iff hgives).mpr ?_
      rintro frame rfl
      exact hnone seen frame hfirst
    rw [List.append_cons, lived, runFrom_append]
    exact hmarked.run hkeeps

/-- The ninth acknowledgement of the packet before drops a packet from a link that works. -/
theorem dropped_silently : ¬ ∀ (env : Env) (conMagic : ℤ) (seen : List LifeEvent) (e : Event),
    (lived env conMagic seen).GivesUp env e →
      (lived env conMagic (seen ++ [.event e])).Marked env := by
  intro hall
  have hmarked := hall stillEnv 0
    ([.event (.receive [0x20]), .event (.send [5, 1])] ++ List.replicate 8 (.event (.receive [0x00])))
    (.receive [0x00]) ⟨by decide, by decide, by decide⟩
  exact absurd hmarked (by decide)

end Link

end Plptools
