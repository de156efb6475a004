import Plptools.Link.Numbers

/-!
# The hint of an acknowledgement

An acknowledgement that matches no packet names the last packet that the peer has received, so the
next one is sent again at once. The numbers are assigned cyclically, under the mask of the link, but
the next number is looked for without the mask: behind the last number before the wrap none is found.
-/

namespace Plptools

open Plptools.Library

namespace Link

/-- The number that is assigned after the given one. -/
def successor (l : Link) (seq : ℕ) : ℕ := (seq + 1) &&& l.seqMask

/-- The frame is an acknowledgement that an established link finds no packet for. -/
structure Hint (l : Link) (frame : List UInt8) : Prop where
  established : l.linkType ≠ .LINK_TYPE_UNKNOWN
  ack : IsAck frame
  unmatched : ∀ e ∈ l.ackWaitQueue, e.seq ≠ (header frame).2.1

/-- An element with the next number that has tries left is sent again, and is the only one: it has
spent a try and has a new stamp. -/
def ResentAtOnce (env : Env) (l : Link) (frame : List UInt8) : Prop :=
  ∀ before e after, l.ackWaitQueue = before ++ e :: after →
    e.seq = l.successor (header frame).2.1 → 0 < e.txcount →
      (l.receive env frame).ackWaitQueue =
          before ++ { e with txcount := e.txcount - 1, stamp := env.gettimeofday l.reads } :: after ∧
        (l.receive env frame).sent = l.sent ++ [⟨e.data, e.index⟩]

/-- The next number is not behind the wrap, and only the first element that has it may have tries
left; or none that has the number assigned next has tries left. -/
def HintReaches (l : Link) (seq : ℕ) : Prop :=
  (seq < l.seqMask ∧ ∀ e ∈ (l.ackWaitQueue.filter fun e => e.seq = seq + 1).tail, e.txcount = 0) ∨
    ∀ e ∈ l.ackWaitQueue, e.seq = l.successor seq → e.txcount = 0

section Resending

variable {now : Timeval} {seq : ℕ}

/-- Nothing is sent again when no element has the number. -/
theorem resendLoop_of_forall_ne {queue : List AckWaitQueueElement} (h : ∀ e ∈ queue, e.seq ≠ seq) :
    resendLoop now seq queue = (queue, []) := by
  induction queue with
  | nil => rfl
  | cons d rest ih =>
    rw [resendLoop, if_neg (h d List.mem_cons_self), ih fun e he => h e (List.mem_cons_of_mem d he)]

/-- The first element with the number is the one that counts. -/
theorem resendLoop_append {before : List AckWaitQueueElement} {e : AckWaitQueueElement}
    (hbefore : ∀ b ∈ before, b.seq ≠ seq) (he : e.seq = seq) (after : List AckWaitQueueElement) :
    resendLoop now seq (before ++ e :: after) =
      if e.txcount = 0 then (before ++ after, [])
      else (before ++ { e with txcount := e.txcount - 1, stamp := now } :: after, [⟨e.data, e.index⟩]) := by
  induction before with
  | nil => rw [List.nil_append, resendLoop, if_pos he, List.nil_append, List.nil_append]
  | cons d rest ih =>
    rw [List.cons_append, resendLoop, if_neg (hbefore d List.mem_cons_self),
      ih fun b hb => hbefore b (List.mem_cons_of_mem d hb)]
    split <;> rfl

end Resending

variable {env : Env} {l : Link} {frame : List UInt8}

/-- Before the wrap the mask does not matter. -/
theorem Sound.successor_of_lt (h : l.Sound env) {seq : ℕ} (hlt : seq < l.seqMask) :
    l.successor seq = seq + 1 := by
  unfold successor
  rcases h.mask with hmask | hmask <;> rw [hmask] at hlt ⊢
  · rw [show 7 = 2 ^ 3 - 1 from rfl, Nat.and_two_pow_sub_one_eq_mod]
    omega
  · rw [show 0x7ff = 2 ^ 11 - 1 from rfl, Nat.and_two_pow_sub_one_eq_mod]
    omega

/-- A hint has the elements with the number searched for sent again, without the mask. -/
theorem receive_hint (env : Env) (h : l.Hint frame) : l.receive env frame = { l with
    reads := l.reads + 1
    ackWaitQueue :=
      (resendLoop (env.gettimeofday l.reads) ((header frame).2.1 + 1) l.ackWaitQueue).1
    sent := l.sent ++
      (resendLoop (env.gettimeofday l.reads) ((header frame).2.1 + 1) l.ackWaitQueue).2 } := by
  rw [receive_of_isAck env h.ack]
  rcases receiveAck_cases env (header frame).2.1 l with ⟨e, before, after, hqueue, -, hseq, -⟩ | ⟨-, heq⟩
  · exact absurd hseq (h.unmatched e (by simp [hqueue]))
  · exact heq

/-- Behind the wrap the number searched for is none that is assigned. -/
theorem Sound.receive_hint_wrapped (h : l.Sound env) (hhint : l.Hint frame)
    (hwrap : l.seqMask ≤ (header frame).2.1) : (l.receive env frame).sent = l.sent := by
  have hnone : ∀ e ∈ l.ackWaitQueue, e.seq ≠ (header frame).2.1 + 1 := by
    intro e he
    have hle := (h.queue e he).seq
    omega
  rw [receive_hint env hhint, resendLoop_of_forall_ne hnone]
  exact List.append_nil _

/-- The element with the next number is sent again when no element before it has that number. -/
theorem resentAtOnce_of_tail (h : l.Sound env) (hhint : l.Hint frame)
    (hlt : (header frame).2.1 < l.seqMask)
    (htail : ∀ e ∈ (l.ackWaitQueue.filter fun e => e.seq = (header frame).2.1 + 1).tail, e.txcount = 0) :
    ResentAtOnce env l frame := by
  intro before e after hqueue hseq htries
  rw [h.successor_of_lt hlt] at hseq
  have hbefore : ∀ b ∈ before, b.seq ≠ (header frame).2.1 + 1 := by
    intro b hb hsame
    have hfirst : b ∈ before.filter fun e => e.seq = (header frame).2.1 + 1 :=
      List.mem_filter.mpr ⟨hb, decide_eq_true hsame⟩
    rw [hqueue, List.filter_append, List.filter_cons_of_pos (by simpa using hseq),
      List.tail_append_of_ne_nil (List.ne_nil_of_mem hfirst)] at htail
    exact htries.ne' (htail e (List.mem_append_right _ List.mem_cons_self))
  rw [receive_hint env hhint, hqueue, resendLoop_append hbefore hseq, if_neg htries.ne']
  exact ⟨rfl, rfl⟩

/-- Where an element is sent again, those with its number that come later have no tries left. -/
theorem ResentAtOnce.tail (hhint : l.Hint frame) (hresent : ResentAtOnce env l frame)
    (hnext : l.successor (header frame).2.1 = (header frame).2.1 + 1) :
    ∀ e ∈ (l.ackWaitQueue.filter fun e => e.seq = (header frame).2.1 + 1).tail, e.txcount = 0 := by
  intro d hd
  by_contra htries
  cases hfilter : l.ackWaitQueue.filter fun e => e.seq = (header frame).2.1 + 1 with
  | nil =>
    rw [hfilter] at hd
    cases hd
  | cons e rest =>
    rw [hfilter, List.tail_cons] at hd
    obtain ⟨before, later, hqueue, hbefore, he, hrest⟩ := List.filter_eq_cons_iff.mp hfilter
    have hseq : e.seq = (header frame).2.1 + 1 := of_decide_eq_true he
    rw [← hrest] at hd
    obtain ⟨hmem, hdseq⟩ := List.mem_filter.mp hd
    obtain ⟨between, after, rfl⟩ := List.append_of_mem hmem
    -- the later element would be the one that is sent, but the search ends at the first
    obtain ⟨hkept, hsent⟩ := hresent (before ++ e :: between) d after (by simp [hqueue])
      ((of_decide_eq_true hdseq).trans hnext.symm) (Nat.pos_of_ne_zero htries)
    rw [receive_hint env hhint, hqueue, resendLoop_append
      (fun b hb hsame => hbefore b hb (decide_eq_true hsame)) hseq] at hkept hsent
    split at hsent
    · simp at hsent
    · next hleft =>
      rw [if_neg hleft] at hkept
      simp only [List.append_assoc, List.cons_append, List.append_cancel_left_eq, List.cons.injEq] at hkept
      have hcount := congrArg AckWaitQueueElement.txcount hkept.1
      dsimp only at hcount
      omega

/-- A hint has the next packet sent again at once exactly when its number is not behind the wrap and
only the first element that has it may have tries left, or there is nothing to send. -/
theorem resentAtOnce_iff (h : l.Sound env) (hhint : l.Hint frame) :
    ResentAtOnce env l frame ↔ l.HintReaches (header frame).2.1 := by
  constructor
  · intro hresent
    rw [HintReaches, or_iff_not_imp_right]
    intro hleft
    push Not at hleft
    obtain ⟨e, he, hseq, htries⟩ := hleft
    have hlt : (header frame).2.1 < l.seqMask := by
      by_contra hwrap
      obtain ⟨before, after, hqueue⟩ := List.append_of_mem he
      have hsent := (hresent before e after hqueue hseq (Nat.pos_of_ne_zero htries)).2
      rw [h.receive_hint_wrapped hhint (Nat.not_lt.mp hwrap)] at hsent
      simp at hsent
    exact ⟨hlt, hresent.tail hhint (h.successor_of_lt hlt)⟩
  · rintro (⟨hlt, htail⟩ | hnone)
    · exact resentAtOnce_of_tail h hhint hlt htail
    · intro before e after hqueue hseq htries
      exact absurd (hnone e (by simp [hqueue]) hseq) htries.ne'

/-- Over the life of a link, every hint has the next packet sent again at once exactly when each
reaches it. -/
theorem hints_resend_iff (env : Env) (conMagic : ℤ) (events : List LifeEvent) :
    (∀ seen frame, seen ++ [.event (.receive frame)] <+: events → (lived env conMagic seen).Hint frame →
        ResentAtOnce env (lived env conMagic seen) frame) ↔
      ∀ seen frame, seen ++ [.event (.receive frame)] <+: events → (lived env conMagic seen).Hint frame →
        (lived env conMagic seen).HintReaches (header frame).2.1 := by
  constructor
  · intro hall seen frame hseen hhint
    exact (resentAtOnce_iff (lived_sound env conMagic seen) hhint).mp (hall seen frame hseen hhint)
  · intro hall seen frame hseen hhint
    exact (resentAtOnce_iff (lived_sound env conMagic seen) hhint).mpr (hall seen frame hseen hhint)

/-- A SIBO link that has sent seven packets and waits for the eighth. -/
def wrappedRun : List LifeEvent :=
  .event (.receive [0x20]) :: [1, 2, 3, 4, 5, 6, 7].flatMap (fun seq =>
    [.event (.send [5, seq]), .event (.receive [seq])]) ++ [.event (.send [5, 8])]

/-- The packet behind the last number before the wrap is not sent again. -/
theorem hint_misses_wrapped : ¬ ∀ (env : Env) (conMagic : ℤ) (events : List LifeEvent)
    (frame : List UInt8), (lived env conMagic events).Hint frame →
      ResentAtOnce env (lived env conMagic events) frame := by
  intro hall
  have hresent := hall stillEnv 0 wrappedRun [0x07] ⟨by decide, by decide, by decide⟩
    [] ⟨0, 8, ⟨0, 0⟩, [0x30, 5, 8], 7⟩ [] (by decide) (by decide) (by decide)
  exact absurd hresent.2 (by decide)

end Link

end Plptools
