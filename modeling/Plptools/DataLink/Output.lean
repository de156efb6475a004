import Plptools.DataLink.Model
import Plptools.Library.Run

/-!
# From `send` to the line

The output ring is a queue: what has gone to the line, followed by what the ring holds, is the
concatenation of the messages sent so far.
-/

namespace Plptools

open Plptools.Library

/-- What happens at the sending end: `send` is called, or the pump writes at most `n` bytes. -/
inductive SenderEvent where
  | send (b : List UInt8) (isEPOC : Bool)
  | write (n : ℕ)

/-- The payload that an event sends. -/
def SenderEvent.payload : SenderEvent → Option (List UInt8)
  | .send b _ => some b
  | .write _ => none

/-- The message that an event adds to the output. -/
def SenderEvent.message : SenderEvent → List UInt8
  | .send b isEPOC => frameMessage b isEPOC
  | .write _ => []

namespace DataLink

/-- The bytes that wait in the output ring. -/
def queued (d : DataLink) : List UInt8 :=
  ringSlice BUFLEN d.outBuffer d.outRead (ringUsed BUFLEN d.outRead d.outWrite)

/-- The indices of the output ring are inside the ring, and the link is not shutting down. -/
structure Running (d : DataLink) : Prop where
  outRead : d.outRead < BUFLEN
  outWrite : d.outWrite < BUFLEN
  isCancelled : d.isCancelled = false

/-- Bytes for which there is room enter the output ring in order. -/
theorem putOut_queued (message : List UInt8) (d : DataLink) (h : d.Running)
    (hroom : ringUsed BUFLEN d.outRead d.outWrite + message.length < BUFLEN) :
    (message.foldl putOut d).Running ∧ (message.foldl putOut d).queued = d.queued ++ message := by
  induction message generalizing d with
  | nil => exact ⟨h, (List.append_nil _).symm⟩
  | cons c rest ih =>
    rw [List.length_cons] at hroom
    have hused : ringUsed BUFLEN d.outRead (d.putOut c).outWrite = _ :=
      ringUsed_push h.outRead h.outWrite (by omega)
    have hqueued : (d.putOut c).queued = d.queued ++ [c] := by
      rw [queued, queued]
      change ringSlice BUFLEN (Function.update d.outBuffer d.outWrite c) d.outRead
        (ringUsed BUFLEN d.outRead (d.putOut c).outWrite) = _
      rw [hused, ringSlice_push h.outRead h.outWrite]
    have hrunning : (d.putOut c).Running := ⟨h.outRead, Nat.mod_lt _ (by decide), h.isCancelled⟩
    obtain ⟨hrunning', hqueued'⟩ := ih (d.putOut c) hrunning (by
      change ringUsed BUFLEN d.outRead (d.putOut c).outWrite + rest.length < BUFLEN
      omega)
    refine ⟨hrunning', hqueued'.trans ?_⟩
    rw [hqueued, List.append_assoc]
    rfl

/-- Bytes enter the output ring behind the queue, wherever that begins. -/
@[simp] theorem foldl_putOut_outRead (message : List UInt8) (d : DataLink) :
    (message.foldl putOut d).outRead = d.outRead := by
  induction message generalizing d with
  | nil => rfl
  | cons c rest ih => simp [ih, putOut]

/-- Bytes for which there is room leave the cells of the queue as they are. -/
theorem putOut_keeps (message : List UInt8) (d : DataLink) (h : d.Running)
    (hroom : ringUsed BUFLEN d.outRead d.outWrite + message.length < BUFLEN) :
    ringSlice BUFLEN (message.foldl putOut d).outBuffer d.outRead
      (ringUsed BUFLEN d.outRead d.outWrite) = d.queued := by
  obtain ⟨-, hqueued⟩ := putOut_queued message d h hroom
  have hlength := congrArg List.length hqueued
  simp only [queued, ringSlice_length, List.length_append, foldl_putOut_outRead] at hlength
  rw [queued, foldl_putOut_outRead] at hqueued
  have htake := congrArg (List.take (ringUsed BUFLEN d.outRead d.outWrite)) hqueued
  have hused : d.queued.length = ringUsed BUFLEN d.outRead d.outWrite := ringSlice_length _ _ _ _
  rwa [ringSlice_take _ _ _ _ (by omega), List.take_left' hused] at htake

/-- Free cells are what the used ones leave of the ring, less one. -/
theorem outFree_add_used {d : DataLink} (h : d.Running) :
    d.outFree + ringUsed BUFLEN d.outRead d.outWrite + 1 = BUFLEN := by
  have hr := h.outRead
  have hw := h.outWrite
  unfold outFree ringUsed BUFLEN at *
  omega

/-- What the pump writes is the front of the queue. -/
theorem writeOutput_queued {d : DataLink} (h : d.Running) (n : ℕ) :
    (d.writeOutput n).2.Running ∧ d.queued = (d.writeOutput n).1 ++ (d.writeOutput n).2.queued := by
  have hr := h.outRead
  have hw := h.outWrite
  generalize hcount : min n (if d.outWrite < d.outRead then BUFLEN - d.outRead
    else d.outWrite - d.outRead) = count
  have hwrite : d.writeOutput n = (ringSlice BUFLEN d.outBuffer d.outRead count,
      { d with outRead := (d.outRead + count) % BUFLEN }) := by
    rw [writeOutput, hcount]
  have hle : count ≤ ringUsed BUFLEN d.outRead d.outWrite := by
    unfold ringUsed
    rw [mod_wrap (by omega)]
    split at hcount <;> split <;> omega
  rw [hwrite]
  refine ⟨⟨Nat.mod_lt _ (by decide), hw, h.isCancelled⟩, ?_⟩
  have hdrop := ringSlice_drop d.outBuffer hr count _ hle
  rw [← ringUsed_advance hr hw count hle] at hdrop
  change _ = _ ++ ringSlice BUFLEN d.outBuffer ((d.outRead + count) % BUFLEN)
    (ringUsed BUFLEN ((d.outRead + count) % BUFLEN) d.outWrite)
  rw [← hdrop, ← ringSlice_take d.outBuffer d.outRead count _ hle]
  exact (List.take_append_drop count _).symm

end DataLink

/-- The sending end: its data link, and the bytes it has put on the line. -/
structure Sender where
  link : DataLink
  line : List UInt8

namespace Sender

/-- One event at the sending end. There is no next state while `send` has not returned. -/
def step : Option Sender → SenderEvent → Option Sender
  | none, _ => none
  | some s, .send b isEPOC => (s.link.send b isEPOC).map fun d => { s with link := d }
  | some s, .write n =>
    some { link := (s.link.writeOutput n).2, line := s.line ++ (s.link.writeOutput n).1 }

/-- One event adds its message to what has been sent. -/
theorem step_sent {s s' : Sender} (h : s.link.Running) {e : SenderEvent}
    (hstep : step (some s) e = some s') :
    s'.link.Running ∧ s'.line ++ s'.link.queued = s.line ++ s.link.queued ++ e.message := by
  cases e with
  | send b isEPOC =>
    have hfree := DataLink.outFree_add_used h
    rw [step, DataLink.send, h.isCancelled] at hstep
    by_cases hroom : s.link.outFree ≥ (frameMessage b isEPOC).length
    · rw [if_neg Bool.false_ne_true, if_pos hroom] at hstep
      cases hstep
      obtain ⟨hrunning, hqueued⟩ := DataLink.putOut_queued (frameMessage b isEPOC) s.link h (by omega)
      refine ⟨hrunning, ?_⟩
      rw [hqueued, SenderEvent.message, List.append_assoc]
    · rw [if_neg Bool.false_ne_true, if_neg hroom] at hstep
      cases hstep
  | write n =>
    cases hstep
    obtain ⟨hrunning, hqueued⟩ := DataLink.writeOutput_queued h n
    refine ⟨hrunning, ?_⟩
    rw [hqueued, SenderEvent.message, List.append_nil, List.append_assoc]

/-- One event leaves the cells of the unsent bytes as they are. -/
theorem step_keeps {s s' : Sender} (h : s.link.Running) {e : SenderEvent}
    (hstep : step (some s) e = some s') :
    ringSlice BUFLEN s'.link.outBuffer s.link.outRead
      (ringUsed BUFLEN s.link.outRead s.link.outWrite) = s.link.queued := by
  cases e with
  | send b isEPOC =>
    have hfree := DataLink.outFree_add_used h
    rw [step, DataLink.send, h.isCancelled, if_neg Bool.false_ne_true] at hstep
    by_cases hroom : s.link.outFree ≥ (frameMessage b isEPOC).length
    · rw [if_pos hroom] at hstep
      cases hstep
      exact DataLink.putOut_keeps (frameMessage b isEPOC) s.link h (by omega)
    · rw [if_neg hroom] at hstep
      cases hstep
  | write n =>
    cases hstep
    rfl

/-- Nothing follows a call that has not returned. -/
theorem run_none (events : List SenderEvent) : runFrom step none events = none := by
  induction events with
  | nil => rfl
  | cons e rest ih => exact ih

/-- The line and the output ring hold the messages sent, in order. -/
theorem run_sent {s s' : Sender} (h : s.link.Running) {events : List SenderEvent}
    (hrun : runFrom step (some s) events = some s') :
    s'.link.Running ∧
      s'.line ++ s'.link.queued = s.line ++ s.link.queued ++ events.flatMap SenderEvent.message := by
  induction events generalizing s with
  | nil =>
    cases hrun
    exact ⟨h, (List.append_nil _).symm⟩
  | cons e rest ih =>
    rw [runFrom_cons] at hrun
    cases hstep : step (some s) e with
    | none =>
      rw [hstep, run_none] at hrun
      cases hrun
    | some s₁ =>
      rw [hstep] at hrun
      obtain ⟨hrunning, hsent⟩ := step_sent h hstep
      obtain ⟨hrunning', hsent'⟩ := ih hrunning hrun
      refine ⟨hrunning', ?_⟩
      rw [hsent', hsent, List.flatMap_cons, List.append_assoc]

/-- The output ring is a queue: after any calls of `send` and any writes of the pump, the bytes on
the line followed by those between the indices are the messages sent so far, both indices are
inside the ring, and whatever comes next leaves every cell of an unsent byte as it is. -/
theorem line_and_ring_of_run {d : DataLink} (hd : d.Running) (hempty : d.outRead = d.outWrite)
    {events : List SenderEvent} {s : Sender} (hrun : runFrom step (some ⟨d, []⟩) events = some s) :
    s.line ++ s.link.queued = events.flatMap SenderEvent.message ∧
      s.link.outRead < BUFLEN ∧ s.link.outWrite < BUFLEN ∧
      ∀ e s', step (some s) e = some s' →
        ∀ k < ringUsed BUFLEN s.link.outRead s.link.outWrite,
          s'.link.outBuffer ((s.link.outRead + k) % BUFLEN) =
            s.link.outBuffer ((s.link.outRead + k) % BUFLEN) := by
  obtain ⟨hrunning, hsent⟩ := run_sent hd hrun
  have hnone : d.queued = [] := by
    rw [DataLink.queued, (ringUsed_eq_zero_iff hd.outRead hd.outWrite).mpr hempty]
    rfl
  rw [hnone] at hsent
  refine ⟨hsent, hrunning.outRead, hrunning.outWrite, fun e s' hstep => ?_⟩
  exact (ringSlice_eq_iff hrunning.outRead).mp (step_keeps hrunning hstep)

/-- A payload over the end of the ring, of which the pump has written six bytes. -/
theorem line_and_ring_of_run_over_end : ∃ s,
    runFrom step (some ⟨.atPosition 4090 (fun _ => 0) (fun _ => 0) true, []⟩)
      [.send [0x03] true, .write 100, .send [0x41] false] = some s ∧
    s.line = [0x16, 0x10, 0x02, 0x10, 0x04, 0x10] ∧
    s.line ++ s.link.queued = ([0x16, 0x10, 0x02, 0x10, 0x04, 0x10, 0x03, 0x30, 0x63] : List UInt8) ++
      [0x16, 0x10, 0x02, 0x41, 0x10, 0x03, 0x58, 0xe5] := by
  have hd : (DataLink.atPosition 4090 (fun _ => 0) (fun _ => 0) true).Running :=
    ⟨by decide, by decide, rfl⟩
  have hrun : ∃ s, runFrom step (some ⟨.atPosition 4090 (fun _ => 0) (fun _ => 0) true, []⟩)
      [.send [0x03] true, .write 100, .send [0x41] false] = some s ∧
      s.line = [0x16, 0x10, 0x02, 0x10, 0x04, 0x10] := ⟨_, rfl, by decide +kernel⟩
  obtain ⟨s, hrun, hline⟩ := hrun
  refine ⟨s, hrun, hline, ?_⟩
  rw [(line_and_ring_of_run hd rfl hrun).1]
  decide +kernel

/-- Once the output ring is empty again, the line carries exactly the messages. -/
theorem line_of_run {d : DataLink} (hd : d.Running) (hempty : d.outRead = d.outWrite)
    {events : List SenderEvent} {s : Sender} (hrun : runFrom step (some ⟨d, []⟩) events = some s)
    (hdrained : s.link.outRead = s.link.outWrite) :
    s.line = events.flatMap SenderEvent.message := by
  obtain ⟨hrunning, hsent⟩ := run_sent hd hrun
  have hnone (d : DataLink) (ht : d.Running) (heq : d.outRead = d.outWrite) : d.queued = [] := by
    rw [DataLink.queued, (ringUsed_eq_zero_iff ht.outRead ht.outWrite).mpr heq]
    rfl
  rw [hnone _ hrunning hdrained, hnone _ hd hempty, List.append_nil] at hsent
  exact hsent

end Sender

end Plptools
