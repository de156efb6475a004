import Plptools.DataLink.Process
import Plptools.DataLink.Output

/-!
# What arrives over the line

The receiving end reads bytes into its ring and calls `processInputData`, in any order. As long as
every call notices the end of the input, what has been delivered is what the receiver makes of the
bytes that have been taken off the ring, so it depends on the bytes alone. On a line that carries
frames only, every call does.
-/

namespace Plptools

open Plptools.Library

/-- What happens at the receiving end: bytes are read from the line, or the pump processes its
input, where `hasOutputData` is what it sees of the output ring after each packet. -/
inductive LineEvent where
  | read (bytes : List UInt8)
  | process (hasOutputData : ℕ → Bool)

/-- The bytes that an event reads. -/
def LineEvent.bytes : LineEvent → List UInt8
  | .read bytes => bytes
  | .process _ => []

/-- The receiving end: its data link, the bytes that came in so far, the packets pushed to
`receivedData`, and whether no call has found the link unstable. -/
structure Line where
  link : DataLink
  arrived : List UInt8
  received : List (List UInt8)
  stable : Bool

namespace Line

/-- One event at the receiving end. The pump resets an unstable link. There is no next state when a
call does not return. -/
def step : Option Line → LineEvent → Option Line
  | none, _ => none
  | some l, .read bytes =>
    some { l with link := l.link.readInput bytes, arrived := l.arrived ++ bytes }
  | some l, .process hasOutputData =>
    if l.link.hasInputData then
      (l.link.processInputData BUFLEN hasOutputData).map fun (isLinkStable, d, receivedData) =>
        { l with
          link := if isLinkStable then d else d.internalReset
          received := l.received ++ receivedData, stable := l.stable && isLinkStable }
    else some l

/-- The receiving end before anything came in. -/
def start (d : DataLink) : Option Line := some ⟨d, [], [], true⟩

/-- The state after some events. -/
def run (d : DataLink) (events : List LineEvent) : Option Line := runFrom step (start d) events

/-- At most `BUFLEN - 1` bytes are unread at any time. -/
def HasRoom : Option Line → LineEvent → Prop
  | some l, e => l.link.unread.length + e.bytes.length < BUFLEN
  | none, _ => True

/-- A call notices the end of its input. -/
def Notices : Option Line → LineEvent → Prop
  | some l, .process hasOutputData => l.link.StopsAtEnd hasOutputData 0
  | _, _ => True

instance : ∀ l e, Decidable (HasRoom l e)
  | some l, e => inferInstanceAs (Decidable (l.link.unread.length + e.bytes.length < BUFLEN))
  | none, _ => isTrue trivial

instance : ∀ l e, Decidable (Notices l e)
  | some l, .process hasOutputData => inferInstanceAs (Decidable (l.link.StopsAtEnd hasOutputData 0))
  | some _, .read _ => isTrue trivial
  | none, _ => isTrue trivial

/-- The delivered packets are those of the bytes that have been taken off the ring. -/
structure Sound (l : Line) : Prop where
  resumes : ∃ k s, l.link.Resumes k s
  split : ∃ consumed packets, l.arrived = consumed ++ l.link.unread ∧
    frameReceiver.Complete consumed packets ∧ l.received = packets.flatMap Option.toList

end Line

/-- The input ring is empty and the parser is not inside a packet. -/
structure DataLink.AtRest (d : DataLink) : Prop where
  inWrite : d.inWrite < BUFLEN
  inRead : d.inRead = d.inWrite
  startPkt : d.startPkt = -1
  lastSYN : d.lastSYN = -1

namespace DataLink

/-- Nothing is left to be read. -/
theorem AtRest.unread {d : DataLink} (h : d.AtRest) : d.unread = [] := by
  rw [← List.length_eq_zero_iff, unread_length,
    ringUsed_eq_zero_iff (h.inRead.trans_lt h.inWrite) h.inWrite]
  exact h.inRead

/-- The parser waits for a frame. -/
theorem AtRest.resumes {d : DataLink} (h : d.AtRest) : d.Resumes 0 .idle := by
  refine ⟨⟨h.inRead.trans_lt h.inWrite, h.inWrite⟩, Nat.zero_le _, ?_, rfl, ?_⟩
  · rw [cursor, h.lastSYN, if_neg (by decide), Nat.add_zero, Nat.mod_eq_of_lt]
    exact h.inRead.trans_lt h.inWrite
  · rw [Holds, h.startPkt]
    decide

/-- A byte that is read joins the unread ones. -/
theorem putIn_unread {d : DataLink} (h : d.InRing) (c : UInt8) (hroom : d.unread.length + 1 < BUFLEN) :
    (d.putIn c).InRing ∧ (d.putIn c).unread = d.unread ++ [c] := by
  rw [unread_length] at hroom
  refine ⟨⟨h.inRead, Nat.mod_lt _ (by decide)⟩, ?_⟩
  have hused : ringUsed BUFLEN d.inRead (d.putIn c).inWrite = _ :=
    ringUsed_push h.inRead h.inWrite hroom
  rw [unread, inputFrom]
  change ringSlice BUFLEN (Function.update d.inBuffer d.inWrite c) d.inRead
    (ringUsed BUFLEN d.inRead (d.putIn c).inWrite) = _
  rw [hused, ringSlice_push h.inRead h.inWrite]
  rfl

/-- Bytes that are read join the unread ones, and the parser goes on where it was. -/
theorem readInput_resumes {d : DataLink} {k : ℕ} {s : ReceiverState} (h : d.Resumes k s)
    (bytes : List UInt8) (hroom : d.unread.length + bytes.length < BUFLEN) :
    (d.readInput bytes).Resumes k s ∧ (d.readInput bytes).unread = d.unread ++ bytes ∧
      (d.readInput bytes).justStarted = d.justStarted := by
  induction bytes generalizing d with
  | nil => exact ⟨h, (List.append_nil _).symm, rfl⟩
  | cons c rest ih =>
    rw [List.length_cons] at hroom
    obtain ⟨hring, hunread⟩ := putIn_unread h.inRing c (by omega)
    have hresumes : (d.putIn c).Resumes k s := by
      refine ⟨hring, ?_, h.cursor, ?_, ?_⟩
      · rw [hunread, List.length_append]
        exact Nat.le_add_right_of_le h.inside
      · rw [hunread, List.take_append_of_le_length h.inside]
        exact h.scan
      · cases s <;> exact h.holds
    obtain ⟨hresumes', hunread', hjust⟩ := ih hresumes (by
      rw [hunread, List.length_append, List.length_singleton]
      omega)
    refine ⟨hresumes', hunread'.trans ?_, hjust⟩
    rw [hunread, List.append_assoc]
    rfl

/-- There is no input to process exactly when nothing is unread. -/
theorem hasInputData_iff {d : DataLink} (h : d.InRing) : d.hasInputData = true ↔ d.unread ≠ [] := by
  rw [hasInputData, bne_iff_ne, ne_eq, ne_eq, ← List.length_eq_zero_iff, unread_length,
    ringUsed_eq_zero_iff h.inRead h.inWrite, eq_comm]

end DataLink

namespace Line

/-- Reading keeps what has been delivered in step with what has been taken off the ring. -/
theorem step_read {l : Line} (h : l.Sound) (bytes : List UInt8)
    (hroom : HasRoom (some l) (.read bytes)) :
    ∃ l', step (some l) (.read bytes) = some l' ∧ l'.Sound ∧ l'.arrived = l.arrived ++ bytes ∧
      l'.stable = l.stable ∧ l'.link.justStarted = l.link.justStarted := by
  obtain ⟨k, s, hresumes⟩ := h.resumes
  obtain ⟨consumed, packets, harrived, hcomplete, hreceived⟩ := h.split
  obtain ⟨hresumes', hunread, hjust⟩ := DataLink.readInput_resumes hresumes bytes hroom
  refine ⟨_, rfl, ⟨⟨k, s, hresumes'⟩, consumed, packets, ?_, hcomplete, hreceived⟩, rfl, rfl, hjust⟩
  rw [harrived, hunread, List.append_assoc]

/-- What a call that finds the link stable does to the receiving end. -/
structure Processed (l l' : Line) (packets : List (Option (List UInt8))) : Prop where
  sound : l'.Sound
  arrived : l'.arrived = l.arrived
  stable : l'.stable = l.stable
  called : l.link.Called true l'.link packets

/-- A call that notices the end of its input delivers packets of the unread bytes. -/
theorem step_process {l : Line} (h : l.Sound) (hasOutputData : ℕ → Bool)
    (hinput : l.link.hasInputData = true) (hstops : l.link.StopsAtEnd hasOutputData 0)
    (hstable : ∀ d packets, ¬l.link.Called false d packets) :
    ∃ l' packets, step (some l) (.process hasOutputData) = some l' ∧ Processed l l' packets := by
  obtain ⟨k, s, hresumes⟩ := h.resumes
  obtain ⟨consumed, packets, harrived, hcomplete, hreceived⟩ := h.split
  obtain ⟨b, d, taken, hrun, hcalled⟩ := DataLink.processInputData_spec hresumes hstops
  cases b with
  | false => exact absurd hcalled (hstable d taken)
  | true =>
    obtain ⟨used, hunread, hused⟩ := hcalled.taken
    refine ⟨{ l with
        link := d, received := l.received ++ taken.flatMap Option.toList, stable := l.stable && true },
      taken, by rw [step, if_pos hinput, hrun]; rfl,
      ⟨hcalled.resumes, consumed ++ used, packets ++ taken, ?_, hcomplete.append hused, ?_⟩, rfl,
      Bool.and_true _, hcalled⟩
    · rw [harrived, hunread, List.append_assoc]
    · rw [hreceived, List.flatMap_append]

/-- One event at the receiving end when no call finds the link unstable. -/
theorem step_sound {l : Line} (h : l.Sound) {e : LineEvent} (hroom : HasRoom (some l) e)
    (hnotices : Notices (some l) e)
    (hstable : l.link.hasInputData = true → ∀ d packets, ¬l.link.Called false d packets) :
    ∃ l', step (some l) e = some l' ∧ l'.Sound ∧ l'.arrived = l.arrived ++ e.bytes ∧
      l'.stable = l.stable ∧ (l'.link.justStarted = true → l.link.justStarted = true) := by
  cases e with
  | read bytes =>
    obtain ⟨l', hstep, hsound, harrived, hstable', hjust⟩ := step_read h bytes hroom
    exact ⟨l', hstep, hsound, harrived, hstable', fun htrue => hjust ▸ htrue⟩
  | process hasOutputData =>
    cases hinput : l.link.hasInputData with
    | false => exact ⟨l, by rw [step, hinput]; rfl, h, (List.append_nil _).symm, rfl, id⟩
    | true =>
      obtain ⟨l', packets, hstep, hprocessed⟩ :=
        step_process h hasOutputData hinput hnotices (hstable hinput)
      exact ⟨l', hstep, hprocessed.sound, hprocessed.arrived.trans (List.append_nil _).symm,
        hprocessed.stable, fun htrue => (hprocessed.called.justStarted htrue).1⟩

/-- The receiving end starts in step. -/
theorem start_sound {d : DataLink} (hd : d.AtRest) : (Line.mk d [] [] true).Sound :=
  ⟨⟨0, .idle, hd.resumes⟩, [], [], hd.unread.symm, .nil _, rfl⟩

/-- A link that has seen a packet start is not found unstable. -/
theorem not_unstable {d d' : DataLink} {packets : List (Option (List UInt8))}
    (hjust : d.justStarted = false) : ¬d.Called false d' packets := by
  intro hcalled
  have htrue := (hcalled.justStarted (hcalled.unstable rfl).1).1
  rw [hjust] at htrue
  cases htrue

/-- After a run whose calls notice the end of their input, what has been delivered is in step with
what has been taken off the ring. -/
theorem run_sound {l : Line} (h : l.Sound) (hjust : l.link.justStarted = false)
    {events : List LineEvent}
    (hok : Admits step (fun l e => HasRoom l e ∧ Notices l e) (some l) events) :
    ∃ l', runFrom step (some l) events = some l' ∧ l'.Sound ∧ l'.link.justStarted = false ∧
      l'.arrived = l.arrived ++ events.flatMap LineEvent.bytes := by
  induction events generalizing l with
  | nil => exact ⟨l, rfl, h, hjust, (List.append_nil _).symm⟩
  | cons e rest ih =>
    obtain ⟨⟨hroom, hnotices⟩, hrest⟩ := hok
    obtain ⟨l₁, hstep, hsound, harrived, -, hjust₁⟩ :=
      step_sound h hroom hnotices fun _ _ _ => not_unstable hjust
    rw [hstep] at hrest
    have hjust₁' : l₁.link.justStarted = false := by
      by_contra htrue
      rw [hjust₁ (by simpa using htrue)] at hjust
      cases hjust
    obtain ⟨l', hrun, hsound', hjust', harrived'⟩ := ih hsound hjust₁' hrest
    refine ⟨l', by rw [runFrom_cons, hstep]; exact hrun, hsound', hjust', ?_⟩
    rw [harrived', harrived, List.flatMap_cons, List.append_assoc]

/-- Nothing is unread when there is no input to process. -/
theorem Sound.unread_nil {l : Line} (h : l.Sound) (hinput : l.link.hasInputData = false) :
    l.link.unread = [] := by
  obtain ⟨k, s, hresumes⟩ := h.resumes
  by_contra hne
  rw [(DataLink.hasInputData_iff hresumes.inRing).mpr hne] at hinput
  cases hinput

/-- The run ends with a call that takes nothing off the ring. -/
def EndsConsumed (d : DataLink) (events : List LineEvent) : Prop :=
  ∃ before hasOutputData, events = before ++ [.process hasOutputData] ∧
    (run d events).map (fun l => l.link.inRead) = (run d before).map fun l => l.link.inRead

/-- A call that leaves the read index where it was has found no packet in the unread bytes. -/
theorem step_consumed {l l' : Line} (h : l.Sound) (hjust : l.link.justStarted = false)
    {hasOutputData : ℕ → Bool}
    (hnotices : Notices (some l) (.process hasOutputData))
    (hstep : step (some l) (.process hasOutputData) = some l')
    (hread : l'.link.inRead = l.link.inRead) :
    ∃ s, frameReceiver.scan .idle l'.link.unread = .inl s := by
  obtain ⟨k, s, hresumes⟩ := h.resumes
  cases hinput : l.link.hasInputData with
  | false =>
    rw [step, hinput] at hstep
    cases hstep
    exact ⟨.idle, by rw [h.unread_nil hinput]; rfl⟩
  | true =>
    obtain ⟨l₁, packets, hstep₁, hprocessed⟩ :=
      step_process h hasOutputData hinput hnotices fun _ _ => not_unstable hjust
    rw [hstep₁] at hstep
    cases hstep
    have hcalled := hprocessed.called
    obtain ⟨used, hunread, hused⟩ := hcalled.taken
    have hlength : l.link.unread.length = l'.link.unread.length := by
      rw [DataLink.unread_length, DataLink.unread_length, hread, hcalled.inWrite]
    rw [hunread, List.length_append] at hlength
    have hnil : used = [] := List.length_eq_zero_iff.mp (by omega)
    subst hnil
    have hnone : packets = [] := (congrArg Prod.snd hused.feed).symm
    rw [List.nil_append] at hunread
    rw [← hunread]
    exact hcalled.exhausted hnone

/-- When no packet is left in the unread bytes, the packets of all bytes have been delivered. -/
theorem Sound.received_eq {l : Line} (h : l.Sound) {s : ReceiverState}
    (hscan : frameReceiver.scan .idle l.link.unread = .inl s) : l.received = packetsOf l.arrived := by
  obtain ⟨consumed, packets, harrived, hcomplete, hreceived⟩ := h.split
  have hrest : frameReceiver.feed frameReceiver.start l.link.unread = (s, []) :=
    frameReceiver.feed_of_scan_inl hscan
  rw [harrived]
  change _ = (frameReceiver.feed frameReceiver.start (consumed ++ l.link.unread)).2.flatMap Option.toList
  rw [hcomplete.feed_append, hrest, List.append_nil, hreceived]

/-- A consumed run has delivered exactly the packets of its stream. -/
theorem run_received {d : DataLink} (hd : d.AtRest) (hjust : d.justStarted = false)
    {events : List LineEvent}
    (hok : Admits step (fun l e => HasRoom l e ∧ Notices l e) (start d) events)
    (hend : EndsConsumed d events) :
    ∃ l, run d events = some l ∧ l.received = packetsOf (events.flatMap LineEvent.bytes) := by
  obtain ⟨before, hasOutputData, rfl, hread⟩ := hend
  obtain ⟨hbefore, ⟨-, hnotices⟩, -⟩ := (admits_append _ _ _ _ _).mp hok
  obtain ⟨l₁, hrun₁, hsound₁, hjust₁, -⟩ := run_sound (start_sound hd) hjust hbefore
  obtain ⟨l, hrun, hsound, -, harrived⟩ := run_sound (start_sound hd) hjust hok
  refine ⟨l, hrun, ?_⟩
  have hstep : step (some l₁) (.process hasOutputData) = some l := by
    rw [← hrun₁, ← hrun, runFrom_append]
    rfl
  have hread' : l.link.inRead = l₁.link.inRead := by
    have hrun' : run d (before ++ [.process hasOutputData]) = some l := hrun
    have hrun₁' : run d before = some l₁ := hrun₁
    rw [hrun', hrun₁'] at hread
    exact Option.some.inj hread
  have hnotices' : Notices (some l₁) (.process hasOutputData) := by
    rw [← hrun₁]
    exact hnotices
  obtain ⟨s, hscan⟩ := step_consumed hsound₁ hjust₁ hnotices' hstep hread'
  rw [hsound.received_eq hscan, harrived]
  rfl

/-- What a consumed run delivers depends on the bytes of the stream alone, and each delivered packet
is the payload of a frame whose bytes occur in the stream, as long as every call notices the end of
its input. -/
theorem received_depends_on_stream {d₁ d₂ : DataLink} (hd₁ : d₁.AtRest) (hd₂ : d₂.AtRest)
    (hjust₁ : d₁.justStarted = false) (hjust₂ : d₂.justStarted = false) {events₁ events₂ : List LineEvent}
    (hok₁ : Admits step (fun l e => HasRoom l e ∧ Notices l e) (start d₁) events₁)
    (hok₂ : Admits step (fun l e => HasRoom l e ∧ Notices l e) (start d₂) events₂)
    (hend₁ : EndsConsumed d₁ events₁) (hend₂ : EndsConsumed d₂ events₂)
    (hstream : events₁.flatMap LineEvent.bytes = events₂.flatMap LineEvent.bytes) :
    ∃ l₁ l₂, run d₁ events₁ = some l₁ ∧ run d₂ events₂ = some l₂ ∧ l₁.received = l₂.received ∧
      ∀ packet ∈ l₁.received, ∃ before frame after,
        events₁.flatMap LineEvent.bytes = before ++ frame ++ after ∧ IsFrame frame packet := by
  obtain ⟨l₁, hrun₁, hreceived₁⟩ := run_received hd₁ hjust₁ hok₁ hend₁
  obtain ⟨l₂, hrun₂, hreceived₂⟩ := run_received hd₂ hjust₂ hok₂ hend₂
  refine ⟨l₁, l₂, hrun₁, hrun₂, ?_, ?_⟩
  · rw [hreceived₁, hreceived₂, hstream]
  · intro packet hpacket
    rw [hreceived₁] at hpacket
    exact frame_of_mem_packetsOf hpacket

/-- Line noise, a frame and the start of another are read alike from two places of the ring. -/
theorem received_depends_on_stream_noise : ∃ l₁ l₂,
    run (.atPosition 7 (fun _ => 0x16) (fun _ => 0) false)
      [.read [0x41, 0x16, 0x10, 0x02, 0x10, 0x03, 0x00, 0x00, 0x16], .process fun _ => false,
        .process fun _ => false] = some l₁ ∧
    run (.atPosition 4092 (fun _ => 0x16) (fun _ => 0) false)
      [.read [0x41, 0x16], .process fun _ => true, .read [0x10, 0x02, 0x10], .process fun _ => true,
        .read [0x03, 0x00, 0x00, 0x16], .process fun _ => true, .process fun _ => true] = some l₂ ∧
    l₁.received = l₂.received := by
  have hd₁ : (DataLink.atPosition 7 (fun _ => 0x16) (fun _ => 0) false).AtRest :=
    ⟨by decide, rfl, rfl, rfl⟩
  have hd₂ : (DataLink.atPosition 4092 (fun _ => 0x16) (fun _ => 0) false).AtRest :=
    ⟨by decide, rfl, rfl, rfl⟩
  obtain ⟨l₁, l₂, hrun₁, hrun₂, hreceived, -⟩ := received_depends_on_stream hd₁ hd₂ rfl rfl
    (by decide +kernel) (by decide +kernel)
    ⟨[.read [0x41, 0x16, 0x10, 0x02, 0x10, 0x03, 0x00, 0x00, 0x16], .process fun _ => false],
      fun _ => false, rfl, by decide +kernel⟩
    ⟨[.read [0x41, 0x16], .process fun _ => true, .read [0x10, 0x02, 0x10], .process fun _ => true,
        .read [0x03, 0x00, 0x00, 0x16], .process fun _ => true], fun _ => true, rfl, by decide +kernel⟩
    rfl
  exact ⟨l₁, l₂, hrun₁, hrun₂, hreceived⟩

/-- One byte of noise in the last cell of the ring is delivered as the frame that earlier traffic
has left in the first cells; read at the start of the ring, it delivers nothing. -/
theorem stale_frame_received :
    Admits step HasRoom (start (.atPosition 4095
        (fun i => ([0x16, 0x10, 0x02, 0x10, 0x03, 0x00, 0x00] : List UInt8).getD i 0) (fun _ => 0) false))
      [.read [0x41], .process fun _ => true] ∧
    (run (.atPosition 4095
        (fun i => ([0x16, 0x10, 0x02, 0x10, 0x03, 0x00, 0x00] : List UInt8).getD i 0) (fun _ => 0) false)
      [.read [0x41], .process fun _ => true]).map (fun l => l.received) = some [[]] ∧
    (run (.atPosition 0 (fun _ => 0) (fun _ => 0) false)
      [.read [0x41], .process fun _ => true]).map (fun l => l.received) = some [] ∧
    ¬∃ before frame after, [0x41] = before ++ frame ++ after ∧ IsFrame frame [] := by
  refine ⟨by decide +kernel, by decide +kernel, by decide +kernel, ?_⟩
  rintro ⟨before, frame, after, hstream, hframe⟩
  have hlength := congrArg List.length hstream
  obtain ⟨hbody, -⟩ := hframe
  simp only [List.length_append, List.length_cons] at hlength
  omega

/-- On a line that carries frames only, every call notices the end of its input. -/
theorem Sound.stopsAtEnd {l : Line} (h : l.Sound) {frames payloads : List (List UInt8)}
    (hframes : List.Forall₂ IsFrame frames payloads) (harrived : l.arrived <+: frames.flatten)
    (hasOutputData : ℕ → Bool) : l.link.StopsAtEnd hasOutputData 0 := by
  intro _ _ hidle
  obtain ⟨consumed, packets, hsplit, hcomplete, -⟩ := h.split
  have hstate : (frameReceiver.feed .idle l.arrived).1 = .idle := by
    rw [hsplit]
    change (frameReceiver.feed frameReceiver.start _).1 = _
    rw [hcomplete.feed_append]
    exact hidle
  have hpending := pending_of_frames hframes harrived (by rw [hstate]; trivial)
  rw [hstate, hsplit, hcomplete.pending_append] at hpending
  exact hpending

end Line

/-- The amount received is the number of unread bytes, unless there are none. -/
theorem DataLink.rxAmount_eq {d : DataLink} (h : d.InRing) (hne : d.unread ≠ []) :
    d.rxAmount = d.unread.length := by
  have hr := h.inRead
  have hw := h.inWrite
  have hneq : d.inRead ≠ d.inWrite := by
    intro heq
    apply hne
    rw [← List.length_eq_zero_iff, unread_length, (ringUsed_eq_zero_iff hr hw).mpr heq]
  rw [unread_length, rxAmount, ringUsed, mod_wrap (by omega)]
  split <;> split <;> omega

namespace Line

/-- On a line that carries frames only, no call finds the link unstable. -/
theorem Sound.not_unstable {l : Line} (h : l.Sound) (hinput : l.link.hasInputData = true)
    {frames payloads : List (List UInt8)} (hframes : List.Forall₂ IsFrame frames payloads)
    (harrived : l.arrived <+: frames.flatten) (d : DataLink) (packets : List (Option (List UInt8))) :
    ¬l.link.Called false d packets := by
  intro hcalled
  obtain ⟨-, hrate, hnone, s, hscan, hs⟩ := hcalled.unstable rfl
  obtain ⟨k, s₀, hresumes⟩ := h.resumes
  obtain ⟨k', s', hresumes'⟩ := hcalled.resumes
  obtain ⟨consumed, _, hsplit, hcomplete, -⟩ := h.split
  obtain ⟨used, hunread, hused⟩ := hcalled.taken
  rw [hnone] at hused
  rw [hused.eq_nil, List.nil_append] at hunread
  have hne := (DataLink.hasInputData_iff hresumes.inRing).mp hinput
  have hamount := DataLink.rxAmount_eq hresumes'.inRing (by rwa [← hunread])
  have hstate : (frameReceiver.feed .idle l.arrived).1 = s := by
    rw [hsplit]
    change (frameReceiver.feed frameReceiver.start _).1 = _
    rw [hcomplete.feed_append]
    exact congrArg Prod.fst (frameReceiver.feed_of_scan_inl hscan)
  have hpending := pending_of_frames hframes harrived (by rwa [hstate])
  have hall : frameReceiver.pending l.link.unread = l.link.unread :=
    frameReceiver.pendingFrom_of_scan_inl hscan []
  rw [hstate, hsplit, hcomplete.pending_append, hall] at hpending
  -- At most two bytes of a header are pending.
  rw [hamount, ← hunread, hpending] at hrate
  cases s with
  | idle => cases hrate
  | syn => exact absurd hrate (by decide)
  | dle => exact absurd hrate (by decide)
  | data esc crc rcv => exact hs.elim
  | crcHigh crc rcv => exact hs.elim
  | crcLow high crc rcv => exact hs.elim

/-- While frames come in, the receiving end stays in step and stable. -/
theorem run_frames {l : Line} (h : l.Sound) {frames payloads : List (List UInt8)}
    (hframes : List.Forall₂ IsFrame frames payloads) {events : List LineEvent}
    (harrived : l.arrived ++ events.flatMap LineEvent.bytes = frames.flatten)
    (hroom : Admits step HasRoom (some l) events) :
    ∃ l', runFrom step (some l) events = some l' ∧ l'.Sound ∧ l'.stable = l.stable ∧
      l'.arrived = frames.flatten := by
  induction events generalizing l with
  | nil => exact ⟨l, rfl, h, rfl, by simpa using harrived⟩
  | cons e rest ih =>
    obtain ⟨hroom₁, hrest⟩ := hroom
    rw [List.flatMap_cons, ← List.append_assoc] at harrived
    have hprefix : l.arrived <+: frames.flatten := by
      rw [← harrived, List.append_assoc]
      exact List.prefix_append _ _
    have hnotices : Notices (some l) e := by
      cases e with
      | read bytes => trivial
      | process hasOutputData => exact h.stopsAtEnd hframes hprefix hasOutputData
    obtain ⟨l₁, hstep, hsound, harrived₁, hstable, -⟩ :=
      step_sound h hroom₁ hnotices fun hinput => h.not_unstable hinput hframes hprefix
    rw [hstep] at hrest
    rw [← harrived₁] at harrived
    obtain ⟨l', hrun, hsound', hstable', harrived'⟩ := ih hsound harrived hrest
    exact ⟨l', by rw [runFrom_cons, hstep]; exact hrun, hsound', hstable'.trans hstable, harrived'⟩

/-- When all frames have come in, whole frames are unread, and not more than there are. -/
theorem Sound.unread_complete {l : Line} (h : l.Sound) {frames payloads : List (List UInt8)}
    (hframes : List.Forall₂ IsFrame frames payloads) (harrived : l.arrived = frames.flatten) :
    frameReceiver.Complete l.link.unread (frameReceiver.feed .idle l.link.unread).2 ∧
      (frameReceiver.feed .idle l.link.unread).2.length ≤ payloads.length := by
  obtain ⟨consumed, packets, hsplit, hcomplete, -⟩ := h.split
  have hfeed : frameReceiver.feed .idle l.arrived = (.idle, payloads.map some) := by
    rw [harrived]
    exact feed_frames hframes
  have hprefix : l.arrived <+: frames.flatten := by rw [harrived]
  have hpending := pending_of_frames hframes hprefix (by rw [hfeed]; trivial)
  rw [hfeed, hsplit, hcomplete.pending_append] at hpending
  rw [hsplit] at hfeed
  obtain ⟨hstate, hresults⟩ := Prod.mk.inj ((hcomplete.feed_append l.link.unread).symm.trans hfeed)
  refine ⟨⟨Prod.ext hstate rfl, hpending⟩, ?_⟩
  have hlength := congrArg List.length hresults
  rw [List.length_append, List.length_map] at hlength
  exact Nat.le.intro ((Nat.add_comm _ _).trans hlength)

/-- When all frames have come in, as many calls as there are unread frames leave nothing unread. -/
theorem run_calls {l : Line} (h : l.Sound) {frames payloads : List (List UInt8)}
    (hframes : List.Forall₂ IsFrame frames payloads) (harrived : l.arrived = frames.flatten)
    (calls : List (ℕ → Bool))
    (hcalls : (frameReceiver.feed .idle l.link.unread).2.length ≤ calls.length) :
    ∃ l', runFrom step (some l) (calls.map .process) = some l' ∧ l'.Sound ∧ l'.stable = l.stable ∧
      l'.arrived = frames.flatten ∧ l'.link.unread = [] := by
  have hcomplete := (h.unread_complete hframes harrived).1
  induction calls generalizing l with
  | nil =>
    rw [List.eq_nil_of_length_eq_zero (Nat.le_zero.mp hcalls)] at hcomplete
    exact ⟨l, rfl, h, rfl, harrived, hcomplete.eq_nil⟩
  | cons hasOutputData calls ih =>
    obtain ⟨k, s, hresumes⟩ := h.resumes
    rw [List.map_cons, runFrom_cons]
    cases hinput : l.link.hasInputData with
    | false =>
      have hempty := h.unread_nil hinput
      have hstep : step (some l) (.process hasOutputData) = some l := by
        rw [step, hinput]
        rfl
      rw [hstep]
      exact ih h harrived (by rw [hempty]; exact Nat.zero_le _) hcomplete
    | true =>
      have hprefix : l.arrived <+: frames.flatten := by rw [harrived]
      obtain ⟨l₁, packets, hstep, hprocessed⟩ := step_process h hasOutputData hinput
        (h.stopsAtEnd hframes hprefix hasOutputData) (h.not_unstable hinput hframes hprefix)
      have harrived₁ := hprocessed.arrived.trans harrived
      have hcalled := hprocessed.called
      obtain ⟨used, hunread, hused⟩ := hcalled.taken
      have hpackets : packets ≠ [] := by
        intro hnil
        obtain ⟨s', hscan⟩ := hcalled.exhausted hnil
        rw [frameReceiver.feed_of_scan_inl hscan] at hcomplete
        exact (DataLink.hasInputData_iff hresumes.inRing).mp hinput hcomplete.eq_nil
      have hfeed := hused.feed_append l₁.link.unread
      rw [← hunread] at hfeed
      have hpos := List.length_pos_iff.mpr hpackets
      have hlength := congrArg (fun r => r.2.length) hfeed
      simp only [List.length_append] at hlength
      rw [List.length_cons] at hcalls
      obtain ⟨l', hrun, hsound, hstable, hdone⟩ := ih hprocessed.sound harrived₁
        (by change (frameReceiver.feed frameReceiver.start _).2.length ≤ _
            change (frameReceiver.feed frameReceiver.start _).2.length ≤ _ at hcalls
            omega)
        (hprocessed.sound.unread_complete hframes harrived₁).1
      refine ⟨l', by rw [hstep]; exact hrun, hsound, ?_, hdone⟩
      exact hstable.trans hprocessed.stable

/-- When all frames have been taken off the ring, their payloads have been delivered. -/
theorem Sound.received_payloads {l : Line} (h : l.Sound) {frames payloads : List (List UInt8)}
    (hframes : List.Forall₂ IsFrame frames payloads) (harrived : l.arrived = frames.flatten)
    (hempty : l.link.unread = []) : l.received = payloads := by
  have hscan : frameReceiver.scan .idle l.link.unread = .inl .idle := by
    rw [hempty]
    rfl
  rw [h.received_eq hscan, harrived, packetsOf, feed_frames hframes, List.flatMap_map]
  exact List.flatMap_singleton' payloads

end Line

/-- What the sending end puts on the line is a stream of frames of the payloads sent. -/
theorem frames_of_sends (sends : List SenderEvent) :
    ∃ frames, List.Forall₂ IsFrame frames (sends.filterMap SenderEvent.payload) ∧
      frames.flatten = sends.flatMap SenderEvent.message := by
  induction sends with
  | nil => exact ⟨[], .nil, rfl⟩
  | cons e rest ih =>
    obtain ⟨frames, hframes, hflatten⟩ := ih
    cases e with
    | send b isEPOC =>
      refine ⟨frameMessage b isEPOC :: frames, .cons (frameMessage_isFrame b isEPOC) hframes, ?_⟩
      rw [List.flatten_cons, hflatten]
      rfl
    | write n => exact ⟨frames, hframes, hflatten⟩

namespace Line

/-- The payloads sent are the packets received: however the bytes that the sending end put on the
line are cut into reads, and whenever calls return early, no call finds the link unstable, and once
everything has been read the calls deliver exactly the payloads, in order, and consume all input. -/
theorem received_eq_sent {tx rx : DataLink} (htx : tx.Running) (hempty : tx.outRead = tx.outWrite)
    (hrx : rx.AtRest) {sends : List SenderEvent} {s : Sender}
    (hsent : runFrom Sender.step (some ⟨tx, []⟩) sends = some s)
    (hdrained : s.link.outRead = s.link.outWrite) {events : List LineEvent}
    (hwire : events.flatMap LineEvent.bytes = s.line) (hroom : Admits step HasRoom (start rx) events) :
    ∃ l, run rx events = some l ∧ l.stable = true ∧
      (l.link.hasInputData = false → l.received = sends.filterMap SenderEvent.payload) ∧
      ∀ calls : List (ℕ → Bool), (sends.filterMap SenderEvent.payload).length ≤ calls.length →
        ∃ l', run rx (events ++ calls.map .process) = some l' ∧ l'.stable = true ∧
          l'.link.hasInputData = false ∧ l'.received = sends.filterMap SenderEvent.payload := by
  obtain ⟨frames, hframes, hflatten⟩ := frames_of_sends sends
  have hline : events.flatMap LineEvent.bytes = frames.flatten := by
    rw [hwire, Sender.line_of_run htx hempty hsent hdrained, hflatten]
  obtain ⟨l, hrun, hsound, hstable, harrived⟩ :=
    run_frames (start_sound hrx) hframes hline hroom
  refine ⟨l, hrun, hstable, fun hnone => ?_, fun calls hcalls => ?_⟩
  · exact hsound.received_payloads hframes harrived (hsound.unread_nil hnone)
  · have hbound := (hsound.unread_complete hframes harrived).2
    obtain ⟨l', hrun', hsound', hstable', harrived', hunread'⟩ :=
      run_calls hsound hframes harrived calls (le_trans hbound hcalls)
    refine ⟨l', ?_, hstable'.trans hstable, ?_, hsound'.received_payloads hframes harrived' hunread'⟩
    · rw [run, runFrom_append]
      exact (congrArg (fun s => runFrom step s (calls.map .process)) hrun).trans hrun'
    · obtain ⟨k, state, hresumes⟩ := hsound'.resumes
      by_contra hinput
      exact (DataLink.hasInputData_iff hresumes.inRing).mp (Bool.not_eq_false _ ▸ hinput) hunread'

/-- A payload that is a single ETX goes through the ring in two reads, over its end. -/
theorem received_eq_sent_etx : ∃ l,
    run (.atPosition 4090 (fun _ => 0) (fun _ => 0) true)
      [.read [0x16, 0x10, 0x02, 0x10], .process fun _ => true,
        .read [0x04, 0x10, 0x03, 0x30, 0x63], .process fun _ => true] = some l ∧
    l.stable = true ∧ l.received = [[0x03]] := by
  have htx : (DataLink.atPosition 0 (fun _ => 0) (fun _ => 0) true).Running :=
    ⟨by decide, by decide, rfl⟩
  have hrx : (DataLink.atPosition 4090 (fun _ => 0) (fun _ => 0) true).AtRest :=
    ⟨by decide, rfl, rfl, rfl⟩
  have hsent : ∃ s, runFrom Sender.step (some ⟨.atPosition 0 (fun _ => 0) (fun _ => 0) true, []⟩)
      [.send [0x03] true, .write 100] = some s ∧ s.link.outRead = s.link.outWrite ∧
      s.line = [0x16, 0x10, 0x02, 0x10, 0x04, 0x10, 0x03, 0x30, 0x63] :=
    ⟨_, rfl, by decide +kernel, by decide +kernel⟩
  obtain ⟨s, hrun, hdrained, hline⟩ := hsent
  have hconsumed : ((run (.atPosition 4090 (fun _ => 0) (fun _ => 0) true)
      [.read [0x16, 0x10, 0x02, 0x10], .process fun _ => true,
        .read [0x04, 0x10, 0x03, 0x30, 0x63], .process fun _ => true]).map
      fun l => l.link.hasInputData) = some false := by decide +kernel
  obtain ⟨l, hl, hstable, hreceived, -⟩ := @received_eq_sent _ _ htx rfl hrx _ _ hrun hdrained
    [.read [0x16, 0x10, 0x02, 0x10], .process fun _ => true,
      .read [0x04, 0x10, 0x03, 0x30, 0x63], .process fun _ => true] hline.symm (by decide +kernel)
  rw [hl] at hconsumed
  exact ⟨l, hl, hstable, hreceived (Option.some.inj hconsumed)⟩

end Line

end Plptools
