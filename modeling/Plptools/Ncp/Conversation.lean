import Plptools.Ncp.Model
import Plptools.Library.Demux
import Plptools.Library.Run
import Plptools.Buffer.Refinement

/-!
# Messages in fragments

`NCP.send` cuts a message into fragments and marks the last one; `NCP.receive` puts the fragments of
each channel together. The multiplexer is a family of reassemblers, one for each channel number, so
what is delivered on a channel does not depend on the fragments of the others. A Series 3 does not
say which channel it answers: there the family works only while the addressed channel is the last
one that sent.
-/

namespace Plptools

open Plptools.Library

/-- The pieces of a message, each with a mark that says whether it is the last one. -/
def flagLast {A : Type*} : List A → List (Bool × A)
  | [] => []
  | [a] => [(true, a)]
  | a :: b :: rest => (false, a) :: flagLast (b :: rest)

/-- Something is flagged. -/
theorem flagLast_ne_nil {A : Type*} (a : A) (rest : List A) : flagLast (a :: rest) ≠ [] := by
  cases rest with
  | nil => exact List.cons_ne_nil _ _
  | cons b rest => exact List.cons_ne_nil _ _

/-- The flagged pieces are the pieces. -/
theorem mem_flagLast {A : Type*} {a : Bool × A} {pieces : List A} (h : a ∈ flagLast pieces) :
    a.2 ∈ pieces := by
  induction pieces with
  | nil => cases h
  | cons piece rest ih =>
    cases rest with
    | nil =>
      rw [List.mem_singleton.mp h]
      exact List.mem_cons_self
    | cons next rest =>
      rcases List.mem_cons.mp h with rfl | hrest
      · exact List.mem_cons_self
      · exact List.mem_cons_of_mem _ (ih hrest)

/-- Put together the pieces of messages: the last piece completes one. -/
def assemble (buffer : List UInt8) (piece : Bool × List UInt8) : List UInt8 × List (List UInt8) :=
  if piece.1 then ([], [buffer ++ piece.2]) else (buffer ++ piece.2, [])

/-- The pieces of a message complete it. -/
theorem assemble_flagLast (buffer : List UInt8) {pieces : List (List UInt8)} (h : pieces ≠ []) :
    outputs assemble buffer (flagLast pieces) = ([], [buffer ++ pieces.flatten]) := by
  induction pieces generalizing buffer with
  | nil => exact absurd rfl h
  | cons piece rest ih =>
    cases rest with
    | nil => simp [flagLast, outputs, assemble]
    | cons next rest =>
      rw [flagLast, outputs]
      change ((outputs assemble (buffer ++ piece) (flagLast (next :: rest))).1, _ ++
        (outputs assemble (buffer ++ piece) (flagLast (next :: rest))).2) = _
      rw [ih (buffer ++ piece) (List.cons_ne_nil _ _), List.append_assoc]
      rfl

/-- The pieces of a list of messages complete these messages. -/
theorem assemble_messages (messages : List (List (List UInt8))) (h : ∀ pieces ∈ messages, pieces ≠ []) :
    outputs assemble [] (messages.flatMap flagLast) = ([], messages.map List.flatten) := by
  induction messages with
  | nil => rfl
  | cons pieces messages ih =>
    have hfirst := assemble_flagLast [] (h pieces List.mem_cons_self)
    rw [List.flatMap_cons, outputs_append, hfirst, ih fun p hp => h p (List.mem_cons_of_mem _ hp),
      List.map_cons, List.nil_append]
    rfl

namespace NCP

/-- The pieces into which `send` cuts a message. -/
def pieces : ℕ → List UInt8 → List (List UInt8)
  | 0, _ => []
  | rounds + 1, a =>
    if a.length > NCP_SENDLEN then a.take NCP_SENDLEN :: pieces rounds (a.drop NCP_SENDLEN)
    else [a.take NCP_SENDLEN]

/-- The cut is by the lengths of the buffers: at most `NCP_SENDLEN` bytes go into the packet, and as
many are discarded. -/
theorem cut_represents {a out : BufferStore} (ha : a.Fits) (hout : out.Fits) {xs ys : List UInt8}
    (hxs : a.Represents xs) (hys : out.Represents ys) :
    (out.addBuff a NCP_SENDLEN).Represents (ys ++ xs.take NCP_SENDLEN) ∧
      (a.discardFirstBytes NCP_SENDLEN).Represents (xs.drop NCP_SENDLEN) := by
  refine ⟨?_, BufferStore.represents_discard a ha hxs NCP_SENDLEN⟩
  obtain ⟨hfits, hwritten⟩ := BufferStore.addBuff_spec out a hout ha NCP_SENDLEN
  have hlen : a.getLen = xs.length := hxs.2.1
  have hcount := BufferStore.buffCount_le xs.length NCP_SENDLEN
  have htake : xs.take (BufferStore.buffCount xs.length NCP_SENDLEN) = xs.take NCP_SENDLEN := by
    unfold BufferStore.buffCount
    split
    · rfl
    · rw [List.take_length, List.take_of_length_le (by omega)]
  rw [hlen, BufferStore.getString_eq a ha hxs _ hcount, htake] at hwritten
  have hstart : (out.addBuff a NCP_SENDLEN).start = out.start := by
    simp only [BufferStore.addBuff]
    split <;> rfl
  exact BufferStore.represents_append out _ hout hfits hys hstart hwritten

/-- Enough rounds cut the whole message, into pieces of the allowed length. -/
theorem pieces_spec {rounds : ℕ} {a : List UInt8} (h : a.length < rounds) :
    pieces rounds a ≠ [] ∧ (pieces rounds a).flatten = a ∧
      ∀ piece ∈ pieces rounds a, piece.length ≤ NCP_SENDLEN := by
  induction rounds generalizing a with
  | zero => omega
  | succ rounds ih =>
    rw [pieces]
    by_cases hlong : a.length > NCP_SENDLEN
    · have hshort : (a.drop NCP_SENDLEN).length < rounds := by
        rw [List.length_drop]
        unfold NCP_SENDLEN at *
        omega
      obtain ⟨-, hflatten, hlength⟩ := ih hshort
      rw [if_pos hlong]
      refine ⟨List.cons_ne_nil _ _, ?_, ?_⟩
      · rw [List.flatten_cons, hflatten, List.take_append_drop]
      · intro piece hpiece
        rcases List.mem_cons.mp hpiece with rfl | hrest
        · exact List.length_take_le _ _
        · exact hlength piece hrest
    · rw [if_neg hlong]
      have htake : a.take NCP_SENDLEN = a := List.take_of_length_le (by omega)
      refine ⟨List.cons_ne_nil _ _, ?_, ?_⟩
      · rw [htake, List.flatten_cons, List.flatten_nil, List.append_nil]
      · intro piece hpiece
        rw [List.mem_singleton.mp hpiece]
        exact List.length_take_le _ _

/-- The fragments of a message. -/
def fragments (a : List UInt8) : List (Bool × List UInt8) := flagLast (pieces (a.length + 1) a)

/-- The loop of `send` hands the pieces to the link. -/
theorem sendLoop_eq (channel rounds : ℕ) (n : NCP) (a : List UInt8) (h : a.length < rounds) :
    sendLoop channel rounds n a =
      { n with sent := n.sent ++ (flagLast (pieces rounds a)).map fun piece =>
          n.dataFrame channel piece.1 piece.2 } := by
  induction rounds generalizing n a with
  | zero => omega
  | succ rounds ih =>
    rw [sendLoop, pieces]
    by_cases hlong : a.length > NCP_SENDLEN
    · have hshort : (a.drop NCP_SENDLEN).length < rounds := by
        rw [List.length_drop]
        unfold NCP_SENDLEN at *
        omega
      obtain ⟨piece, rest, hrest⟩ := List.exists_cons_of_ne_nil (pieces_spec hshort).1
      rw [if_pos hlong, decide_eq_true hlong]
      simp only [Bool.not_true, Bool.false_eq_true, if_false]
      rw [ih _ _ hshort, hrest, flagLast, List.map_cons, linkSend, List.append_assoc]
      rfl
    · rw [if_neg hlong, decide_eq_false hlong]
      rfl

/-- What `send` does: the fragments go to the link, and the channel is the last one that sent. -/
theorem send_eq (n : NCP) (channel : ℕ) (a : List UInt8) :
    n.send channel a =
      { n with
        sent := n.sent ++ (fragments a).map fun piece => n.dataFrame channel piece.1 piece.2
        lastSentChannel := channel } := by
  rw [send, sendLoop_eq channel (a.length + 1) n a (Nat.lt_succ_self _)]
  rfl

/-- The channel number to which a fragment is addressed. -/
def destination (frame : List UInt8) : ℕ := (frame.getD 0 0).toNat

/-- Whether a fragment is the last of its message, and its data. -/
def fragment (frame : List UInt8) : Bool × List UInt8 := (frame.getD 2 0 = LAST_MESS, frame.drop 3)

/-- A fragment with its destination. -/
def keyed (frame : List UInt8) : ℕ × (Bool × List UInt8) := (destination frame, fragment frame)

/-- A packet that is a fragment: it is addressed to a channel and bears one of the two marks. -/
structure IsFragment (frame : List UInt8) : Prop where
  length : 3 ≤ frame.length
  destination : destination frame ≠ 0
  mark : frame.getD 2 0 = LAST_MESS ∨ frame.getD 2 0 = NOT_LAST_MESS

/-- The object under a number. -/
def objectAt (n : NCP) (channel : ℕ) : ℕ :=
  match n.channelPtr channel with
  | .object ch => ch
  | _ => 0

/-- At a valid channel there is an object. -/
theorem channelPtr_eq {n : NCP} {channel : ℕ} (h : n.isValidChannel channel = true) :
    n.channelPtr channel = .object (n.objectAt channel) := by
  unfold isValidChannel at h
  unfold objectAt
  cases hptr : n.channelPtr channel with
  | null =>
    rw [hptr] at h
    cases h
  | reserved =>
    rw [hptr] at h
    cases h
  | object ch => rfl

/-- The callback for a completed message. -/
def callbackOf (n : NCP) (message : ℕ × List UInt8) : Callback :=
  .ncpDataCallback message.1 (n.objectAt message.1) message.2

/-- What the clients and the device do: a client sends a message, or a fragment arrives. -/
inductive ClientEvent where
  | send (channel : ℕ) (a : List UInt8)
  | reply (frame : List UInt8) (time : ℕ)

/-- The event of the multiplexer. -/
def ClientEvent.event : ClientEvent → Event
  | .send channel a => .send channel a
  | .reply frame time => .receive frame time

/-- The fragment that arrives with an event. -/
def ClientEvent.frame : ClientEvent → Option (List UInt8)
  | .send _ _ => none
  | .reply frame _ => some frame

/-- A step of clients and device. -/
def clientStep (n : NCP) (e : ClientEvent) : NCP := n.step e.event

/-- A fragment from a Series 3 arrives while the addressed channel is the last one that sent. -/
def Routed (n : NCP) : ClientEvent → Prop
  | .send _ _ => True
  | .reply frame _ => n.protocolVersion = PV_SERIES_3 → n.lastSentChannel = destination frame

/-- A routed fragment is put together with those that came before it for its destination. -/
theorem receive_fragment {n : NCP} {frame : List UInt8} (time : ℕ) (hframe : IsFragment frame)
    (hvalid : n.isValidChannel (destination frame) = true) (hrouted : Routed n (.reply frame time)) :
    n.receive frame time =
      { n with
        messageList := Function.update n.messageList (destination frame)
          (assemble (n.messageList (destination frame)) (fragment frame)).1
        calls := n.calls ++ (assemble (n.messageList (destination frame)) (fragment frame)).2.map
          fun message => n.callbackOf (destination frame, message) } := by
  have hlength := hframe.length
  have hchannel : (if n.protocolVersion = PV_SERIES_3 then n.lastSentChannel else destination frame) =
      destination frame := by
    by_cases hversion : n.protocolVersion = PV_SERIES_3
    · rw [if_pos hversion, hrouted hversion]
    · rw [if_neg hversion]
  have hmark : (frame.drop 1).getD 1 0 = frame.getD 2 0 := by
    rw [List.getD_eq_getElem?_getD, List.getElem?_drop, ← List.getD_eq_getElem?_getD]
  rw [receive, if_pos (by omega)]
  change (if destination frame = 0 then _ else n.receiveData
    (if n.protocolVersion = PV_SERIES_3 then n.lastSentChannel else destination frame)
    ((frame.drop 1).getD 1 0) ((frame.drop 1).drop 2)) = _
  rw [if_neg hframe.destination, hchannel, hmark, List.drop_drop, receiveData, channelPtr_eq hvalid]
  by_cases hlast : frame.getD 2 0 = LAST_MESS
  · have hfragment : fragment frame = (true, frame.drop 3) := by
      rw [fragment, decide_eq_true hlast]
    simp only [hfragment, assemble, if_pos hlast, if_true]
    rfl
  · have hfragment : fragment frame = (false, frame.drop 3) := by
      rw [fragment, decide_eq_false hlast]
    simp only [hfragment, assemble, if_neg hlast, Bool.false_eq_true, if_false, List.map_nil,
      List.append_nil]

/-- The fragments that arrive during some events. -/
def repliesIn (events : List ClientEvent) : List (List UInt8) := events.filterMap ClientEvent.frame

/-- From a Series 5 every fragment is routed, whatever the clients send. -/
theorem admits_of_series5 {n : NCP} (hversion : n.protocolVersion = PV_SERIES_5)
    {events : List ClientEvent}
    (hframes : ∀ frame ∈ repliesIn events, IsFragment frame ∧ n.isValidChannel (destination frame) = true) :
    Admits clientStep Routed n events := by
  have hother : ¬n.protocolVersion = PV_SERIES_3 := by
    rw [hversion]
    decide
  induction events generalizing n with
  | nil => trivial
  | cons e rest ih =>
    cases e with
    | send channel a =>
      refine ⟨trivial, ?_⟩
      have hstep : clientStep n (.send channel a) = n.send channel a := rfl
      rw [hstep, send_eq]
      apply ih
      · exact hversion
      · exact fun frame hframe => hframes frame hframe
      · exact hother
    | reply frame time =>
      obtain ⟨hframe, hvalid⟩ := hframes frame List.mem_cons_self
      have hrouted : Routed n (.reply frame time) := fun h => absurd h hother
      refine ⟨hrouted, ?_⟩
      have hstep : clientStep n (.reply frame time) = n.receive frame time := rfl
      rw [hstep, receive_fragment time hframe hvalid hrouted]
      apply ih
      · exact hversion
      · exact fun frame' hframe' => hframes frame' (List.mem_cons_of_mem _ hframe')
      · exact hother

/-- The messages of each channel are put together independently of the other channels and of what
the clients send meanwhile. -/
theorem run_replies {n : NCP} {events : List ClientEvent}
    (hframes : ∀ frame ∈ repliesIn events, IsFragment frame ∧ n.isValidChannel (destination frame) = true)
    (hrouted : Admits clientStep Routed n events) :
    (runFrom clientStep n events).calls =
      n.calls ++ (demux assemble n.messageList ((repliesIn events).map keyed)).2.map n.callbackOf := by
  induction events generalizing n with
  | nil => exact (List.append_nil _).symm
  | cons e rest ih =>
    obtain ⟨hrouted₁, hrest⟩ := hrouted
    rw [runFrom_cons]
    cases e with
    | send channel a =>
      have hstep : clientStep n (.send channel a) = n.send channel a := rfl
      rw [hstep, send_eq] at hrest ⊢
      exact ih (fun frame hframe => hframes frame hframe) hrest
    | reply frame time =>
      obtain ⟨hframe, hvalid⟩ := hframes frame List.mem_cons_self
      have hstep : clientStep n (.reply frame time) = n.receive frame time := rfl
      rw [hstep, receive_fragment time hframe hvalid hrouted₁] at hrest ⊢
      refine (ih (fun frame' hframe' => ?_) hrest).trans ?_
      · exact hframes frame' (List.mem_cons_of_mem _ hframe')
      change _ = n.calls ++ (demux assemble n.messageList
        ((destination frame, fragment frame) :: (repliesIn rest).map keyed)).2.map n.callbackOf
      rw [demux, List.map_append, List.map_map, List.append_assoc]
      rfl

/-- Each channel is called with what its own fragments complete. -/
theorem run_delivered {n : NCP} {events : List ClientEvent}
    (hframes : ∀ frame ∈ repliesIn events, IsFragment frame ∧ n.isValidChannel (destination frame) = true)
    (hrouted : Admits clientStep Routed n events) :
    ∃ delivered : List (ℕ × List UInt8),
      (runFrom clientStep n events).calls = n.calls ++ delivered.map n.callbackOf ∧
      (∀ message ∈ delivered, ∃ frame ∈ repliesIn events, message.1 = destination frame ∧
        n.channelPtr message.1 = .object (n.objectAt message.1)) ∧
      ∀ c, ofKey c delivered =
        (outputs assemble (n.messageList c) (ofKey c ((repliesIn events).map keyed))).2 := by
  refine ⟨_, run_replies hframes hrouted, fun message hmessage => ?_, fun c => ?_⟩
  · obtain ⟨a, ha⟩ := mem_demux hmessage
    obtain ⟨frame, hframe, heq⟩ := List.mem_map.mp ha
    have hkey : destination frame = message.1 := congrArg Prod.fst heq
    refine ⟨frame, hframe, hkey.symm, ?_⟩
    rw [← hkey]
    exact channelPtr_eq (hframes frame hframe).2
  · exact congrArg Prod.snd (demux_ofKey assemble n.messageList ((repliesIn events).map keyed) c)

/-- Whatever the clients send meanwhile, and however the fragments of different channels are
interleaved, the replies on each connected channel are delivered to the object of that channel,
whole, unmixed and in order, and nothing is delivered elsewhere. From a Series 3 every fragment must
arrive while the channel it is for is the last one that sent. -/
theorem replies_isolated {n : NCP} {events : List ClientEvent} {replies : ℕ → List (List (List UInt8))}
    (hversion : n.protocolVersion = PV_SERIES_5 ∨
      n.protocolVersion = PV_SERIES_3 ∧ Admits clientStep Routed n events)
    (hframes : ∀ frame ∈ repliesIn events, IsFragment frame ∧ n.isValidChannel (destination frame) = true)
    (hempty : ∀ c, n.isValidChannel c = true → n.messageList c = [])
    (hpieces : ∀ c, ∀ reply ∈ replies c, reply ≠ [])
    (hreplies : ∀ c, ofKey c ((repliesIn events).map keyed) = (replies c).flatMap flagLast) :
    ∃ delivered : List (ℕ × List UInt8),
      (runFrom clientStep n events).calls = n.calls ++ delivered.map n.callbackOf ∧
      (∀ message ∈ delivered, n.channelPtr message.1 = .object (n.objectAt message.1)) ∧
      ∀ c, ofKey c delivered = (replies c).map List.flatten := by
  have hrouted : Admits clientStep Routed n events := by
    rcases hversion with hversion | ⟨-, hrouted⟩
    · exact admits_of_series5 hversion hframes
    · exact hrouted
  obtain ⟨delivered, hcalls, hobjects, hdelivered⟩ := run_delivered hframes hrouted
  refine ⟨delivered, hcalls, fun message hmessage => ?_, fun c => ?_⟩
  · obtain ⟨frame, -, -, hobject⟩ := hobjects message hmessage
    exact hobject
  · rw [hdelivered, hreplies]
    cases hall : replies c with
    | nil => rfl
    | cons reply rest =>
      obtain ⟨piece, pieces, rfl⟩ :=
        List.exists_cons_of_ne_nil (hpieces c reply (by rw [hall]; exact List.mem_cons_self))
      have hvalid : n.isValidChannel c = true := by
        obtain ⟨flagged, hflagged⟩ := List.exists_mem_of_ne_nil _ (flagLast_ne_nil piece pieces)
        have hmem : flagged ∈ ofKey c ((repliesIn events).map keyed) := by
          rw [hreplies c, hall, List.flatMap_cons]
          exact List.mem_append_left _ hflagged
        obtain ⟨frame, hframe, heq⟩ := List.mem_map.mp (mem_of_ofKey hmem)
        have hkey : destination frame = c := congrArg Prod.fst heq
        rw [← hkey]
        exact (hframes frame hframe).2
      rw [hempty c hvalid, ← hall, assemble_messages _ (hpieces c)]

/-- Two clients connected under the numbers 1 and 2, which the device knows as 2 and 1. -/
def twoClients (version : UInt8) : NCP :=
  runFrom step (init (fun _ => 0) 0)
    [.receive [0, 0, 6, version] 0, .newChannel [0x41], .connect 0, .receive [0, 2, 4, 1, 0] 0,
      .newChannel [0x42], .connect 1, .receive [0, 1, 4, 2, 0] 0]

/-- On a Series 3, two clients that wait for each other's replies get their own. -/
theorem replies_isolated_series3 : ∃ delivered : List (ℕ × List UInt8),
    (runFrom clientStep (twoClients 3)
      [.send 1 [0x01], .reply [1, 2, 2, 0xaa] 0, .reply [1, 2, 1, 0xbb] 0, .send 2 [0x02],
        .reply [2, 1, 1, 0xcc] 0]).calls =
      (twoClients 3).calls ++ delivered.map (twoClients 3).callbackOf ∧
    ofKey 1 delivered = [[0xaa, 0xbb]] ∧ ofKey 2 delivered = [[0xcc]] := by
  have hframes : ∀ frame ∈ repliesIn [.send 1 [0x01], .reply [1, 2, 2, 0xaa] 0,
      .reply [1, 2, 1, 0xbb] 0, .send 2 [0x02], .reply [2, 1, 1, 0xcc] 0],
      IsFragment frame ∧ (twoClients 3).isValidChannel (destination frame) = true := by
    intro frame hframe
    simp only [repliesIn, ClientEvent.frame, List.filterMap_cons, List.filterMap_nil, List.mem_cons,
      List.not_mem_nil, or_false] at hframe
    rcases hframe with rfl | rfl | rfl
    · exact ⟨⟨by decide, by decide, Or.inr rfl⟩, rfl⟩
    · exact ⟨⟨by decide, by decide, Or.inl rfl⟩, rfl⟩
    · exact ⟨⟨by decide, by decide, Or.inl rfl⟩, rfl⟩
  have hrouted : Admits clientStep Routed (twoClients 3) [.send 1 [0x01], .reply [1, 2, 2, 0xaa] 0,
      .reply [1, 2, 1, 0xbb] 0, .send 2 [0x02], .reply [2, 1, 1, 0xcc] 0] :=
    ⟨trivial, fun _ => rfl, fun _ => rfl, trivial, fun _ => rfl, trivial⟩
  obtain ⟨delivered, hcalls, -, hdelivered⟩ := @replies_isolated (twoClients 3) _
    (fun c => if c = 1 then [[[0xaa], [0xbb]]] else if c = 2 then [[[0xcc]]] else [])
    (Or.inr ⟨rfl, hrouted⟩) hframes
    (fun _ _ => rfl)
    (by
      intro c reply hreply
      split at hreply
      · rw [List.mem_singleton.mp hreply]
        exact List.cons_ne_nil _ _
      · split at hreply
        · rw [List.mem_singleton.mp hreply]
          exact List.cons_ne_nil _ _
        · cases hreply)
    (by
      intro c
      by_cases h₁ : c = 1
      · subst h₁
        rfl
      · by_cases h₂ : c = 2
        · subst h₂
          rfl
        · rw [if_neg h₁, if_neg h₂]
          apply ofKey_eq_nil
          intro item hitem
          obtain ⟨frame, hframe, rfl⟩ := List.mem_map.mp hitem
          simp only [repliesIn, ClientEvent.frame, List.filterMap_cons, List.filterMap_nil,
            List.mem_cons, List.not_mem_nil, or_false] at hframe
          rcases hframe with rfl | rfl | rfl
          · exact Ne.symm h₁
          · exact Ne.symm h₁
          · exact Ne.symm h₂)
  exact ⟨delivered, hcalls, hdelivered 1, hdelivered 2⟩

/-- On a Series 3, a reply to channel 1 goes to channel 2 when that has sent in between. -/
theorem series3_reply_to_other_channel :
    (runFrom clientStep (twoClients 3)
      [.send 1 [0x01], .send 2 [0x02], .reply [1, 2, 1, 0xaa] 0]).calls =
      (twoClients 3).calls ++ [.ncpDataCallback 2 1 [0xaa]] ∧ destination [1, 2, 1, 0xaa] = 1 := by
  decide +kernel

/-- The packets that a list of messages is sent in. -/
def packets (n : NCP) (sends : List (ℕ × List UInt8)) : List (List UInt8) :=
  sends.flatMap fun message =>
    (fragments message.2).map fun piece => n.dataFrame message.1 piece.1 piece.2

/-- Sending messages hands their packets to the link. -/
theorem run_sends (n : NCP) (sends : List (ℕ × List UInt8)) :
    (runFrom step n (sends.map fun message => .send message.1 message.2)).sent =
      n.sent ++ n.packets sends := by
  induction sends generalizing n with
  | nil => exact (List.append_nil _).symm
  | cons message rest ih =>
    rw [List.map_cons, runFrom_cons, step, send_eq, ih]
    exact List.append_assoc _ _ _

/-- A packet with one more than the data bytes of a piece is at most 253 bytes. -/
theorem packets_length (n : NCP) (sends : List (ℕ × List UInt8)) :
    ∀ packet ∈ n.packets sends, packet.length ≤ 253 := by
  intro packet hpacket
  obtain ⟨message, -, hfragment⟩ := List.mem_flatMap.mp hpacket
  obtain ⟨piece, hpiece, rfl⟩ := List.mem_map.mp hfragment
  have hlength := (pieces_spec (Nat.lt_succ_self message.2.length)).2.2 piece.2 (mem_flagLast hpiece)
  rw [dataFrame, List.length_append]
  unfold NCP_SENDLEN at hlength
  exact Nat.add_le_add (le_refl 3) hlength

/-- A piece in a packet, with the number of the channel at the other side. -/
theorem keyed_dataFrame (n : NCP) (channel : ℕ) (h : n.remoteChanList channel < 256) (last : Bool)
    (data : List UInt8) :
    keyed (n.dataFrame channel last data) = (n.remoteChanList channel, (last, data)) := by
  have hbyte : (lowByte (n.remoteChanList channel)).toNat = n.remoteChanList channel := by
    rw [lowByte, UInt8.toNat_ofNat']
    omega
  change ((lowByte (n.remoteChanList channel)).toNat,
    (decide ((if last then LAST_MESS else NOT_LAST_MESS) = LAST_MESS), data)) = _
  rw [hbyte]
  cases last with
  | true => rfl
  | false => rfl

/-- A packet of a message is a fragment. -/
theorem isFragment_dataFrame (n : NCP) (channel : ℕ) (hpos : 0 < n.remoteChanList channel)
    (h : n.remoteChanList channel < 256) (last : Bool) (data : List UInt8) :
    IsFragment (n.dataFrame channel last data) := by
  have hdestination : destination (n.dataFrame channel last data) = n.remoteChanList channel :=
    congrArg Prod.fst (keyed_dataFrame n channel h last data)
  refine ⟨?_, ?_, ?_⟩
  · rw [dataFrame, List.length_append]
    exact Nat.le_add_right 3 _
  · rw [hdestination]
    exact Nat.ne_of_gt hpos
  · cases last with
    | true => exact Or.inl rfl
    | false => exact Or.inr rfl

/-- The packets for one number of the other side are those of the messages on one channel. -/
theorem ofKey_packets {n : NCP} {sends : List (ℕ × List UInt8)} {c : ℕ}
    (hbyte : ∀ message ∈ sends, n.remoteChanList message.1 < 256)
    (hdistinct : ∀ message ∈ sends,
      n.remoteChanList message.1 = n.remoteChanList c → message.1 = c) :
    ofKey (n.remoteChanList c) ((n.packets sends).map keyed) = (ofKey c sends).flatMap fragments := by
  induction sends with
  | nil => rfl
  | cons message rest ih =>
    obtain ⟨channel, a⟩ := message
    have hrest := ih (fun m hm => hbyte m (List.mem_cons_of_mem _ hm))
      (fun m hm => hdistinct m (List.mem_cons_of_mem _ hm))
    have hlt := hbyte (channel, a) List.mem_cons_self
    have hkeyed : ((fragments a).map fun piece => n.dataFrame channel piece.1 piece.2).map keyed =
        (fragments a).map fun piece => (n.remoteChanList channel, piece) := by
      rw [List.map_map]
      apply List.map_congr_left
      intro piece _
      exact keyed_dataFrame n channel hlt piece.1 piece.2
    rw [packets, List.flatMap_cons, List.map_append, ofKey_append, hkeyed]
    change _ ++ ofKey (n.remoteChanList c) ((n.packets rest).map keyed) = _
    rw [hrest, ofKey_cons]
    by_cases hc : channel = c
    · rw [if_pos hc, hc, ofKey_map_pair, List.flatMap_cons]
    · have hne : n.remoteChanList channel ≠ n.remoteChanList c :=
        fun heq => hc (hdistinct (channel, a) List.mem_cons_self heq)
      rw [if_neg hc, ofKey_map_pair_ne hne, List.nil_append]

/-- Selecting the fragments for a number selects their pieces. -/
theorem ofKey_keyed (c : ℕ) (frames : List (List UInt8)) :
    ofKey c (frames.map keyed) = (frames.filter fun frame => destination frame = c).map fragment := by
  induction frames with
  | nil => rfl
  | cons frame rest ih =>
    rw [List.map_cons, ofKey_cons, ih, List.filter_cons]
    by_cases h : destination frame = c
    · rw [if_pos (show (keyed frame).1 = c from h), if_pos (decide_eq_true h), List.map_cons]
      rfl
    · rw [if_neg (show ¬(keyed frame).1 = c from h), decide_eq_false h, if_neg Bool.false_ne_true]

/-- The pieces of the messages on a channel complete these messages. -/
theorem assemble_fragments (messages : List (List UInt8)) :
    outputs assemble [] (messages.flatMap fragments) = ([], messages) := by
  have hpieces := assemble_messages (messages.map fun a => pieces (a.length + 1) a) (by
    intro p hp
    obtain ⟨a, -, rfl⟩ := List.mem_map.mp hp
    exact (pieces_spec (Nat.lt_succ_self a.length)).1)
  rw [List.flatMap_map] at hpieces
  have hflatten : (messages.map fun a => pieces (a.length + 1) a).map List.flatten = messages := by
    rw [List.map_map]
    refine (List.map_congr_left fun a _ => ?_).trans (List.map_id messages)
    exact (pieces_spec (Nat.lt_succ_self a.length)).2.1
  rw [hflatten] at hpieces
  exact hpieces

/-- Messages sent on channels with distinct numbers at the other side arrive there: every packet has
at most 253 bytes, and whichever way the packets of different channels are interleaved, the other
side calls the objects of exactly these channels, once for each message, with its bytes, and on each
channel in the order in which they were sent. -/
theorem fragments_roundtrip {n m : NCP} {sends : List (ℕ × List UInt8)}
    (hremote : ∀ message ∈ sends, 0 < n.remoteChanList message.1 ∧
      n.remoteChanList message.1 < 256 ∧ m.isValidChannel (n.remoteChanList message.1) = true)
    (hdistinct : ∀ message ∈ sends, ∀ other ∈ sends,
      n.remoteChanList message.1 = n.remoteChanList other.1 → message.1 = other.1)
    (hversion : m.protocolVersion = PV_SERIES_5)
    (hempty : ∀ c, m.isValidChannel c = true → m.messageList c = []) :
    ∃ frames, (runFrom step n (sends.map fun message => .send message.1 message.2)).sent =
        n.sent ++ frames ∧
      (∀ frame ∈ frames, frame.length ≤ 253) ∧
      ∀ arriving : List (List UInt8 × ℕ),
        (∀ c, (arriving.map Prod.fst).filter (fun frame => destination frame = c) =
          frames.filter fun frame => destination frame = c) →
        ∃ delivered : List (ℕ × List UInt8),
          (runFrom step m (arriving.map fun frame => .receive frame.1 frame.2)).calls =
            m.calls ++ delivered.map m.callbackOf ∧
          (∀ message ∈ delivered, m.channelPtr message.1 = .object (m.objectAt message.1) ∧
            ∃ sent ∈ sends, message.1 = n.remoteChanList sent.1) ∧
          ∀ sent ∈ sends, ofKey (n.remoteChanList sent.1) delivered = ofKey sent.1 sends := by
  refine ⟨n.packets sends, run_sends n sends, packets_length n sends, fun arriving horder => ?_⟩
  have hfrom : ∀ frame ∈ arriving.map Prod.fst, ∃ message ∈ sends, IsFragment frame ∧
      destination frame = n.remoteChanList message.1 := by
    intro frame hframe
    have hmem : frame ∈ (arriving.map Prod.fst).filter fun f => destination f = destination frame :=
      List.mem_filter.mpr ⟨hframe, decide_eq_true rfl⟩
    rw [horder] at hmem
    obtain ⟨message, hmessage, hpiece⟩ := List.mem_flatMap.mp (List.mem_filter.mp hmem).1
    obtain ⟨piece, -, rfl⟩ := List.mem_map.mp hpiece
    obtain ⟨hpos, hlt, -⟩ := hremote message hmessage
    exact ⟨message, hmessage, isFragment_dataFrame n message.1 hpos hlt piece.1 piece.2,
      congrArg Prod.fst (keyed_dataFrame n message.1 hlt piece.1 piece.2)⟩
  have hevents : repliesIn (arriving.map fun frame => .reply frame.1 frame.2) = arriving.map Prod.fst := by
    rw [repliesIn, List.filterMap_map]
    exact congrFun List.filterMap_eq_map arriving
  have hframes : ∀ frame ∈ repliesIn (arriving.map fun frame => .reply frame.1 frame.2),
      IsFragment frame ∧ m.isValidChannel (destination frame) = true := by
    rw [hevents]
    intro frame hframe
    obtain ⟨message, hmessage, hfragment, hdestination⟩ := hfrom frame hframe
    rw [hdestination]
    exact ⟨hfragment, (hremote message hmessage).2.2⟩
  have hrouted : Admits clientStep Routed m (arriving.map fun frame => .reply frame.1 frame.2) :=
    admits_of_series5 hversion hframes
  obtain ⟨delivered, hcalls, hobjects, hdelivered⟩ := run_delivered hframes hrouted
  refine ⟨delivered, ?_, fun message hmessage => ?_, fun sent hsent => ?_⟩
  · rw [← hcalls, runFrom, runFrom, List.foldl_map, List.foldl_map]
    rfl
  · obtain ⟨frame, hframe, hkey, hobject⟩ := hobjects message hmessage
    rw [hevents] at hframe
    obtain ⟨other, hother, -, hdestination⟩ := hfrom frame hframe
    exact ⟨hobject, other, hother, hkey.trans hdestination⟩
  · have hvalid := (hremote sent hsent).2.2
    rw [hdelivered, hevents, ofKey_keyed, horder, ← ofKey_keyed,
      ofKey_packets (fun other hother => (hremote other hother).2.1)
        (fun other hother heq => hdistinct other hother sent hsent heq),
      hempty _ hvalid, assemble_fragments]

/-- A message of exactly one full fragment, and two others, between two clients. -/
theorem fragments_roundtrip_full : ∃ frames,
    (runFrom step (twoClients 6)
      [.send 1 [1, 2, 3], .send 2 (List.replicate 250 7), .send 1 []]).sent =
      (twoClients 6).sent ++ frames ∧
    ∃ delivered : List (ℕ × List UInt8),
      (runFrom step (twoClients 6) (frames.map fun frame => .receive frame 0)).calls =
        (twoClients 6).calls ++ delivered.map (twoClients 6).callbackOf ∧
      ofKey 2 delivered = [[1, 2, 3], []] ∧ ofKey 1 delivered = [List.replicate 250 7] := by
  obtain ⟨frames, hsent, -, hroundtrip⟩ := @fragments_roundtrip (twoClients 6) (twoClients 6)
    [(1, [1, 2, 3]), (2, List.replicate 250 7), (1, [])]
    (by
      intro message hmessage
      simp only [List.mem_cons, List.not_mem_nil, or_false] at hmessage
      rcases hmessage with rfl | rfl | rfl
      · exact ⟨by decide, by decide, rfl⟩
      · exact ⟨by decide, by decide, rfl⟩
      · exact ⟨by decide, by decide, rfl⟩)
    (by decide) rfl (fun _ _ => rfl)
  obtain ⟨delivered, hcalls, -, hdelivered⟩ := hroundtrip (frames.map fun frame => (frame, 0)) (by
    intro c
    rw [List.map_map]
    exact congrArg _ (List.map_id frames))
  rw [List.map_map] at hcalls
  exact ⟨frames, hsent, delivered, hcalls, hdelivered (1, [1, 2, 3]) List.mem_cons_self,
    hdelivered (2, List.replicate 250 7) (List.mem_cons_of_mem _ List.mem_cons_self)⟩

end NCP

end Plptools
