import Plptools.DataLink.Frame
import Plptools.Link.Running
import Plptools.Ncp.PacketSize

/-!
# Frames that are too short

Three functions take a received frame apart: the link its packet type and number, the multiplexer its
channel, and `decodeControlMessage` the fields of a control message. Here they answer `none` where the
code reads behind the end of the buffer. Only a packet of one byte is checked for its length.
-/

namespace Plptools

open Plptools.Library

/-- `strcmp` of the string in a buffer with a literal: whether they are equal, found at the first byte
where they differ or at the end of both. -/
def strcmpEq : List UInt8 → List UInt8 → Option Bool
  | [], _ => none
  | b :: _, [] => some (b = 0)
  | b :: rest, c :: cs => if b = c then strcmpEq rest cs else some false

/-- A string that ends in the buffer is compared as a whole. -/
theorem strcmpEq_of_mem {buff literal : List UInt8} (hzero : 0 ∈ buff) (hliteral : 0 ∉ literal) :
    strcmpEq buff literal = some (decide (cString buff = literal)) := by
  induction buff generalizing literal with
  | nil => exact (List.not_mem_nil hzero).elim
  | cons b rest ih =>
    unfold cString at ih ⊢
    cases literal with
    | nil =>
      by_cases hb : b = 0
      · simp [strcmpEq, hb]
      · simp [strcmpEq, hb]
    | cons c cs =>
      have hc : c ≠ 0 := fun hc => hliteral (hc ▸ List.mem_cons_self)
      rw [strcmpEq]
      by_cases hsame : b = c
      · subst hsame
        have hrest : 0 ∈ rest := (List.mem_cons.mp hzero).resolve_left (Ne.symm hc)
        rw [if_pos rfl, ih hrest fun h => hliteral (List.mem_cons_of_mem _ h)]
        simp [hc]
      · rw [if_neg hsame]
        by_cases hb : b = 0
        · simp [hb]
        · simp [hb, hsame]

/-- A string that does not end in the buffer is found equal to no literal. -/
theorem strcmpEq_of_not_mem (literal : List UInt8) {buff : List UInt8} (hzero : 0 ∉ buff) :
    strcmpEq buff literal = none ∨ strcmpEq buff literal = some false := by
  induction buff generalizing literal with
  | nil => exact .inl rfl
  | cons b rest ih =>
    have hb : b ≠ 0 := fun hb => hzero (hb ▸ List.mem_cons_self)
    cases literal with
    | nil => exact .inr (by simp [strcmpEq, hb])
    | cons c cs =>
      rw [strcmpEq]
      split
      · exact ih cs fun h => hzero (List.mem_cons_of_mem b h)
      · exact .inr rfl

/-- The packet type, the number and the content of a frame, as `header` has them. -/
def headerReads (buff : List UInt8) : Option (ℕ × ℕ × List UInt8) := do
  let first ← buff[0]?
  let type := first.toNat
  let seq := type &&& 0x0f
  if seq &&& 8 ≠ 0 then
    let tseq ← buff[1]?
    some (type &&& 0xf0, (tseq.toNat <<< 3) + (seq &&& 0x07), buff.drop 2)
  else some (type &&& 0xf0, seq, buff.drop 1)

/-- The header of the frame is there. -/
def HeaderComplete (buff : List UInt8) : Prop :=
  0 < buff.length ∧ (((buff.getD 0 0).toNat &&& 0x0f) &&& 8 ≠ 0 → 1 < buff.length)

instance (buff : List UInt8) : Decidable (HeaderComplete buff) := inferInstanceAs (Decidable (_ ∧ _))

/-- The header is read where it is there, and else something behind the end. -/
theorem headerReads_eq (buff : List UInt8) :
    headerReads buff = if HeaderComplete buff then some (header buff) else none := by
  match buff with
  | [] =>
    rw [if_neg fun h => absurd h.1 (by decide)]
    rfl
  | [first] =>
    unfold headerReads HeaderComplete header
    by_cases hlong : (first.toNat &&& 0x0f) &&& 8 = 0
    · simp [hlong]
    · simp [hlong]
  | first :: next :: rest =>
    unfold headerReads HeaderComplete header
    by_cases hlong : (first.toNat &&& 0x0f) &&& 8 = 0
    · simp [hlong]
    · simp [hlong]

namespace NCP

/-- A control message, as `decodeControlMessage` has it. The name of a server is read as a whole when
there is one to compare it with. -/
def decodeReads (n : NCP) (buff : List UInt8) (time : ℕ) : Option NCP := do
  let remoteChan ← buff[0]?
  let imt ← buff[1]?
  let buff := buff.drop 2
  if imt = InterControllerMessageType.NCON_MSG_CONNECT_TO_SERVER.code then
    let n := { n with failed := false }
    let isLink ← strcmpEq buff (linkName ++ anySuffix)
    if isLink then some (n.connectToLink remoteChan.toNat)
    else if n.pcServers = [] ∨ 0 ∈ buff then some (n.connectToServer (cString buff) remoteChan.toNat)
    else none
  else if imt = InterControllerMessageType.NCON_MSG_CONNECT_RESPONSE.code then
    let forChan ← buff[0]?
    let status ← buff[1]?
    some ({ n with failed := false }.connectResponse remoteChan.toNat forChan.toNat status)
  else if imt = InterControllerMessageType.NCON_MSG_NCP_INFO.code then
    let ver ← buff[0]?
    some ({ n with failed := false }.ncpInfo ver.toNat time)
  else if imt = InterControllerMessageType.NCON_MSG_CHANNEL_DISCONNECT.code then
    let channel ← buff[0]?
    some (n.disconnect channel.toNat)
  else some n

/-- A packet from the link, as `receive` has it. -/
def receiveReads (n : NCP) (s : List UInt8) (time : ℕ) : Option NCP :=
  if s.length > 1 then do
    let channel ← s[0]?
    let s := s.drop 1
    if channel = 0 then n.decodeReads s time
    else
      let allData ← s[1]?
      let s := s.drop 2
      let channel := if n.protocolVersion = PV_SERIES_3 then n.lastSentChannel else channel.toNat
      some (n.receiveData channel allData s)
  else some n

/-- The fields that a control message promises are there: its channel and type, the name of a server with
its terminating zero, a channel and a status, a version, or a channel. -/
def ControlComplete (buff : List UInt8) : Prop :=
  2 ≤ buff.length ∧
  (buff.getD 1 0 = InterControllerMessageType.NCON_MSG_CONNECT_TO_SERVER.code → 0 ∈ buff.drop 2) ∧
  (buff.getD 1 0 = InterControllerMessageType.NCON_MSG_CONNECT_RESPONSE.code → 4 ≤ buff.length) ∧
  (buff.getD 1 0 = InterControllerMessageType.NCON_MSG_NCP_INFO.code → 3 ≤ buff.length) ∧
  (buff.getD 1 0 = InterControllerMessageType.NCON_MSG_CHANNEL_DISCONNECT.code → 3 ≤ buff.length)

/-- The fields of a packet are there: those of a control message, or the three bytes before the data. -/
def PacketComplete (s : List UInt8) : Prop :=
  0 < s.length ∧ if s.getD 0 0 = 0 then ControlComplete (s.drop 1) else 3 ≤ s.length

instance (buff : List UInt8) : Decidable (ControlComplete buff) := inferInstanceAs (Decidable (_ ∧ _))

instance (s : List UInt8) : Decidable (PacketComplete s) := inferInstanceAs (Decidable (_ ∧ _))

/-- What is promised at a place is there. -/
theorem getElem?_of_lt {buff : List UInt8} {i : ℕ} (h : i < buff.length) : buff[i]? = some (buff.getD i 0) := by
  rw [List.getD_eq_getElem?_getD, List.getElem?_eq_getElem h, Option.getD_some]

/-- A control message that is complete is decoded as it stands. -/
theorem decodeReads_of_complete (n : NCP) {buff : List UInt8} (h : ControlComplete buff) (time : ℕ) :
    n.decodeReads buff time = some (n.decodeControlMessage buff time) := by
  obtain ⟨hlength, hserver, hresponse, hinfo, hdisconnect⟩ := h
  have hdrop (i : ℕ) : (buff.drop 2).length = buff.length - 2 := List.length_drop
  unfold decodeReads decodeControlMessage
  rw [getElem?_of_lt (by omega : 0 < buff.length), getElem?_of_lt (by omega : 1 < buff.length)]
  simp only [Option.bind_eq_bind, Option.bind_some]
  split
  · next himt =>
    have hzero := hserver himt
    rw [strcmpEq_of_mem hzero (by decide)]
    simp only [Option.bind_some, decide_eq_true_eq]
    split
    · rfl
    · rw [if_pos (.inr hzero)]
  split
  · next himt =>
    have hthere := hresponse himt
    rw [getElem?_of_lt (by rw [hdrop 0]; omega), getElem?_of_lt (by rw [hdrop 1]; omega)]
    rfl
  split
  · next himt =>
    have hthere := hinfo himt
    rw [getElem?_of_lt (by rw [hdrop 0]; omega)]
    rfl
  split
  · next himt =>
    have hthere := hdisconnect himt
    rw [getElem?_of_lt (by rw [hdrop 0]; omega)]
    rfl
  · rfl

/-- A connect to a server is answered. -/
theorem sent_connectToServer_lt (n : NCP) (name : List UInt8) (remoteChan : ℕ) :
    n.sent.length < (n.connectToServer name remoteChan).sent.length := by
  have hunused : n.getFirstUnusedChan.2.sent = n.sent := by
    unfold getFirstUnusedChan
    split <;> rfl
  have hrefused : (n.connectToPcServer name remoteChan).2.2.sent = n.sent := by
    unfold connectToPcServer
    split
    · exact hunused
    · rfl
  have hserve (k : NCP) (c : ℕ) :
      k.sent.length ≤ (if k.lChan.isNone then k.newLinkChannel c 0 else k).sent.length := by
    split
    · have hconnect := sent_connect (k.newChannel linkName 0 0x1234).2 k.channels.length
      change _ ≤ ((k.newChannel linkName 0 0x1234).2.connect k.channels.length).2.sent.length
      rw [hconnect]
      split
      · simp [newChannel]
      · exact Nat.le_refl _
    · exact Nat.le_refl _
  unfold connectToServer
  generalize n.connectToPcServer name remoteChan = refused at hrefused ⊢
  obtain ⟨ok, localChan, m⟩ := refused
  refine Nat.lt_of_lt_of_le ?_ (hserve _ _)
  rw [← hrefused]
  simp [controlChannel, linkSend]

/-- Of a control message that is not complete something is read behind the end, or it is answered. -/
theorem decodeReads_of_not_complete (n : NCP) {buff : List UInt8} (h : ¬ControlComplete buff) (time : ℕ) :
    n.decodeReads buff time = none ∨
      ∃ m, n.decodeReads buff time = some m ∧ n.sent.length < m.sent.length := by
  have hdrop : (buff.drop 2).length = buff.length - 2 := List.length_drop
  unfold decodeReads
  by_cases hlength : 2 ≤ buff.length
  swap
  · refine .inl ?_
    have hsecond : buff[1]? = none := List.getElem?_eq_none (by omega)
    rw [hsecond]
    cases buff[0]? <;> rfl
  rw [getElem?_of_lt (by omega : 0 < buff.length), getElem?_of_lt (by omega : 1 < buff.length)]
  simp only [Option.bind_eq_bind, Option.bind_some]
  split
  · next himt =>
    have hzero : 0 ∉ buff.drop 2 := by
      intro hzero
      refine h ⟨hlength, fun _ => hzero, ?_, ?_, ?_⟩ <;>
        exact fun hcode => absurd (himt.symm.trans hcode) (by decide)
    rcases strcmpEq_of_not_mem (linkName ++ anySuffix) hzero with hcmp | hcmp
    · exact .inl (by rw [hcmp]; rfl)
    · rw [hcmp]
      simp only [Option.bind_some, Bool.false_eq_true, if_false]
      split
      · exact .inr ⟨_, rfl, sent_connectToServer_lt { n with failed := false } _ _⟩
      · exact .inl rfl
  split
  · next himt =>
    have hthere : ¬4 ≤ buff.length := by
      intro hthere
      refine h ⟨hlength, ?_, fun _ => hthere, ?_, ?_⟩ <;>
        exact fun hcode => absurd (himt.symm.trans hcode) (by decide)
    have hsecond : (buff.drop 2)[1]? = none := List.getElem?_eq_none (by omega)
    refine .inl ?_
    rw [hsecond]
    cases (buff.drop 2)[0]? <;> rfl
  split
  · next himt =>
    have hthere : ¬3 ≤ buff.length := by
      intro hthere
      refine h ⟨hlength, ?_, ?_, fun _ => hthere, ?_⟩ <;>
        exact fun hcode => absurd (himt.symm.trans hcode) (by decide)
    have hfirst : (buff.drop 2)[0]? = none := List.getElem?_eq_none (by omega)
    exact .inl (by rw [hfirst]; rfl)
  split
  · next himt =>
    have hthere : ¬3 ≤ buff.length := by
      intro hthere
      refine h ⟨hlength, ?_, ?_, ?_, fun _ => hthere⟩ <;>
        exact fun hcode => absurd (himt.symm.trans hcode) (by decide)
    have hfirst : (buff.drop 2)[0]? = none := List.getElem?_eq_none (by omega)
    exact .inl (by rw [hfirst]; rfl)
  · next hserver hresponse hinfo hdisconnect =>
    exact absurd ⟨hlength, fun h => absurd h hserver, fun h => absurd h hresponse,
      fun h => absurd h hinfo, fun h => absurd h hdisconnect⟩ h

/-- A packet with all its fields is received as it stands, and one of a single byte is ignored. -/
theorem receiveReads_of_complete (n : NCP) {s : List UInt8} (h : s.length ≤ 1 ∨ PacketComplete s)
    (time : ℕ) : n.receiveReads s time = some (n.receive s time) := by
  unfold receiveReads receive
  split
  swap
  · rfl
  next hlong =>
  obtain ⟨-, hfields⟩ := h.resolve_left (by omega)
  rw [getElem?_of_lt (by omega : 0 < s.length)]
  simp only [Option.bind_eq_bind, Option.bind_some]
  by_cases hcontrol : s.getD 0 0 = 0
  · rw [if_pos hcontrol] at hfields
    rw [if_pos hcontrol, if_pos (by rw [hcontrol]; rfl), decodeReads_of_complete n hfields]
  · rw [if_neg hcontrol] at hfields
    have hnumber : ¬(s.getD 0 0).toNat = 0 := fun hzero => hcontrol (UInt8.toNat_inj.mp hzero)
    have hdrop : (s.drop 1).length = s.length - 1 := List.length_drop
    rw [if_neg hcontrol, if_neg hnumber, getElem?_of_lt (by omega : 1 < (s.drop 1).length)]
    rfl

/-- Of a longer packet without all its fields something is read behind the end, or it is answered. -/
theorem receiveReads_of_not_complete (n : NCP) {s : List UInt8} (hlong : 1 < s.length)
    (h : ¬PacketComplete s) (time : ℕ) :
    n.receiveReads s time = none ∨
      ∃ m, n.receiveReads s time = some m ∧ n.sent.length < m.sent.length := by
  unfold receiveReads
  rw [if_pos hlong, getElem?_of_lt (by omega : 0 < s.length)]
  simp only [Option.bind_eq_bind, Option.bind_some]
  by_cases hcontrol : s.getD 0 0 = 0
  · rw [if_pos hcontrol]
    apply decodeReads_of_not_complete
    intro hcomplete
    exact h ⟨by omega, by rwa [if_pos hcontrol]⟩
  · have hshort : ¬3 ≤ s.length := fun hthree => h ⟨by omega, by rwa [if_neg hcontrol]⟩
    have hdrop : (s.drop 1).length = s.length - 1 := List.length_drop
    have hsecond : (s.drop 1)[1]? = none := List.getElem?_eq_none (by omega)
    rw [if_neg hcontrol, hsecond]
    exact .inl rfl

end NCP

namespace Link

/-- Normal data, as `receiveData` has it. Only a content of three bytes is looked at. -/
def receiveDataReads (env : Env) (seq : ℕ) (buff : List UInt8) (l : Link) : Option Link :=
  let next := (l.rxSequence + 1).toNat &&& l.seqMask
  if next = seq then
    let l := { l with rxSequence := next, accepted := l.accepted ++ [buff] }
    let l := l.sendAck env l.rxSequence
    if buff.length = 3 then do
      let first ← buff[0]?
      if first = 0 then
        let value ← buff[2]?
        if value = 1 then
          let channel ← buff[1]?
          some { l with xoff := Function.update l.xoff channel true }
        else if value = 2 then
          let channel ← buff[1]?
          some (transmitHoldQueue env channel { l with xoff := Function.update l.xoff channel false })
        else some { l with received := l.received ++ [buff] }
      else some { l with received := l.received ++ [buff] }
    else some { l with received := l.received ++ [buff] }
  else some (l.sendAck env l.rxSequence)

/-- A frame from the data link, as `receive` has it. -/
def receiveReads (env : Env) (buff : List UInt8) (l : Link) : Option Link := do
  let (type, seq, buff) ← headerReads buff
  if type = 0x30 then l.receiveDataReads env seq buff
  else if type = 0x00 then some (l.receiveAck env seq)
  else if type = 0x20 then some (l.receiveReq env seq)
  else if type = 0x10 then some { l with failed := true }
  else some l

/-- The content of a data frame is only read where its length has been checked. -/
theorem receiveDataReads_eq (env : Env) (seq : ℕ) (buff : List UInt8) (l : Link) :
    l.receiveDataReads env seq buff = some (l.receiveData env seq buff) := by
  unfold receiveDataReads receiveData
  simp only [apply_ite some]
  by_cases hthree : buff.length = 3
  swap
  · simp only [hthree, false_and, if_false]
  · simp only [hthree, true_and, if_true, NCP.getElem?_of_lt (by omega : 0 < buff.length),
      NCP.getElem?_of_lt (by omega : 1 < buff.length), NCP.getElem?_of_lt (by omega : 2 < buff.length),
      Option.bind_eq_bind, Option.bind_some]

/-- A frame is received as it stands when its header is there. -/
theorem receiveReads_eq (env : Env) (buff : List UInt8) (l : Link) :
    l.receiveReads env buff = if HeaderComplete buff then some (l.receive env buff) else none := by
  unfold receiveReads receive
  rw [headerReads_eq]
  by_cases hcomplete : HeaderComplete buff
  · simp only [if_pos hcomplete, Option.bind_eq_bind, Option.bind_some, receiveDataReads_eq,
      apply_ite some]
  · simp only [if_neg hcomplete, Option.bind_eq_bind, Option.bind_none]

/-- The packet that is handed on when a frame is received: the content of the next data frame, unless the
link takes it for its own. -/
def handedOn (l : Link) (frame : List UInt8) : Option (List UInt8) :=
  let content := (header frame).2.2
  if IsData frame ∧ l.nextSequence = (header frame).2.1 ∧ ¬IsFlowControl 1 content ∧
      ¬IsFlowControl 2 content then some content
  else none

/-- An acknowledgement hands nothing on. -/
theorem received_receiveAck (env : Env) (seq : ℕ) (l : Link) :
    (l.receiveAck env seq).received = l.received := by
  rcases receiveAck_cases env seq l with ⟨e, _, _, -, -, -, h⟩ | ⟨-, h⟩ <;> rw [h]
  apply (sameReceived_transmitAll env _ _).received.trans
  unfold matched
  dsimp only
  split <;> rfl

/-- A request hands nothing on. -/
theorem received_receiveReq (env : Env) (seq : ℕ) (l : Link) :
    (l.receiveReq env seq).received = l.received := by
  unfold receiveReq
  split
  · rw [(sameReceived_sendAck env _ _).received]
  dsimp only
  split
  · rw [sendReqCon, (sameReceived_sendControl env _ _).received]
  · rw [(sameReceived_sendAck env _ _).received]
    rfl

/-- What a received frame adds to the packets that are handed on. -/
theorem received_receive (env : Env) (frame : List UInt8) (l : Link) :
    (l.receive env frame).received = l.received ++ (l.handedOn frame).toList := by
  by_cases hdata : IsData frame
  · rw [receive_of_isData env hdata]
    have hack : ((l.accept (header frame).2.1 (header frame).2.2).sendAck env (header frame).2.1).received =
        l.received := (sameReceived_sendAck env _ _).received
    unfold handedOn
    rcases receiveData_cases env (header frame).2.1 (header frame).2.2 l with ⟨hne, h⟩ |
      ⟨hnext, hone, h⟩ | ⟨hnext, htwo, h⟩ | ⟨hnext, hone, htwo, h⟩ <;> rw [h]
    · rw [if_neg fun h => hne h.2.1, (sameReceived_sendAck env _ _).received]
      exact (List.append_nil _).symm
    · rw [if_neg fun h => h.2.2.1 hone]
      exact hack.trans (List.append_nil _).symm
    · rw [if_neg fun h => h.2.2.2 htwo, Option.toList_none, List.append_nil, ← hack]
      exact (sameReceived_transmitAll env _ _).received
    · rw [if_pos ⟨hdata, hnext, hone, htwo⟩]
      exact congrArg (· ++ [(header frame).2.2]) hack
  · have hnone : l.handedOn frame = none := if_neg fun h => hdata h.1
    have htype : ¬(header frame).1 = 0x30 := hdata
    rw [hnone, Option.toList_none, List.append_nil]
    unfold receive
    dsimp only
    rw [if_neg htype]
    split
    · rw [received_receiveAck]
    split
    · rw [received_receiveReq]
    split <;> rfl

end Link

/-- A frame is received by the link, and a packet that the link hands on by the multiplexer. -/
def receiveFrame (env : Env) (l : Link) (n : NCP) (frame : List UInt8) (time : ℕ) :
    Option (Link × NCP) := do
  let received ← l.receiveReads env frame
  let packets := received.received.drop l.received.length
  let multiplexed ← packets.foldlM (fun n s => n.receiveReads s time) n
  some (received, multiplexed)

/-- The frame has the fields that its type promises: its header, and those of the packet that the link
hands on. -/
def FieldsComplete (l : Link) (frame : List UInt8) : Prop :=
  HeaderComplete frame ∧ ∀ s ∈ l.handedOn frame, NCP.PacketComplete s

/-- A frame is handled without a read behind its end, and a frame without all its fields changes nothing
in the multiplexer. -/
def HandledSafely (env : Env) (l : Link) (n : NCP) (frame : List UInt8) (time : ℕ) : Prop :=
  ∃ received multiplexed, receiveFrame env l n frame time = some (received, multiplexed) ∧
    (¬FieldsComplete l frame → multiplexed = n)

/-- Every frame is handled safely that has its header, and whose packet has its fields or is a single byte
at most. -/
theorem handled_safely_iff (env : Env) (l : Link) (n : NCP) (frame : List UInt8) (time : ℕ) :
    HandledSafely env l n frame time ↔
      HeaderComplete frame ∧ ∀ s ∈ l.handedOn frame, s.length ≤ 1 ∨ NCP.PacketComplete s := by
  unfold HandledSafely receiveFrame
  rw [Link.receiveReads_eq]
  by_cases hheader : HeaderComplete frame
  swap
  · rw [if_neg hheader]
    exact ⟨fun ⟨_, _, h, _⟩ => (nomatch h), fun h => absurd h.1 hheader⟩
  rw [if_pos hheader]
  simp only [Option.bind_eq_bind, Option.bind_some, Link.received_receive, List.drop_left]
  cases hpacket : l.handedOn frame with
  | none =>
    refine ⟨fun _ => ⟨hheader, nofun⟩, fun _ => ⟨_, n, rfl, fun _ => rfl⟩⟩
  | some s =>
    have hfold : (some s).toList.foldlM (fun n s => n.receiveReads s time) n = n.receiveReads s time := by
      simp
    rw [hfold]
    by_cases hfields : s.length ≤ 1 ∨ NCP.PacketComplete s
    · rw [NCP.receiveReads_of_complete n hfields]
      refine ⟨fun _ => ⟨hheader, fun t ht => Option.some.inj ht ▸ hfields⟩, fun _ => ⟨_, _, rfl, ?_⟩⟩
      intro hincomplete
      have hshort : s.length ≤ 1 := hfields.resolve_right fun hpacketComplete =>
        hincomplete ⟨hheader, fun t ht => Option.some.inj (hpacket.symm.trans ht) ▸ hpacketComplete⟩
      exact if_neg (by omega)
    · refine ⟨fun h => ?_, fun h => absurd (h.2 s rfl) hfields⟩
      obtain ⟨received, multiplexed, hsome, hunchanged⟩ := h
      have hincomplete : ¬FieldsComplete l frame := fun h => hfields (.inr (h.2 s hpacket))
      have hlong : 1 < s.length := Nat.lt_of_not_le fun h => hfields (.inl h)
      rcases NCP.receiveReads_of_not_complete n hlong (fun h => hfields (.inr h)) time with hnone | ⟨m, hm, hgrows⟩
      · rw [hnone] at hsome
        cases hsome
      · rw [hm] at hsome
        cases hsome
        rw [hunchanged hincomplete] at hgrows
        exact absurd hgrows (Nat.lt_irrefl _)

/-- A frame without content reaches the link, which reads its header behind the end. -/
theorem empty_frame_read_behind_end : ¬ ∀ (stream frame : List UInt8), frame ∈ packetsOf stream →
    ∀ (env : Env) (l : Link) (n : NCP) (time : ℕ), HandledSafely env l n frame time := by
  intro hsafe
  have hdelivered : ([] : List UInt8) ∈ packetsOf [0x16, 0x10, 0x02, 0x10, 0x03, 0x00, 0x00] := by decide
  obtain ⟨received, multiplexed, hread, -⟩ :=
    hsafe _ _ hdelivered stillEnv (Link.construct stillEnv 0) (NCP.init (fun _ => 0) 0) 0
  cases hread

end Plptools
