import Plptools.Link.Exhaustion
import Plptools.Ncp.SessionTable
import Mathlib.Data.List.TakeWhile

/-!
# The size of the packets

A packet for the link may have 300 bytes; a longer one makes the link fail. Messages are sent in
fragments of at most 253 bytes, and most control messages are a few bytes long. A connect carries the
name of a service: that of a registered service was cut when it was acknowledged, but a client that
asks for the file server chooses the rest of the name freely.
-/

namespace Plptools

open Plptools.Library

/-- The most bytes that the link accepts in a packet. -/
def maxPacket : ℕ := 300

/-- The most bytes in the name of a service that was acknowledged. -/
def maxConnectName : ℕ := 19

/-- The most bytes in the name of a service that a connect has room for. -/
def maxRegisterName : ℕ := 294

/-- A string is no longer than what it is read from. -/
theorem length_cString_le (s : List UInt8) : (cString s).length ≤ s.length :=
  (List.takeWhile_prefix _).length_le

namespace NCP

/-- The name that a connect of the object carries. -/
def connectString (c : Channel) : List UInt8 :=
  match c.connectName with
  | some name => cString name
  | none => cString c.registerName ++ anySuffix

/-- The names of acknowledged services are short. -/
def ShortNames (n : NCP) : Prop :=
  ∀ c ∈ n.channels, ∀ name, c.connectName = some name → name.length ≤ maxConnectName

/-- From `n` to `m` only packets that the link accepts are sent, and names stay short. -/
structure SendsShort (n m : NCP) : Prop where
  sent : ∃ later, m.sent = n.sent ++ later ∧ ∀ p ∈ later, p.length ≤ maxPacket
  names : n.ShortNames → m.ShortNames

variable {n m k : NCP}

/-- Nothing is sent, and the channels stay. -/
theorem SendsShort.of_eq (hsent : m.sent = n.sent) (hchannels : m.channels = n.channels) : n.SendsShort m :=
  ⟨⟨[], hsent.trans (List.append_nil _).symm, nofun⟩, fun h => by rwa [ShortNames, hchannels]⟩

/-- Nothing is done. -/
theorem SendsShort.refl (n : NCP) : n.SendsShort n := .of_eq rfl rfl

/-- One step after the other. -/
theorem SendsShort.trans (h : n.SendsShort m) (h' : m.SendsShort k) : n.SendsShort k := by
  obtain ⟨first, hfirst, hshort⟩ := h.sent
  obtain ⟨second, hsecond, hshort'⟩ := h'.sent
  refine ⟨⟨first ++ second, ?_, fun p hp => ?_⟩, fun hnames => h'.names (h.names hnames)⟩
  · rw [hsecond, hfirst, List.append_assoc]
  · rcases List.mem_append.mp hp with hp | hp
    · exact hshort p hp
    · exact hshort' p hp

/-- One short packet is sent. -/
theorem sendsShort_linkSend {p : List UInt8} (h : p.length ≤ maxPacket) : n.SendsShort (n.linkSend p) :=
  ⟨⟨[p], rfl, fun _ hp => List.mem_singleton.mp hp ▸ h⟩, id⟩

/-- One short control message is sent. -/
theorem sendsShort_controlChannel (chan : ℕ) (t : InterControllerMessageType) {command : List UInt8}
    (h : command.length + 3 ≤ maxPacket) : n.SendsShort (n.controlChannel chan t command) := by
  apply sendsShort_linkSend
  simp only [List.length_append, List.length_cons, List.length_nil]
  omega

/-- Changing an object keeps the names short when its own is. -/
theorem sendsShort_setChannel {ch : ℕ} {c : Channel}
    (h : n.ShortNames → ∀ name, c.connectName = some name → name.length ≤ maxConnectName) :
    n.SendsShort (n.setChannel ch c) := by
  refine ⟨⟨[], (List.append_nil _).symm, nofun⟩, fun hnames d hd => ?_⟩
  rcases List.mem_or_eq_of_mem_set hd with hold | rfl
  · exact hnames d hold
  · exact h hnames

/-- The name of a channel is short. -/
theorem ShortNames.channel (h : n.ShortNames) (ch : ℕ) {name : List UInt8}
    (hname : (n.channel ch).connectName = some name) : name.length ≤ maxConnectName := by
  unfold NCP.channel at hname
  rw [List.getD_eq_getElem?_getD] at hname
  cases hget : n.channels[ch]? with
  | none => simp [hget] at hname
  | some c =>
    rw [hget, Option.getD_some] at hname
    exact h c (List.mem_of_getElem? hget) name hname

/-- The name of an object is left. -/
theorem sendsShort_setChannel_same {ch : ℕ} {c : Channel} (h : c.connectName = (n.channel ch).connectName) :
    n.SendsShort (n.setChannel ch c) :=
  sendsShort_setChannel fun hnames _ hname => hnames.channel ch (h ▸ hname)

/-- A new channel sends nothing. -/
theorem sendsShort_newChannel (registerName : List UInt8) (ncpChannel registerSer : ℕ) :
    n.SendsShort (n.newChannel registerName ncpChannel registerSer).2 := by
  refine ⟨⟨[], (List.append_nil _).symm, nofun⟩, fun hnames c hc => ?_⟩
  rcases List.mem_append.mp hc with hold | hnew
  · exact hnames c hold
  · rw [List.mem_singleton.mp hnew]
    nofun

/-- A fragment has at most 250 bytes of data. -/
theorem sendsShort_sendLoop (channel rounds : ℕ) (n : NCP) (a : List UInt8) :
    n.SendsShort (sendLoop channel rounds n a) := by
  induction rounds generalizing n a with
  | zero => exact .refl n
  | succ rounds ih =>
    have hfragment (last : Bool) : n.SendsShort (n.linkSend (n.dataFrame channel last (a.take NCP_SENDLEN))) := by
      apply sendsShort_linkSend
      have htake := List.length_take_le NCP_SENDLEN a
      simp only [dataFrame, List.length_append, List.length_cons, List.length_nil]
      unfold maxPacket
      unfold NCP_SENDLEN at htake ⊢
      omega
    rw [sendLoop]
    split
    · exact hfragment _
    · exact (hfragment _).trans (ih _ _)

/-- Data is sent in pieces. -/
theorem sendsShort_send (channel : ℕ) (a : List UInt8) : n.SendsShort (n.send channel a) :=
  (sendsShort_sendLoop channel (a.length + 1) n a).trans (.of_eq rfl rfl)

/-- Looking for a free slot sends nothing. -/
theorem sendsShort_getFirstUnusedChan : n.SendsShort n.getFirstUnusedChan.2 := by
  unfold getFirstUnusedChan
  split <;> exact .of_eq rfl rfl

/-- Finding a number sends nothing. -/
theorem sendsShort_numberFor (ch : ℕ) : n.SendsShort (n.numberFor ch).2 := by
  unfold numberFor
  split
  · exact sendsShort_getFirstUnusedChan
  · exact .refl n

/-- A registration is sent in fragments, whatever the name. -/
theorem sendsShort_linkChannelRegister (lChan ch : ℕ) : n.SendsShort (n.linkChannelRegister lChan ch) := by
  have hcounted : n.SendsShort (n.setChannel lChan
      { n.channel lChan with registerSer := (n.channel lChan).registerSer + 1 }) :=
    sendsShort_setChannel_same rfl
  exact hcounted.trans (sendsShort_send _ _)

/-- An object is entered under its number. -/
theorem sendsShort_enter (c ch : ℕ) :
    n.SendsShort ((n.take c (.object ch)).setChannel ch { n.channel ch with ncpChannel := c }) := by
  have htake : n.SendsShort (n.take c (.object ch)) := .of_eq rfl rfl
  exact htake.trans (sendsShort_setChannel_same rfl)

/-- Registering sends the name in pieces. -/
theorem sendsShort_register (ch : ℕ) : n.SendsShort (n.register ch) := by
  have hnumber := sendsShort_numberFor (n := n) ch
  unfold register
  split
  · exact .refl n
  · dsimp only
    split
    · exact (hnumber.trans (sendsShort_enter _ ch)).trans (sendsShort_linkChannelRegister _ ch)
    · exact hnumber

/-- Giving an object a number leaves its names. -/
theorem connectString_setChannel (n : NCP) (ch c : ℕ) :
    connectString ((n.setChannel ch { n.channel ch with ncpChannel := c }).channel ch) =
      connectString (n.channel ch) := by
  by_cases hlt : ch < n.channels.length
  · rw [channel_setChannel_self hlt]
    rfl
  · rw [setChannel, List.set_eq_of_length_le (Nat.le_of_not_lt hlt)]

/-- A connect is one packet with the name of the object, when there is a number for it. -/
theorem sent_connect (n : NCP) (ch : ℕ) : (n.connect ch).2.sent =
    if (n.numberFor ch).1 > 0 then
      n.sent ++ [[0, lowByte (n.numberFor ch).1, 3] ++ (connectString (n.channel ch) ++ [0])]
    else n.sent := by
  have hnumber : (n.numberFor ch).2.sent = n.sent ∧ (n.numberFor ch).2.channels = n.channels := by
    unfold numberFor getFirstUnusedChan
    split
    · split <;> exact ⟨rfl, rfl⟩
    · exact ⟨rfl, rfl⟩
  have hchannel : ((n.numberFor ch).2.take (n.numberFor ch).1 (.object ch)).channel ch = n.channel ch := by
    rw [channel, show ((n.numberFor ch).2.take (n.numberFor ch).1 (.object ch)).channels = n.channels
      from hnumber.2, channel]
  have hname := (connectString_setChannel ((n.numberFor ch).2.take (n.numberFor ch).1 (.object ch)) ch
    (n.numberFor ch).1).trans (congrArg connectString hchannel)
  rw [← hnumber.1, ← hname]
  unfold connect
  dsimp only
  split
  · rfl
  · rfl

/-- Connecting leaves the names short. -/
theorem names_connect (h : n.ShortNames) (ch : ℕ) : (n.connect ch).2.ShortNames := by
  have hnumber := sendsShort_numberFor (n := n) ch
  unfold connect
  dsimp only
  split
  · have hentered := hnumber.trans (sendsShort_enter (n.numberFor ch).1 ch)
    exact hentered.names h
  · exact hnumber.names h

/-- The name that a connect carries is an acknowledged one, or ends with a suffix. -/
theorem length_connectString_le (h : n.ShortNames) {ch : ℕ}
    (hname : (n.channel ch).connectName = none →
      (cString (n.channel ch).registerName).length ≤ maxRegisterName) :
    (connectString (n.channel ch)).length + 4 ≤ maxPacket := by
  unfold connectString
  cases hconnect : (n.channel ch).connectName with
  | some name =>
    have hshort := (length_cString_le name).trans (h.channel ch hconnect)
    unfold maxConnectName at hshort
    unfold maxPacket
    dsimp only
    omega
  | none =>
    have hshort := hname hconnect
    unfold maxRegisterName at hshort
    unfold maxPacket anySuffix
    dsimp only
    rw [List.length_append, List.length_cons, List.length_cons, List.length_nil]
    omega

/-- A connect under a name that was acknowledged, or leaves room, is short. -/
theorem sendsShort_connect (h : n.ShortNames) {ch : ℕ}
    (hname : (n.numberFor ch).1 > 0 → (n.channel ch).connectName = none →
      (cString (n.channel ch).registerName).length ≤ maxRegisterName) : n.SendsShort (n.connect ch).2 := by
  refine ⟨?_, fun hnames => names_connect hnames ch⟩
  rw [sent_connect]
  split
  · next hnumber =>
    refine ⟨_, rfl, fun p hp => ?_⟩
    have hlength := length_connectString_le h (hname hnumber)
    rw [List.mem_singleton.mp hp]
    simp only [List.length_append, List.length_cons, List.length_nil]
    omega
  · exact ⟨[], (List.append_nil _).symm, nofun⟩

/-- Another link channel connects, with a short name. -/
theorem sendsShort_newLinkChannel (h : n.ShortNames) (localChan ncpChannel : ℕ) :
    n.SendsShort (n.newLinkChannel localChan ncpChannel) := by
  have hnew := sendsShort_newChannel (n := n) linkName ncpChannel 0x1234
  have hname : ((n.newChannel linkName ncpChannel 0x1234).2.channel n.channels.length).registerName =
      linkName := by
    simp [newChannel, channel, List.getD_eq_getElem?_getD]
  have hconnect : (n.newChannel linkName ncpChannel 0x1234).2.SendsShort
      ((n.newChannel linkName ncpChannel 0x1234).2.connect n.channels.length).2 := by
    apply sendsShort_connect (hnew.names h)
    intro _ _
    rw [hname]
    decide
  have hmade := hnew.trans hconnect
  exact hmade.trans (.of_eq rfl rfl)

/-- Disconnecting sends a control message. -/
theorem sendsShort_disconnect (c : ℕ) : n.SendsShort (n.disconnect c) := by
  unfold disconnect
  split
  case h_1 ch hobject =>
    have hasked : n.SendsShort (n.setChannel ch { n.channel ch with terminate := true }) :=
      sendsShort_setChannel_same rfl
    have hreleased : n.SendsShort ((n.setChannel ch { n.channel ch with terminate := true }).release c) :=
      hasked.trans (.of_eq rfl rfl)
    exact hreleased.trans (sendsShort_controlChannel _ _ (by simp [maxPacket]))
  case h_2 => exact .refl n

/-- The answer to a connect is short. -/
theorem sendsShort_connectResponse (chan remoteChan : ℕ) (status : UInt8) : n.SendsShort
    (n.controlChannel chan .NCON_MSG_CONNECT_RESPONSE [lowByte remoteChan, status]) :=
  sendsShort_controlChannel _ _ (by simp [maxPacket])

/-- A connect to the link is answered. -/
theorem sendsShort_connectToLink (h : n.ShortNames) (remoteChan : ℕ) :
    n.SendsShort (n.connectToLink remoteChan) := by
  unfold connectToLink
  split
  · exact (sendsShort_connectResponse _ _ _).trans (.of_eq rfl rfl)
  · have hfound := sendsShort_getFirstUnusedChan (n := n)
    generalize n.getFirstUnusedChan = found at hfound ⊢
    obtain ⟨localChan, m⟩ := found
    have hanswered := hfound.trans (sendsShort_connectResponse localChan remoteChan 0)
    have hmade := hanswered.trans (sendsShort_newLinkChannel (hanswered.names h) localChan localChan)
    exact hmade.trans (.of_eq rfl rfl)

/-- A connect to a server is answered. -/
theorem sendsShort_connectToServer (h : n.ShortNames) (name : List UInt8) (remoteChan : ℕ) :
    n.SendsShort (n.connectToServer name remoteChan) := by
  have hrefused : n.SendsShort (n.connectToPcServer name remoteChan).2.2 := by
    unfold connectToPcServer
    split
    · exact sendsShort_getFirstUnusedChan.trans (.of_eq rfl rfl)
    · exact .refl n
  have hserve (k : NCP) (hk : n.SendsShort k) (c : ℕ) :
      n.SendsShort (if k.lChan.isNone then k.newLinkChannel c 0 else k) := by
    split
    · exact hk.trans (sendsShort_newLinkChannel (hk.names h) c 0)
    · exact hk
  unfold connectToServer
  generalize n.connectToPcServer name remoteChan = refused at hrefused ⊢
  obtain ⟨ok, localChan, m⟩ := refused
  exact hserve _ (hrefused.trans (sendsShort_connectResponse _ _ _)) _

/-- The version of the peer is answered. -/
theorem sendsShort_ncpInfo (ver time : ℕ) : n.SendsShort (n.ncpInfo ver time) := by
  have hanswered (k : NCP) (byte : UInt8) : k.SendsShort
      (k.controlChannel 0 .NCON_MSG_NCP_INFO ([byte] ++ BufferStore.dwordBytes time)) :=
    sendsShort_controlChannel _ _ (by simp [BufferStore.dwordBytes, maxPacket])
  have hversion : n.SendsShort { n with protocolVersion := ver } := .of_eq rfl rfl
  have hwide : n.SendsShort { n with protocolVersion := ver, maxChannels := MAX_CHANNELS_PSION } :=
    .of_eq rfl rfl
  unfold ncpInfo
  split
  · dsimp only
    split
    · exact hversion.trans (hanswered _ _)
    · exact hwide.trans (hanswered _ _)
  · exact .of_eq rfl rfl

/-- The answers to what arrives are short. -/
theorem sendsShort_receive (h : n.ShortNames) (packet : List UInt8) (time : ℕ) :
    n.SendsShort (n.receive packet time) := by
  have hworking : n.SendsShort { n with failed := false } := .of_eq rfl rfl
  unfold receive
  split
  · dsimp only
    split
    · unfold decodeControlMessage
      dsimp only
      split
      · split
        · exact hworking.trans (sendsShort_connectToLink (hworking.names h) _)
        · exact hworking.trans (sendsShort_connectToServer (hworking.names h) _ _)
      · split
        · refine hworking.trans ?_
          unfold connectResponse
          split
          · split <;> exact .of_eq rfl rfl
          · exact .refl _
        · split
          · exact hworking.trans (sendsShort_ncpInfo _ _)
          · split
            · exact sendsShort_disconnect _
            · exact .refl n
    · unfold receiveData
      split
      · dsimp only
        split <;> exact .of_eq rfl rfl
      · exact .refl n
  · exact .refl n

/-- Setting all to the start sends nothing that is long. -/
theorem sendsShort_reset : n.SendsShort n.reset := by
  refine ⟨⟨[], (List.append_nil _).symm, nofun⟩, fun hnames c hc name hname => ?_⟩
  obtain ⟨i, hi, rfl⟩ := List.mem_mapIdx.mp hc
  apply hnames _ (List.getElem_mem hi) name
  split at hname <;> exact hname

/-- A failure sends nothing that is long. -/
theorem sendsShort_hasFailed (lfailed : Bool) : n.SendsShort (n.hasFailed lfailed).2 := by
  unfold hasFailed
  dsimp only
  split
  · split <;> exact .of_eq rfl rfl
  · exact .of_eq rfl rfl

/-- An acknowledged registration gives its object the name, and calls it. -/
theorem sendsShort_registerAck (chan : ℕ) {name : List UInt8} (hname : name.length ≤ maxConnectName) :
    n.SendsShort (n.registerAck chan name) := by
  unfold registerAck
  dsimp only
  split
  case h_1 ch _ =>
    have hnamed : n.SendsShort (n.setChannel ch { n.channel ch with connectName := some name }) :=
      sendsShort_setChannel fun _ given hgiven => Option.some.inj hgiven ▸ hname
    exact hnamed.trans (.of_eq rfl rfl)
  case h_2 => exact .refl n

/-- The object that an acknowledged registration calls connects under the name. -/
theorem registerAck_named (chan : ℕ) (name : List UInt8) : (n.registerAck chan name).calls = n.calls ∨
    ∃ ch, (n.registerAck chan name).calls = n.calls ++ [.ncpRegisterAck ch] ∧
      (((n.registerAck chan name).channel ch).connectName = none →
        ((n.registerAck chan name).channel ch).registerName = []) := by
  unfold registerAck
  dsimp only
  split
  case h_1 ch _ =>
    refine .inr ⟨ch, rfl, fun hnone => ?_⟩
    change ((n.setChannel ch { n.channel ch with connectName := some name }).channel ch).connectName = none
      at hnone
    change ((n.setChannel ch { n.channel ch with connectName := some name }).channel ch).registerName = []
    by_cases hlt : ch < n.channels.length
    · rw [channel_setChannel_self hlt] at hnone
      cases hnone
    · rw [setChannel, List.set_eq_of_length_le (Nat.le_of_not_lt hlt)]
      simp [channel, List.getD_eq_getElem?_getD, hlt]
  case h_2 => exact .inl rfl

end NCP

namespace NCPSession

variable {s t : NCPSession} {ch : ℕ}

/-- A registration that is acknowledged: its object connects under the name. -/
theorem sendsShort_ncpDoRegisterAck (h : s.ncp.ShortNames) (chan : ℕ) {name : List UInt8}
    (hname : name.length ≤ maxConnectName) : s.ncp.SendsShort (s.ncpDoRegisterAck chan name).ncp := by
  have hnamed := NCP.sendsShort_registerAck (n := s.ncp) chan hname
  unfold ncpDoRegisterAck
  dsimp only
  rcases NCP.registerAck_named (n := s.ncp) chan name with hcalls | ⟨ch, hcalls, hconnect⟩
  · rw [hcalls, List.drop_length]
    exact hnamed
  · rw [hcalls, List.drop_left, List.foldl_cons, List.foldl_nil]
    dsimp only
    unfold ncpRegisterAck
    split
    · refine hnamed.trans (NCP.sendsShort_connect (hnamed.names h) fun _ hnone => ?_)
      rw [hconnect hnone]
      decide
    · exact hnamed

/-- A message for the link channel: the name is cut. -/
theorem sendsShort_linkDataCallback (h : s.ncp.ShortNames) (a : List UInt8) :
    s.ncp.SendsShort (s.linkDataCallback a).ncp := by
  unfold linkDataCallback
  split
  · dsimp only
    have hcut (name : List UInt8) : (name.take 17).length ≤ 17 := List.length_take_le _ _
    have hname : (if ((cString (a.drop 7)).take 17).length < 4 then (cString (a.drop 7)).take 17 ++ anySuffix
        else (cString (a.drop 7)).take 17).length ≤ maxConnectName := by
      have hlength := hcut (cString (a.drop 7))
      unfold maxConnectName
      split
      · rw [List.length_append]
        simp only [anySuffix, List.length_cons, List.length_nil]
        omega
      · omega
    generalize (if ((cString (a.drop 7)).take 17).length < 4 then (cString (a.drop 7)).take 17 ++ anySuffix
        else (cString (a.drop 7)).take 17) = srvName at hname ⊢
    have hfold (found : List (ℕ × ℕ)) (t : NCPSession) (ht : s.ncp.SendsShort t.ncp) :
        s.ncp.SendsShort (found.foldl (fun s se => s.ncpDoRegisterAck se.2 srvName) t).ncp := by
      induction found generalizing t with
      | nil => exact ht
      | cons se rest ih =>
        exact ih _ (ht.trans (sendsShort_ncpDoRegisterAck (ht.names h) se.2 hname))
    exact hfold _ _ (.refl _)
  · exact .refl _

/-- What a callback of the multiplexer leads to, other than an acknowledged registration. -/
theorem sendsShort_deliver (h : s.ncp.ShortNames) (now : ℕ) {call : Callback}
    (hcall : ∀ ch, call ≠ .ncpRegisterAck ch) : s.ncp.SendsShort (s.deliver now call).ncp := by
  cases call with
  | ncpDataCallback channel ch a =>
    unfold deliver
    dsimp only
    split
    · exact .refl _
    · exact sendsShort_linkDataCallback h a
  | ncpConnectAck ch =>
    unfold deliver ncpConnectAck
    dsimp only
    split <;> exact .refl _
  | ncpConnectNak ch =>
    unfold deliver ncpConnectNak
    dsimp only
    split
    · split
      · exact NCP.sendsShort_disconnect _
      · exact NCP.sendsShort_register _
    · exact NCP.sendsShort_setChannel_same rfl
  | ncpRegisterAck ch => exact absurd rfl (hcall ch)

/-- A packet is answered by short ones. -/
theorem sendsShort_receive (h : s.ncp.ShortNames) (packet : List UInt8) (now : ℕ) :
    s.ncp.SendsShort (s.receive packet now).ncp := by
  have harrived := NCP.sendsShort_receive h packet now
  unfold receive
  dsimp only
  rcases NCP.receive_callsBack (n := s.ncp) packet now with hcalls | ⟨call, hcalls, -, hcall⟩
  · rw [hcalls, List.drop_length]
    exact harrived
  · rw [hcalls, List.drop_left, List.foldl_cons, List.foldl_nil]
    exact harrived.trans (sendsShort_deliver (s := { s with ncp := s.ncp.receive packet now })
      (harrived.names h) now hcall)

/-- The client of a socket channel asks for the file server under a name that a connect has no room
for, and there is a number for the channel. -/
structure AsksTooLong (s : NCPSession) (ch : ℕ) (a : List UInt8) : Prop where
  unnamed : ∃ c, s.socket ch = some c ∧ c.registerName = none
  created : ch < s.ncp.channels.length
  terminated : 0 ∈ a
  request : isCommand a = false
  server : (cString a).take 8 = rfsvName
  unacknowledged : (s.ncp.channel ch).connectName = none
  number : (s.ncp.numberFor ch).1 > 0
  long : maxRegisterName < (cString a).length

/-- In this step a client asks for too long a name. -/
def TooLong (s : NCPSession) : Event → Prop
  | .socketPoll (.data a) _ => ∃ ch rest, s.polling = some (ch :: rest) ∧ s.AsksTooLong ch a
  | _ => False

/-- A string ends where it ends. -/
theorem cString_cString (s : List UInt8) : cString (cString s) = cString s := by
  unfold cString
  exact List.takeWhile_idem

/-- Naming an object does not change the number that it gets. -/
theorem numberFor_setChannel (n : NCP) (ch : ℕ) (name : List UInt8) :
    ((n.setChannel ch { n.channel ch with registerName := name }).numberFor ch).1 = (n.numberFor ch).1 := by
  have hsame : ((n.setChannel ch { n.channel ch with registerName := name }).channel ch).ncpChannel =
      (n.channel ch).ncpChannel := by
    by_cases hlt : ch < n.channels.length
    · rw [NCP.channel_setChannel_self hlt]
    · rw [NCP.setChannel, List.set_eq_of_length_le (Nat.le_of_not_lt hlt)]
  have hunused (m : NCP) : m.getFirstUnusedChan.1 =
      ((List.range' 1 (m.maxChannels - 1)).find? fun cNum => m.channelPtr cNum = .null).getD 0 := by
    unfold NCP.getFirstUnusedChan
    split
    · next heq => rw [heq, Option.getD_some]
    · next heq => rw [heq, Option.getD_none]
  unfold NCP.numberFor
  rw [hsame]
  split
  · rw [hunused, hunused]
    rfl
  · rfl

/-- A client says which service it wants: the packets are short unless the name is too long. -/
theorem sendsShort_announce (h : s.ncp.ShortNames) {c : SocketChannel} (hc : s.socket ch = some c)
    (hnone : c.registerName = none) {a : List UInt8} (hzero : 0 ∈ a) (hcommand : isCommand a = false)
    (hshort : ¬s.AsksTooLong ch a) (now : ℕ) :
    s.ncp.SendsShort (s.announce ch c (cString a) now).ncp := by
  have hset : s.ncp.SendsShort (s.ncp.setChannel ch { s.ncp.channel ch with registerName := cString a }) :=
    NCP.sendsShort_setChannel_same rfl
  unfold announce
  dsimp only
  split
  · next hserver =>
    refine hset.trans (NCP.sendsShort_connect (hset.names h) fun hnumber hunacked => ?_)
    by_cases hlt : ch < s.ncp.channels.length
    · rw [NCP.channel_setChannel_self hlt] at hunacked ⊢
      rw [numberFor_setChannel] at hnumber
      rw [cString_cString]
      by_contra hlong
      exact hshort ⟨⟨c, hc, hnone⟩, hlt, hzero, hcommand, hserver, hunacked, hnumber,
        Nat.lt_of_not_le hlong⟩
    · rw [NCP.setChannel, List.set_eq_of_length_le (Nat.le_of_not_lt hlt)]
      simp [NCP.channel, List.getD_eq_getElem?_getD, hlt, cString]
  · exact hset.trans (NCP.sendsShort_register _)

/-- A connect under too long a name is a packet that the link does not accept. -/
theorem sent_announce_long {c : SocketChannel} {a : List UInt8} (h : s.AsksTooLong ch a) (now : ℕ) :
    ∃ p ∈ (s.announce ch c (cString a) now).ncp.sent, maxPacket < p.length := by
  unfold announce
  dsimp only
  rw [if_pos h.server]
  change ∃ p ∈ ((s.ncp.setChannel ch { s.ncp.channel ch with registerName := cString a }).connect ch).2.sent,
    maxPacket < p.length
  rw [NCP.sent_connect, numberFor_setChannel, if_pos h.number]
  refine ⟨_, List.mem_append_right _ (List.mem_singleton_self _), ?_⟩
  have hlong := h.long
  rw [NCP.channel_setChannel_self h.created, NCP.connectString]
  dsimp only
  rw [h.unacknowledged]
  dsimp only
  rw [cString_cString]
  simp only [List.length_append, List.length_cons, List.length_nil, anySuffix]
  unfold maxRegisterName at hlong
  unfold maxPacket
  omega

/-- A command of a client is not passed on. -/
theorem sendsShort_ncpCommand (a : List UInt8) : s.ncp.SendsShort (s.ncpCommand a).ncp := by
  unfold ncpCommand
  split
  · dsimp only
    split
    · exact .refl _
    · exact .of_eq rfl rfl
  · exact .refl _

/-- The turn of a socket channel: the packets are short unless its client asks for too long a name. -/
theorem sendsShort_socketPoll (h : s.ncp.ShortNames) {read : SocketRead}
    (hshort : ∀ a, read = .data a → ¬s.AsksTooLong ch a) (now : ℕ) :
    s.ncp.SendsShort (s.socketPoll ch read now).ncp := by
  have hterminate : s.ncp.SendsShort (s.terminateWhenAsked ch).ncp := NCP.sendsShort_setChannel_same rfl
  unfold socketPoll
  split
  case h_1 => exact .refl _
  case h_2 c hc =>
    split
    case isTrue hnone =>
      split
      · next a =>
        split
        · exact .refl _
        next hzero =>
        split
        · exact sendsShort_ncpCommand a
        · next hcommand =>
          exact sendsShort_announce h hc hnone (Decidable.not_not.mp hzero)
            (Bool.eq_false_iff.mpr hcommand) (hshort a rfl) now
      · exact hterminate
      · exact .refl _
    case isFalse hnamed =>
      split
      · split
        · exact NCP.sendsShort_disconnect _
        · split
          · exact sendsShort_ncpCommand _
          · exact NCP.sendsShort_send _ _
        · exact .refl _
      · split
        · exact hterminate
        · exact .refl _

/-- The multiplexer sends short packets in every step in which no client asks for too long a name. -/
theorem sendsShort_step (h : s.ncp.ShortNames) {e : Event} (hshort : ¬s.TooLong e) :
    s.ncp.SendsShort (s.step e).ncp := by
  cases e with
  | receive packet now => exact sendsShort_receive h packet now
  | hasFailed lfailed =>
    change s.ncp.SendsShort (s.hasFailed lfailed).ncp
    have hfailed := NCP.sendsShort_hasFailed (n := s.ncp) lfailed
    unfold hasFailed
    dsimp only
    split <;> exact hfailed
  | reset => exact NCP.sendsShort_reset
  | accept =>
    change s.ncp.SendsShort s.accept.ncp
    unfold accept
    split
    · exact NCP.sendsShort_newChannel _ _ _
    · exact .refl _
  | beginRound =>
    unfold step
    dsimp only
    split <;> exact .refl _
  | socketPoll read now =>
    unfold step
    dsimp only
    split
    · next ch rest hpolling =>
      apply sendsShort_socketPoll (s := { s with polling := some rest }) h
      rintro a rfl hlong
      exact hshort ⟨ch, rest, hpolling, { hlong with }⟩
    · exact .refl _
  | endRound =>
    unfold step
    dsimp only
    split <;> exact .refl _

/-- A step in which a client asks for too long a name keeps the names short, and sends a long packet. -/
theorem step_tooLong (h : s.ncp.ShortNames) {e : Event} (hlong : s.TooLong e) :
    (s.step e).ncp.ShortNames ∧ ∃ p ∈ (s.step e).ncp.sent, maxPacket < p.length := by
  cases e with
  | socketPoll read now =>
    cases read with
    | data a =>
      obtain ⟨ch, rest, hpolling, hasks⟩ := hlong
      obtain ⟨c, hc, hnone⟩ := hasks.unnamed
      have hstep : s.step (.socketPoll (.data a) now) =
          ({ s with polling := some rest } : NCPSession).announce ch c (cString a) now := by
        unfold step socketPoll
        dsimp only
        rw [hpolling]
        dsimp only
        rw [hc]
        dsimp only
        rw [if_pos hnone, if_neg (not_not_intro hasks.terminated), if_neg (by simp [hasks.request])]
      rw [hstep]
      refine ⟨?_, sent_announce_long (s := { s with polling := some rest }) { hasks with } now⟩
      unfold announce
      dsimp only
      rw [if_pos hasks.server]
      have hset : s.ncp.SendsShort
          (s.ncp.setChannel ch { s.ncp.channel ch with registerName := cString a }) :=
        NCP.sendsShort_setChannel_same rfl
      exact NCP.names_connect (hset.names h) ch
    | closed => exact hlong.elim
    | nothing => exact hlong.elim
  | receive packet now => exact hlong.elim
  | hasFailed lfailed => exact hlong.elim
  | reset => exact hlong.elim
  | accept => exact hlong.elim
  | beginRound => exact hlong.elim
  | endRound => exact hlong.elim

/-- All packets so far are short, and so are the names of acknowledged services. -/
structure Fits (s : NCPSession) : Prop where
  packets : ∀ p ∈ s.ncp.sent, p.length ≤ maxPacket
  names : s.ncp.ShortNames

/-- A step keeps the packets short exactly when no client asks for too long a name in it. -/
theorem fits_step_iff (s : NCPSession) (e : Event) (h : s.Fits) : (s.step e).Fits ↔ ¬s.TooLong e := by
  constructor
  · intro hfits hlong
    obtain ⟨-, p, hp, hlength⟩ := step_tooLong h.names hlong
    exact absurd (hfits.packets p hp) (Nat.not_le.mpr hlength)
  · intro hshort
    have hsends := sendsShort_step h.names hshort
    obtain ⟨later, hsent, hlater⟩ := hsends.sent
    refine ⟨fun p hp => ?_, hsends.names h.names⟩
    rw [hsent] at hp
    rcases List.mem_append.mp hp with hold | hnew
    · exact h.packets p hold
    · exact hlater p hnew

/-- The names of acknowledged services are short in every state. -/
theorem names_step (s : NCPSession) (h : s.ncp.ShortNames) (e : Event) : (s.step e).ncp.ShortNames := by
  by_cases hlong : s.TooLong e
  · exact (step_tooLong h hlong).1
  · exact (sendsShort_step h hlong).names h

/-- What the link takes from the multiplexer: a packet that is short enough, so that handing it over
does not make the link fail. -/
def Accepted (p : List UInt8) : Prop :=
  p.length ≤ maxPacket ∧ ∀ (env : Env) (l : Link), ¬l.Marked env → (l.send env p).failed = false

/-- A packet is accepted up to this length. -/
theorem accepted_iff {p : List UInt8} : Accepted p ↔ p.length ≤ maxPacket := by
  refine ⟨fun h => h.1, fun h => ⟨h, fun env l hworks => ?_⟩⟩
  rw [Bool.eq_false_iff, ne_eq, Link.failed_send_iff hworks]
  exact Nat.not_lt.mpr h

/-- Whatever the clients send, every packet that is handed to the link is accepted exactly when no
client asks for the file server under too long a name. -/
theorem packets_accepted_iff (remoteChanList : ℕ → ℕ) (lastSentChannel : ℕ) (events : List Event) :
    (∀ seen, seen <+: events → ∀ p ∈ (runFrom step (init remoteChanList lastSentChannel) seen).ncp.sent,
        Accepted p) ↔
      Admits step (fun s e => ¬s.TooLong e) (init remoteChanList lastSentChannel) events := by
  have hempty : (init remoteChanList lastSentChannel).Fits := ⟨nofun, nofun⟩
  rw [← forall_prefix_iff_admits fits_step_iff hempty]
  refine forall₂_congr fun seen _ => ?_
  simp only [accepted_iff]
  constructor
  · intro hpackets
    exact ⟨hpackets, runFrom_invariant names_step hempty.names seen⟩
  · exact fun hfits => hfits.packets

/-- A client asks for the file server under a name of 295 bytes. -/
def longClient : List Event :=
  [linkUp, .accept, .beginRound, .socketPoll (.data (rfsvName ++ List.replicate 287 0x41 ++ [0])) 0]

/-- The connect that this client causes has 301 bytes. -/
theorem packet_not_accepted : ¬ ∀ (remoteChanList : ℕ → ℕ) (lastSentChannel : ℕ) (events : List Event),
    (∀ a now, .socketPoll (.data a) now ∈ events → a.length ≤ 16384) →
      ∀ p ∈ (runFrom step (init remoteChanList lastSentChannel) events).ncp.sent, p.length ≤ maxPacket := by
  intro hall
  have hlimit : ∀ a now, .socketPoll (.data a) now ∈ longClient → a.length ≤ 16384 := by
    intro a now hmem
    simp only [longClient, linkUp, List.mem_cons, reduceCtorEq, Event.socketPoll.injEq, SocketRead.data.injEq,
      List.not_mem_nil, or_false, false_or] at hmem
    rw [hmem.1, List.length_append, List.length_append, List.length_replicate]
    simp only [rfsvName, List.length_cons, List.length_nil]
    omega
  have hshort := hall (fun _ => 0) 0 longClient hlimit
  exact absurd hshort (by decide +kernel)

end NCPSession

end Plptools
