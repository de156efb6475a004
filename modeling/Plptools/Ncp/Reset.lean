import Plptools.Ncp.Conversation

/-!
# A reset and a new multiplexer

`reset` empties the channel table, but keeps the number of channels that the other side has settled,
what has been received of unfinished messages and the announced PC servers. Nothing outside the
numbers that the other side allows is ever held or received, so these three are all that is left
behind.
-/

namespace Plptools

open Plptools.Library

namespace NCP

/-- Nothing is held, and nothing is kept, for a number out of range, and no object has such a
number. -/
structure InRange (n : NCP) : Prop where
  pos : 0 < n.maxChannels
  le : n.maxChannels ≤ MAX_CHANNELS_PSION
  held : ∀ c, n.maxChannels ≤ c → n.channelPtr c = .null
  kept : ∀ c, n.maxChannels ≤ c → n.messageList c = []
  numbered : ∀ c ∈ n.channels, c.ncpChannel < n.maxChannels

section Steps

variable {n m : NCP}

/-- What is in range is read off these parts. -/
theorem InRange.congr (h : n.InRange) (hmax : m.maxChannels = n.maxChannels)
    (hptr : m.channelPtr = n.channelPtr) (hlist : m.messageList = n.messageList)
    (hchannels : ∀ c ∈ m.channels, c.ncpChannel < n.maxChannels) : m.InRange where
  pos := hmax ▸ h.pos
  le := hmax ▸ h.le
  held := by
    rw [hmax, hptr]
    exact h.held
  kept := by
    rw [hmax, hlist]
    exact h.kept
  numbered := by
    rw [hmax]
    exact hchannels

/-- The number of a channel is in range. -/
theorem InRange.ncpChannel_lt (h : n.InRange) (ch : ℕ) :
    (n.channel ch).ncpChannel < n.maxChannels := by
  rw [channel, List.getD_eq_getElem?_getD]
  cases hget : n.channels[ch]? with
  | none => exact h.pos
  | some c => exact h.numbered c (List.mem_of_getElem? hget)

/-- A slot in range is taken. -/
theorem InRange.take (h : n.InRange) {c : ℕ} (hc : c < n.maxChannels) (p : ChannelPtr) :
    (n.take c p).InRange where
  pos := h.pos
  le := h.le
  held := by
    intro c' hc'
    exact (Function.update_of_ne (Nat.ne_of_gt (hc.trans_le hc')) p _).trans (h.held c' hc')
  kept := h.kept
  numbered := h.numbered

/-- A slot is released. -/
theorem InRange.release (h : n.InRange) (c : ℕ) : (n.release c).InRange where
  pos := h.pos
  le := h.le
  held := by
    intro c' hc'
    simp only [NCP.release, Function.update_apply]
    split
    · rfl
    · exact h.held c' hc'
  kept := h.kept
  numbered := h.numbered

/-- A channel with a number in range is set. -/
theorem InRange.setChannel (h : n.InRange) (ch : ℕ) {c : Channel}
    (hc : c.ncpChannel < n.maxChannels) : (n.setChannel ch c).InRange := by
  refine h.congr rfl rfl rfl fun c' hc' => ?_
  rcases List.mem_or_eq_of_mem_set hc' with hold | rfl
  · exact h.numbered c' hold
  · exact hc

/-- A channel with a number in range is new. -/
theorem InRange.newChannel (h : n.InRange) (registerName : List UInt8) {ncpChannel : ℕ}
    (hc : ncpChannel < n.maxChannels) (registerSer : ℕ) :
    (n.newChannel registerName ncpChannel registerSer).2.InRange := by
  refine h.congr rfl rfl rfl fun c' hc' => ?_
  rcases List.mem_append.mp hc' with hold | hnew
  · exact h.numbered c' hold
  · rw [List.mem_singleton.mp hnew]
    exact hc

/-- The first unused number is in range. -/
theorem InRange.getFirstUnusedChan (h : n.InRange) :
    n.getFirstUnusedChan.1 < n.maxChannels ∧
      n.getFirstUnusedChan.2.maxChannels = n.maxChannels ∧ n.getFirstUnusedChan.2.InRange := by
  unfold NCP.getFirstUnusedChan
  cases hfind : (List.range' 1 (n.maxChannels - 1)).find? fun cNum => n.channelPtr cNum = .null with
  | none => exact ⟨h.pos, rfl, h⟩
  | some cNum =>
    have hlt : cNum < n.maxChannels := by
      have := List.mem_range'_1.mp (List.mem_of_find?_eq_some hfind)
      omega
    exact ⟨hlt, rfl, h.take hlt _⟩

/-- The number that is found is in range. -/
theorem InRange.numberFor (h : n.InRange) (ch : ℕ) :
    (n.numberFor ch).1 < n.maxChannels ∧ (n.numberFor ch).2.maxChannels = n.maxChannels ∧
      (n.numberFor ch).2.InRange := by
  unfold NCP.numberFor
  split
  · exact h.getFirstUnusedChan
  · exact ⟨h.ncpChannel_lt ch, rfl, h⟩

/-- Entering an object under a number in range. -/
theorem InRange.enter (h : n.InRange) {cNum : ℕ} (hc : cNum < n.maxChannels) (ch : ℕ) :
    ((n.take cNum (.object ch)).setChannel ch
      { (n.take cNum (.object ch)).channel ch with ncpChannel := cNum }).InRange :=
  (h.take hc _).setChannel ch hc

/-- Connecting keeps everything in range. -/
theorem InRange.connect (h : n.InRange) (ch : ℕ) :
    (n.connect ch).2.maxChannels = n.maxChannels ∧ (n.connect ch).2.InRange := by
  obtain ⟨hlt, hmax, hrange⟩ := h.numberFor ch
  unfold NCP.connect
  generalize n.numberFor ch = found at hlt hmax hrange ⊢
  obtain ⟨cNum, m⟩ := found
  dsimp only at hlt hmax hrange ⊢
  split
  · exact ⟨hmax, (hrange.enter (hmax ▸ hlt) ch).congr rfl rfl rfl (hrange.enter (hmax ▸ hlt) ch).numbered⟩
  · exact ⟨hmax, hrange⟩

/-- Sending keeps everything in range. -/
theorem InRange.send (h : n.InRange) (channel : ℕ) (a : List UInt8) : (n.send channel a).InRange := by
  rw [send_eq]
  exact h.congr rfl rfl rfl h.numbered

/-- Passing a registration on keeps everything in range. -/
theorem InRange.linkChannelRegister (h : n.InRange) (lChan ch : ℕ) :
    (n.linkChannelRegister lChan ch).InRange := by
  have hcounted : (n.setChannel lChan
      { n.channel lChan with registerSer := (n.channel lChan).registerSer + 1 }).InRange :=
    h.setChannel lChan (h.ncpChannel_lt lChan)
  exact hcounted.send _ _

/-- Registering keeps everything in range. -/
theorem InRange.register (h : n.InRange) (ch : ℕ) : (n.register ch).InRange := by
  unfold NCP.register
  split
  · exact h
  · obtain ⟨hlt, hmax, hrange⟩ := h.numberFor ch
    generalize n.numberFor ch = found at hlt hmax hrange ⊢
    obtain ⟨cNum, m⟩ := found
    dsimp only at hlt hmax hrange ⊢
    split
    · exact (hrange.enter (hmax ▸ hlt) ch).linkChannelRegister _ _
    · exact hrange

/-- Disconnecting keeps everything in range. -/
theorem InRange.disconnect (h : n.InRange) (c : ℕ) : (n.disconnect c).InRange := by
  unfold NCP.disconnect
  split
  case h_1 ch hobject =>
    have hterminated : (n.setChannel ch { n.channel ch with terminate := true }).InRange :=
      h.setChannel ch (h.ncpChannel_lt ch)
    have hreleased := hterminated.release c
    exact hreleased.congr rfl rfl rfl hreleased.numbered
  case h_2 => exact h

/-- A link channel with numbers in range is made. -/
theorem InRange.newLinkChannel (h : n.InRange) {localChan ncpChannel : ℕ}
    (hlocal : localChan < n.maxChannels) (hc : ncpChannel < n.maxChannels) :
    (n.newLinkChannel localChan ncpChannel).InRange := by
  obtain ⟨hmax, hconnected⟩ := (h.newChannel linkName hc 0x1234).connect n.channels.length
  have hentered := hconnected.take (hmax ▸ hlocal) (.object n.channels.length)
  exact hentered.congr rfl rfl rfl hentered.numbered

/-- A connect to the link keeps everything in range. -/
theorem InRange.connectToLink (h : n.InRange) (remoteChan : ℕ) : (n.connectToLink remoteChan).InRange := by
  unfold NCP.connectToLink
  split
  · exact h.congr rfl rfl rfl h.numbered
  · obtain ⟨hlt, hmax, hrange⟩ := h.getFirstUnusedChan
    generalize n.getFirstUnusedChan = found at hlt hmax hrange ⊢
    obtain ⟨localChan, m⟩ := found
    dsimp only at hlt hmax hrange ⊢
    have hanswered : (m.controlChannel localChan .NCON_MSG_CONNECT_RESPONSE
        [lowByte remoteChan, 0]).InRange := hrange.congr rfl rfl rfl hrange.numbered
    have hentered := hanswered.newLinkChannel (hmax ▸ hlt) (hmax ▸ hlt)
    exact hentered.congr rfl rfl rfl hentered.numbered

/-- A connect to a PC server is not answered, and keeps everything in range. -/
theorem InRange.connectToPcServer (h : n.InRange) (name : List UInt8) (remoteChan : ℕ) :
    (n.connectToPcServer name remoteChan).1 = false ∧
      (n.connectToPcServer name remoteChan).2.2.InRange := by
  unfold NCP.connectToPcServer
  split
  · exact ⟨rfl, h.getFirstUnusedChan.2.2.release _⟩
  · exact ⟨rfl, h⟩

/-- A connect to a server keeps everything in range. -/
theorem InRange.connectToServer (h : n.InRange) (name : List UInt8) (remoteChan : ℕ) :
    (n.connectToServer name remoteChan).InRange := by
  obtain ⟨hrefused, hrange⟩ := h.connectToPcServer name remoteChan
  unfold NCP.connectToServer
  generalize n.connectToPcServer name remoteChan = refused at hrefused hrange ⊢
  obtain ⟨ok, localChan, m⟩ := refused
  dsimp only at hrefused hrange ⊢
  subst hrefused
  have hanswered : (m.controlChannel 0 .NCON_MSG_CONNECT_RESPONSE
      [lowByte remoteChan, lowByte E_PSI_FILE_NXIST]).InRange :=
    hrange.congr rfl rfl rfl hrange.numbered
  rw [if_neg Bool.false_ne_true]
  change (if m.lChan.isNone then _ else _ : NCP).InRange
  split
  · exact hanswered.newLinkChannel hanswered.pos hanswered.pos
  · exact hanswered

/-- A response to a connect keeps everything in range. -/
theorem InRange.connectResponse (h : n.InRange) (remoteChan forChan : ℕ) (status : UInt8) :
    (n.connectResponse remoteChan forChan status).InRange := by
  unfold NCP.connectResponse
  split
  · split
    · exact h.congr rfl rfl rfl h.numbered
    · exact h.congr rfl rfl rfl h.numbered
  · exact h

/-- The version of the peer lowers no range that is in use. -/
theorem InRange.ncpInfo (h : n.InRange) (ver time : ℕ) : (n.ncpInfo ver time).InRange := by
  unfold NCP.ncpInfo
  split
  · dsimp only
    split
    · exact h.congr rfl rfl rfl h.numbered
    · exact {
        pos := Nat.zero_lt_succ _
        le := le_rfl
        held := fun c hc => h.held c (h.le.trans hc)
        kept := fun c hc => h.kept c (h.le.trans hc)
        numbered := fun c hc => (h.numbered c hc).trans_le h.le }
  · exact h.congr rfl rfl rfl h.numbered

/-- A control message keeps everything in range. -/
theorem InRange.decodeControlMessage (h : n.InRange) (buff : List UInt8) (time : ℕ) :
    (n.decodeControlMessage buff time).InRange := by
  have hworking : ({ n with failed := false } : NCP).InRange := h.congr rfl rfl rfl h.numbered
  unfold NCP.decodeControlMessage
  dsimp only
  split
  · split
    · exact hworking.connectToLink _
    · exact hworking.connectToServer _ _
  · split
    · exact hworking.connectResponse _ _ _
    · split
      · exact hworking.ncpInfo _ _
      · split
        · exact h.disconnect _
        · exact h

/-- Data keeps everything in range. -/
theorem InRange.receiveData (h : n.InRange) (c : ℕ) (allData : UInt8) (data : List UInt8) :
    (n.receiveData c allData data).InRange := by
  have hupdate (ch : ℕ) (hobject : n.channelPtr c = .object ch) (message : List UInt8) :
      ∀ c', n.maxChannels ≤ c' → Function.update n.messageList c message c' = [] := by
    intro c' hc'
    have hne : c' ≠ c := by
      rintro rfl
      exact nomatch (h.held c' hc').symm.trans hobject
    exact (Function.update_of_ne hne _ _).trans (h.kept c' hc')
  unfold NCP.receiveData
  split
  case h_1 ch hobject =>
    dsimp only
    split
    · exact ⟨h.pos, h.le, h.held, hupdate ch hobject _, h.numbered⟩
    · exact ⟨h.pos, h.le, h.held, hupdate ch hobject _, h.numbered⟩
  case h_2 => exact h

/-- A packet keeps everything in range. -/
theorem InRange.receive (h : n.InRange) (s : List UInt8) (time : ℕ) : (n.receive s time).InRange := by
  unfold NCP.receive
  split
  · dsimp only
    split
    · exact h.decodeControlMessage _ _
    · exact h.receiveData _ _ _
  · exact h

/-- A reset empties the table. -/
theorem InRange.reset_channelPtr (h : n.InRange) (c : ℕ) : n.reset.channelPtr c = .null := by
  change (if c < n.maxChannels then _ else _) = _
  split
  case isTrue => rfl
  case isFalse hge => exact h.held c (Nat.le_of_not_lt hge)

/-- Setting all to the start leaves everything in range. -/
theorem InRange.reset (h : n.InRange) : n.reset.InRange where
  pos := h.pos
  le := h.le
  held := fun c _ => h.reset_channelPtr c
  kept := h.kept
  numbered := by
    intro c hc
    obtain ⟨ch, hch, rfl⟩ := List.mem_mapIdx.mp hc
    have hold := h.numbered _ (List.getElem_mem hch)
    split <;> exact hold

/-- A failure leaves everything in range. -/
theorem InRange.hasFailed (h : n.InRange) (lfailed : Bool) : (n.hasFailed lfailed).2.InRange := by
  unfold NCP.hasFailed
  dsimp only
  split
  · split
    · exact (h.release _).congr rfl rfl rfl h.numbered
    · exact h.congr rfl rfl rfl h.numbered
  · exact h.congr rfl rfl rfl h.numbered

/-- An acknowledged registration keeps everything in range. -/
theorem InRange.registerAck (h : n.InRange) (chan : ℕ) (name : List UInt8) :
    (n.registerAck chan name).InRange := by
  unfold NCP.registerAck
  dsimp only
  split
  case h_1 ch _ =>
    have hnamed : (n.setChannel ch { n.channel ch with connectName := some name }).InRange :=
      h.setChannel ch (h.ncpChannel_lt ch)
    exact hnamed.congr rfl rfl rfl hnamed.numbered
  case h_2 => exact h

/-- Every event keeps the numbers in range. -/
theorem step_inRange (n : NCP) (h : n.InRange) (e : Event) : (n.step e).InRange := by
  cases e with
  | receive s time => exact h.receive s time
  | send channel a => exact h.send channel a
  | newChannel registerName => exact h.newChannel registerName h.pos 0
  | connect ch => exact (h.connect ch).2
  | register ch => exact h.register ch
  | registerAck chan name => exact h.registerAck chan name
  | disconnect channel => exact h.disconnect channel
  | reset => exact h.reset
  | hasFailed lfailed => exact h.hasFailed lfailed
  | registerPcServer name => exact h.congr rfl rfl rfl h.numbered
  | unregisterPcServer server => exact h.congr rfl rfl rfl h.numbered

end Steps

/-- At the start everything is in range. -/
theorem inRange_init (remoteChanList : ℕ → ℕ) (lastSentChannel : ℕ) :
    (init remoteChanList lastSentChannel).InRange where
  pos := Nat.zero_lt_succ _
  le := Nat.le_of_ble_eq_true rfl
  held := fun _ _ => rfl
  kept := fun _ _ => rfl
  numbered := by
    intro c hc
    exact nomatch hc

/-- The calls of the status callback that an event makes: whether the device is there, and the
version of its protocol. -/
def statusCalls (n : NCP) : Event → List (Bool × ℕ)
  | .receive s _ =>
    if s.length > 1 ∧ s.getD 0 0 = 0 then
      let imt := s.getD 2 0
      if imt = InterControllerMessageType.NCON_MSG_CONNECT_TO_SERVER.code then
        if cString (s.drop 3) = linkName ++ anySuffix then [(true, n.protocolVersion)] else []
      else if imt = InterControllerMessageType.NCON_MSG_CHANNEL_DISCONNECT.code then [(false, 0)]
      else []
    else []
  | .hasFailed lfailed => if n.failed || lfailed then [(false, 0)] else []
  | _ => []

/-- The calls of the status callback during some events. -/
def statusRun : NCP → List Event → List (Bool × ℕ)
  | _, [] => []
  | n, e :: rest => n.statusCalls e ++ statusRun (n.step e) rest

/-- What a multiplexer shows of itself: the packets for the link, the callbacks, the numbers of the
channel objects and how many channels can be used. -/
structure Outputs where
  sent : List (List UInt8)
  calls : List Callback
  status : List (Bool × ℕ)
  numbers : List ℕ
  maxLinks : ℕ

/-- The logs are cleared. -/
def quiet (n : NCP) : NCP := { n with sent := [], calls := [], taken := [] }

/-- What some events make a multiplexer show. -/
def outputs (n : NCP) (events : List Event) : Outputs :=
  let m := runFrom step n.quiet events
  ⟨m.sent, m.calls, statusRun n.quiet events, m.channels.map Channel.ncpChannel, m.maxChannels⟩

/-- A new multiplexer among the same channel objects, with what its uninitialised members hold. -/
def renewed (n : NCP) (remoteChanList : ℕ → ℕ) (lastSentChannel : ℕ) : NCP :=
  { init remoteChanList lastSentChannel with channels := n.channels }

/-- Create some objects behind the first `size` ones, and connect them. -/
def connects (size : ℕ) : ℕ → List Event
  | 0 => []
  | k + 1 => connects size k ++ [.newChannel [], .connect (size + k)]

/-- The first unused number is the first entry that is a null pointer. -/
theorem getFirstUnusedChan_eq {n : NCP} {c : ℕ} (hpos : 0 < c) (hc : c < n.maxChannels)
    (hnull : n.channelPtr c = .null) (hbefore : ∀ i, 0 < i → i < c → n.channelPtr i ≠ .null) :
    n.getFirstUnusedChan = (c, n.take c .reserved) := by
  have hfind : ((List.range' 1 (n.maxChannels - 1)).find? fun cNum => n.channelPtr cNum = .null) =
      some c := by
    rw [List.find?_range'_eq_some]
    refine ⟨by simpa using hnull, List.mem_range'_1.mpr (by omega), fun i hi hlt => ?_⟩
    simpa using hbefore i hi hlt
  rw [getFirstUnusedChan, hfind]

/-- Creating an object and connecting it under the first unused number. -/
theorem connect_new {n : NCP} {c : ℕ} (hpos : 0 < c) (hc : c < n.maxChannels)
    (hnull : n.channelPtr c = .null) (hbefore : ∀ i, 0 < i → i < c → n.channelPtr i ≠ .null) :
    let m := runFrom step n [.newChannel [], .connect n.channels.length]
    m.channels.length = n.channels.length + 1 ∧ m.messageList = n.messageList ∧
      m.calls = n.calls ∧ m.maxChannels = n.maxChannels ∧ m.protocolVersion = n.protocolVersion ∧
      m.channelPtr = Function.update n.channelPtr c (.object n.channels.length) ∧
      m.pcServers = n.pcServers ∧ m.lChan = n.lChan ∧ m.sent.length = n.sent.length + 1 := by
  have hnumber : ((n.newChannel [] 0 0).2.channel n.channels.length).ncpChannel = 0 := by
    simp [newChannel, channel, List.getD_eq_getElem?_getD]
  have hfirst := getFirstUnusedChan_eq (n := (n.newChannel [] 0 0).2) hpos hc hnull hbefore
  have hstep : runFrom step n [.newChannel [], .connect n.channels.length] =
      ((n.newChannel [] 0 0).2.connect n.channels.length).2 := rfl
  rw [hstep, connect, numberFor, if_pos hnumber, hfirst]
  simp [newChannel, take, setChannel, controlChannel, linkSend, hpos]

/-- Objects that are connected in turn are entered one after the other. -/
theorem run_connects {n : NCP} (hnull : ∀ i, n.channelPtr i = .null) {k : ℕ}
    (hk : k < n.maxChannels) :
    let m := runFrom step n (connects n.channels.length k)
    m.channels.length = n.channels.length + k ∧ m.messageList = n.messageList ∧
      m.calls = n.calls ∧ m.maxChannels = n.maxChannels ∧ m.protocolVersion = n.protocolVersion ∧
      (∀ i, m.channelPtr i =
        if 0 < i ∧ i ≤ k then .object (n.channels.length + (i - 1)) else .null) ∧
      m.pcServers = n.pcServers ∧ m.lChan = n.lChan ∧ m.sent.length = n.sent.length + k := by
  induction k with
  | zero =>
    refine ⟨rfl, rfl, rfl, rfl, rfl, fun i => ?_, rfl, rfl, rfl⟩
    rw [if_neg (by omega)]
    exact hnull i
  | succ k ih =>
    obtain ⟨hlength, hlist, hcalls, hmax, hversion, hptr, hservers, hlink, hsent⟩ := ih (by omega)
    dsimp only at *
    rw [connects, runFrom_append]
    generalize runFrom step n (connects n.channels.length k) = m at *
    have hfree : m.channelPtr (k + 1) = .null := by
      rw [hptr, if_neg (by omega)]
    have hbefore : ∀ i, 0 < i → i < k + 1 → m.channelPtr i ≠ .null := by
      intro i hpos hlt
      rw [hptr, if_pos (by omega)]
      exact fun h => nomatch h
    obtain ⟨hlength', hlist', hcalls', hmax', hversion', hptr', hservers', hlink', hsent'⟩ :=
      connect_new (Nat.succ_pos k) (hmax ▸ hk) hfree hbefore
    rw [← hlength]
    refine ⟨hlength'.trans (by omega), hlist'.trans hlist, hcalls'.trans hcalls,
      hmax'.trans hmax, hversion'.trans hversion, fun i => ?_, hservers'.trans hservers,
      hlink'.trans hlink, hsent'.trans (by omega)⟩
    rw [hptr', Function.update_apply, hptr]
    by_cases hlast : i = k + 1
    · rw [if_pos hlast, if_pos (by omega), hlength, hlast, Nat.add_sub_cancel]
    · rw [if_neg hlast]
      exact if_congr (by omega) rfl rfl

/-- A last fragment brings out what is kept for the number of an object. -/
theorem receive_kept {n : NCP} {c ch : ℕ} (hpos : 0 < c) (hc : c < 256)
    (hobject : n.channelPtr c = .object ch) (hversion : n.protocolVersion = PV_SERIES_5) :
    (n.step (.receive [UInt8.ofNat c, 0, LAST_MESS] 0)).calls =
      n.calls ++ [.ncpDataCallback c ch (n.messageList c)] := by
  have hdestination : destination [UInt8.ofNat c, 0, LAST_MESS] = c := UInt8.toNat_ofNat_of_lt' hc
  have hframe : IsFragment [UInt8.ofNat c, 0, LAST_MESS] :=
    ⟨Nat.le_refl 3, by rw [hdestination]; omega, .inl rfl⟩
  have hvalid : n.isValidChannel (destination [UInt8.ofNat c, 0, LAST_MESS]) = true := by
    rw [hdestination, isValidChannel, hobject]
  have hrouted : Routed n (.reply [UInt8.ofNat c, 0, LAST_MESS] 0) := by
    intro hseries3
    exact absurd (hversion.symm.trans hseries3) (by decide)
  have hfragment : fragment [UInt8.ofNat c, 0, LAST_MESS] = (true, []) := rfl
  rw [step, receive_fragment 0 hframe hvalid hrouted, hdestination, hfragment]
  simp [assemble, callbackOf, objectAt, hobject]

/-- Handing out a number changes nothing but the table. -/
theorem getFirstUnusedChan_keeps (n : NCP) :
    n.getFirstUnusedChan.2.messageList = n.messageList ∧ n.getFirstUnusedChan.2.calls = n.calls ∧
      n.getFirstUnusedChan.2.lChan = n.lChan ∧ n.getFirstUnusedChan.2.channels = n.channels := by
  unfold getFirstUnusedChan
  split <;> exact ⟨rfl, rfl, rfl, rfl⟩

/-- Connecting calls no object, and keeps what has been received. -/
theorem connect_keeps (n : NCP) (ch : ℕ) :
    (n.connect ch).2.messageList = n.messageList ∧ (n.connect ch).2.calls = n.calls := by
  have hnumber : (n.numberFor ch).2.messageList = n.messageList ∧
      (n.numberFor ch).2.calls = n.calls := by
    obtain ⟨hlist, hcalls, -, -⟩ := n.getFirstUnusedChan_keeps
    unfold numberFor
    split
    · exact ⟨hlist, hcalls⟩
    · exact ⟨rfl, rfl⟩
  unfold connect
  dsimp only
  split
  · exact hnumber
  · exact hnumber

/-- A connect to a server enters a missing link channel under number 0. -/
theorem connectToServer_link {n : NCP} (hlink : n.lChan = none) (name : List UInt8)
    (remoteChan : ℕ) :
    (n.connectToServer name remoteChan).channelPtr 0 = .object n.channels.length ∧
      (n.connectToServer name remoteChan).messageList = n.messageList ∧
      (n.connectToServer name remoteChan).calls = n.calls := by
  have hrefused : (n.connectToPcServer name remoteChan).1 = false ∧
      (n.connectToPcServer name remoteChan).2.2.messageList = n.messageList ∧
      (n.connectToPcServer name remoteChan).2.2.calls = n.calls ∧
      (n.connectToPcServer name remoteChan).2.2.lChan = n.lChan ∧
      (n.connectToPcServer name remoteChan).2.2.channels = n.channels := by
    unfold connectToPcServer
    split
    · exact ⟨rfl, n.getFirstUnusedChan_keeps⟩
    · exact ⟨rfl, rfl, rfl, rfl, rfl⟩
  unfold connectToServer
  generalize n.connectToPcServer name remoteChan = refused at hrefused ⊢
  obtain ⟨ok, localChan, m⟩ := refused
  obtain ⟨rfl, hlist, hcalls, hnone, hchannels⟩ := hrefused
  dsimp only at hlist hcalls hnone hchannels ⊢
  rw [if_neg Bool.false_ne_true, ← hlist, ← hcalls, ← hchannels]
  have hmissing (command : List UInt8) :
      (m.controlChannel 0 .NCON_MSG_CONNECT_RESPONSE command).lChan.isNone = true := by
    change m.lChan.isNone = true
    rw [hnone, hlink]
    rfl
  rw [if_pos (hmissing _)]
  obtain ⟨hlist', hcalls'⟩ := connect_keeps ((m.controlChannel 0 .NCON_MSG_CONNECT_RESPONSE
    [lowByte remoteChan, lowByte E_PSI_FILE_NXIST]).newChannel linkName 0 0x1234).2 m.channels.length
  refine ⟨?_, hlist', hcalls'⟩
  simp [newLinkChannel, newChannel, take, controlChannel, linkSend]

/-- What is kept for number 0 is brought out by a connect to a server, which enters the link channel
there, and a device with one channel. -/
theorem receive_kept_zero (n : NCP) (hlink : n.lChan = none) :
    (runFrom step n [.receive [0, 0, 3, 0] 0, .receive [0, 0, 6, 3] 0, .send 0 [],
      .receive [1, 0, LAST_MESS] 0]).calls =
      n.calls ++ [.ncpDataCallback 0 n.channels.length (n.messageList 0)] := by
  have hconnect : n.step (.receive [0, 0, 3, 0] 0) =
      ({ n with failed := false } : NCP).connectToServer [] 0 := rfl
  obtain ⟨hobject, hlist, hcalls⟩ :=
    connectToServer_link (n := { n with failed := false }) hlink [] 0
  rw [runFrom_cons, hconnect]
  generalize ({ n with failed := false } : NCP).connectToServer [] 0 = m at hobject hlist hcalls ⊢
  obtain ⟨hptr', hlist', hcalls', hversion, hlast⟩ :
      (runFrom step m [.receive [0, 0, 6, 3] 0, .send 0 []]).channelPtr = m.channelPtr ∧
      (runFrom step m [.receive [0, 0, 6, 3] 0, .send 0 []]).messageList = m.messageList ∧
      (runFrom step m [.receive [0, 0, 6, 3] 0, .send 0 []]).calls = m.calls ∧
      (runFrom step m [.receive [0, 0, 6, 3] 0, .send 0 []]).protocolVersion = PV_SERIES_3 ∧
      (runFrom step m [.receive [0, 0, 6, 3] 0, .send 0 []]).lastSentChannel = 0 :=
    ⟨rfl, rfl, rfl, rfl, rfl⟩
  have hrun : runFrom step m [.receive [0, 0, 6, 3] 0, .send 0 [], .receive [1, 0, LAST_MESS] 0] =
      (runFrom step m [.receive [0, 0, 6, 3] 0, .send 0 []]).receive [1, 0, LAST_MESS] 0 := rfl
  rw [hrun]
  generalize runFrom step m [.receive [0, 0, 6, 3] 0, .send 0 []] = m' at *
  have hlist'' : m'.messageList 0 = n.messageList 0 := congrFun (hlist'.trans hlist) 0
  have hcalls'' : m'.calls = n.calls := hcalls'.trans hcalls
  have hobject' : m'.channelPtr 0 = .object n.channels.length := (congrFun hptr' 0).trans hobject
  simp [receive, receiveData, hversion, hlast, hobject', hlist'', hcalls'', call]

/-- Two multiplexers that keep different things for a number in range, with nothing entered, can
be told apart. -/
theorem kept_eq_of_outputs_eq {n m : NCP} (hn : ∀ i, n.channelPtr i = .null)
    (hm : ∀ i, m.channelPtr i = .null) (hversion : n.protocolVersion = PV_SERIES_5)
    (hversion' : m.protocolVersion = PV_SERIES_5) (hlink : n.lChan = none) (hlink' : m.lChan = none)
    (hchannels : n.channels = m.channels) (hmax : n.maxChannels = m.maxChannels)
    (hle : n.maxChannels ≤ MAX_CHANNELS_PSION)
    (houtputs : ∀ later, n.outputs later = m.outputs later) {c : ℕ} (hc : c < n.maxChannels) :
    n.messageList c = m.messageList c := by
  rcases Nat.eq_zero_or_pos c with rfl | hpos
  · have hcalls := congrArg Outputs.calls (houtputs [.receive [0, 0, 3, 0] 0,
      .receive [0, 0, 6, 3] 0, .send 0 [], .receive [1, 0, LAST_MESS] 0])
    have hleft := receive_kept_zero n.quiet hlink
    have hright := receive_kept_zero m.quiet hlink'
    have hboth := hleft.symm.trans (hcalls.trans hright)
    simp only [quiet, hchannels, List.nil_append, List.cons.injEq, Callback.ncpDataCallback.injEq,
      true_and, and_true] at hboth
    exact hboth
  · have hshown (k : NCP) (hk : ∀ i, k.channelPtr i = .null)
        (hkversion : k.protocolVersion = PV_SERIES_5) (hkc : c < k.maxChannels) :
        (k.outputs (connects k.channels.length c ++
          [.receive [UInt8.ofNat c, 0, LAST_MESS] 0])).calls =
          [.ncpDataCallback c (k.channels.length + (c - 1)) (k.messageList c)] := by
      obtain ⟨-, hlist, hcalls, -, hversion, hptr, -⟩ := run_connects (n := k.quiet) hk hkc
      have hobject := hptr c
      rw [if_pos ⟨hpos, Nat.le_refl c⟩] at hobject
      have hreceive := receive_kept hpos (hc.trans_le hle) hobject (hversion.trans hkversion)
      rw [hlist, hcalls] at hreceive
      rw [outputs, runFrom_append]
      exact hreceive
    have hcalls := congrArg Outputs.calls (houtputs (connects n.channels.length c ++
      [.receive [UInt8.ofNat c, 0, LAST_MESS] 0]))
    rw [hshown n hn hversion hc, hchannels, hshown m hm hversion' (hmax ▸ hc)] at hcalls
    simpa using hcalls

/-- All numbers are handed out. -/
def Full (n : NCP) : Prop := ∀ i < n.maxChannels, 0 < i → n.channelPtr i ≠ .null

instance (n : NCP) : Decidable n.Full :=
  inferInstanceAs (Decidable (∀ i < n.maxChannels, 0 < i → n.channelPtr i ≠ .null))

/-- 0 stands for no number. -/
theorem getFirstUnusedChan_eq_zero_iff {n : NCP} : n.getFirstUnusedChan.1 = 0 ↔ n.Full := by
  unfold NCP.getFirstUnusedChan
  cases hfind : (List.range' 1 (n.maxChannels - 1)).find? fun cNum => n.channelPtr cNum = .null with
  | none =>
    apply iff_of_true rfl
    intro i hlt hpos
    have hmem : i ∈ List.range' 1 (n.maxChannels - 1) := List.mem_range'_1.mpr (by omega)
    simpa using List.find?_eq_none.mp hfind i hmem
  | some cNum =>
    have hmem := List.mem_range'_1.mp (List.mem_of_find?_eq_some hfind)
    have hnull : n.channelPtr cNum = .null := by simpa using List.find?_some hfind
    apply iff_of_false (Nat.ne_of_gt hmem.1)
    intro hfull
    exact hfull cNum (by omega) hmem.1 hnull

/-- From a full table, 0 is handed out. -/
theorem getFirstUnusedChan_of_full {n : NCP} (h : n.Full) : n.getFirstUnusedChan = (0, n) := by
  have hzero := getFirstUnusedChan_eq_zero_iff.mpr h
  unfold NCP.getFirstUnusedChan at hzero ⊢
  split
  case h_1 cNum hfind =>
    rw [hfind] at hzero
    have hpos := (List.mem_range'_1.mp (List.mem_of_find?_eq_some hfind)).1
    exact absurd hzero (Nat.ne_of_gt hpos)
  case h_2 => rfl

/-- With a full table, a connect to a PC server takes away what is entered under number 0. -/
theorem Full.connectToPcServer {n : NCP} (h : n.Full) (name : List UInt8) (remoteChan : ℕ) :
    n.connectToPcServer name remoteChan =
      (false, 0, if name ∈ n.pcServers then n.release 0 else n) := by
  unfold NCP.connectToPcServer
  split
  · rw [getFirstUnusedChan_of_full h]
    rfl
  · rfl

/-- With a full table, the link channel is entered under number 0, and no connect is sent for it. -/
theorem Full.newLinkChannel {n : NCP} (h : n.Full) :
    n.newLinkChannel 0 0 =
      { (n.newChannel linkName 0 0x1234).2.take 0 (.object n.channels.length) with
        lChan := some n.channels.length } := by
  have hnumber : ((n.newChannel linkName 0 0x1234).2.channel n.channels.length).ncpChannel = 0 := by
    simp [newChannel, channel, List.getD_eq_getElem?_getD]
  have hfull : (n.newChannel linkName 0 0x1234).2.Full := h
  have hconnect : ((n.newChannel linkName 0 0x1234).2.connect n.channels.length).2 =
      (n.newChannel linkName 0 0x1234).2 := by
    rw [NCP.connect, numberFor, if_pos hnumber, getFirstUnusedChan_of_full hfull]
    rfl
  change ({ (((n.newChannel linkName 0 0x1234).2.connect n.channels.length).2).take 0
    (.object n.channels.length) with lChan := some n.channels.length } : NCP) = _
  rw [hconnect]

/-- What a connect with a full table does before it is answered. -/
theorem Full.refused {n : NCP} (h : n.Full) (name : List UInt8) :
    let m := if name ∈ n.pcServers then n.release 0 else n
    m.Full ∧ m.lChan = n.lChan ∧ m.pcServers = n.pcServers ∧ m.channels = n.channels ∧
      m.sent = n.sent := by
  intro m
  unfold m
  split
  · refine ⟨fun i hi hpos => ?_, rfl, rfl, rfl, rfl⟩
    exact (Function.update_of_ne hpos.ne' _ _).trans_ne (h i hi hpos)
  · exact ⟨h, rfl, rfl, rfl, rfl⟩

/-- A connect to a service that is not there, with a full table. -/
theorem Full.connectToServer {n : NCP} (h : n.Full) (name : List UInt8) (remoteChan : ℕ) :
    n.connectToServer name remoteChan =
      let m := (if name ∈ n.pcServers then n.release 0 else n).controlChannel 0
        .NCON_MSG_CONNECT_RESPONSE [lowByte remoteChan, lowByte E_PSI_FILE_NXIST]
      if n.lChan.isNone then m.newLinkChannel 0 0 else m := by
  obtain ⟨-, hlink, -⟩ := h.refused name
  unfold NCP.connectToServer
  rw [h.connectToPcServer, ← hlink]
  rfl

/-- The first connect enters the link channel under number 0. -/
theorem Full.connectToServer_link {n : NCP} (h : n.Full) (hlink : n.lChan = none)
    (name : List UInt8) (remoteChan : ℕ) :
    let m := n.connectToServer name remoteChan
    m.Full ∧ m.channelPtr 0 = .object n.channels.length ∧ m.lChan.isNone = false ∧
      m.pcServers = n.pcServers ∧ m.sent.length = n.sent.length + 1 := by
  obtain ⟨hfull, -, hservers, hchannels, hsent⟩ := h.refused name
  rw [h.connectToServer, hlink]
  generalize (if name ∈ n.pcServers then n.release 0 else n) = k at hfull hservers hchannels hsent ⊢
  have hanswered : (k.controlChannel 0 .NCON_MSG_CONNECT_RESPONSE
      [lowByte remoteChan, lowByte E_PSI_FILE_NXIST]).Full := hfull
  dsimp only
  rw [Option.isNone_none, if_pos rfl, hanswered.newLinkChannel, ← hservers, ← hchannels, ← hsent]
  refine ⟨fun i hi hpos => ?_, ?_, rfl, rfl, List.length_append⟩
  · exact (Function.update_of_ne hpos.ne' _ _).trans_ne (hfull i hi hpos)
  · exact Function.update_self 0 _ k.channelPtr

/-- With a link channel under number 0, a connect to a PC server takes it away. -/
theorem Full.connectToServer_linked {n : NCP} (h : n.Full) (hlink : n.lChan.isNone = false)
    (name : List UInt8) (remoteChan : ℕ) :
    let m := n.connectToServer name remoteChan
    m.channelPtr 0 = (if name ∈ n.pcServers then .null else n.channelPtr 0) ∧
      m.sent.length = n.sent.length + 1 := by
  rw [h.connectToServer, hlink, if_neg Bool.false_ne_true]
  split
  · exact ⟨Function.update_self 0 _ n.channelPtr, List.length_append⟩
  · exact ⟨rfl, List.length_append⟩

/-- Announce a PC server and withdraw the first one, fill a table of `max` channels, let the device
connect to two services, so that the link channel is entered under number 0 and the PC server is
asked for, and let it disconnect number 0. -/
def connectsToServer (size max : ℕ) : List Event :=
  .registerPcServer [0x41] :: .unregisterPcServer 0 :: (connects size (max - 1) ++
    [.receive [0, 0, 3, 0] 0, .receive [0, 0, 3, 0x41, 0] 0, .receive [0, 0, 7, 0] 0])

/-- The disconnect of the link channel is answered unless a PC server had been announced before. -/
theorem sent_connectsToServer {n : NCP} (hnull : ∀ i, n.channelPtr i = .null)
    (hpos : 0 < n.maxChannels) (hlink : n.lChan = none) :
    (runFrom step n (connectsToServer n.channels.length n.maxChannels)).sent.length =
      n.sent.length + n.maxChannels + if n.pcServers = [] then 2 else 1 := by
  have hmem : [0x41] ∈ (n.pcServers ++ [[0x41]]).eraseIdx 0 ↔ n.pcServers ≠ [] := by
    cases n.pcServers with
    | nil => simp
    | cons first rest => simp
  have hconnected := run_connects (n := (n.registerPcServer [0x41]).unregisterPcServer 0) hnull
    (k := n.maxChannels - 1) (Nat.sub_lt hpos Nat.one_pos)
  rw [connectsToServer, runFrom_cons, runFrom_cons, runFrom_append]
  change (runFrom step (runFrom step ((n.registerPcServer [0x41]).unregisterPcServer 0)
    (connects n.channels.length (n.maxChannels - 1))) _).sent.length = _
  have hsize : ((n.registerPcServer [0x41]).unregisterPcServer 0).channels.length =
      n.channels.length := rfl
  rw [hsize] at hconnected
  generalize runFrom step ((n.registerPcServer [0x41]).unregisterPcServer 0)
    (connects n.channels.length (n.maxChannels - 1)) = k at hconnected ⊢
  obtain ⟨-, -, -, hmax, -, hptr, hservers, hnone, hsent⟩ := hconnected
  have hfull : k.Full := by
    intro i hle hi
    have hle' : i < n.maxChannels := hle.trans_eq hmax
    rw [hptr, if_pos (by omega)]
    exact fun h => nomatch h
  obtain ⟨hfull', hobject, hlinked, hservers', hsent'⟩ :=
    Full.connectToServer_link (n := { k with failed := false }) hfull (hnone.trans hlink) [] 0
  have hrun : runFrom step k [.receive [0, 0, 3, 0] 0, .receive [0, 0, 3, 0x41, 0] 0,
      .receive [0, 0, 7, 0] 0] =
      (({ ({ k with failed := false } : NCP).connectToServer [] 0 with
        failed := false } : NCP).connectToServer [0x41] 0).disconnect 0 := rfl
  rw [hrun]
  generalize ({ k with failed := false } : NCP).connectToServer [] 0 = m at *
  obtain ⟨hheld, hsent''⟩ :=
    Full.connectToServer_linked (n := { m with failed := false }) hfull' hlinked [0x41] 0
  generalize ({ m with failed := false } : NCP).connectToServer [0x41] 0 = l at *
  have hservers'' : m.pcServers = (n.pcServers ++ [[0x41]]).eraseIdx 0 := hservers'.trans hservers
  have hcount : l.sent.length = n.sent.length + n.maxChannels + 1 := by
    have hk : k.sent.length = n.sent.length + (n.maxChannels - 1) := hsent
    have hm : m.sent.length = k.sent.length + 1 := hsent'
    have hl : l.sent.length = m.sent.length + 1 := hsent''
    omega
  have hanswered : (l.disconnect 0).sent.length =
      if [0x41] ∈ m.pcServers then l.sent.length else l.sent.length + 1 := by
    change l.channelPtr 0 = if [0x41] ∈ m.pcServers then .null else m.channelPtr 0 at hheld
    by_cases hknown : [0x41] ∈ m.pcServers
    · rw [if_pos hknown] at hheld ⊢
      rw [disconnect, hheld]
    · rw [if_neg hknown, hobject] at hheld
      rw [disconnect, hheld, if_neg hknown]
      exact List.length_append
  rw [hanswered, hservers'', hcount]
  simp only [hmem, ite_not]
  split <;> rfl

/-- A multiplexer with PC servers can be told apart from one without, with nothing entered. -/
theorem pcServers_eq_nil_of_outputs_eq {n m : NCP} (hn : ∀ i, n.channelPtr i = .null)
    (hm : ∀ i, m.channelPtr i = .null) (hlink : n.lChan = none) (hlink' : m.lChan = none)
    (hchannels : n.channels = m.channels) (hmax : n.maxChannels = m.maxChannels)
    (hpos : 0 < n.maxChannels) (hservers : m.pcServers = [])
    (houtputs : ∀ later, n.outputs later = m.outputs later) : n.pcServers = [] := by
  have hleft := sent_connectsToServer (n := n.quiet) hn hpos hlink
  have hright := sent_connectsToServer (n := m.quiet) hm (hmax ▸ hpos) hlink'
  have hshown := congrArg (fun o => o.sent.length)
    (houtputs (connectsToServer n.channels.length n.maxChannels))
  have hsame : (m.outputs (connectsToServer n.channels.length n.maxChannels)).sent.length =
      (runFrom step m.quiet (connectsToServer m.quiet.channels.length m.quiet.maxChannels)).sent.length := by
    rw [hchannels, hmax]
    rfl
  have hcounts := hleft.symm.trans (hshown.trans (hsame.trans hright))
  change 0 + n.maxChannels + (if n.pcServers = [] then 2 else 1) =
    0 + m.maxChannels + if m.pcServers = [] then 2 else 1 at hcounts
  rw [if_pos hservers, hmax] at hcounts
  by_contra hne
  rw [if_neg hne] at hcounts
  omega

/-- After a reset, a multiplexer shows the same as some new one, whatever happens later, exactly
when the other side has not settled on more channels, no message is half received and no PC server
is announced. -/
theorem reset_as_new_iff (remoteChanList : ℕ → ℕ) (lastSentChannel : ℕ) (history : List Event) :
    let n := runFrom step (init remoteChanList lastSentChannel) history
    (∃ r l, ∀ later, n.reset.outputs later = (n.reset.renewed r l).outputs later) ↔
      n.maxChannels = MAX_CHANNELS_SIBO ∧ (∀ c, n.messageList c = []) ∧ n.pcServers = [] := by
  intro n
  have hrange : n.InRange := runFrom_invariant step_inRange (inRange_init _ _) history
  have hempty := hrange.reset_channelPtr
  constructor
  · rintro ⟨r, l, houtputs⟩
    have hmax : n.maxChannels = MAX_CHANNELS_SIBO := congrArg Outputs.maxLinks (houtputs [])
    refine ⟨hmax, fun c => ?_, ?_⟩
    · by_cases hc : c < n.maxChannels
      · exact kept_eq_of_outputs_eq (m := n.reset.renewed r l) hempty (fun _ => rfl) rfl rfl rfl rfl
          rfl hmax hrange.le houtputs hc
      · exact hrange.kept c (Nat.le_of_not_lt hc)
    · exact pcServers_eq_nil_of_outputs_eq (n := n.reset) (m := n.reset.renewed r l) hempty
        (fun _ => rfl) rfl rfl rfl hmax hrange.pos rfl houtputs
  · rintro ⟨hmax, hlist, hservers⟩
    refine ⟨n.remoteChanList, n.lastSentChannel, fun later => ?_⟩
    have hsame : n.reset.quiet = (n.reset.renewed n.remoteChanList n.lastSentChannel).quiet := by
      have hptr : n.reset.channelPtr = fun _ => .null := funext hempty
      have hlist' : n.messageList = fun _ => [] := funext hlist
      have hkept : n.reset.quiet = { n.reset.quiet with
          channelPtr := fun _ => .null, messageList := fun _ => [],
          maxChannels := MAX_CHANNELS_SIBO, pcServers := [] } := by
        rw [← hptr, ← hlist', ← hmax, ← hservers]
        rfl
      rw [hkept]
      rfl
    rw [outputs, outputs, hsame]

/-- The number of channels of a Series 5 outlives a reset, and so does the first part of a message:
the next client with its number is called with it. -/
theorem reset_not_as_new :
    (∀ r l, let n := (runFrom step (init (fun _ => 0) 0) [.receive [0, 0, 6, 6] 0])
      n.reset.outputs [] ≠ (n.reset.renewed r l).outputs []) ∧
    (∀ r l, let n := (runFrom step (init (fun _ => 0) 0)
        [.newChannel [], .connect 0, .receive [1, 0, NOT_LAST_MESS, 0x41] 0])
      n.reset.outputs [.newChannel [], .connect 1, .receive [1, 0, LAST_MESS] 0] ≠
        (n.reset.renewed r l).outputs [.newChannel [], .connect 1, .receive [1, 0, LAST_MESS] 0]) := by
  constructor
  · intro r l n h
    have hmax : MAX_CHANNELS_PSION = MAX_CHANNELS_SIBO := congrArg Outputs.maxLinks h
    exact absurd hmax (by decide)
  · intro r l n h
    have hcalls : [Callback.ncpDataCallback 1 1 [0x41]] = [Callback.ncpDataCallback 1 1 []] :=
      congrArg Outputs.calls h
    exact absurd hcalls (by decide)

end NCP

end Plptools
