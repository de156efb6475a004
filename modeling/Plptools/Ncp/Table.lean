import Plptools.Ncp.Reset

/-!
# The channel table

What the functions of the multiplexer do to the table: an object that is put in an entry has its
number, with one exception. The link channel that is created when a service other than the link service
is asked for is entered under number 0 besides its own.

The last part says which objects are told to terminate, and which ones are called.
-/

namespace Plptools

open Plptools.Library

/-- The object that is called. -/
def Callback.object : Callback → ℕ
  | .ncpDataCallback _ ch _ | .ncpConnectAck ch | .ncpConnectNak ch | .ncpRegisterAck ch => ch

namespace NCP

/-- An object may stand in entry `i`: it is a good one, has this number, and unless it is a link
channel, it is not to terminate and the entry is not entry 0. -/
structure Fits (good link : ℕ → Prop) (n : NCP) (i ch : ℕ) : Prop where
  good : good ch
  created : ch < n.channels.length
  number : (n.channel ch).ncpChannel = i
  terminate : (n.channel ch).terminate = true → link ch
  zero : i = 0 → link ch

/-- All objects stand where they may. -/
def Entered (good link : ℕ → Prop) (n : NCP) : Prop :=
  ∀ i ch, n.channelPtr i = .object ch → n.Fits good link i ch

section Steps

variable {good link : ℕ → Prop} {n m : NCP} {ch : ℕ}

/-- What an object must be is read off the channels. -/
theorem Fits.congr {i : ℕ} (h : n.Fits good link i ch) (hchannels : m.channels = n.channels) :
    m.Fits good link i ch := by
  have hchannel : m.channel ch = n.channel ch := by rw [channel, channel, hchannels]
  exact ⟨h.good, hchannels ▸ h.created, hchannel ▸ h.number, hchannel ▸ h.terminate, h.zero⟩

/-- Where the objects stand is read off the table and the channels. -/
theorem Entered.congr (h : n.Entered good link) (hptr : m.channelPtr = n.channelPtr)
    (hchannels : m.channels = n.channels) : m.Entered good link :=
  fun i ch hobject => (h i ch (hptr ▸ hobject)).congr hchannels

/-- Good objects are good in a weaker sense. -/
theorem Entered.imp {good' link' : ℕ → Prop} (h : n.Entered good link)
    (hgood : ∀ i ch, n.channelPtr i = .object ch → good ch → good' ch)
    (hlink : ∀ i ch, n.channelPtr i = .object ch → link ch → link' ch) : n.Entered good' link' := by
  intro i ch hobject
  have hfits := h i ch hobject
  exact ⟨hgood i ch hobject hfits.good, hfits.created, hfits.number,
    fun hc => hlink i ch hobject (hfits.terminate hc), fun hi => hlink i ch hobject (hfits.zero hi)⟩

/-- An object stands in one entry at most. -/
theorem Entered.unique (h : n.Entered good link) {i j : ℕ} (hi : n.channelPtr i = .object ch)
    (hj : n.channelPtr j = .object ch) : i = j :=
  (h i ch hi).number.symm.trans (h j ch hj).number

/-- An object that is there is changed. -/
theorem channel_setChannel_self (h : ch < n.channels.length) (c : Channel) :
    (n.setChannel ch c).channel ch = c := by
  simp [channel, setChannel, List.getD_eq_getElem?_getD, h]

/-- Changing an object leaves the others. -/
theorem channel_setChannel_of_ne {ch' : ℕ} (h : ch' ≠ ch) (c : Channel) :
    (n.setChannel ch c).channel ch' = n.channel ch' := by
  simp [channel, setChannel, List.getD_eq_getElem?_getD, List.getElem?_set_ne h.symm]

/-- A new object leaves those that are there. -/
theorem channel_newChannel (registerName : List UInt8) (ncpChannel registerSer : ℕ)
    (h : ch < n.channels.length) :
    (n.newChannel registerName ncpChannel registerSer).2.channel ch = n.channel ch := by
  simp [channel, newChannel, List.getD_eq_getElem?_getD, List.getElem?_append_left h]

/-- Changing an object that keeps its number, and is not to terminate where it stands. -/
theorem Entered.setChannel (h : n.Entered good link) {c : Channel}
    (hnumber : c.ncpChannel = (n.channel ch).ncpChannel)
    (hterminate : ∀ i, n.channelPtr i = .object ch → c.terminate = true → link ch) :
    (n.setChannel ch c).Entered good link := by
  intro i ch' hobject
  have hfits := h i ch' hobject
  have hcreated : ch' < (n.setChannel ch c).channels.length :=
    hfits.created.trans_eq (List.length_set ..).symm
  by_cases heq : ch' = ch
  · subst heq
    have hself := channel_setChannel_self hfits.created c
    exact ⟨hfits.good, hcreated, by rw [hself, hnumber, hfits.number],
      fun hc => hterminate i hobject (hself ▸ hc), hfits.zero⟩
  · have hother := channel_setChannel_of_ne heq c (n := n)
    exact ⟨hfits.good, hcreated, hother ▸ hfits.number, hother ▸ hfits.terminate, hfits.zero⟩

/-- A new object does not stand in the table yet. -/
theorem Entered.newChannel (h : n.Entered good link) (registerName : List UInt8)
    (ncpChannel registerSer : ℕ) :
    (n.newChannel registerName ncpChannel registerSer).2.Entered good link := by
  intro i ch' hobject
  have hfits := h i ch' hobject
  have hsame := channel_newChannel registerName ncpChannel registerSer hfits.created
  exact ⟨hfits.good, by simpa [NCP.newChannel] using Nat.lt_succ_of_lt hfits.created,
    hsame ▸ hfits.number, hsame ▸ hfits.terminate, hfits.zero⟩

/-- Nothing stands in an entry that is released. -/
theorem Entered.release (h : n.Entered good link) (c : ℕ) : (n.release c).Entered good link := by
  intro i ch hobject
  simp only [NCP.release, Function.update_apply] at hobject
  split at hobject
  · cases hobject
  · exact (h i ch hobject).congr rfl

/-- No object stands in an entry that is reserved. -/
theorem Entered.reserve (h : n.Entered good link) (c : ℕ) : (n.take c .reserved).Entered good link := by
  intro i ch hobject
  simp only [NCP.take, Function.update_apply] at hobject
  split at hobject
  · cases hobject
  · exact (h i ch hobject).congr rfl

/-- Entering an object that has the number of the entry. -/
theorem Entered.take (h : n.Entered good link) {c : ℕ} (hfits : n.Fits good link c ch) :
    (n.take c (.object ch)).Entered good link := by
  intro i ch' hobject
  simp only [NCP.take, Function.update_apply] at hobject
  split at hobject
  case isTrue heq =>
    obtain rfl := ChannelPtr.object.inj hobject
    subst heq
    exact hfits.congr rfl
  case isFalse => exact (h i ch' hobject).congr rfl

/-- Giving an object the number of the entry that it is put in, unless it stands in another one. -/
theorem Entered.enter (h : n.Entered good link) {c : ℕ} (hgood : good ch)
    (hcreated : ch < n.channels.length) (hterminate : (n.channel ch).terminate = true → link ch)
    (hzero : c = 0 → link ch) (halone : ∀ i, n.channelPtr i = .object ch → i = c) :
    ((n.take c (.object ch)).setChannel ch { n.channel ch with ncpChannel := c }).Entered good link := by
  have hself := channel_setChannel_self (n := n.take c (.object ch)) hcreated
    { n.channel ch with ncpChannel := c }
  have hcreated' {ch' : ℕ} (hlt : ch' < n.channels.length) : ch' < ((n.take c (.object ch)).setChannel ch
      { n.channel ch with ncpChannel := c }).channels.length := hlt.trans_eq (List.length_set ..).symm
  intro i ch' hobject
  by_cases hi : i = c
  · obtain rfl : ch = ch' := by
      simpa [NCP.setChannel, NCP.take, hi] using hobject
    exact ⟨hgood, hcreated' hcreated, by rw [hself, hi],
      fun hc => hterminate ((congrArg Channel.terminate hself).symm.trans hc), hi ▸ hzero⟩
  · have hold : n.channelPtr i = .object ch' := (Function.update_of_ne hi ..).symm.trans hobject
    have hne : ch' ≠ ch := by
      rintro rfl
      exact hi (halone i hold)
    have hother := channel_setChannel_of_ne hne { n.channel ch with ncpChannel := c }
      (n := n.take c (.object ch))
    have hfits := h i ch' hold
    exact ⟨hfits.good, hcreated' hfits.created, hother ▸ hfits.number, hother ▸ hfits.terminate,
      hfits.zero⟩

/-- An object that may be entered by `connect` and `Register`. -/
structure Enterable (good link : ℕ → Prop) (n : NCP) (ch : ℕ) : Prop where
  good : good ch
  created : ch < n.channels.length
  terminate : (n.channel ch).terminate = true → link ch
  zero : n.channelPtr 0 ≠ .object ch

/-- Handing out a number. -/
theorem Entered.getFirstUnusedChan (h : n.Entered good link) :
    n.getFirstUnusedChan.2.Entered good link ∧ n.getFirstUnusedChan.2.channels = n.channels ∧
      ∀ i ch, n.getFirstUnusedChan.2.channelPtr i = .object ch → n.channelPtr i = .object ch := by
  unfold NCP.getFirstUnusedChan
  split
  · refine ⟨h.reserve _, rfl, fun i ch hobject => ?_⟩
    simp only [NCP.take, Function.update_apply] at hobject
    split at hobject
    · cases hobject
    · exact hobject
  · exact ⟨h, rfl, fun _ _ hobject => hobject⟩

/-- The number under which an object is entered is its own, or it has none and stands nowhere. -/
theorem Entered.numberFor (h : n.Entered good link) (hch : n.Enterable good link ch) :
    (n.numberFor ch).2.Entered good link ∧ (n.numberFor ch).2.channels = n.channels ∧
      ∀ i, (n.numberFor ch).2.channelPtr i = .object ch → i = (n.numberFor ch).1 := by
  unfold NCP.numberFor
  by_cases hnumber : (n.channel ch).ncpChannel = 0
  · rw [if_pos hnumber]
    obtain ⟨hentered, hchannels, hptr⟩ := h.getFirstUnusedChan
    refine ⟨hentered, hchannels, fun i hobject => ?_⟩
    have hold := hptr i ch hobject
    obtain rfl : 0 = i := hnumber.symm.trans (h i ch hold).number
    exact absurd hold hch.zero
  · rw [if_neg hnumber]
    exact ⟨h, rfl, fun i hobject => (h i ch hobject).number.symm⟩

/-- An object that may be entered is entered when it connects. -/
theorem Entered.connect (h : n.Entered good link) (hch : n.Enterable good link ch) :
    (n.connect ch).2.Entered good link := by
  obtain ⟨hentered, hchannels, halone⟩ := h.numberFor hch
  unfold NCP.connect
  generalize n.numberFor ch = found at hentered hchannels halone ⊢
  obtain ⟨cNum, m⟩ := found
  have hchannel : m.channel ch = n.channel ch := by rw [channel, channel, hchannels]
  dsimp only at hentered hchannels halone ⊢
  split
  case isTrue hpos =>
    exact (hentered.enter hch.good (hchannels ▸ hch.created) (hchannel ▸ hch.terminate)
      (fun hzero => absurd hzero (Nat.ne_of_gt hpos)) halone).congr rfl rfl
  case isFalse => exact hentered

/-- Sending leaves the table as it is. -/
theorem Entered.send (h : n.Entered good link) (channel : ℕ) (a : List UInt8) :
    (n.send channel a).Entered good link := by
  rw [send_eq]
  exact h.congr rfl rfl

/-- A registration that is passed on leaves the table as it is. -/
theorem Entered.linkChannelRegister (h : n.Entered good link) (lChan ch : ℕ) :
    (n.linkChannelRegister lChan ch).Entered good link := by
  have hcounted : (n.setChannel lChan { n.channel lChan with
      registerSer := (n.channel lChan).registerSer + 1 }).Entered good link :=
    h.setChannel rfl fun i hobject => (h i lChan hobject).terminate
  exact hcounted.send _ _

/-- An object that may be entered is entered when it registers. -/
theorem Entered.register (h : n.Entered good link) (hch : n.Enterable good link ch) :
    (n.register ch).Entered good link := by
  unfold NCP.register
  split
  · exact h
  case h_2 lChan _ =>
    obtain ⟨hentered, hchannels, halone⟩ := h.numberFor hch
    generalize n.numberFor ch = found at hentered hchannels halone ⊢
    obtain ⟨cNum, m⟩ := found
    have hchannel : m.channel ch = n.channel ch := by rw [channel, channel, hchannels]
    dsimp only at hentered hchannels halone ⊢
    split
    case isTrue hpos =>
      have hmade := hentered.enter hch.good (hchannels ▸ hch.created) (hchannel ▸ hch.terminate)
        (fun hzero => absurd hzero (Nat.ne_of_gt hpos)) halone
      exact hmade.linkChannelRegister _ _
    case isFalse => exact hentered

/-- What an entry pointed to stands nowhere when the entry is released. -/
theorem Entered.not_release (h : n.Entered good link) {c : ℕ} (hobject : n.channelPtr c = .object ch)
    (i : ℕ) : (n.release c).channelPtr i ≠ .object ch := by
  intro hrest
  simp only [NCP.release, Function.update_apply] at hrest
  split at hrest
  case isTrue => cases hrest
  case isFalse hne => exact hne (h.unique hrest hobject)

/-- What is disconnected does not stand in the table any more. -/
theorem Entered.disconnect (h : n.Entered good link) (c : ℕ) : (n.disconnect c).Entered good link := by
  unfold NCP.disconnect
  split
  case h_1 ch hobject =>
    have hterminated : ((n.release c).setChannel ch
        { (n.release c).channel ch with terminate := true }).Entered good link :=
      (h.release c).setChannel rfl fun i hrest => absurd hrest (h.not_release hobject i)
    exact hterminated.congr rfl rfl
  case h_2 => exact h

/-- What disconnecting does to the table. -/
theorem disconnect_channelPtr (n : NCP) (c : ℕ) :
    (n.disconnect c).channelPtr =
      if n.isValidChannel c then Function.update n.channelPtr c .null else n.channelPtr := by
  unfold NCP.disconnect isValidChannel
  cases n.channelPtr c <;> rfl

/-- After a disconnect of its own number, an object stands nowhere. -/
theorem Entered.not_disconnect (h : n.Entered good link) (i : ℕ) :
    (n.disconnect (n.channel ch).ncpChannel).channelPtr i ≠ .object ch := by
  intro hrest
  rw [disconnect_channelPtr] at hrest
  split at hrest
  case isTrue =>
    rw [Function.update_apply] at hrest
    split at hrest
    case isTrue => cases hrest
    case isFalse hne => exact hne (h i ch hrest).number.symm
  case isFalse hinvalid =>
    have hnumber := (h i ch hrest).number
    rw [hnumber, isValidChannel, hrest] at hinvalid
    exact hinvalid rfl

/-- Finding a number leaves the objects as they are. -/
theorem numberFor_channels (n : NCP) (ch : ℕ) : (n.numberFor ch).2.channels = n.channels := by
  unfold NCP.numberFor
  split
  · exact n.getFirstUnusedChan_keeps.2.2.2
  · rfl

/-- Connecting gives an object the number that is found for it. -/
theorem connect_channel (h : ch < n.channels.length) :
    (n.connect ch).2.channel ch = { n.channel ch with ncpChannel := (n.numberFor ch).1 } ∧
      (n.connect ch).2.channels.length = n.channels.length := by
  have hchannels := n.numberFor_channels ch
  have hnone : (n.numberFor ch).1 = 0 → (n.channel ch).ncpChannel = 0 := by
    unfold NCP.numberFor
    split
    case isTrue hzero => exact fun _ => hzero
    case isFalse => exact id
  unfold NCP.connect
  generalize n.numberFor ch = found at hchannels hnone ⊢
  obtain ⟨cNum, m⟩ := found
  dsimp only at hchannels hnone ⊢
  have hchannel : m.channel ch = n.channel ch := by rw [channel, channel, hchannels]
  split
  case isTrue =>
    have hself := channel_setChannel_self (n := m.take cNum (.object ch)) (hchannels ▸ h)
      { m.channel ch with ncpChannel := cNum }
    exact ⟨hself.trans (by rw [hchannel]), (List.length_set ..).trans (congrArg List.length hchannels)⟩
  case isFalse hzero =>
    have hnumber := hnone (by omega)
    refine ⟨hchannel.trans ?_, congrArg List.length hchannels⟩
    rw [show cNum = (n.channel ch).ncpChannel by omega]

/-- A new link channel is entered under a number that it has. -/
theorem Entered.newLinkChannel (h : n.Entered good link) (hgood : good n.channels.length)
    (hlink : link n.channels.length) {c : ℕ} (hc : c = 0 → n.Full) :
    (n.newLinkChannel c c).Entered good link := by
  have hnew : (n.newChannel linkName c 0x1234).2.channel n.channels.length =
      ⟨c, none, linkName, 0x1234, false⟩ := by
    simp [NCP.newChannel, channel, List.getD_eq_getElem?_getD]
  have hcreated : n.channels.length < (n.newChannel linkName c 0x1234).2.channels.length := by
    simp [NCP.newChannel]
  have hnowhere : ∀ i, (n.newChannel linkName c 0x1234).2.channelPtr i ≠ .object n.channels.length :=
    fun i hobject => Nat.lt_irrefl _ (h i _ hobject).created
  have hmade := (h.newChannel linkName c 0x1234).connect ⟨hgood, hcreated,
    fun hterminate => absurd ((congrArg Channel.terminate hnew).symm.trans hterminate)
      Bool.false_ne_true, hnowhere 0⟩
  have hfits : ((n.newChannel linkName c 0x1234).2.connect n.channels.length).2.Fits good link c
      n.channels.length := by
    obtain ⟨hchannel, hlength⟩ := connect_channel hcreated
    have hnumber : ((n.newChannel linkName c 0x1234).2.numberFor n.channels.length).1 = c := by
      rw [NCP.numberFor, hnew]
      split
      case isTrue hzero =>
        have hfull : (n.newChannel linkName c 0x1234).2.Full := hc hzero
        exact (getFirstUnusedChan_eq_zero_iff.mpr hfull).trans hzero.symm
      case isFalse => rfl
    rw [hnumber, hnew] at hchannel
    refine ⟨hgood, hlength ▸ hcreated, by rw [hchannel], fun _ => hlink, fun _ => hlink⟩
  exact (hmade.take hfits).congr rfl rfl

/-- The link channel that the peer connects to is entered. -/
theorem Entered.connectToLink (h : n.Entered good link) (hgood : good n.channels.length)
    (hlink : link n.channels.length) (remoteChan : ℕ) :
    (n.connectToLink remoteChan).Entered good link := by
  unfold NCP.connectToLink
  split
  · exact h.congr rfl rfl
  · obtain ⟨hentered, hchannels, -⟩ := h.getFirstUnusedChan
    have hfull : n.getFirstUnusedChan.1 = 0 → n.getFirstUnusedChan.2.Full := by
      intro hzero
      have hall := getFirstUnusedChan_eq_zero_iff.mp hzero
      rw [getFirstUnusedChan_of_full hall]
      exact hall
    generalize n.getFirstUnusedChan = found at hentered hchannels hfull ⊢
    obtain ⟨localChan, m⟩ := found
    dsimp only at hentered hchannels hfull ⊢
    have hanswered : (m.controlChannel localChan .NCON_MSG_CONNECT_RESPONSE
        [lowByte remoteChan, 0]).Entered good link := hentered.congr rfl rfl
    rw [← hchannels] at hgood hlink
    exact (hanswered.newLinkChannel hgood hlink hfull).congr rfl rfl

/-- A connect to a PC server is refused, and the number that was handed out for it is given back. -/
theorem Entered.connectToPcServer (h : n.Entered good link) (name : List UInt8) (remoteChan : ℕ) :
    (n.connectToPcServer name remoteChan).1 = false ∧
      (n.connectToPcServer name remoteChan).2.2.Entered good link ∧
      (n.connectToPcServer name remoteChan).2.2.channels = n.channels ∧
      (n.connectToPcServer name remoteChan).2.2.lChan = n.lChan ∧
      (n.Full → (n.connectToPcServer name remoteChan).2.2.Full) := by
  unfold NCP.connectToPcServer
  split
  · obtain ⟨hentered, hchannels, -⟩ := h.getFirstUnusedChan
    refine ⟨rfl, hentered.release _, hchannels, n.getFirstUnusedChan_keeps.2.2.1, fun hfull => ?_⟩
    rw [getFirstUnusedChan_of_full hfull]
    intro i hlt hpos hnull
    exact hfull i hlt hpos ((Function.update_of_ne (Nat.ne_of_gt hpos) ..).symm.trans hnull)
  · exact ⟨rfl, h, rfl, rfl, id⟩

/-- A connect to another service, when there is a link channel or no number for a new one. -/
theorem Entered.connectToServer (h : n.Entered good link) (hgood : good n.channels.length)
    (hlink : link n.channels.length) (hfull : n.lChan = none → n.Full) (name : List UInt8)
    (remoteChan : ℕ) : (n.connectToServer name remoteChan).Entered good link := by
  obtain ⟨hrefused, hentered, hchannels, hlChan, hfull'⟩ := h.connectToPcServer name remoteChan
  unfold NCP.connectToServer
  generalize n.connectToPcServer name remoteChan = refused at hrefused hentered hchannels hlChan hfull' ⊢
  obtain ⟨ok, localChan, m⟩ := refused
  dsimp only at hrefused hentered hchannels hlChan hfull' ⊢
  subst hrefused
  have hanswered : (m.controlChannel 0 .NCON_MSG_CONNECT_RESPONSE
      [lowByte remoteChan, lowByte E_PSI_FILE_NXIST]).Entered good link := hentered.congr rfl rfl
  rw [if_neg Bool.false_ne_true]
  change (if m.lChan.isNone then _ else _ : NCP).Entered good link
  split
  case isTrue hnone =>
    rw [← hchannels] at hgood hlink
    rw [hlChan] at hnone
    exact hanswered.newLinkChannel hgood hlink fun _ => hfull' (hfull (Option.isNone_iff_eq_none.mp hnone))
  case isFalse => exact hanswered

/-- An acknowledged registration leaves everything where it may be. -/
theorem Entered.registerAck (h : n.Entered good link) (chan : ℕ) (name : List UInt8) :
    (n.registerAck chan name).Entered good link := by
  unfold NCP.registerAck
  dsimp only
  split
  case h_1 ch _ =>
    have hnamed : (n.setChannel ch { n.channel ch with connectName := some name }).Entered good link :=
      h.setChannel rfl fun i hobject => (h i ch hobject).terminate
    exact hnamed.congr rfl rfl
  case h_2 => exact h

end Steps

/-- A connect to a service other than the link service, without a link channel but with a number for
one: the new link channel is entered under this number and under 0. -/
def EntersTwice (n : NCP) (packet : List UInt8) : Prop :=
  packet.length > 1 ∧ packet.getD 0 0 = 0 ∧
    packet.getD 2 0 = InterControllerMessageType.NCON_MSG_CONNECT_TO_SERVER.code ∧
    cString (packet.drop 3) ≠ linkName ++ anySuffix ∧ n.lChan = none ∧ ¬n.Full

instance (n : NCP) (packet : List UInt8) : Decidable (n.EntersTwice packet) :=
  inferInstanceAs (Decidable (_ ∧ _))

section Receiving

variable {good link : ℕ → Prop} {n : NCP}

/-- A control message leaves everything where it may be, where the objects that it makes are good. -/
theorem Entered.decodeControlMessage (h : n.Entered good link) (hgood : good n.channels.length)
    (hlink : link n.channels.length) {buff : List UInt8}
    (hfull : buff.getD 1 0 = InterControllerMessageType.NCON_MSG_CONNECT_TO_SERVER.code →
      cString (buff.drop 2) ≠ linkName ++ anySuffix → n.lChan = none → n.Full) (time : ℕ) :
    (n.decodeControlMessage buff time).Entered good link := by
  have hworking : ({ n with failed := false } : NCP).Entered good link := h.congr rfl rfl
  unfold NCP.decodeControlMessage
  dsimp only
  split
  case isTrue hconnect =>
    split
    case isTrue => exact hworking.connectToLink hgood hlink _
    case isFalse hother => exact hworking.connectToServer hgood hlink (hfull hconnect hother) _ _
  case isFalse =>
    split
    · unfold NCP.connectResponse
      split
      · split
        · exact h.congr rfl rfl
        · exact h.congr rfl rfl
      · exact hworking
    · split
      · unfold NCP.ncpInfo
        split
        · dsimp only
          split
          · exact h.congr rfl rfl
          · exact h.congr rfl rfl
        · exact h.congr rfl rfl
      · split
        · exact h.disconnect _
        · exact h

/-- What arrives keeps the objects where they may stand, if it enters none twice. -/
theorem Entered.receive (h : n.Entered good link) (hgood : good n.channels.length)
    (hlink : link n.channels.length) {packet : List UInt8} (honce : ¬n.EntersTwice packet)
    (time : ℕ) : (n.receive packet time).Entered good link := by
  unfold NCP.receive
  split
  case isTrue hlength =>
    dsimp only
    split
    case isTrue hcontrol =>
      have hzero : packet.getD 0 0 = 0 := UInt8.toNat_inj.mp hcontrol
      have hbyte : (packet.drop 1).getD 1 0 = packet.getD 2 0 := by
        simp [List.getD_eq_getElem?_getD]
      refine h.decodeControlMessage hgood hlink (fun hconnect hother hnone => ?_) time
      rw [hbyte] at hconnect
      rw [List.drop_drop] at hother
      by_contra hfull
      exact honce ⟨hlength, hzero, hconnect, hother, hnone, hfull⟩
    case isFalse =>
      unfold NCP.receiveData
      split
      · dsimp only
        split
        · exact h.congr rfl rfl
        · exact h.congr rfl rfl
      · exact h
  case isFalse => exact h

end Receiving

/-- From `n` to `m` no object is lost or told to terminate, and the link channel is the same or a new
one. -/
structure Keeps (n m : NCP) : Prop where
  length : n.channels.length ≤ m.channels.length
  link : ∀ l, m.lChan = some l → n.lChan = some l ∨ n.channels.length ≤ l ∧ l < m.channels.length
  terminate : ∀ ch, (m.channel ch).terminate = true → (n.channel ch).terminate = true

/-- The same, except that what stood in the table may have been told to terminate. -/
structure Grows (n m : NCP) : Prop where
  length : n.channels.length ≤ m.channels.length
  link : ∀ l, m.lChan = some l → n.lChan = some l ∨ n.channels.length ≤ l ∧ l < m.channels.length
  terminate : ∀ ch, (m.channel ch).terminate = true →
    (n.channel ch).terminate = true ∨ ∃ i, n.channelPtr i = .object ch

section Frames

variable {n m k : NCP}

/-- The same link channel and the same objects. -/
theorem Keeps.of_eq (hlink : m.lChan = n.lChan) (hchannels : m.channels = n.channels) : n.Keeps m := by
  refine ⟨Nat.le_of_eq (congrArg List.length hchannels.symm), fun l hl => .inl (hlink ▸ hl), ?_⟩
  intro ch hterminate
  rwa [channel, hchannels] at hterminate

/-- One step after the other. -/
theorem Keeps.trans (h : n.Keeps m) (h' : m.Keeps k) : n.Keeps k where
  length := h.length.trans h'.length
  link := by
    intro l hl
    rcases h'.link l hl with hold | ⟨hge, hlt⟩
    · rcases h.link l hold with hold | ⟨hge, hlt⟩
      · exact .inl hold
      · exact .inr ⟨hge, hlt.trans_le h'.length⟩
    · exact .inr ⟨h.length.trans hge, hlt⟩
  terminate := fun ch hk => h.terminate ch (h'.terminate ch hk)

/-- What tells no object to terminate tells none outside the table to. -/
theorem Keeps.grows (h : n.Keeps m) : n.Grows m :=
  ⟨h.length, h.link, fun ch hm => .inl (h.terminate ch hm)⟩

/-- An object that is changed is not told to terminate. -/
theorem keeps_setChannel {ch : ℕ} {c : Channel}
    (h : c.terminate = true → (n.channel ch).terminate = true) : n.Keeps (n.setChannel ch c) := by
  by_cases hlt : ch < n.channels.length
  · refine ⟨Nat.le_of_eq (List.length_set ..).symm, fun l hl => .inl hl, fun ch' hterminate => ?_⟩
    by_cases heq : ch' = ch
    · subst heq
      rw [channel_setChannel_self hlt] at hterminate
      exact h hterminate
    · rwa [channel_setChannel_of_ne heq] at hterminate
  · exact Keeps.of_eq rfl (List.set_eq_of_length_le (Nat.le_of_not_lt hlt))

/-- A new object is one more. -/
theorem keeps_newChannel (registerName : List UInt8) (ncpChannel registerSer : ℕ) :
    n.Keeps (n.newChannel registerName ncpChannel registerSer).2 := by
  refine ⟨by simp [newChannel], fun l hl => .inl hl, fun ch hterminate => ?_⟩
  rcases Nat.lt_trichotomy ch n.channels.length with hlt | rfl | hgt
  · rwa [channel_newChannel _ _ _ hlt] at hterminate
  · simp [newChannel, channel, List.getD_eq_getElem?_getD] at hterminate
  · have hout : (n.newChannel registerName ncpChannel registerSer).2.channels.length ≤ ch := by
      simp only [newChannel, List.length_append, List.length_singleton]
      exact hgt
    simp [channel, List.getD_eq_getElem?_getD, List.getElem?_eq_none hout] at hterminate

/-- Looking for a free entry tells no object to terminate. -/
theorem keeps_getFirstUnusedChan : n.Keeps n.getFirstUnusedChan.2 :=
  Keeps.of_eq n.getFirstUnusedChan_keeps.2.2.1 n.getFirstUnusedChan_keeps.2.2.2

/-- Finding a number tells no object to terminate. -/
theorem keeps_numberFor (ch : ℕ) : n.Keeps (n.numberFor ch).2 := by
  unfold numberFor
  split
  · exact keeps_getFirstUnusedChan
  · exact Keeps.of_eq rfl rfl

/-- Entering an object keeps everything else. -/
theorem keeps_enter (c ch : ℕ) :
    n.Keeps ((n.take c (.object ch)).setChannel ch { n.channel ch with ncpChannel := c }) := by
  have htake : n.Keeps (n.take c (.object ch)) := Keeps.of_eq rfl rfl
  have hset : (n.take c (.object ch)).Keeps ((n.take c (.object ch)).setChannel ch
      { n.channel ch with ncpChannel := c }) := keeps_setChannel id
  exact htake.trans hset

/-- Connecting tells no object to terminate. -/
theorem keeps_connect (ch : ℕ) : n.Keeps (n.connect ch).2 := by
  have hnumber := keeps_numberFor ch (n := n)
  unfold connect
  dsimp only
  split
  · exact (hnumber.trans (keeps_enter _ ch)).trans (Keeps.of_eq rfl rfl)
  · exact hnumber

/-- Sending tells no object to terminate. -/
theorem keeps_send (channel : ℕ) (a : List UInt8) : n.Keeps (n.send channel a) := by
  rw [send_eq]
  exact Keeps.of_eq rfl rfl

/-- Passing a registration on tells no object to terminate. -/
theorem keeps_linkChannelRegister (lChan ch : ℕ) : n.Keeps (n.linkChannelRegister lChan ch) := by
  have hcounted : n.Keeps (n.setChannel lChan
      { n.channel lChan with registerSer := (n.channel lChan).registerSer + 1 }) := keeps_setChannel id
  exact hcounted.trans (keeps_send _ _)

/-- Registering tells no object to terminate. -/
theorem keeps_register (ch : ℕ) : n.Keeps (n.register ch) := by
  have hnumber := keeps_numberFor ch (n := n)
  unfold register
  split
  · exact Keeps.of_eq rfl rfl
  · dsimp only
    split
    · exact (hnumber.trans (keeps_enter _ ch)).trans (keeps_linkChannelRegister _ ch)
    · exact hnumber

/-- The link channel that is made is a new object. -/
theorem keeps_newLinkChannel (localChan ncpChannel : ℕ) :
    n.Keeps (n.newLinkChannel localChan ncpChannel) := by
  have hnew : n.channels.length < (n.newChannel linkName ncpChannel 0x1234).2.channels.length := by
    simp [newChannel]
  have hconnect := keeps_connect (n := (n.newChannel linkName ncpChannel 0x1234).2) n.channels.length
  have hmade := (keeps_newChannel linkName ncpChannel 0x1234).trans hconnect
  refine ⟨hmade.length, fun l hl => .inr ?_, hmade.terminate⟩
  obtain rfl := Option.some.inj hl
  exact ⟨Nat.le_refl _, hnew.trans_le hconnect.length⟩

/-- The link channel that the peer connects to is the one there is, or a new object. -/
theorem keeps_connectToLink (remoteChan : ℕ) : n.Keeps (n.connectToLink remoteChan) := by
  unfold connectToLink
  split
  · exact Keeps.of_eq rfl rfl
  · have hfound := keeps_getFirstUnusedChan (n := n)
    generalize n.getFirstUnusedChan = found at hfound ⊢
    obtain ⟨localChan, m⟩ := found
    have hanswered : m.Keeps (m.controlChannel localChan .NCON_MSG_CONNECT_RESPONSE
        [lowByte remoteChan, 0]) := Keeps.of_eq rfl rfl
    have hmade := (hfound.trans hanswered).trans (keeps_newLinkChannel localChan localChan)
    exact hmade.trans (Keeps.of_eq rfl rfl)

/-- A connect to a server tells no object to terminate. -/
theorem keeps_connectToServer (name : List UInt8) (remoteChan : ℕ) :
    n.Keeps (n.connectToServer name remoteChan) := by
  have hrefused : n.Keeps (n.connectToPcServer name remoteChan).2.2 := by
    unfold connectToPcServer
    split
    · exact keeps_getFirstUnusedChan.trans (Keeps.of_eq rfl rfl)
    · exact Keeps.of_eq rfl rfl
  have hserve (k : NCP) (hk : n.Keeps k) (c : ℕ) :
      n.Keeps (if k.lChan.isNone then k.newLinkChannel c 0 else k) := by
    split
    · exact hk.trans (keeps_newLinkChannel c 0)
    · exact hk
  unfold connectToServer
  generalize n.connectToPcServer name remoteChan = refused at hrefused ⊢
  obtain ⟨ok, localChan, m⟩ := refused
  have hanswered (c : ℕ) (command : List UInt8) :
      n.Keeps (m.controlChannel c .NCON_MSG_CONNECT_RESPONSE command) :=
    hrefused.trans (Keeps.of_eq rfl rfl)
  exact hserve _ (hanswered _ _) _

/-- A response to a connect tells no object to terminate. -/
theorem keeps_connectResponse (remoteChan forChan : ℕ) (status : UInt8) :
    n.Keeps (n.connectResponse remoteChan forChan status) := by
  unfold connectResponse
  split
  · split <;> exact Keeps.of_eq rfl rfl
  · exact Keeps.of_eq rfl rfl

/-- The link channel that is made for the version of the peer is a new object. -/
theorem keeps_ncpInfo (ver time : ℕ) : n.Keeps (n.ncpInfo ver time) := by
  unfold ncpInfo
  split
  · dsimp only
    split <;> exact Keeps.of_eq rfl rfl
  · exact Keeps.of_eq rfl rfl

/-- Data tells no object to terminate. -/
theorem keeps_receiveData (channel : ℕ) (allData : UInt8) (data : List UInt8) :
    n.Keeps (n.receiveData channel allData data) := by
  unfold receiveData
  split
  · dsimp only
    split <;> exact Keeps.of_eq rfl rfl
  · exact Keeps.of_eq rfl rfl

/-- What is told to terminate has stood in the table. -/
theorem grows_disconnect (c : ℕ) : n.Grows (n.disconnect c) := by
  unfold disconnect
  split
  case h_1 ch hobject =>
    refine ⟨Nat.le_of_eq (List.length_set ..).symm, fun l hl => .inl hl, fun ch' hterminate => ?_⟩
    by_cases heq : ch' = ch
    · exact .inr ⟨c, heq ▸ hobject⟩
    · have hother : (n.setChannel ch { n.channel ch with terminate := true }).channel ch' =
          n.channel ch' := channel_setChannel_of_ne heq _
      exact .inl (hother ▸ hterminate)
  case h_2 => exact Keeps.grows (Keeps.of_eq rfl rfl)

/-- A packet tells no object to terminate that has not stood in the table. -/
theorem grows_receive (packet : List UInt8) (time : ℕ) : n.Grows (n.receive packet time) := by
  have hworking : n.Keeps { n with failed := false } := Keeps.of_eq rfl rfl
  have hsame : n.Keeps n := Keeps.of_eq rfl rfl
  unfold receive
  split
  · dsimp only
    split
    · unfold decodeControlMessage
      dsimp only
      split
      · split
        · exact (hworking.trans (keeps_connectToLink _)).grows
        · exact (hworking.trans (keeps_connectToServer _ _)).grows
      · split
        · exact (hworking.trans (keeps_connectResponse _ _ _)).grows
        · split
          · exact (hworking.trans (keeps_ncpInfo _ _)).grows
          · split
            · exact grows_disconnect _
            · exact hsame.grows
    · exact (keeps_receiveData _ _ _).grows
  · exact hsame.grows

/-- An acknowledged registration tells no object to terminate. -/
theorem keeps_registerAck (chan : ℕ) (name : List UInt8) : n.Keeps (n.registerAck chan name) := by
  unfold registerAck
  dsimp only
  split
  case h_1 ch _ =>
    have hnamed : n.Keeps (n.setChannel ch { n.channel ch with connectName := some name }) :=
      keeps_setChannel id
    exact hnamed.trans (Keeps.of_eq rfl rfl)
  case h_2 => exact Keeps.of_eq rfl rfl

/-- Setting all to the start tells those in the table to terminate. -/
theorem grows_reset : n.Grows n.reset := by
  refine ⟨Nat.le_of_eq (List.length_mapIdx ..).symm, nofun, fun ch hterminate => ?_⟩
  by_cases hlt : ch < n.channels.length
  · simp only [reset, channel, List.getD_eq_getElem?_getD, List.getElem?_mapIdx,
      List.getElem?_eq_getElem hlt, Option.map_some, Option.getD_some] at hterminate ⊢
    split at hterminate
    case isTrue hany =>
      obtain ⟨i, -, hobject⟩ := List.any_eq_true.mp hany
      exact .inr ⟨i, of_decide_eq_true hobject⟩
    case isFalse => exact .inl hterminate
  · simp [reset, channel, List.getD_eq_getElem?_getD, hlt] at hterminate

end Frames

/-- A callback is made to the link channel, or to an object in the table. -/
def Concerns (n : NCP) (call : Callback) : Prop :=
  n.lChan = some call.object ∨ ∃ i, n.channelPtr i = .object call.object

/-- At most one callback has been made from `n` to `m`, to an object that `m` knows. -/
def CallsOnce (n m : NCP) : Prop :=
  m.calls = n.calls ∨ ∃ call, m.calls = n.calls ++ [call] ∧ m.Concerns call

/-- Such a callback, which acknowledges no registration. -/
def CallsBack (n m : NCP) : Prop :=
  m.calls = n.calls ∨
    ∃ call, m.calls = n.calls ++ [call] ∧ m.Concerns call ∧ ∀ ch, call ≠ .ncpRegisterAck ch

section Calls

variable {n m : NCP}

/-- The new callbacks are none, or a single one. -/
theorem CallsOnce.drop (h : n.CallsOnce m) : m.calls.drop n.calls.length = [] ∨
    ∃ call, m.calls.drop n.calls.length = [call] ∧ m.Concerns call := by
  rcases h with h | ⟨call, h, hconcerns⟩
  · exact .inl (by rw [h, List.drop_length])
  · exact .inr ⟨call, by rw [h, List.drop_left], hconcerns⟩

/-- It is one callback at most. -/
theorem CallsBack.once (h : n.CallsBack m) : n.CallsOnce m :=
  h.imp_right fun ⟨call, hcalls, hconcerns, _⟩ => ⟨call, hcalls, hconcerns⟩

/-- The link channel is told that it is connected. -/
theorem connectToLink_callsBack (remoteChan : ℕ) : n.CallsBack (n.connectToLink remoteChan) := by
  refine .inr ?_
  unfold connectToLink
  split
  case h_1 lChan hlink => exact ⟨.ncpConnectAck lChan, rfl, .inl hlink, nofun⟩
  case h_2 =>
    obtain ⟨-, hcalls, -, -⟩ := n.getFirstUnusedChan_keeps
    generalize n.getFirstUnusedChan = found at hcalls ⊢
    obtain ⟨localChan, m⟩ := found
    refine ⟨.ncpConnectAck m.channels.length, ?_, .inl rfl, nofun⟩
    have hmade := (connect_keeps ((m.controlChannel localChan .NCON_MSG_CONNECT_RESPONSE
      [lowByte remoteChan, 0]).newChannel linkName localChan 0x1234).2 m.channels.length).2
    exact congrArg (· ++ [Callback.ncpConnectAck m.channels.length]) (hmade.trans hcalls)

/-- A connect to a server calls nothing back. -/
theorem connectToServer_calls (name : List UInt8) (remoteChan : ℕ) :
    (n.connectToServer name remoteChan).calls = n.calls := by
  have hrefused : (n.connectToPcServer name remoteChan).2.2.calls = n.calls := by
    unfold connectToPcServer
    split
    · exact n.getFirstUnusedChan_keeps.2.1
    · rfl
  have hserve (k : NCP) (hk : k.calls = n.calls) (c : ℕ) :
      (if k.lChan.isNone then k.newLinkChannel c 0 else k).calls = n.calls := by
    split
    · exact (connect_keeps (k.newChannel linkName 0 0x1234).2 k.channels.length).2.trans hk
    · exact hk
  unfold connectToServer
  generalize n.connectToPcServer name remoteChan = refused at hrefused ⊢
  obtain ⟨ok, localChan, m⟩ := refused
  exact hserve (m.controlChannel _ _ _) hrefused _

/-- What arrives leads to one callback at most, and acknowledges no registration by itself. -/
theorem receive_callsBack (packet : List UInt8) (time : ℕ) : n.CallsBack (n.receive packet time) := by
  unfold receive
  split
  · dsimp only
    split
    · unfold decodeControlMessage
      dsimp only
      split
      · split
        · exact connectToLink_callsBack (n := { n with failed := false }) _
        · exact .inl (connectToServer_calls (n := { n with failed := false }) _ _)
      · split
        · unfold connectResponse
          split
          case h_1 ch hobject =>
            split
            · exact .inr ⟨.ncpConnectAck ch, rfl, .inr ⟨_, hobject⟩, nofun⟩
            · exact .inr ⟨.ncpConnectNak ch, rfl, .inr ⟨_, hobject⟩, nofun⟩
          case h_2 => exact .inl rfl
        · split
          · unfold ncpInfo
            split
            · dsimp only
              split <;> exact .inl rfl
            · exact .inl rfl
          · split
            · unfold disconnect
              split <;> exact .inl rfl
            · exact .inl rfl
    · unfold receiveData
      split
      case h_1 ch hobject =>
        dsimp only
        split
        · exact .inr ⟨.ncpDataCallback _ ch _, rfl, .inr ⟨_, hobject⟩, nofun⟩
        · exact .inl rfl
      case h_2 => exact .inl rfl
  · exact .inl rfl

/-- An acknowledged registration leads to one callback at most, to an object in the table. -/
theorem registerAck_calls (chan : ℕ) (name : List UInt8) :
    (n.registerAck chan name).calls = n.calls ∨
      ∃ ch i, (n.registerAck chan name).calls = n.calls ++ [.ncpRegisterAck ch] ∧
        (n.registerAck chan name).channelPtr i = .object ch := by
  unfold registerAck
  dsimp only
  split
  case h_1 ch hfound =>
    obtain ⟨i, -, hi⟩ := List.exists_of_findSome?_eq_some hfound
    refine .inr ⟨ch, i, rfl, ?_⟩
    change n.channelPtr i = .object ch
    split at hi
    case h_1 ch' hobject =>
      split at hi
      · rw [hobject, Option.some.inj hi]
      · cases hi
    case h_2 => cases hi
  case h_2 => exact .inl rfl

end Calls

end NCP

end Plptools
