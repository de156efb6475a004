import Plptools.Ncp.Model
import Plptools.Library.Run

/-!
# Channel numbers and half-received messages

What has been received of a message stays in the table under its channel number until the last
fragment completes it; nothing else clears it. A number that no object holds has nothing there as
long as numbers are given up, and taken again by an object that has one, only between messages.
-/

namespace Plptools

open Plptools.Library

namespace NCP

/-- Nothing is kept for a number that no object holds, and nothing was kept for any number when it
was taken. -/
structure Clean (n : NCP) : Prop where
  idle : ∀ c, n.isValidChannel c = false → n.messageList c = []
  taken : ∀ entry ∈ n.taken, entry.2 = []

/-- Whether a channel is valid is read off the table. -/
theorem isValidChannel_congr {n m : NCP} {c : ℕ} (h : m.channelPtr c = n.channelPtr c) :
    m.isValidChannel c = n.isValidChannel c := by
  rw [isValidChannel, isValidChannel, h]

/-- Whether the lists are clean is read off these parts. -/
theorem Clean.congr {n m : NCP} (h : n.Clean) (hptr : m.channelPtr = n.channelPtr)
    (hlist : m.messageList = n.messageList) (htaken : m.taken = n.taken) : m.Clean := by
  constructor
  · intro c hc
    rw [hlist]
    apply h.idle
    rwa [isValidChannel_congr (congrFun hptr c)] at hc
  · intro entry hentry
    rw [htaken] at hentry
    exact h.taken entry hentry

/-- Taking a number for which nothing is kept. -/
theorem Clean.take {n : NCP} (h : n.Clean) {c : ℕ} (hc : n.messageList c = []) (p : ChannelPtr) :
    (n.take c p).Clean := by
  refine ⟨fun c' hc' => ?_, ?_⟩
  · change n.messageList c' = []
    by_cases heq : c' = c
    · rw [heq, hc]
    · apply h.idle
      rwa [isValidChannel_congr (Function.update_of_ne heq p n.channelPtr)] at hc'
  · simp only [NCP.take, List.forall_mem_append, List.forall_mem_singleton]
    exact ⟨h.taken, hc⟩

/-- Giving up a number for which nothing is kept. -/
theorem Clean.release {n : NCP} (h : n.Clean) {c : ℕ} (hc : n.messageList c = []) :
    (n.release c).Clean := by
  refine ⟨fun c' hc' => ?_, h.taken⟩
  change n.messageList c' = []
  by_cases heq : c' = c
  · rw [heq, hc]
  · apply h.idle
    rwa [isValidChannel_congr (Function.update_of_ne heq .null n.channelPtr)] at hc'

/-- The first unused number has nothing kept for it. -/
theorem Clean.getFirstUnusedChan {n : NCP} (h : n.Clean) :
    n.getFirstUnusedChan.2.Clean ∧ n.getFirstUnusedChan.2.messageList = n.messageList ∧
      (n.getFirstUnusedChan.1 ≠ 0 → n.messageList n.getFirstUnusedChan.1 = []) := by
  unfold NCP.getFirstUnusedChan
  cases hfind : (List.range' 1 (n.maxChannels - 1)).find? fun cNum => n.channelPtr cNum = .null with
  | none => exact ⟨h, rfl, fun hne => absurd rfl hne⟩
  | some cNum =>
    have hnull : n.channelPtr cNum = .null := by simpa using List.find?_some hfind
    have hempty : n.messageList cNum = [] := by
      apply h.idle
      rw [isValidChannel, hnull]
    exact ⟨h.take hempty .reserved, rfl, fun _ => hempty⟩

/-- The numbers that an object has: none as long as it is 0. -/
def ownNumber (n : NCP) (ch : ℕ) : List ℕ :=
  if (n.channel ch).ncpChannel = 0 then [] else [(n.channel ch).ncpChannel]

/-- The number under which an object connects has nothing kept for it, if its own has not. -/
theorem Clean.numberFor {n : NCP} (h : n.Clean) {ch : ℕ} (hown : ∀ c ∈ n.ownNumber ch, n.messageList c = []) :
    (n.numberFor ch).2.Clean ∧ (n.numberFor ch).2.messageList = n.messageList ∧
      ((n.numberFor ch).1 ≠ 0 → n.messageList (n.numberFor ch).1 = []) := by
  unfold NCP.numberFor
  by_cases hzero : (n.channel ch).ncpChannel = 0
  · rw [if_pos hzero]
    exact h.getFirstUnusedChan
  · rw [if_neg hzero]
    rw [ownNumber, if_neg hzero] at hown
    exact ⟨h, rfl, fun _ => hown _ List.mem_cons_self⟩

/-- Connecting an object for whose number nothing is kept. -/
theorem Clean.connect {n : NCP} (h : n.Clean) {ch : ℕ} (hown : ∀ c ∈ n.ownNumber ch, n.messageList c = []) :
    (n.connect ch).2.Clean ∧ (n.connect ch).2.messageList = n.messageList := by
  obtain ⟨hclean, hlist, hnumber⟩ := h.numberFor hown
  unfold NCP.connect
  generalize n.numberFor ch = found at hclean hlist hnumber ⊢
  obtain ⟨cNum, m⟩ := found
  by_cases hpos : cNum > 0
  · have hempty : m.messageList cNum = [] := by
      rw [hlist]
      exact hnumber (Nat.ne_of_gt hpos)
    simp only [if_pos hpos]
    exact ⟨(hclean.take hempty (.object ch)).congr rfl rfl rfl, hlist⟩
  · simp only [if_neg hpos]
    exact ⟨hclean, hlist⟩

/-- Sending leaves the table and the lists. -/
theorem sendLoop_congr (channel rounds : ℕ) (n : NCP) (a : List UInt8) :
    (sendLoop channel rounds n a).channelPtr = n.channelPtr ∧
      (sendLoop channel rounds n a).messageList = n.messageList ∧
      (sendLoop channel rounds n a).taken = n.taken := by
  induction rounds generalizing n a with
  | zero => exact ⟨rfl, rfl, rfl⟩
  | succ rounds ih =>
    rw [sendLoop]
    split
    · exact ⟨rfl, rfl, rfl⟩
    · exact ih _ _

/-- Sending changes no number. -/
theorem Clean.send {n : NCP} (h : n.Clean) (channel : ℕ) (a : List UInt8) : (n.send channel a).Clean := by
  obtain ⟨hptr, hlist, htaken⟩ := sendLoop_congr channel (a.length + 1) n a
  exact h.congr hptr hlist htaken

/-- Registering an object for whose number nothing is kept. -/
theorem Clean.register {n : NCP} (h : n.Clean) {ch : ℕ}
    (hown : n.lChan.isSome → ∀ c ∈ n.ownNumber ch, n.messageList c = []) : (n.register ch).Clean := by
  unfold NCP.register
  cases hlink : n.lChan with
  | none => exact h
  | some lChan =>
    obtain ⟨hclean, hlist, hnumber⟩ := h.numberFor (hown (by rw [hlink]; rfl))
    dsimp only
    generalize n.numberFor ch = found at hclean hlist hnumber ⊢
    obtain ⟨cNum, m⟩ := found
    by_cases hpos : cNum > 0
    · have hempty : m.messageList cNum = [] := by
        rw [hlist]
        exact hnumber (Nat.ne_of_gt hpos)
      simp only [if_pos hpos]
      apply Clean.send
      exact (hclean.take hempty (.object ch)).congr rfl rfl rfl
    · simp only [if_neg hpos]
      exact hclean

/-- Disconnecting a channel for which nothing is kept. -/
theorem Clean.disconnect {n : NCP} (h : n.Clean) {c : ℕ} (hc : n.messageList c = []) :
    (n.disconnect c).Clean := by
  unfold NCP.disconnect
  split
  · exact (h.release hc).congr rfl rfl rfl
  · exact h

/-- A new link channel is entered under a number for which nothing is kept. -/
theorem Clean.newLinkChannel {n : NCP} (h : n.Clean) {localChan : ℕ} (ncpChannel : ℕ)
    (hlocal : n.messageList localChan = [])
    (hown : ncpChannel ≠ 0 → n.messageList ncpChannel = []) :
    (n.newLinkChannel localChan ncpChannel).Clean := by
  have hclean : (n.newChannel linkName ncpChannel 0x1234).2.Clean := h.congr rfl rfl rfl
  have hobject : ((n.newChannel linkName ncpChannel 0x1234).2.channel n.channels.length).ncpChannel =
      ncpChannel := by
    simp [NCP.newChannel, channel, List.getD_eq_getElem?_getD]
  have hown' : ∀ c ∈ (n.newChannel linkName ncpChannel 0x1234).2.ownNumber n.channels.length,
      n.messageList c = [] := by
    intro c hc
    rw [ownNumber, hobject] at hc
    by_cases hzero : ncpChannel = 0
    · rw [if_pos hzero] at hc
      cases hc
    · rw [if_neg hzero] at hc
      rw [List.mem_singleton.mp hc]
      exact hown hzero
  obtain ⟨hconnect, hlist⟩ := hclean.connect hown'
  refine (hconnect.take ?_ (.object n.channels.length)).congr rfl rfl rfl
  rw [hlist]
  exact hlocal

/-- A connect to the link service. Without a link channel and without an unused number it ends up
under number 0. -/
theorem Clean.connectToLink {n : NCP} (h : n.Clean) (remoteChan : ℕ)
    (hzero : n.lChan.isNone → n.messageList 0 = []) : (n.connectToLink remoteChan).Clean := by
  unfold NCP.connectToLink
  cases hlink : n.lChan with
  | some lChan => exact h.congr rfl rfl rfl
  | none =>
    obtain ⟨hclean, hlist, hnumber⟩ := h.getFirstUnusedChan
    dsimp only
    generalize n.getFirstUnusedChan = found at hclean hlist hnumber ⊢
    obtain ⟨localChan, m⟩ := found
    have hempty : m.messageList localChan = [] := by
      rw [hlist]
      by_cases hlocal : localChan = 0
      · rw [hlocal]
        exact hzero (by rw [hlink]; rfl)
      · exact hnumber hlocal
    have hacked : (m.controlChannel localChan .NCON_MSG_CONNECT_RESPONSE [lowByte remoteChan, 0]).Clean :=
      hclean.congr rfl rfl rfl
    exact (hacked.newLinkChannel localChan hempty fun _ => hempty).congr rfl rfl rfl

/-- A connect to a PC server gives the number back that it was handed. -/
theorem Clean.connectToPcServer {n : NCP} (h : n.Clean) (name : List UInt8) (remoteChan : ℕ)
    (hzero : name ∈ n.pcServers → n.messageList 0 = []) :
    (n.connectToPcServer name remoteChan).2.2.Clean ∧
      (n.connectToPcServer name remoteChan).2.2.messageList = n.messageList ∧
      (n.connectToPcServer name remoteChan).2.2.lChan = n.lChan ∧
      (n.connectToPcServer name remoteChan).1 = false := by
  unfold NCP.connectToPcServer
  by_cases hname : name ∈ n.pcServers
  · obtain ⟨hclean, hlist, hnumber⟩ := h.getFirstUnusedChan
    have hlink : n.getFirstUnusedChan.2.lChan = n.lChan := by
      unfold NCP.getFirstUnusedChan
      split <;> rfl
    rw [if_pos hname]
    generalize n.getFirstUnusedChan = found at hclean hlist hnumber hlink ⊢
    obtain ⟨localChan, m⟩ := found
    refine ⟨hclean.release ?_, hlist, hlink, rfl⟩
    rw [hlist]
    by_cases hlocal : localChan = 0
    · rw [hlocal]
      exact hzero hname
    · exact hnumber hlocal
  · rw [if_neg hname]
    exact ⟨h, rfl, rfl, rfl⟩

/-- A connect to any other service enters a missing link channel under number 0. -/
theorem Clean.connectToServer {n : NCP} (h : n.Clean) (name : List UInt8) (remoteChan : ℕ)
    (hzero : n.lChan.isNone ∨ name ∈ n.pcServers → n.messageList 0 = []) :
    (n.connectToServer name remoteChan).Clean := by
  obtain ⟨hclean, hlist, hlink, hrefused⟩ :=
    h.connectToPcServer name remoteChan fun hname => hzero (Or.inr hname)
  unfold NCP.connectToServer
  generalize n.connectToPcServer name remoteChan = refused at hclean hlist hlink hrefused ⊢
  obtain ⟨ok, localChan, m⟩ := refused
  dsimp only at hclean hlist hlink hrefused ⊢
  subst hrefused
  rw [if_neg Bool.false_ne_true]
  have hacked : (m.controlChannel 0 .NCON_MSG_CONNECT_RESPONSE
      [lowByte remoteChan, lowByte E_PSI_FILE_NXIST]).Clean := hclean.congr rfl rfl rfl
  by_cases hnone : m.lChan.isNone
  · have hempty : m.messageList 0 = [] := by
      rw [hlist]
      apply hzero
      rw [← hlink]
      exact Or.inl hnone
    have hentered := hacked.newLinkChannel 0 hempty fun hne => absurd rfl hne
    change (if m.lChan.isNone then _ else _ : NCP).Clean
    rwa [if_pos hnone]
  · change (if m.lChan.isNone then _ else _ : NCP).Clean
    rwa [if_neg hnone]

/-- The numbers that a control message releases, or enters an object under. -/
def touchedByControl (n : NCP) (buff : List UInt8) : List ℕ :=
  if buff.getD 1 0 = InterControllerMessageType.NCON_MSG_CONNECT_TO_SERVER.code then
    if n.lChan.isNone || n.pcServers.contains (cString (buff.drop 2)) then [0] else []
  else if buff.getD 1 0 = InterControllerMessageType.NCON_MSG_CHANNEL_DISCONNECT.code then
    [((buff.drop 2).getD 0 0).toNat]
  else []

/-- The numbers that an event releases, or enters an object under although it may have been held. -/
def touched (n : NCP) : Event → List ℕ
  | .receive s _ => if s.length > 1 ∧ s.getD 0 0 = 0 then n.touchedByControl (s.drop 1) else []
  | .connect ch => n.ownNumber ch
  | .register ch => if n.lChan.isSome then n.ownNumber ch else []
  | .disconnect channel => [channel]
  | .reset => List.range n.maxChannels
  | .hasFailed lfailed =>
    match n.lChan with
    | some lChan => if n.failed || lfailed then [(n.channel lChan).ncpChannel] else []
    | none => []
  | _ => []

/-- The event finds no half-received message under a number that is held and that it releases or
enters an object under. -/
def BetweenMessages (n : NCP) (e : Event) : Prop :=
  ∀ c ∈ n.touched e, n.isValidChannel c = true → n.messageList c = []

instance (n : NCP) (e : Event) : Decidable (n.BetweenMessages e) :=
  inferInstanceAs (Decidable (∀ c ∈ n.touched e, n.isValidChannel c = true → n.messageList c = []))

/-- A control message between messages. -/
theorem Clean.decodeControlMessage {n : NCP} (h : n.Clean) (buff : List UInt8) (time : ℕ)
    (hquiet : ∀ c ∈ n.touchedByControl buff, n.messageList c = []) :
    (n.decodeControlMessage buff time).Clean := by
  unfold NCP.decodeControlMessage
  unfold touchedByControl at hquiet
  by_cases hconnect : buff.getD 1 0 = InterControllerMessageType.NCON_MSG_CONNECT_TO_SERVER.code
  · simp only [if_pos hconnect] at hquiet ⊢
    have hstarted : ({ n with failed := false } : NCP).Clean := h.congr rfl rfl rfl
    have hzero : n.lChan.isNone ∨ cString (buff.drop 2) ∈ n.pcServers → n.messageList 0 = [] := by
      intro hor
      rw [if_pos (by simpa using hor)] at hquiet
      exact hquiet 0 List.mem_cons_self
    split
    · exact hstarted.connectToLink _ fun hnone => hzero (Or.inl hnone)
    · exact hstarted.connectToServer _ _ hzero
  · simp only [if_neg hconnect] at hquiet ⊢
    by_cases hresponse : buff.getD 1 0 = InterControllerMessageType.NCON_MSG_CONNECT_RESPONSE.code
    · simp only [if_pos hresponse]
      unfold connectResponse
      split
      · split
        · exact h.congr rfl rfl rfl
        · exact h.congr rfl rfl rfl
      · exact h.congr rfl rfl rfl
    · simp only [if_neg hresponse]
      by_cases hinfo : buff.getD 1 0 = InterControllerMessageType.NCON_MSG_NCP_INFO.code
      · simp only [if_pos hinfo]
        unfold ncpInfo
        split
        · dsimp only
          split
          · exact h.congr rfl rfl rfl
          · exact h.congr rfl rfl rfl
        · exact h.congr rfl rfl rfl
      · simp only [if_neg hinfo]
        by_cases hdisconnect : buff.getD 1 0 = InterControllerMessageType.NCON_MSG_CHANNEL_DISCONNECT.code
        · simp only [if_pos hdisconnect] at hquiet ⊢
          exact h.disconnect (hquiet _ List.mem_cons_self)
        · simp only [if_neg hdisconnect]
          exact h

/-- A fragment changes only what is kept for a number that is held. -/
theorem Clean.receiveData {n : NCP} (h : n.Clean) (c : ℕ) (allData : UInt8) (data : List UInt8) :
    (n.receiveData c allData data).Clean := by
  have hupdate (m : NCP) (message : List UInt8) (ch : ℕ) (hobject : n.channelPtr c = .object ch)
      (hptr : m.channelPtr = n.channelPtr)
      (hlist : m.messageList = Function.update n.messageList c message) (htaken : m.taken = n.taken) :
      m.Clean := by
    refine ⟨fun c' hc' => ?_, by rw [htaken]; exact h.taken⟩
    rw [isValidChannel_congr (congrFun hptr c')] at hc'
    have hne : c' ≠ c := by
      intro heq
      rw [heq, isValidChannel, hobject] at hc'
      cases hc'
    rw [hlist, Function.update_of_ne hne]
    exact h.idle c' hc'
  unfold NCP.receiveData
  cases hobject : n.channelPtr c with
  | null => exact h
  | reserved => exact h
  | object ch =>
    dsimp only
    split
    · exact hupdate _ _ ch hobject rfl rfl rfl
    · exact hupdate _ _ ch hobject rfl rfl rfl

/-- A packet leaves the lists clean where those that it touches are empty. -/
theorem Clean.receive {n : NCP} (h : n.Clean) (s : List UInt8) (time : ℕ)
    (hquiet : ∀ c ∈ n.touched (.receive s time), n.messageList c = []) :
    (n.receive s time).Clean := by
  unfold NCP.receive
  by_cases hlength : s.length > 1
  · rw [if_pos hlength]
    dsimp only
    by_cases hcontrol : (s.getD 0 0).toNat = 0
    · rw [if_pos hcontrol]
      apply h.decodeControlMessage
      have hzero : s.getD 0 0 = 0 := UInt8.toNat_inj.mp hcontrol
      rwa [touched, if_pos ⟨hlength, hzero⟩] at hquiet
    · rw [if_neg hcontrol]
      exact h.receiveData _ _ _
  · rw [if_neg hlength]
    exact h

/-- An acknowledged registration leaves the lists clean. -/
theorem Clean.registerAck {n : NCP} (h : n.Clean) (chan : ℕ) (name : List UInt8) :
    (n.registerAck chan name).Clean := by
  unfold NCP.registerAck
  dsimp only
  split
  · exact h.congr rfl rfl rfl
  · exact h

/-- A reset leaves every number unused. -/
theorem Clean.reset {n : NCP} (h : n.Clean)
    (hquiet : ∀ c ∈ n.touched .reset, n.messageList c = []) : n.reset.Clean := by
  refine ⟨fun c hc => ?_, h.taken⟩
  change n.messageList c = []
  by_cases hlt : c < n.maxChannels
  · exact hquiet c (List.mem_range.mpr hlt)
  · apply h.idle
    rw [← hc]
    exact (isValidChannel_congr (if_neg hlt)).symm

/-- A failure takes the link channel out. -/
theorem Clean.hasFailed {n : NCP} (h : n.Clean) (lfailed : Bool)
    (hquiet : ∀ c ∈ n.touched (.hasFailed lfailed), n.messageList c = []) :
    (n.hasFailed lfailed).2.Clean := by
  unfold NCP.hasFailed
  rw [touched] at hquiet
  dsimp only
  cases hfailed : n.failed || lfailed with
  | false => exact h.congr rfl rfl rfl
  | true =>
    cases hlink : n.lChan with
    | none => exact h.congr rfl rfl rfl
    | some lChan =>
      rw [hlink] at hquiet
      simp only [hfailed, if_true] at hquiet
      exact (h.release (hquiet _ List.mem_cons_self)).congr rfl rfl rfl

/-- Every event between messages keeps the table clean. -/
theorem step_clean (n : NCP) (e : Event) (h : n.Clean) (hbetween : n.BetweenMessages e) :
    (n.step e).Clean := by
  have hquiet : ∀ c ∈ n.touched e, n.messageList c = [] := by
    intro c hc
    cases hvalid : n.isValidChannel c with
    | true => exact hbetween c hc hvalid
    | false => exact h.idle c hvalid
  cases e with
  | receive s time => exact h.receive s time hquiet
  | send channel a => exact h.send channel a
  | newChannel registerName => exact h.congr rfl rfl rfl
  | connect ch => exact (h.connect hquiet).1
  | register ch =>
    apply h.register
    intro hlink c hc
    apply hquiet
    rwa [touched, if_pos hlink]
  | registerAck chan name => exact h.registerAck chan name
  | disconnect channel => exact h.disconnect (hquiet channel List.mem_cons_self)
  | reset => exact h.reset hquiet
  | hasFailed lfailed => exact h.hasFailed lfailed hquiet
  | registerPcServer name => exact h.congr rfl rfl rfl
  | unregisterPcServer server => exact h.congr rfl rfl rfl

/-- In a run in which numbers are given up, and entered again, only between messages, nothing is
kept for a number whenever it is taken. -/
theorem taken_between_messages (remoteChanList : ℕ → ℕ) (lastSentChannel : ℕ) {events : List Event}
    (hbetween : Admits step BetweenMessages (init remoteChanList lastSentChannel) events) :
    ∀ entry ∈ (runFrom step (init remoteChanList lastSentChannel) events).taken, entry.2 = [] := by
  have hinit : (init remoteChanList lastSentChannel).Clean :=
    ⟨fun _ _ => rfl, fun entry hentry => by cases hentry⟩
  exact (hbetween.invariant step_clean hinit).taken

/-- A client that goes between two messages leaves its number clean to the next one. -/
theorem taken_between_messages_reconnect :
    (1, []) ∈ (runFrom step (init (fun _ => 0) 0)
      [.newChannel [0x41], .connect 0, .receive [0, 5, 4, 1, 0] 0, .receive [1, 5, 2, 0x61] 0,
        .receive [1, 5, 1, 0x62] 0, .disconnect 1, .newChannel [0x42], .connect 1]).taken ∧
    ∀ entry ∈ (runFrom step (init (fun _ => 0) 0)
      [.newChannel [0x41], .connect 0, .receive [0, 5, 4, 1, 0] 0, .receive [1, 5, 2, 0x61] 0,
        .receive [1, 5, 1, 0x62] 0, .disconnect 1, .newChannel [0x42], .connect 1]).taken,
      entry.2 = [] :=
  ⟨by decide +kernel, taken_between_messages (fun _ => 0) 0 (by decide +kernel)⟩

/-- A client that goes in the middle of a message leaves its first part to the next one, which gets
it in front of its own message. -/
theorem taken_within_message :
    (1, [0x61]) ∈ (runFrom step (init (fun _ => 0) 0)
      [.newChannel [0x41], .connect 0, .receive [0, 5, 4, 1, 0] 0, .receive [1, 5, 2, 0x61] 0,
        .disconnect 1, .newChannel [0x42], .connect 1]).taken ∧
    Callback.ncpDataCallback 1 1 [0x61, 0x62] ∈ (runFrom step (init (fun _ => 0) 0)
      [.newChannel [0x41], .connect 0, .receive [0, 5, 4, 1, 0] 0, .receive [1, 5, 2, 0x61] 0,
        .disconnect 1, .newChannel [0x42], .connect 1, .receive [0, 6, 4, 1, 0] 0,
        .receive [1, 6, 1, 0x62] 0]).calls := by
  decide +kernel

end NCP

end Plptools
