import Plptools.Ncp.Session
import Plptools.Ncp.Table

/-!
# The channel table of a session

Every entry of the table points to an object that has the entry's number and has not been deleted, as
long as no link channel is entered twice and no socket channel gives up its attempt to connect while it
stands in the table: it is deleted at the end of the round, and the entry stays.
-/

namespace Plptools

open Plptools.Library

namespace NCPSession

/-- An object may stand in the table: it has not been deleted, and a socket channel has a name. -/
def Good (s : NCPSession) (ch : ℕ) : Prop :=
  ch ∉ s.deleted ∧ ∀ c, s.socket ch = some c → c.registerName ≠ none

/-- The object is a link channel. -/
def IsLink (s : NCPSession) (ch : ℕ) : Prop := s.socket ch = none

/-- The socket channel has had its turn in this round. -/
def Polled (s : NCPSession) (ch : ℕ) : Prop := ∃ rest, s.polling = some rest ∧ ch ∉ rest

/-- What holds between the steps. A socket channel without a name is told to terminate only in its turn,
so it is deleted before it can be entered again. -/
structure Sound (s : NCPSession) : Prop where
  range : s.ncp.InRange
  entered : s.ncp.Entered s.Good s.IsLink
  link : ∀ l, s.ncp.lChan = some l → s.IsLink l ∧ l < s.ncp.channels.length
  created : ∀ ch, ¬s.IsLink ch → ch < s.ncp.channels.length
  deleted : ∀ ch ∈ s.deleted, ch < s.ncp.channels.length
  sockets : ∀ ch ∈ s.socketChannels, ch ∉ s.deleted ∧ ¬s.IsLink ch
  unnamed : ∀ ch ∈ s.socketChannels, ¬s.Good ch → (s.ncp.channel ch).terminate = true → s.Polled ch
  nodup : s.socketChannels.Nodup
  polling : ∀ rest, s.polling = some rest → rest.Nodup ∧ ∀ ch ∈ rest, ch ∈ s.socketChannels

section Steps

variable {s : NCPSession} {ch : ℕ}

/-- A function of the multiplexer that keeps the table. -/
theorem Sound.of_grows (h : s.Sound) {n : NCP} (hrange : n.InRange)
    (hentered : n.Entered s.Good s.IsLink) (hgrows : s.ncp.Grows n) (stack : List (ℕ × ℕ)) :
    { s with ncp := n, registerStack := stack }.Sound where
  range := hrange
  entered := hentered
  link := by
    intro l hl
    rcases hgrows.link l hl with hold | ⟨hge, hlt⟩
    · exact ⟨(h.link l hold).1, (h.link l hold).2.trans_le hgrows.length⟩
    · refine ⟨?_, hlt⟩
      by_contra hsocket
      exact absurd (h.created l hsocket) (Nat.not_lt_of_le hge)
  created := fun ch hsocket => (h.created ch hsocket).trans_le hgrows.length
  deleted := fun ch hdeleted => (h.deleted ch hdeleted).trans_le hgrows.length
  sockets := h.sockets
  unnamed := by
    intro ch hch hunnamed hterminate
    rcases hgrows.terminate ch hterminate with hold | ⟨i, hobject⟩
    · exact h.unnamed ch hch hunnamed hold
    · exact absurd (h.entered i ch hobject).good hunnamed
  nodup := h.nodup
  polling := h.polling

/-- A socket channel in the table may be entered again. -/
theorem Sound.enterable (h : s.Sound) (hsocket : ¬s.IsLink ch) (hgood : s.Good ch)
    (hterminate : (s.ncp.channel ch).terminate = false) :
    s.ncp.Enterable s.Good s.IsLink ch where
  good := hgood
  created := h.created ch hsocket
  terminate := fun hc => absurd (hterminate.symm.trans hc) Bool.false_ne_true
  zero := fun hobject => hsocket ((h.entered 0 ch hobject).zero rfl)

/-- A channel that may be entered connects. -/
theorem Sound.ncpConnect (h : s.Sound) (hch : s.ncp.Enterable s.Good s.IsLink ch) :
    (s.ncpConnect ch).Sound :=
  h.of_grows (h.range.connect ch).2 (h.entered.connect hch) (NCP.keeps_connect ch).grows _

/-- A channel that may be entered registers. -/
theorem Sound.ncpRegister (h : s.Sound) (hch : s.ncp.Enterable s.Good s.IsLink ch) :
    (s.ncpRegister ch).Sound :=
  h.of_grows (h.range.register ch) (h.entered.register hch) (NCP.keeps_register ch).grows _

/-- A channel is disconnected. -/
theorem Sound.ncpDisconnect (h : s.Sound) (ch : ℕ) : (s.ncpDisconnect ch).Sound :=
  h.of_grows (h.range.disconnect _) (h.entered.disconnect _) (NCP.grows_disconnect _) _

/-- Data is sent. -/
theorem Sound.ncpSend (h : s.Sound) (ch : ℕ) (a : List UInt8) : (s.ncpSend ch a).Sound :=
  h.of_grows (h.range.send _ _) (h.entered.send _ _) (NCP.keeps_send _ _).grows _

/-- Changing a socket channel makes no link channel of another. -/
theorem isLink_setSocket (hsocket : ¬s.IsLink ch) (c : SocketChannel) (ch' : ℕ) :
    (s.setSocket ch c).IsLink ch' ↔ s.IsLink ch' := by
  by_cases heq : ch' = ch
  · subst heq
    simp [IsLink, NCPSession.setSocket, show ¬s.socket ch' = none from hsocket]
  · simp [IsLink, NCPSession.setSocket, heq]

/-- Changing a socket channel leaves the others. -/
theorem good_setSocket_of_ne {ch' : ℕ} (h : ch' ≠ ch) (c : SocketChannel) :
    (s.setSocket ch c).Good ch' ↔ s.Good ch' := by
  simp [Good, NCPSession.setSocket, h]

/-- A socket channel that is changed is good as long as it is registered and not deleted. -/
theorem good_setSocket_self (c : SocketChannel) :
    (s.setSocket ch c).Good ch ↔ ch ∉ s.deleted ∧ c.registerName ≠ none := by
  simp [Good, NCPSession.setSocket]

/-- Changing the members of a socket channel, which keeps its name while it stands in the table. -/
theorem Sound.setSocket (h : s.Sound) (hsocket : ¬s.IsLink ch) {c : SocketChannel}
    (hin : ∀ i, s.ncp.channelPtr i = .object ch → c.registerName ≠ none)
    (hunnamed : c.registerName = none → (s.ncp.channel ch).terminate = true → s.Polled ch) :
    (s.setSocket ch c).Sound where
  range := h.range
  entered := by
    refine h.entered.imp (fun i ch' hobject hgood => ?_)
      fun _ ch' _ => (isLink_setSocket hsocket c ch').mpr
    by_cases heq : ch' = ch
    · subst heq
      exact (good_setSocket_self c).mpr ⟨hgood.1, hin i hobject⟩
    · exact (good_setSocket_of_ne heq c).mpr hgood
  link := fun l hl => ⟨(isLink_setSocket hsocket c l).mpr (h.link l hl).1, (h.link l hl).2⟩
  created := fun ch' hch' => h.created ch' (mt (isLink_setSocket hsocket c ch').mpr hch')
  deleted := h.deleted
  sockets := by
    intro ch' hch'
    exact ⟨(h.sockets ch' hch').1, mt (isLink_setSocket hsocket c ch').mp (h.sockets ch' hch').2⟩
  unnamed := by
    intro ch' hch' hbad hterminate
    by_cases heq : ch' = ch
    · subst heq
      refine hunnamed ?_ hterminate
      by_contra hnamed
      exact hbad ((good_setSocket_self c).mpr ⟨(h.sockets ch' hch').1, hnamed⟩)
    · exact h.unnamed ch' hch' (mt (good_setSocket_of_ne heq c).mpr hbad) hterminate
  nodup := h.nodup
  polling := h.polling

/-- Telling an object to terminate that does not stand in the table as a socket channel. -/
theorem Sound.terminateWhenAsked (h : s.Sound)
    (hout : ∀ i, s.ncp.channelPtr i = .object ch → s.IsLink ch)
    (hunnamed : ch ∈ s.socketChannels → ¬s.Good ch → s.Polled ch) : (s.terminateWhenAsked ch).Sound := by
  have hrange : (s.terminateWhenAsked ch).ncp.InRange := h.range.setChannel ch (h.range.ncpChannel_lt ch)
  have hentered : (s.terminateWhenAsked ch).ncp.Entered s.Good s.IsLink :=
    h.entered.setChannel rfl fun i hobject _ => hout i hobject
  have hlength : (s.terminateWhenAsked ch).ncp.channels.length = s.ncp.channels.length :=
    List.length_set ..
  exact {
    range := hrange
    entered := hentered
    link := fun l hl => ⟨(h.link l hl).1, (h.link l hl).2.trans_eq hlength.symm⟩
    created := fun ch' hch' => (h.created ch' hch').trans_eq hlength.symm
    deleted := fun ch' hch' => (h.deleted ch' hch').trans_eq hlength.symm
    sockets := h.sockets
    unnamed := by
      intro ch' hch' hbad hterminate
      by_cases heq : ch' = ch
      · subst heq
        exact hunnamed hch' hbad
      · exact h.unnamed ch' hch' hbad (NCP.channel_setChannel_of_ne heq _ ▸ hterminate)
    nodup := h.nodup
    polling := h.polling }

/-- A socket channel is no link channel. -/
theorem not_isLink {c : SocketChannel} (hc : s.socket ch = some c) : ¬s.IsLink ch := by
  rw [IsLink, hc]
  exact nofun

/-- A socket channel in the table keeps its name when its members change, and may be entered again. -/
theorem Sound.change (h : s.Sound) {i : ℕ} (hobject : s.ncp.channelPtr i = .object ch)
    {c : SocketChannel} (hc : s.socket ch = some c) (c' : SocketChannel)
    (hname : c'.registerName = c.registerName) :
    (s.setSocket ch c').Sound ∧ (s.setSocket ch c').ncp.Enterable (s.setSocket ch c').Good
      (s.setSocket ch c').IsLink ch := by
  have hsocket := not_isLink hc
  have hfits := h.entered i ch hobject
  have hnamed : c'.registerName ≠ none := hname ▸ hfits.good.2 c hc
  have hkept := h.setSocket hsocket (fun _ _ => hnamed) fun hnone => absurd hnone hnamed
  refine ⟨hkept, hkept.enterable (mt (isLink_setSocket hsocket c' ch).mp hsocket)
    ((good_setSocket_self c').mpr ⟨hfits.good.1, hnamed⟩) ?_⟩
  exact Bool.eq_false_iff.mpr fun hc => hsocket (hfits.terminate hc)

/-- An acknowledged registration of a channel in the table, or of a link channel. -/
theorem Sound.ncpRegisterAck (h : s.Sound) (hch : s.IsLink ch ∨ ∃ i, s.ncp.channelPtr i = .object ch) :
    (s.ncpRegisterAck ch).Sound := by
  unfold NCPSession.ncpRegisterAck
  split
  case h_1 c hc =>
    obtain ⟨i, hobject⟩ := hch.resolve_left (not_isLink hc)
    obtain ⟨hkept, henterable⟩ := h.change hobject hc { c with connectTry := c.connectTry + 1 } rfl
    exact hkept.ncpConnect henterable
  case h_2 => exact h

/-- An acknowledged registration reaches its channel. -/
theorem Sound.ncpDoRegisterAck (h : s.Sound) (chan : ℕ) (name : List UInt8) :
    (s.ncpDoRegisterAck chan name).Sound := by
  have hgrows := NCP.keeps_registerAck chan name (n := s.ncp)
  have hnamed : { s with ncp := s.ncp.registerAck chan name }.Sound :=
    h.of_grows (h.range.registerAck chan name) (h.entered.registerAck chan name) hgrows.grows _
  unfold NCPSession.ncpDoRegisterAck
  dsimp only
  rcases NCP.registerAck_calls chan name (n := s.ncp) with hcalls | ⟨ch, i, hcalls, hobject⟩
  · rw [hcalls, List.drop_length]
    exact hnamed
  · rw [hcalls, List.drop_left]
    exact hnamed.ncpRegisterAck (.inr ⟨i, hobject⟩)

/-- A message for the link channel. -/
theorem Sound.linkDataCallback (h : s.Sound) (a : List UInt8) : (s.linkDataCallback a).Sound := by
  unfold NCPSession.linkDataCallback
  split
  · dsimp only
    have hkept (stack : List (ℕ × ℕ)) : { s with registerStack := stack }.Sound :=
      h.of_grows h.range h.entered (NCP.Keeps.of_eq rfl rfl).grows stack
    exact runFrom_invariant (fun s hs se => hs.ncpDoRegisterAck se.2 _) (hkept _) _
  · exact h

/-- An acknowledged connect of a channel in the table, or of a link channel. -/
theorem Sound.ncpConnectAck (h : s.Sound) (hch : s.IsLink ch ∨ ∃ i, s.ncp.channelPtr i = .object ch) :
    (s.ncpConnectAck ch).Sound := by
  unfold NCPSession.ncpConnectAck
  split
  case h_1 c hc =>
    obtain ⟨i, hobject⟩ := hch.resolve_left (not_isLink hc)
    exact (h.change hobject hc { c with isConnected := true, connectTry := 3 } rfl).1
  case h_2 => exact h

/-- A refused connect of a channel in the table, or of a link channel. -/
theorem Sound.ncpConnectNak (h : s.Sound) (hch : s.IsLink ch ∨ ∃ i, s.ncp.channelPtr i = .object ch)
    (now : ℕ) : (s.ncpConnectNak ch now).Sound := by
  unfold NCPSession.ncpConnectNak
  split
  case h_1 c hc =>
    obtain ⟨i, hobject⟩ := hch.resolve_left (not_isLink hc)
    split
    · exact h.ncpDisconnect ch
    · obtain ⟨hkept, henterable⟩ := h.change hobject hc
        { c with connectTry := c.connectTry + 1, connectTryTimestamp := now } rfl
      exact hkept.ncpRegister henterable
  case h_2 hlink =>
    refine h.terminateWhenAsked (fun _ _ => hlink) fun hsocket => ?_
    exact absurd hlink (h.sockets ch hsocket).2

/-- A callback to an object that the multiplexer knows. -/
theorem Sound.deliver (h : s.Sound) {call : Callback} (hcall : s.ncp.Concerns call) (now : ℕ) :
    (s.deliver now call).Sound := by
  have hch : s.IsLink call.object ∨ ∃ i, s.ncp.channelPtr i = .object call.object :=
    hcall.imp_left fun hl => (h.link _ hl).1
  cases call with
  | ncpDataCallback channel ch a =>
    unfold NCPSession.deliver
    dsimp only
    split
    · exact h
    · exact h.linkDataCallback a
  | ncpConnectAck ch => exact h.ncpConnectAck hch
  | ncpConnectNak ch => exact h.ncpConnectNak hch now
  | ncpRegisterAck ch => exact h.ncpRegisterAck hch

/-- The object that is created next is not a socket channel yet. -/
theorem Sound.isLink_length (h : s.Sound) : s.IsLink s.ncp.channels.length := by
  by_contra hsocket
  exact Nat.lt_irrefl _ (h.created _ hsocket)

/-- What arrives from the link enters no object twice. -/
theorem Sound.receive (h : s.Sound) {packet : List UInt8} (honce : ¬s.ncp.EntersTwice packet)
    (now : ℕ) : (s.receive packet now).Sound := by
  have hnew := h.isLink_length
  have hgood : s.Good s.ncp.channels.length :=
    ⟨fun hdeleted => Nat.lt_irrefl _ (h.deleted _ hdeleted), fun c hc => absurd hnew (not_isLink hc)⟩
  have hreceived : { s with ncp := s.ncp.receive packet now }.Sound :=
    h.of_grows (h.range.receive packet now) (h.entered.receive hgood hnew honce now)
      (NCP.grows_receive packet now) _
  unfold NCPSession.receive
  dsimp only
  rcases (NCP.receive_callsBack packet now (n := s.ncp)).once.drop with hcalls | ⟨call, hcalls, hcall⟩
  · rw [hcalls]
    exact hreceived
  · rw [hcalls]
    exact hreceived.deliver hcall now

/-- Another list of those whose turn is still to come. -/
theorem Sound.turn (h : s.Sound) {turns : Option (List ℕ)}
    (hturns : ∀ rest, turns = some rest → rest.Nodup ∧ ∀ ch ∈ rest, ch ∈ s.socketChannels)
    (hpolled : ∀ ch, s.Polled ch → ∃ rest, turns = some rest ∧ ch ∉ rest) :
    { s with polling := turns }.Sound where
  range := h.range
  entered := h.entered
  link := h.link
  created := h.created
  deleted := h.deleted
  sockets := h.sockets
  unnamed := fun ch hch hbad hterminate => hpolled ch (h.unnamed ch hch hbad hterminate)
  nodup := h.nodup
  polling := hturns

/-- Deleting objects that stand nowhere, and taking them off the list. -/
theorem Sound.delete (h : s.Sound) {left dead : List ℕ} {turns : Option (List ℕ)}
    (hleft : left.Sublist s.socketChannels) (hcreated : ∀ ch ∈ dead, ch < s.ncp.channels.length)
    (hnowhere : ∀ ch ∈ dead, ∀ i, s.ncp.channelPtr i ≠ .object ch) (hapart : ∀ ch ∈ dead, ch ∉ left)
    (hturns : ∀ rest, turns = some rest → rest.Nodup ∧ ∀ ch ∈ rest, ch ∈ left)
    (hunnamed : ∀ ch ∈ left, (s.ncp.channel ch).terminate = true → s.Polled ch →
      ∃ rest, turns = some rest ∧ ch ∉ rest) :
    { s with socketChannels := left, polling := turns, deleted := s.deleted ++ dead }.Sound where
  range := h.range
  entered := by
    refine h.entered.imp (fun i ch hobject hgood => ⟨fun hch => ?_, hgood.2⟩) fun _ _ _ => id
    rcases List.mem_append.mp hch with hold | hdead
    · exact hgood.1 hold
    · exact hnowhere ch hdead i hobject
  link := h.link
  created := h.created
  deleted := by
    intro ch hch
    rcases List.mem_append.mp hch with hold | hdead
    · exact h.deleted ch hold
    · exact hcreated ch hdead
  sockets := by
    intro ch hch
    have hold := h.sockets ch (hleft.subset hch)
    refine ⟨fun hdeleted => ?_, hold.2⟩
    rcases List.mem_append.mp hdeleted with hgone | hdead
    · exact hold.1 hgone
    · exact hapart ch hdead hch
  unnamed := by
    intro ch hch hbad hterminate
    refine hunnamed ch hch hterminate (h.unnamed ch (hleft.subset hch) (fun hgood => hbad ?_) hterminate)
    refine ⟨fun hdeleted => ?_, hgood.2⟩
    rcases List.mem_append.mp hdeleted with hgone | hdead
    · exact hgood.1 hgone
    · exact hapart ch hdead hch
  nodup := h.nodup.sublist hleft
  polling := hturns

/-- Deleting the link channel when it stands nowhere any more. -/
theorem Sound.deleteLink (h : s.Sound) {n : NCP} (hrange : n.InRange)
    (hentered : n.Entered s.Good s.IsLink) (hgrows : s.ncp.Grows n)
    (hnowhere : ∀ l, s.ncp.lChan = some l → ∀ i, n.channelPtr i ≠ .object l) :
    { s with ncp := n, registerStack := [], deleted := s.deleted ++ s.ncp.lChan.toList }.Sound := by
  have hforgotten := h.of_grows hrange hentered hgrows []
  refine hforgotten.delete (List.Sublist.refl _) (fun l hl => ?_) (fun l hl => ?_) (fun l hl hsocket => ?_)
    h.polling fun _ _ _ hpolled => hpolled
  · exact (h.link l (Option.mem_toList.mp hl)).2.trans_le hgrows.length
  · exact hnowhere l (Option.mem_toList.mp hl)
  · exact (h.sockets l hsocket).2 (h.link l (Option.mem_toList.mp hl)).1

/-- A failure takes the link channel out of the table. -/
theorem Sound.hasFailed (h : s.Sound) (lfailed : Bool) : (s.hasFailed lfailed).Sound := by
  have hrange := h.range.hasFailed lfailed
  unfold NCPSession.hasFailed
  unfold NCP.hasFailed at hrange ⊢
  cases hfailed : s.ncp.failed || lfailed with
  | false =>
    simp only [hfailed, Bool.false_eq_true, if_false] at hrange ⊢
    have hkeeps : s.ncp.Keeps { s.ncp with failed := false } := NCP.Keeps.of_eq rfl rfl
    exact h.of_grows hrange (h.entered.congr rfl rfl) hkeeps.grows s.registerStack
  | true =>
    cases hlink : s.ncp.lChan with
    | none =>
      simp only [hfailed, hlink, if_true] at hrange ⊢
      have hdeleted := h.deleteLink hrange (h.entered.congr rfl rfl)
        ⟨Nat.le_refl _, nofun, fun ch hterminate => .inl hterminate⟩
        fun l hl => nomatch hlink.symm.trans hl
      rwa [hlink] at hdeleted
    | some l =>
      simp only [hfailed, hlink, if_true] at hrange ⊢
      have hreleased := h.entered.release (s.ncp.channel l).ncpChannel
      have hnowhere : ∀ i, (s.ncp.release (s.ncp.channel l).ncpChannel).channelPtr i ≠ .object l := by
        intro i hobject
        have hnumber := (hreleased i l hobject).number
        rw [← hnumber] at hobject
        exact nomatch (Function.update_self ..).symm.trans hobject
      have hdeleted := h.deleteLink hrange (hreleased.congr rfl rfl)
        ⟨Nat.le_refl _, nofun, fun ch hterminate => .inl hterminate⟩ fun l' hl' => by
          obtain rfl := Option.some.inj (hlink.symm.trans hl')
          exact hnowhere
      rwa [hlink] at hdeleted

/-- Starting anew takes the channels out of the table. -/
theorem Sound.reset (h : s.Sound) : s.reset.Sound := by
  have hnowhere : ∀ i ch, s.ncp.reset.channelPtr i ≠ .object ch :=
    fun i ch hobject => nomatch (h.range.reset_channelPtr i).symm.trans hobject
  exact h.deleteLink h.range.reset (fun i ch hobject => absurd hobject (hnowhere i ch)) NCP.grows_reset
    fun l _ i => hnowhere i l

/-- An object that stands nowhere becomes a socket channel in the care of the session. -/
theorem Sound.adopt (h : s.Sound) (hcreated : ch < s.ncp.channels.length) (hdeleted : ch ∉ s.deleted)
    (hsocket : ch ∉ s.socketChannels) (hlink : s.ncp.lChan ≠ some ch)
    (hnowhere : ∀ i, s.ncp.channelPtr i ≠ .object ch)
    (hterminate : (s.ncp.channel ch).terminate = false) (c : SocketChannel) :
    { s with socketChannels := s.socketChannels ++ [ch] }.setSocket ch c |>.Sound := by
  have hother {ch' : ℕ} (hne : ch' ≠ ch) :
      Function.update s.socket ch (some c) ch' = s.socket ch' := Function.update_of_ne hne _ _
  have hself : Function.update s.socket ch (some c) ch ≠ none := by simp
  exact {
    range := h.range
    entered := by
      refine h.entered.imp (fun i ch' hobject hgood => ⟨hgood.1, fun c' hc' => ?_⟩)
        fun i ch' hobject hlink => ?_
      · have hne : ch' ≠ ch := fun heq => hnowhere i (heq ▸ hobject)
        exact hgood.2 c' ((hother hne).symm.trans hc')
      · have hne : ch' ≠ ch := fun heq => hnowhere i (heq ▸ hobject)
        exact (hother hne).trans hlink
    link := by
      intro l hl
      have hne : l ≠ ch := fun heq => hlink (heq ▸ hl)
      exact ⟨(hother hne).trans (h.link l hl).1, (h.link l hl).2⟩
    created := by
      intro ch' hch'
      by_cases heq : ch' = ch
      · exact heq ▸ hcreated
      · exact h.created ch' fun hnone => hch' ((hother heq).trans hnone)
    deleted := h.deleted
    sockets := by
      refine List.forall_mem_append.mpr ⟨fun ch' hch' => ?_, List.forall_mem_singleton.mpr ⟨hdeleted, hself⟩⟩
      have hne : ch' ≠ ch := fun heq => hsocket (heq ▸ hch')
      exact ⟨(h.sockets ch' hch').1, fun hnone => (h.sockets ch' hch').2 ((hother hne).symm.trans hnone)⟩
    unnamed := by
      refine List.forall_mem_append.mpr ⟨fun ch' hch' hbad => ?_, List.forall_mem_singleton.mpr ?_⟩
      · have hne : ch' ≠ ch := fun heq => hsocket (heq ▸ hch')
        refine h.unnamed ch' hch' fun hgood => hbad ⟨hgood.1, fun c' hc' => ?_⟩
        exact hgood.2 c' ((hother hne).symm.trans hc')
      · exact fun _ hc => absurd (hterminate.symm.trans hc) Bool.false_ne_true
    nodup := by
      have hapart : ∀ ch' ∈ s.socketChannels, ch' ≠ ch := fun ch' hch' heq => hsocket (heq ▸ hch')
      change (s.socketChannels ++ [ch]).Nodup
      simpa [List.nodup_append, h.nodup] using hapart
    polling := fun rest hrest =>
      ⟨(h.polling rest hrest).1, fun ch' hch' => List.mem_append_left _ ((h.polling rest hrest).2 ch' hch')⟩ }

/-- A new client. -/
theorem Sound.accept (h : s.Sound) : s.accept.Sound := by
  unfold NCPSession.accept
  split
  case isTrue =>
    have hmade : { s with ncp := (s.ncp.newChannel [] 0 0).2 }.Sound :=
      h.of_grows (h.range.newChannel [] h.range.pos 0) (h.entered.newChannel [] 0 0)
        (NCP.keeps_newChannel [] 0 0).grows _
    have hlt := Nat.lt_irrefl s.ncp.channels.length
    refine hmade.adopt ?_ (fun hch => hlt (h.deleted _ hch)) (fun hch => ?_) (fun hl => hlt (h.link _ hl).2)
      (fun i hobject => hlt (h.entered i _ hobject).created) ?_ _
    · simp [NCP.newChannel]
    · exact hlt (h.created _ (h.sockets _ hch).2)
    · simp [NCP.newChannel, NCP.channel, List.getD_eq_getElem?_getD]
  case isFalse => exact h

/-- A command of a client leaves the table. -/
theorem Sound.ncpCommand (h : s.Sound) (a : List UInt8) : (s.ncpCommand a).Sound := by
  have hregistered (name : List UInt8) : { s with ncp := s.ncp.registerPcServer name }.Sound := by
    have hrange : (s.ncp.registerPcServer name).InRange :=
      h.range.congr rfl rfl rfl h.range.numbered
    have hkeeps : s.ncp.Keeps (s.ncp.registerPcServer name) := NCP.Keeps.of_eq rfl rfl
    exact h.of_grows hrange (h.entered.congr rfl rfl) hkeeps.grows _
  unfold NCPSession.ncpCommand
  split
  · dsimp only
    split
    · exact h
    · exact hregistered _
  · exact h

/-- A client says which service it wants. -/
theorem Sound.announce (h : s.Sound) (hlive : ch ∉ s.deleted) {c : SocketChannel}
    (hc : s.socket ch = some c) (hterminate : (s.ncp.channel ch).terminate = false)
    (name : List UInt8) (now : ℕ) : (s.announce ch c name now).Sound := by
  let c' : SocketChannel := { c with
    registerName := some name, connectTry := c.connectTry + 1, connectTryTimestamp := now }
  have hnamed : (s.setSocket ch c').Sound := h.setSocket (not_isLink hc) (fun _ _ => nofun) nofun
  have hkeeps : s.ncp.Keeps (s.ncp.setChannel ch { s.ncp.channel ch with registerName := name }) :=
    NCP.keeps_setChannel id
  have hrange : (s.ncp.setChannel ch { s.ncp.channel ch with registerName := name }).InRange :=
    h.range.setChannel ch (h.range.ncpChannel_lt ch)
  have hentered : (s.ncp.setChannel ch { s.ncp.channel ch with registerName := name }).Entered
      (s.setSocket ch c').Good (s.setSocket ch c').IsLink :=
    hnamed.entered.setChannel rfl fun i hobject => (hnamed.entered i ch hobject).terminate
  have hset := hnamed.of_grows hrange hentered hkeeps.grows s.registerStack
  have henterable := hset.enterable (mt (isLink_setSocket (not_isLink hc) c' ch).mp (not_isLink hc))
    ((good_setSocket_self c').mpr ⟨hlive, nofun⟩)
    (Bool.eq_false_iff.mpr fun hc => Bool.eq_false_iff.mp hterminate (hkeeps.terminate ch hc))
  unfold NCPSession.announce
  dsimp only
  split
  · exact hset.ncpConnect henterable
  · exact hset.ncpRegister henterable

/-- The turn of a socket channel. -/
theorem Sound.socketPoll (h : s.Sound) (hch : ch ∈ s.socketChannels) (hpolled : s.Polled ch)
    (hunnamed : ¬s.Good ch → (s.ncp.channel ch).terminate = false) {read : SocketRead} {now : ℕ}
    (hout : ∀ c, s.socket ch = some c → c.registerName ≠ none → c.isConnected = false →
      now > c.connectTryTimestamp + connectTimeout → ∀ i, s.ncp.channelPtr i ≠ .object ch) :
    (s.socketPoll ch read now).Sound := by
  have hlive := (h.sockets ch hch).1
  unfold NCPSession.socketPoll
  split
  case h_1 => exact h
  case h_2 c hc =>
    split
    case isTrue hnone =>
      have hbad : ¬s.Good ch := fun hgood => hgood.2 c hc hnone
      split
      · split
        · exact h
        · split
          · exact h.ncpCommand _
          · exact h.announce hlive hc (hunnamed hbad) _ now
      · exact h.terminateWhenAsked (fun i hobject => absurd (h.entered i ch hobject).good hbad)
          fun _ _ => hpolled
      · exact h
    case isFalse hnamed =>
      split
      case isTrue =>
        split
        · have hgone := h.ncpDisconnect ch
          refine hgone.setSocket (not_isLink hc) (fun i hobject => ?_) fun _ _ => hpolled
          exact absurd hobject (h.entered.not_disconnect i)
        · split
          · exact h.ncpCommand _
          · exact h.ncpSend ch _
        · exact h
      case isFalse hconnected =>
        split
        case isTrue hlate =>
          have hnowhere := hout c hc hnamed (Bool.eq_false_iff.mpr hconnected) hlate
          exact h.terminateWhenAsked (fun i hobject => absurd hobject (hnowhere i)) fun _ _ => hpolled
        case isFalse => exact h

/-- A round begins with a copy of the list. -/
theorem Sound.beginRound (h : s.Sound) (hidle : s.polling = none) :
    { s with polling := some s.socketChannels }.Sound := by
  refine h.turn (fun rest hrest => ?_) fun ch hpolled => ?_
  · obtain rfl := Option.some.inj hrest
    exact ⟨h.nodup, fun _ hch => hch⟩
  · obtain ⟨rest, hrest, -⟩ := hpolled
    exact nomatch hidle.symm.trans hrest

/-- A socket channel is taken from the copy. -/
theorem Sound.takeTurn (h : s.Sound) {rest : List ℕ} (hpolling : s.polling = some (ch :: rest)) :
    { s with polling := some rest }.Sound ∧ ch ∈ s.socketChannels ∧ ch ∉ rest := by
  obtain ⟨hnodup, hsockets⟩ := h.polling (ch :: rest) hpolling
  obtain ⟨hapart, hnodup'⟩ := List.nodup_cons.mp hnodup
  refine ⟨h.turn (fun rest' hrest' => ?_) fun ch' hpolled => ⟨rest, rfl, ?_⟩,
    hsockets ch List.mem_cons_self, hapart⟩
  · obtain rfl := Option.some.inj hrest'
    exact ⟨hnodup', fun ch' hch' => hsockets ch' (List.mem_cons_of_mem _ hch')⟩
  · obtain ⟨turns, hturns, hpolled⟩ := hpolled
    obtain rfl := Option.some.inj (hpolling.symm.trans hturns)
    exact fun hrest => hpolled (List.mem_cons_of_mem _ hrest)

/-- A channel without a name that has not had its turn is not to terminate. -/
theorem Sound.stays (h : s.Sound) {rest : List ℕ} (hpolling : s.polling = some (ch :: rest))
    (hch : ch ∈ s.socketChannels) (hbad : ¬s.Good ch) : (s.ncp.channel ch).terminate = false := by
  apply Bool.eq_false_iff.mpr
  intro hterminate
  obtain ⟨turns, hturns, hpolled⟩ := h.unnamed ch hch hbad hterminate
  obtain rfl := Option.some.inj (hpolling.symm.trans hturns)
  exact hpolled List.mem_cons_self

/-- The deletions at the end of a round. -/
theorem Sound.cleanUp (h : s.Sound) : s.cleanUp.Sound := by
  refine h.delete List.filter_sublist (fun ch hch => ?_) (fun ch hch i hobject => ?_) (fun ch hch hleft => ?_)
    nofun fun ch hch hterminate _ => ?_
  · have hsocket := (List.mem_filter.mp hch).1
    exact h.created ch (h.sockets ch hsocket).2
  · obtain ⟨hsocket, hterminate⟩ := List.mem_filter.mp hch
    exact (h.sockets ch hsocket).2 ((h.entered i ch hobject).terminate hterminate)
  · have hterminate := (List.mem_filter.mp hch).2
    have hkept := (List.mem_filter.mp hleft).2
    simp [hterminate] at hkept
  · have hkept := (List.mem_filter.mp hch).2
    simp [shouldTerminate, hterminate] at hkept

end Steps

/-- The socket channel gives up its attempt to connect. -/
def GivesUp (s : NCPSession) (ch now : ℕ) : Prop :=
  ∃ c ∈ s.socket ch, c.registerName ≠ none ∧ c.isConnected = false ∧
    now > c.connectTryTimestamp + connectTimeout

instance (s : NCPSession) (ch now : ℕ) : Decidable (s.GivesUp ch now) :=
  inferInstanceAs (Decidable (∃ c ∈ s.socket ch, _ ∧ _))

/-- The entry with the number of an object points to it. -/
def InTable (s : NCPSession) (ch : ℕ) : Prop :=
  s.ncp.channelPtr (s.ncp.channel ch).ncpChannel = .object ch

instance (s : NCPSession) (ch : ℕ) : Decidable (s.InTable ch) :=
  inferInstanceAs (Decidable (_ = _))

/-- A step enters no link channel twice, and no socket channel gives up in its turn while it is in the
table. -/
def Careful (s : NCPSession) : Event → Prop
  | .receive packet _ => ¬s.ncp.EntersTwice packet
  | .socketPoll _ now => ∀ ch ∈ (s.polling.getD []).head?, s.GivesUp ch now → ¬s.InTable ch
  | _ => True

instance (s : NCPSession) : ∀ e, Decidable (s.Careful e)
  | .receive packet _ => inferInstanceAs (Decidable ¬s.ncp.EntersTwice packet)
  | .socketPoll _ now =>
    inferInstanceAs (Decidable (∀ ch ∈ (s.polling.getD []).head?, s.GivesUp ch now → ¬s.InTable ch))
  | .hasFailed _ | .reset | .accept | .beginRound | .endRound => isTrue trivial

/-- Every step that is careful keeps the session sound. -/
theorem step_sound (s : NCPSession) (e : Event) (h : s.Sound) (hcareful : s.Careful e) :
    (s.step e).Sound := by
  cases e with
  | receive packet now => exact h.receive hcareful now
  | hasFailed lfailed => exact h.hasFailed lfailed
  | reset => exact h.reset
  | accept => exact h.accept
  | beginRound =>
    unfold step
    dsimp only
    split
    case h_1 hidle => exact h.beginRound hidle
    case h_2 => exact h
  | socketPoll read now =>
    unfold step
    dsimp only
    split
    case h_1 ch rest hpolling =>
      obtain ⟨hbegun, hch, hapart⟩ := h.takeTurn hpolling
      apply hbegun.socketPoll hch ⟨rest, rfl, hapart⟩ (h.stays hpolling hch)
      intro c hc hnamed hconnected hlate i hobject
      have hturn : ch ∈ (s.polling.getD []).head? := by
        rw [hpolling]
        exact rfl
      apply hcareful ch hturn ⟨c, hc, hnamed, hconnected, hlate⟩
      rw [InTable, (h.entered i ch hobject).number]
      exact hobject
    case h_2 => exact h
  | endRound =>
    unfold step
    dsimp only
    split
    · exact h.cleanUp
    · exact h

/-- A new session has an empty table. -/
theorem sound_init (remoteChanList : ℕ → ℕ) (lastSentChannel : ℕ) :
    (init remoteChanList lastSentChannel).Sound where
  range := NCP.inRange_init remoteChanList lastSentChannel
  entered := nofun
  link := nofun
  created := fun _ hch => absurd rfl hch
  deleted := nofun
  sockets := nofun
  unnamed := nofun
  nodup := List.nodup_nil
  polling := nofun

/-- Every entry that points to an object points to one that has not been deleted and has the number of
the entry. -/
structure Consistent (s : NCPSession) : Prop where
  live : ∀ i ch, s.ncp.channelPtr i = .object ch → ch ∉ s.deleted
  number : ∀ i ch, s.ncp.channelPtr i = .object ch → (s.ncp.channel ch).ncpChannel = i

/-- In a run whose steps are careful, the table is consistent in every state, and no object occupies two
entries. -/
theorem table_consistent (remoteChanList : ℕ → ℕ) (lastSentChannel : ℕ) {events : List Event}
    (hcareful : Admits step Careful (init remoteChanList lastSentChannel) events) :
    ∀ seen, seen <+: events →
      let s := runFrom step (init remoteChanList lastSentChannel) seen
      s.Consistent ∧ ∀ i j ch, s.ncp.channelPtr i = .object ch → s.ncp.channelPtr j = .object ch → i = j := by
  rintro seen ⟨rest, rfl⟩
  have hseen := ((admits_append step Careful _ seen rest).mp hcareful).1
  have hsound := hseen.invariant step_sound (sound_init remoteChanList lastSentChannel)
  refine ⟨⟨fun i ch hobject => (hsound.entered i ch hobject).good.1,
    fun i ch hobject => (hsound.entered i ch hobject).number⟩, ?_⟩
  exact fun i j ch hi hj => hsound.entered.unique hi hj

/-- The device asks for the link service. -/
def linkUp : Event := .receive ([0, 1, 3] ++ linkName ++ anySuffix ++ [0]) 0

/-- A client connects and says that it wants the file service. -/
def client : List Event :=
  [.accept, .beginRound, .socketPoll (.data (rfsvName ++ anySuffix ++ [0])) 0, .endRound]

/-- A client is connected, and then the link fails. -/
theorem table_consistent_client :
    (runFrom step (init (fun _ => 0) 0)
      ([linkUp] ++ client ++ [.receive [0, 5, 4, 2, 0] 1, .hasFailed true, .reset])).Consistent :=
  (table_consistent (fun _ => 0) 0 (by decide) _ List.prefix_rfl).1

/-- A connect to an unknown service enters the new link channel under 0 and 1; a client that waits for
more than fifteen seconds is deleted and still in the table. -/
theorem table_not_consistent :
    ¬(runFrom step (init (fun _ => 0) 0) [.receive [0, 1, 3, 0x53, 0] 0]).Consistent ∧
    ¬(runFrom step (init (fun _ => 0) 0)
      ([linkUp] ++ client ++ [.beginRound, .socketPoll .nothing 16, .endRound])).Consistent := by
  constructor
  · intro h
    exact absurd (h.number 0 0 rfl) (by decide)
  · intro h
    exact absurd (h.live 2 1 rfl) (by decide)

end NCPSession

end Plptools
