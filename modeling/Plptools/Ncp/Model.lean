import Plptools.Buffer.Store
import Mathlib.Logic.Function.Basic

/-!
# The channel multiplexer

The state of `NCP`: the table of channel objects with the message that is being received for each
number, and what the control messages of the two sides have settled. Stores are the lists that they
represent. What is given to the link is logged, and so are the callbacks of the channel objects;
when a callback of the source calls the multiplexer in turn, that is an event of its own here.

What has been received so far for a channel number is also logged each time the number is taken.
Status callbacks, logging and the purging of the link's queues are left out.
-/

namespace Plptools

def MAX_CHANNELS_PSION : ℕ := 256

def MAX_CHANNELS_SIBO : ℕ := 8

/-- The most data bytes in one fragment of a message. -/
def NCP_SENDLEN : ℕ := 250

def LAST_MESS : UInt8 := 1

def NOT_LAST_MESS : UInt8 := 2

def PV_SERIES_5 : ℕ := 6

def PV_SERIES_3 : ℕ := 3

/-- The error with which a connect to an unknown server is refused. -/
def E_PSI_FILE_NXIST : ℤ := -33

/-- The types of control messages. -/
inductive InterControllerMessageType where
  | NCON_MSG_DATA_XOFF
  | NCON_MSG_DATA_XON
  | NCON_MSG_CONNECT_TO_SERVER
  | NCON_MSG_CONNECT_RESPONSE
  | NCON_MSG_CHANNEL_CLOSED
  | NCON_MSG_NCP_INFO
  | NCON_MSG_CHANNEL_DISCONNECT
  | NCON_MSG_NCP_END
deriving DecidableEq, Repr

/-- The byte that stands for a type of control message. -/
def InterControllerMessageType.code : InterControllerMessageType → UInt8
  | .NCON_MSG_DATA_XOFF => 1
  | .NCON_MSG_DATA_XON => 2
  | .NCON_MSG_CONNECT_TO_SERVER => 3
  | .NCON_MSG_CONNECT_RESPONSE => 4
  | .NCON_MSG_CHANNEL_CLOSED => 5
  | .NCON_MSG_NCP_INFO => 6
  | .NCON_MSG_CHANNEL_DISCONNECT => 7
  | .NCON_MSG_NCP_END => 8

/-- An entry of the channel table: a null pointer, the marker of a number that has been handed out,
or a channel object. -/
inductive ChannelPtr where
  | null
  | reserved
  | object (ch : ℕ)
deriving DecidableEq, Repr

/-- The members of a channel object that the multiplexer reads and writes. The serial number is
that of the register requests of the link channel. -/
structure Channel where
  ncpChannel : ℕ
  connectName : Option (List UInt8)
  registerName : List UInt8
  registerSer : ℕ
  terminate : Bool
deriving DecidableEq, Repr

/-- A call of a channel object; a data callback is logged with the number it was made for. -/
inductive Callback where
  | ncpDataCallback (channel ch : ℕ) (a : List UInt8)
  | ncpConnectAck (ch : ℕ)
  | ncpConnectNak (ch : ℕ)
  | ncpRegisterAck (ch : ℕ)
deriving DecidableEq, Repr

/-- The members of `NCP`, the channel objects, and the logs. -/
structure NCP where
  channelPtr : ℕ → ChannelPtr
  messageList : ℕ → List UInt8
  remoteChanList : ℕ → ℕ
  failed : Bool
  protocolVersion : ℕ
  lChan : Option ℕ
  maxChannels : ℕ
  pcServers : List (List UInt8)
  lastSentChannel : ℕ
  channels : List Channel
  sent : List (List UInt8)
  calls : List Callback
  taken : List (ℕ × List UInt8)

/-- The name of the link service. -/
def linkName : List UInt8 := [0x4c, 0x49, 0x4e, 0x4b]

/-- The suffix of a server name. -/
def anySuffix : List UInt8 := [0x2e, 0x2a]

/-- PC servers do not allow connects. -/
def clientConnect (_localChan _remoteChan : ℕ) : Bool := false

namespace NCP

/-- A multiplexer as constructed, with what its uninitialised members hold. -/
def init (remoteChanList : ℕ → ℕ) (lastSentChannel : ℕ) : NCP where
  channelPtr := fun _ => .null
  messageList := fun _ => []
  remoteChanList := remoteChanList
  failed := false
  protocolVersion := PV_SERIES_5
  lChan := none
  maxChannels := MAX_CHANNELS_SIBO
  pcServers := []
  lastSentChannel := lastSentChannel
  channels := []
  sent := []
  calls := []
  taken := []

/-- The object with a given index. -/
def channel (n : NCP) (ch : ℕ) : Channel := n.channels.getD ch ⟨0, none, [], 0, false⟩

/-- Change one channel object. -/
def setChannel (n : NCP) (ch : ℕ) (c : Channel) : NCP := { n with channels := n.channels.set ch c }

/-- Hand a packet to the link. -/
def linkSend (n : NCP) (packet : List UInt8) : NCP := { n with sent := n.sent ++ [packet] }

/-- Call a channel object. -/
def call (n : NCP) (c : Callback) : NCP := { n with calls := n.calls ++ [c] }

/-- Set an entry of the channel table to something other than a null pointer. -/
def take (n : NCP) (cNum : ℕ) (p : ChannelPtr) : NCP :=
  { n with
    channelPtr := Function.update n.channelPtr cNum p
    taken := n.taken ++ [(cNum, n.messageList cNum)] }

/-- Set an entry of the channel table to a null pointer. -/
def release (n : NCP) (cNum : ℕ) : NCP :=
  { n with channelPtr := Function.update n.channelPtr cNum .null }

/-- The entry is a channel object. -/
def isValidChannel (n : NCP) (channel : ℕ) : Bool :=
  match n.channelPtr channel with
  | .object _ => true
  | _ => false

/-- Send a control message. -/
def controlChannel (n : NCP) (chan : ℕ) (t : InterControllerMessageType) (command : List UInt8) : NCP :=
  n.linkSend ([0, lowByte chan, t.code] ++ command)

/-- Mark the first unused number as handed out; 0 when there is none. -/
def getFirstUnusedChan (n : NCP) : ℕ × NCP :=
  match (List.range' 1 (n.maxChannels - 1)).find? fun cNum => n.channelPtr cNum = .null with
  | some cNum => (cNum, n.take cNum .reserved)
  | none => (0, n)

/-- The first three bytes of a fragment, and its data. -/
def dataFrame (n : NCP) (channel : ℕ) (last : Bool) (data : List UInt8) : List UInt8 :=
  [lowByte (n.remoteChanList channel), lowByte channel, if last then LAST_MESS else NOT_LAST_MESS] ++ data

/-- The loop of `send`. A message of `a.length` bytes has at most `a.length + 1` fragments. -/
def sendLoop (channel : ℕ) : ℕ → NCP → List UInt8 → NCP
  | 0, n, _ => n
  | rounds + 1, n, a =>
    let last := !decide (a.length > NCP_SENDLEN)
    let n := n.linkSend (n.dataFrame channel last (a.take NCP_SENDLEN))
    if last then n else sendLoop channel rounds n (a.drop NCP_SENDLEN)

/-- Send a message in fragments. -/
def send (n : NCP) (channel : ℕ) (a : List UInt8) : NCP :=
  { sendLoop channel (a.length + 1) n a with lastSentChannel := channel }

/-- The link channel asks for the registration of a channel. -/
def linkChannelRegister (n : NCP) (lChan ch : ℕ) : NCP :=
  let l := n.channel lChan
  let a := [0] ++ BufferStore.wordBytes l.registerSer ++ cString (n.channel ch).registerName ++ [0]
  (n.setChannel lChan { l with registerSer := l.registerSer + 1 }).send l.ncpChannel a

/-- The number under which an object connects or registers: its own, or the first unused one. -/
def numberFor (n : NCP) (ch : ℕ) : ℕ × NCP :=
  if (n.channel ch).ncpChannel = 0 then n.getFirstUnusedChan else ((n.channel ch).ncpChannel, n)

/-- Register a channel. -/
def register (n : NCP) (ch : ℕ) : NCP :=
  match n.lChan with
  | none => n
  | some lChan =>
    let (cNum, n) := n.numberFor ch
    if cNum > 0 then
      let n := n.take cNum (.object ch)
      let n := n.setChannel ch { n.channel ch with ncpChannel := cNum }
      n.linkChannelRegister lChan ch
    else n

/-- Connect a channel: the number, or -1, and the new state. -/
def connect (n : NCP) (ch : ℕ) : ℤ × NCP :=
  let (cNum, n) := n.numberFor ch
  if cNum > 0 then
    let n := n.take cNum (.object ch)
    let n := n.setChannel ch { n.channel ch with ncpChannel := cNum }
    let name := match (n.channel ch).connectName with
      | some name => cString name
      | none => cString (n.channel ch).registerName ++ anySuffix
    (cNum, n.controlChannel cNum .NCON_MSG_CONNECT_TO_SERVER (name ++ [0]))
  else (-1, n)

/-- A registration has been acknowledged. -/
def registerAck (n : NCP) (chan : ℕ) (name : List UInt8) : NCP :=
  let found := (List.range' 1 (n.maxChannels - 1)).findSome? fun cNum =>
    match n.channelPtr cNum with
    | .object ch => if (n.channel ch).ncpChannel = chan then some ch else none
    | _ => none
  match found with
  | some ch =>
    (n.setChannel ch { n.channel ch with connectName := some name }).call (.ncpRegisterAck ch)
  | none => n

/-- Disconnect a channel. -/
def disconnect (n : NCP) (channel : ℕ) : NCP :=
  match n.channelPtr channel with
  | .object ch =>
    let n := n.setChannel ch { n.channel ch with terminate := true }
    (n.release channel).controlChannel channel .NCON_MSG_CHANNEL_DISCONNECT
      [lowByte (n.remoteChanList channel)]
  | _ => n

/-- Create a channel object; the constructor of a link channel connects it. -/
def newChannel (n : NCP) (registerName : List UInt8) (ncpChannel registerSer : ℕ) : ℕ × NCP :=
  (n.channels.length,
    { n with channels := n.channels ++ [⟨ncpChannel, none, registerName, registerSer, false⟩] })

/-- Create the link channel and enter it under `localChan`. -/
def newLinkChannel (n : NCP) (localChan ncpChannel : ℕ) : NCP :=
  let (ch, n) := n.newChannel linkName ncpChannel 0x1234
  let n := (n.connect ch).2
  { n.take localChan (.object ch) with lChan := some ch }

/-- A connect to the link service. -/
def connectToLink (n : NCP) (remoteChan : ℕ) : NCP :=
  match n.lChan with
  | some lChan =>
    let localChan := (n.channel lChan).ncpChannel
    let n := n.controlChannel localChan .NCON_MSG_CONNECT_RESPONSE [lowByte remoteChan, 0]
    n.call (.ncpConnectAck lChan)
  | none =>
    let (localChan, n) := n.getFirstUnusedChan
    let n := n.controlChannel localChan .NCON_MSG_CONNECT_RESPONSE [lowByte remoteChan, 0]
    let n := n.newLinkChannel localChan localChan
    n.call (.ncpConnectAck (n.lChan.getD 0))

/-- A connect to a PC server: whether it is accepted, and under which number. -/
def connectToPcServer (n : NCP) (name : List UInt8) (remoteChan : ℕ) : Bool × ℕ × NCP :=
  if name ∈ n.pcServers then
    let (localChan, n) := n.getFirstUnusedChan
    if clientConnect localChan remoteChan then (true, localChan, n)
    else (false, localChan, n.release localChan)
  else (false, 0, n)

/-- A connect to any other service. -/
def connectToServer (n : NCP) (name : List UInt8) (remoteChan : ℕ) : NCP :=
  let (ok, localChan, n) := n.connectToPcServer name remoteChan
  let localChan := if ok then localChan else 0
  let status := if ok then 0 else lowByte E_PSI_FILE_NXIST
  let n := n.controlChannel localChan .NCON_MSG_CONNECT_RESPONSE [lowByte remoteChan, status]
  if n.lChan.isNone then n.newLinkChannel localChan 0 else n

/-- The response to a connect. -/
def connectResponse (n : NCP) (remoteChan forChan : ℕ) (status : UInt8) : NCP :=
  match n.channelPtr forChan with
  | .object ch =>
    if status = 0 then
      { n with remoteChanList := Function.update n.remoteChanList forChan remoteChan }.call
        (.ncpConnectAck ch)
    else n.call (.ncpConnectNak ch)
  | _ => n

/-- The information of the other side. The answer carries the time and, for a Series 3, an earlier
version. -/
def ncpInfo (n : NCP) (ver time : ℕ) : NCP :=
  if ver = PV_SERIES_5 ∨ ver = PV_SERIES_3 then
    let n := { n with protocolVersion := ver }
    if ver = PV_SERIES_3 then
      n.controlChannel 0 .NCON_MSG_NCP_INFO ([lowByte 2] ++ BufferStore.dwordBytes time)
    else
      { n with maxChannels := MAX_CHANNELS_PSION }.controlChannel 0 .NCON_MSG_NCP_INFO
        ([lowByte ver] ++ BufferStore.dwordBytes time)
  else { n with failed := true }

/-- A control message, without its first byte. -/
def decodeControlMessage (n : NCP) (buff : List UInt8) (time : ℕ) : NCP :=
  let remoteChan := (buff.getD 0 0).toNat
  let imt := buff.getD 1 0
  let buff := buff.drop 2
  if imt = InterControllerMessageType.NCON_MSG_CONNECT_TO_SERVER.code then
    let n := { n with failed := false }
    if cString buff = linkName ++ anySuffix then n.connectToLink remoteChan
    else n.connectToServer (cString buff) remoteChan
  else if imt = InterControllerMessageType.NCON_MSG_CONNECT_RESPONSE.code then
    { n with failed := false }.connectResponse remoteChan (buff.getD 0 0).toNat (buff.getD 1 0)
  else if imt = InterControllerMessageType.NCON_MSG_NCP_INFO.code then
    { n with failed := false }.ncpInfo (buff.getD 0 0).toNat time
  else if imt = InterControllerMessageType.NCON_MSG_CHANNEL_DISCONNECT.code then
    n.disconnect (buff.getD 0 0).toNat
  else n

/-- A fragment for a channel. -/
def receiveData (n : NCP) (channel : ℕ) (allData : UInt8) (data : List UInt8) : NCP :=
  match n.channelPtr channel with
  | .object ch =>
    let message := n.messageList channel ++ data
    if allData = LAST_MESS then
      { n with messageList := Function.update n.messageList channel [] }.call
        (.ncpDataCallback channel ch message)
    else { n with messageList := Function.update n.messageList channel message }
  | _ => n

/-- A packet from the link. The time is what the clock shows. -/
def receive (n : NCP) (s : List UInt8) (time : ℕ) : NCP :=
  if s.length > 1 then
    let channel := (s.getD 0 0).toNat
    let s := s.drop 1
    if channel = 0 then n.decodeControlMessage s time
    else
      let allData := s.getD 1 0
      let s := s.drop 2
      let channel := if n.protocolVersion = PV_SERIES_3 then n.lastSentChannel else channel
      n.receiveData channel allData s
  else n

/-- Forget all channels. The objects are told to terminate. -/
def reset (n : NCP) : NCP :=
  { n with
    channels := n.channels.mapIdx fun ch c =>
      if (List.range n.maxChannels).any fun i => n.channelPtr i = .object ch then
        { c with terminate := true } else c
    channelPtr := fun i => if i < n.maxChannels then .null else n.channelPtr i
    failed := false
    lChan := none
    protocolVersion := PV_SERIES_5 }

/-- Whether the connection has failed, given whether the link has. A failure removes the link
channel. -/
def hasFailed (n : NCP) (lfailed : Bool) : Bool × NCP :=
  let n := { n with failed := n.failed || lfailed }
  if n.failed then
    match n.lChan with
    | some lChan => (n.failed, { n.release (n.channel lChan).ncpChannel with lChan := none })
    | none => (n.failed, n)
  else (n.failed, n)

/-- Announce a PC server. -/
def registerPcServer (n : NCP) (name : List UInt8) : NCP := { n with pcServers := n.pcServers ++ [name] }

/-- Withdraw a PC server. -/
def unregisterPcServer (n : NCP) (server : ℕ) : NCP :=
  { n with pcServers := n.pcServers.eraseIdx server }

/-- What can happen to a multiplexer. -/
inductive Event where
  | receive (s : List UInt8) (time : ℕ)
  | send (channel : ℕ) (a : List UInt8)
  | newChannel (registerName : List UInt8)
  | connect (ch : ℕ)
  | register (ch : ℕ)
  | registerAck (chan : ℕ) (name : List UInt8)
  | disconnect (channel : ℕ)
  | reset
  | hasFailed (lfailed : Bool)
  | registerPcServer (name : List UInt8)
  | unregisterPcServer (server : ℕ)

/-- One event. -/
def step (n : NCP) : Event → NCP
  | .receive s time => n.receive s time
  | .send channel a => n.send channel a
  | .newChannel registerName => (n.newChannel registerName 0 0).2
  | .connect ch => (n.connect ch).2
  | .register ch => n.register ch
  | .registerAck chan name => n.registerAck chan name
  | .disconnect channel => n.disconnect channel
  | .reset => n.reset
  | .hasFailed lfailed => (n.hasFailed lfailed).2
  | .registerPcServer name => n.registerPcServer name
  | .unregisterPcServer server => n.unregisterPcServer server

end NCP

end Plptools
