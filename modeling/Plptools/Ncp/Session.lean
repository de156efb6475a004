import Plptools.Ncp.Model

/-!
# The session

`NCPSession` drives the multiplexer and the channels of its clients. Its threads take turns here: one
hands on what the link received, one watches for failures and resets, one accepts clients, and one
polls all socket channels in rounds and then deletes those that are to terminate. What another thread
does may come between two polls of a round. The callbacks of the channel objects act on the multiplexer
in turn. Sockets are given by what is read from them, what is written to them is left out.
-/

namespace Plptools

/-- The prefix of the commands that clients send. -/
def ncpPrefix : List UInt8 := [0x4e, 0x43, 0x50, 0x24]

/-- The command that registers a PC server. -/
def regsCommand : List UInt8 := [0x52, 0x45, 0x47, 0x53]

/-- The service that is connected without a registration. -/
def rfsvName : List UInt8 := [0x53, 0x59, 0x53, 0x24, 0x52, 0x46, 0x53, 0x56]

/-- The seconds after which an attempt to connect is given up. -/
def connectTimeout : ℕ := 15

/-- The members of a socket channel besides those of its base class. -/
structure SocketChannel where
  registerName : Option (List UInt8)
  isConnected : Bool
  connectTry : ℕ
  connectTryTimestamp : ℕ
deriving DecidableEq, Repr

/-- What is read from a socket. -/
inductive SocketRead where
  | closed
  | nothing
  | data (a : List UInt8)
deriving DecidableEq, Repr

/-- The session: the multiplexer, the socket channels among the channel objects, the registrations
that the link channel waits for, the socket channels in the care of the session, those of them that
are left to poll in this round, and the objects that have been deleted. -/
structure NCPSession where
  ncp : NCP
  socket : ℕ → Option SocketChannel
  registerStack : List (ℕ × ℕ)
  socketChannels : List ℕ
  polling : Option (List ℕ)
  deleted : List ℕ

namespace NCPSession

def init (remoteChanList : ℕ → ℕ) (lastSentChannel : ℕ) : NCPSession where
  ncp := NCP.init remoteChanList lastSentChannel
  socket := fun _ => none
  registerStack := []
  socketChannels := []
  polling := none
  deleted := []

/-- Change the members of a socket channel. -/
def setSocket (s : NCPSession) (ch : ℕ) (c : SocketChannel) : NCPSession :=
  { s with socket := Function.update s.socket ch (some c) }

def ncpConnect (s : NCPSession) (ch : ℕ) : NCPSession := { s with ncp := (s.ncp.connect ch).2 }

/-- Register a channel. The link channel notes the serial number of the request. -/
def ncpRegister (s : NCPSession) (ch : ℕ) : NCPSession :=
  let n := s.ncp.register ch
  let number := (n.channel ch).ncpChannel
  { s with
    ncp := n
    registerStack := match s.ncp.lChan with
      | some lChan =>
        if number > 0 then
          s.registerStack ++ [((s.ncp.channel lChan).registerSer % 65536, number % 65536)]
        else s.registerStack
      | none => s.registerStack }

def ncpDisconnect (s : NCPSession) (ch : ℕ) : NCPSession :=
  { s with ncp := s.ncp.disconnect (s.ncp.channel ch).ncpChannel }

def ncpSend (s : NCPSession) (ch : ℕ) (a : List UInt8) : NCPSession :=
  { s with ncp := s.ncp.send (s.ncp.channel ch).ncpChannel a }

def terminateWhenAsked (s : NCPSession) (ch : ℕ) : NCPSession :=
  { s with ncp := s.ncp.setChannel ch { s.ncp.channel ch with terminate := true } }

/-- A registration is acknowledged; a link channel ignores that. -/
def ncpRegisterAck (s : NCPSession) (ch : ℕ) : NCPSession :=
  match s.socket ch with
  | some c => (s.setSocket ch { c with connectTry := c.connectTry + 1 }).ncpConnect ch
  | none => s

/-- The link channel hands an acknowledgement to the multiplexer, which calls the channel. -/
def ncpDoRegisterAck (s : NCPSession) (chan : ℕ) (name : List UInt8) : NCPSession :=
  let n := s.ncp.registerAck chan name
  (n.calls.drop s.ncp.calls.length).foldl (fun s call =>
    match call with
    | .ncpRegisterAck ch => s.ncpRegisterAck ch
    | _ => s) { s with ncp := n }

/-- A message for the link channel. All registrations with the serial number of the message are
acknowledged. The name is copied up to its 17th byte, and ends there; `strncpy` leaves one of 17 bytes
or more without an end, and of a message of less than 8 bytes reads what the buffer held before. What
is read of the memory then is left out. -/
def linkDataCallback (s : NCPSession) (a : List UInt8) : NCPSession :=
  if a.length ≥ 5 ∧ a.getD 0 0 = 1 then
    let ser := (a.getD 1 0).toNat + 256 * (a.getD 2 0).toNat
    let srvName := (cString (a.drop 7)).take 17
    let srvName := if srvName.length < 4 then srvName ++ anySuffix else srvName
    let (found, newStack) := s.registerStack.partition fun se => se.1 = ser
    found.foldl (fun s se => s.ncpDoRegisterAck se.2 srvName) { s with registerStack := newStack }
  else s

/-- A connect is acknowledged; a link channel only logs that. -/
def ncpConnectAck (s : NCPSession) (ch : ℕ) : NCPSession :=
  match s.socket ch with
  | some c => s.setSocket ch { c with isConnected := true, connectTry := 3 }
  | none => s

/-- A connect is refused. A socket channel tries once more, behind a registration, and then gives up;
a link channel asks to be terminated. -/
def ncpConnectNak (s : NCPSession) (ch now : ℕ) : NCPSession :=
  match s.socket ch with
  | some c =>
    if c.registerName = none ∨ c.connectTry > 1 then s.ncpDisconnect ch
    else
      (s.setSocket ch { c with connectTry := c.connectTry + 1, connectTryTimestamp := now }).ncpRegister ch
  | none => s.terminateWhenAsked ch

/-- A callback of the multiplexer reaches its object. -/
def deliver (s : NCPSession) (now : ℕ) : Callback → NCPSession
  | .ncpDataCallback _ ch a =>
    match s.socket ch with
    | some _ => s
    | none => s.linkDataCallback a
  | .ncpConnectAck ch => s.ncpConnectAck ch
  | .ncpConnectNak ch => s.ncpConnectNak ch now
  | .ncpRegisterAck ch => s.ncpRegisterAck ch

/-- A packet from the link, and the callbacks that it leads to. -/
def receive (s : NCPSession) (packet : List UInt8) (now : ℕ) : NCPSession :=
  let n := s.ncp.receive packet now
  (n.calls.drop s.ncp.calls.length).foldl (fun s call => s.deliver now call) { s with ncp := n }

/-- Look for a failure, which deletes the link channel. -/
def hasFailed (s : NCPSession) (lfailed : Bool) : NCPSession :=
  let (failed, n) := s.ncp.hasFailed lfailed
  if failed then
    { s with ncp := n, registerStack := [], deleted := s.deleted ++ s.ncp.lChan.toList }
  else { s with ncp := n }

/-- Start anew, which deletes the link channel. -/
def reset (s : NCPSession) : NCPSession :=
  { s with ncp := s.ncp.reset, registerStack := [], deleted := s.deleted ++ s.ncp.lChan.toList }

/-- A client connects to the session. It is turned away when there are too many, or no device. -/
def accept (s : NCPSession) : NCPSession :=
  if s.socketChannels.length < s.ncp.maxChannels ∧ s.ncp.lChan.isSome then
    let (ch, n) := s.ncp.newChannel [] 0 0
    { s with ncp := n, socketChannels := s.socketChannels ++ [ch] }.setSocket ch ⟨none, false, 0, 0⟩
  else s

/-- Data of a client that is a command. -/
def isCommand (a : List UInt8) : Bool := decide (a.length > 8) && a.take 4 == ncpPrefix

/-- A command of a client. All but one are only answered. -/
def ncpCommand (s : NCPSession) (a : List UInt8) : NCPSession :=
  if (a.drop 4).take 4 = regsCommand then
    let name := cString (a.drop 8)
    if s.ncp.pcServers.contains name then s else { s with ncp := s.ncp.registerPcServer name }
  else s

/-- The client has said which service it wants. -/
def announce (s : NCPSession) (ch : ℕ) (c : SocketChannel) (name : List UInt8) (now : ℕ) : NCPSession :=
  let s := s.setSocket ch { c with
    registerName := some name, connectTry := c.connectTry + 1, connectTryTimestamp := now }
  let s := { s with ncp := s.ncp.setChannel ch { s.ncp.channel ch with registerName := name } }
  if name.take 8 = rfsvName then s.ncpConnect ch else s.ncpRegister ch

/-- Drive a socket channel. -/
def socketPoll (s : NCPSession) (ch : ℕ) (read : SocketRead) (now : ℕ) : NCPSession :=
  match s.socket ch with
  | none => s
  | some c =>
    if c.registerName = none then
      match read with
      | .data a =>
        if 0 ∉ a then s
        else if isCommand a then s.ncpCommand a
        else s.announce ch c (cString a) now
      | .closed => s.terminateWhenAsked ch
      | .nothing => s
    else if c.isConnected then
      match read with
      | .closed => (s.ncpDisconnect ch).setSocket ch { c with registerName := none }
      | .data a => if isCommand a then s.ncpCommand a else s.ncpSend ch a
      | .nothing => s
    else if now > c.connectTryTimestamp + connectTimeout then s.terminateWhenAsked ch
    else s

/-- The socket channel is to be deleted. -/
def shouldTerminate (s : NCPSession) (ch : ℕ) : Bool := (s.ncp.channel ch).terminate

/-- Delete the socket channels that are to terminate. -/
def cleanUp (s : NCPSession) : NCPSession :=
  { s with
    socketChannels := s.socketChannels.filter fun ch => !s.shouldTerminate ch
    polling := none
    deleted := s.deleted ++ s.socketChannels.filter fun ch => s.shouldTerminate ch }

/-- The steps of the threads. A round begins with a copy of the list of socket channels, polls each
of them once and ends with the deletions. -/
inductive Event where
  | receive (packet : List UInt8) (now : ℕ)
  | hasFailed (lfailed : Bool)
  | reset
  | accept
  | beginRound
  | socketPoll (read : SocketRead) (now : ℕ)
  | endRound

/-- One step. -/
def step (s : NCPSession) : Event → NCPSession
  | .receive packet now => s.receive packet now
  | .hasFailed lfailed => s.hasFailed lfailed
  | .reset => s.reset
  | .accept => s.accept
  | .beginRound =>
    match s.polling with
    | none => { s with polling := some s.socketChannels }
    | some _ => s
  | .socketPoll read now =>
    match s.polling with
    | some (ch :: rest) => { s with polling := some rest }.socketPoll ch read now
    | _ => s
  | .endRound =>
    match s.polling with
    | some [] => s.cleanUp
    | _ => s

end NCPSession

end Plptools
