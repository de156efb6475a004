import Plptools.Buffer.Store
import Mathlib.Logic.Function.Basic

/-!
# The reliable link

`Link` numbers the packets of the NCP, keeps them until the peer acknowledges them, and hands the
packets of the peer to the NCP in order. Packets for a channel that the peer has stopped wait in
`holdQueue`, packets that find the window full wait in `waitQueue`.

What a link reads from outside (the clock, the state of the serial line and its speed) is given by
an environment, indexed by the number of earlier readings. A frame given to the data link is
appended to `sent`, a packet given to the NCP to `received`; the flag that tells the data link how
to escape a frame is left out. The NCP's reaction to a packet is a later call. The remaining fields
of the state are history: the source does not have them, and no function branches on them.

A call of the link is one step. In the source other threads may come in between, within `receive` as
well, since `transmitWaitQueue` gives the lock back before it transmits; such interleavings are left out.
-/

namespace Plptools

/-- `struct timeval` as the two comparisons read it. -/
structure Timeval where
  tvSec : UInt64
  tvUsec : UInt64
deriving DecidableEq, Repr

/-- Move a time back; the two parts are packed in one word, so a borrow leaves them irregular. -/
def timesub (tv : Timeval) (millisecs : UInt64) : Timeval :=
  let micros := (tv.tvSec <<< 32) + tv.tvUsec - millisecs * 1000
  ⟨(micros >>> 32) &&& 0xffffffff, micros &&& 0xffffffff⟩

/-- Compare two times, packed in the same way. -/
def olderthan (t1 t2 : Timeval) : Bool :=
  decide ((t1.tvSec <<< 32) + t1.tvUsec < (t2.tvSec <<< 32) + t2.tvUsec)

/-- The three states of the protocol negotiation. -/
inductive LinkType where
  | LINK_TYPE_UNKNOWN
  | LINK_TYPE_SIBO
  | LINK_TYPE_EPOC
deriving DecidableEq, Repr

/-- A transmitted packet that is not acknowledged yet. `index` is history: the number of packets
that were numbered before it. -/
structure AckWaitQueueElement where
  seq : ℕ
  txcount : ℕ
  stamp : Timeval
  data : List UInt8
  index : ℕ
deriving DecidableEq, Repr

/-- A frame given to the data link. `index` is history: the index of a data packet, and for an
acknowledgement the number of packets accepted before it. -/
structure Packet where
  bytes : List UInt8
  index : ℕ
deriving DecidableEq, Repr

/-- What a link reads from outside. The speed is what `getSpeed` returns as an unsigned word. -/
structure Env where
  gettimeofday : ℕ → Timeval
  linkFailed : ℕ → Bool
  getSpeed : ℕ → UInt64

/-- An environment in which the clock stands still and the line never fails. -/
def stillEnv : Env := ⟨fun _ => ⟨0, 0⟩, fun _ => false, fun _ => 115200⟩

/-- An environment in which a second passes between the first two looks at the clock, and half a
second before the next. -/
def tickingEnv : Env := { stillEnv with
  gettimeofday := fun reads => if reads = 0 then ⟨0, 0⟩ else if reads = 1 then ⟨1, 0⟩ else ⟨1, 500000⟩ }

/-- The state of a link. `reads` and `polls` count its readings of the environment; `submitted` and
`received` are what was passed to `send` and to the NCP, and `numbered`, `accepted` and `acked` the
packets given a sequence number, those taken from the peer and the elements that an acknowledgement
has removed, since the last reset. -/
structure Link where
  failed : Bool
  linkType : LinkType
  txSequence : ℕ
  rxSequence : ℤ
  seqMask : ℕ
  maxOutstanding : ℕ
  conMagic : ℤ
  ackWaitQueue : List AckWaitQueueElement
  holdQueue : List (List UInt8)
  waitQueue : List (List UInt8)
  xoff : UInt8 → Bool
  reads : ℕ
  polls : ℕ
  sent : List Packet
  received : List (List UInt8)
  submitted : List (List UInt8)
  numbered : List (List UInt8)
  accepted : List (List UInt8)
  acked : List AckWaitQueueElement

/-- A sequence number under a packet type: one byte up to 7, else a word, low byte first. -/
def seqBytes (type : ℕ) (seq : ℤ) : List UInt8 :=
  if seq > 7 then
    let hseq := seq.toNat >>> 3
    let lseq := type + ((seq.toNat &&& 7) ||| 8)
    BufferStore.wordBytes ((hseq <<< 8) + lseq : ℕ)
  else [lowByte (type + seq)]

/-- The remote channel of a packet. -/
def remoteChan (buf : List UInt8) : UInt8 := buf.getD 0 0

/-- The packet type, the sequence number and the content of a received frame. What is read behind the
end of a short one is zero here: it acts like the frame that the memory behind it completes it to. -/
def header (buff : List UInt8) : ℕ × ℕ × List UInt8 :=
  let type := (buff.getD 0 0).toNat
  let seq := type &&& 0x0f
  if seq &&& 8 ≠ 0 then
    (type &&& 0xf0, ((buff.getD 1 0).toNat <<< 3) + (seq &&& 0x07), buff.drop 2)
  else (type &&& 0xf0, seq, buff.drop 1)

namespace Link

/-- Poll the data link; the call returns the new value of `failed`. -/
def hasFailed (env : Env) (l : Link) : Link :=
  { l with failed := l.failed || env.linkFailed l.polls, polls := l.polls + 1 }

/-- The time after which a packet is sent again, in milliseconds. -/
def retransTimeout (env : Env) (l : Link) : UInt64 := env.getSpeed l.reads * 1000 / 13200 + 200

/-- Forget what waits for an acknowledgement and what is held. -/
def purgeAllQueues (l : Link) : Link := { l with ackWaitQueue := [], holdQueue := [] }

/-- Forget what starts with the given byte. -/
def purgeQueue (channel : ℕ) (l : Link) : Link :=
  { l with
    ackWaitQueue := l.ackWaitQueue.filter fun e => (e.data.getD 0 0).toNat ≠ channel
    holdQueue := l.holdQueue.filter fun buf => (buf.getD 0 0).toNat ≠ channel }

/-- Acknowledge a sequence number. -/
def sendAck (env : Env) (seq : ℤ) (l : Link) : Link :=
  let l := l.hasFailed env
  if l.failed then l
  else { l with sent := l.sent ++ [⟨seqBytes 0 seq, l.accepted.length⟩] }

/-- Queue and send a packet of the link negotiation, which is acknowledged as number 0. -/
def sendControl (env : Env) (data : List UInt8) (l : Link) : Link :=
  let l := l.hasFailed env
  if l.failed then l
  else
    { l with
      ackWaitQueue := l.ackWaitQueue ++ [⟨0, 4, env.gettimeofday l.reads, data, 0⟩]
      reads := l.reads + 1
      sent := l.sent ++ [⟨data, 0⟩] }

/-- Confirm a link request. -/
def sendReqCon (env : Env) (l : Link) : Link := l.sendControl env (0x24 :: BufferStore.dwordBytes l.conMagic)

/-- Request a link. -/
def sendReqReq (env : Env) (l : Link) : Link := l.sendControl env [0x21]

/-- Give a packet the next sequence number and send it. An empty one is a link request. -/
def number (env : Env) (buf : List UInt8) (l : Link) : Link :=
  let stamp := env.gettimeofday l.reads
  let e : AckWaitQueueElement :=
    if buf = [] then ⟨l.txSequence, 4, stamp, [lowByte (0x20 + l.txSequence)], l.numbered.length⟩
    else ⟨l.txSequence, 8, stamp, seqBytes 0x30 l.txSequence ++ buf, l.numbered.length⟩
  { l with
    txSequence := (l.txSequence + 1) &&& l.seqMask
    reads := l.reads + 1
    ackWaitQueue := l.ackWaitQueue ++ [e]
    numbered := l.numbered ++ [buf]
    sent := l.sent ++ [⟨e.data, e.index⟩] }

/-- Hold a packet, make it wait, or send it. -/
def transmit (env : Env) (buf : List UInt8) (l : Link) : Link :=
  let l := l.hasFailed env
  if l.failed then l
  else if l.xoff (remoteChan buf) then { l with holdQueue := l.holdQueue ++ [buf] }
  else if l.ackWaitQueue.length ≥ l.maxOutstanding then
    { l with waitQueue := l.waitQueue ++ [buf] }
  else l.number env buf

/-- Transmit some packets in turn. -/
def transmitAll (env : Env) : List (List UInt8) → Link → Link
  | [], l => l
  | buf :: rest, l => transmitAll env rest (l.transmit env buf)

/-- Transmit what is held for a channel. -/
def transmitHoldQueue (env : Env) (channel : UInt8) (l : Link) : Link :=
  let tmpQueue := l.holdQueue.filter fun buf => remoteChan buf = channel
  let kept := l.holdQueue.filter fun buf => remoteChan buf ≠ channel
  transmitAll env tmpQueue { l with holdQueue := kept }

/-- Transmit what waits; what finds the window full again waits again. -/
def transmitWaitQueue (env : Env) (l : Link) : Link :=
  transmitAll env l.waitQueue { l with waitQueue := [] }

/-- Send a packet of the NCP. -/
def send (env : Env) (buff : List UInt8) (l : Link) : Link :=
  let l := { l with submitted := l.submitted ++ [buff] }
  if buff.length > 300 then { l with failed := true } else l.transmit env buff

/-- Remove what was sent before the acknowledged packet. -/
def multiAck (refstamp : Timeval) (l : Link) : Link :=
  { l with
    ackWaitQueue := l.ackWaitQueue.filter fun e => !olderthan e.stamp refstamp
    acked := l.acked ++ l.ackWaitQueue.filter fun e => olderthan e.stamp refstamp }

/-- Normal data: accepted when it is the next packet, and acknowledged in any case. The frames that
stop and resume a channel are for the link itself. -/
def receiveData (env : Env) (seq : ℕ) (buff : List UInt8) (l : Link) : Link :=
  let next := (l.rxSequence + 1).toNat &&& l.seqMask
  if next = seq then
    let l := { l with rxSequence := next, accepted := l.accepted ++ [buff] }
    let l := l.sendAck env l.rxSequence
    if buff.length = 3 ∧ buff.getD 0 0 = 0 then
      if buff.getD 2 0 = 1 then { l with xoff := Function.update l.xoff (buff.getD 1 0) true }
      else if buff.getD 2 0 = 2 then
        transmitHoldQueue env (buff.getD 1 0)
          { l with xoff := Function.update l.xoff (buff.getD 1 0) false }
      else { l with received := l.received ++ [buff] }
    else { l with received := l.received ++ [buff] }
  else l.sendAck env l.rxSequence

/-- The peer understood the request for a link as a request of its own protocol. -/
def becomeSibo (l : Link) : Link :=
  { l with
    failed := false
    linkType := .LINK_TYPE_SIBO
    seqMask := 7
    maxOutstanding := 1
    rxSequence := 0
    txSequence := 1 }.purgeAllQueues

/-- The first element with a given number is sent again, or given up when it has been sent often
enough. The loop returns the elements kept and the frames to send. -/
def resendLoop (now : Timeval) (seq : ℕ) :
    List AckWaitQueueElement → List AckWaitQueueElement × List Packet
  | [] => ([], [])
  | e :: rest =>
    if e.seq = seq then
      if e.txcount = 0 then (rest, [])
      else ({ e with txcount := e.txcount - 1, stamp := now } :: rest, [⟨e.data, e.index⟩])
    else (e :: (resendLoop now seq rest).1, (resendLoop now seq rest).2)

/-- An acknowledgement removes the packet with its number. Without one it hints at the last packet
that was received, so the next is sent again at once. -/
def receiveAck (env : Env) (seq : ℕ) (l : Link) : Link :=
  match l.ackWaitQueue.find? fun e => e.seq = seq with
  | some e =>
    let l := { l with
      ackWaitQueue := l.ackWaitQueue.eraseP fun e => e.seq = seq
      acked := l.acked ++ [e] }
    let l := if l.linkType = .LINK_TYPE_UNKNOWN ∧ seq = 0 then l.becomeSibo else l
    (l.multiAck e.stamp).transmitWaitQueue env
  | none =>
    let (kept, pendingData) := resendLoop (env.gettimeofday l.reads) (seq + 1) l.ackWaitQueue
    { l with reads := l.reads + 1, ackWaitQueue := kept, sent := l.sent ++ pendingData }

/-- An own request for a link that is not answered yet. -/
def isReqReq (e : AckWaitQueueElement) : Bool := e.seq = 0 && e.data.getD 0 0 = 0x21

/-- A link request, or the confirmation of an own request. -/
def receiveReq (env : Env) (seq : ℕ) (l : Link) : Link :=
  if seq > 3 ∧ l.ackWaitQueue.any isReqReq then
    { l with
      ackWaitQueue := l.ackWaitQueue.eraseP isReqReq
      linkType := .LINK_TYPE_EPOC
      failed := false
      seqMask := 0x7ff
      maxOutstanding := 8
      rxSequence := 0
      txSequence := 1 }.sendAck env 0
  else
    let l := { l with rxSequence := 0, txSequence := 0 }
    if seq > 0 then
      { l with
        linkType := .LINK_TYPE_EPOC
        seqMask := 0x7ff
        maxOutstanding := 8
        failed := false }.sendReqCon env
    else l.becomeSibo.sendAck env 0

/-- A frame that the data link delivers. -/
def receive (env : Env) (buff : List UInt8) (l : Link) : Link :=
  match header buff with
  | (type, seq, buff) =>
    if type = 0x30 then l.receiveData env seq buff
    else if type = 0x00 then l.receiveAck env seq
    else if type = 0x20 then l.receiveReq env seq
    else if type = 0x10 then { l with failed := true }
    else l

/-- The round over the elements whose time has come: the elements kept, the frames to send, and
whether an element was given up. -/
def retransmitLoop (now expired : Timeval) :
    List AckWaitQueueElement → List AckWaitQueueElement × List Packet × Bool
  | [] => ([], [], false)
  | e :: rest =>
    let (kept, pendingData, failed) := retransmitLoop now expired rest
    if olderthan e.stamp expired then
      if e.txcount = 0 then (kept, pendingData, true)
      else
        ({ e with txcount := e.txcount - 1, stamp := now } :: kept,
          ⟨e.data, e.index⟩ :: pendingData, failed)
    else (e :: kept, pendingData, failed)

/-- The retransmit thread. -/
def retransmit (env : Env) (l : Link) : Link :=
  let l := l.hasFailed env
  if l.failed then l.purgeAllQueues
  else
    let now := env.gettimeofday l.reads
    let expired := timesub now (l.retransTimeout env)
    let (kept, pendingData, failed) := retransmitLoop now expired l.ackWaitQueue
    { l with
      reads := l.reads + 1
      ackWaitQueue := kept
      failed := l.failed || failed
      sent := l.sent ++ pendingData }

/-- Start over, with a new link request. The packets in `waitQueue` are still submitted. -/
def reset (env : Env) (l : Link) : Link :=
  { l.purgeAllQueues with
    txSequence := 1
    rxSequence := -1
    failed := false
    seqMask := 7
    maxOutstanding := 1
    linkType := .LINK_TYPE_UNKNOWN
    xoff := fun _ => false
    numbered := []
    accepted := []
    acked := [] }.sendReqReq env

/-- A new link, with the number that its confirmations carry. -/
def construct (env : Env) (conMagic : ℤ) : Link :=
  { failed := false
    linkType := .LINK_TYPE_UNKNOWN
    txSequence := 1
    rxSequence := -1
    seqMask := 7
    maxOutstanding := 1
    conMagic := conMagic
    ackWaitQueue := []
    holdQueue := []
    waitQueue := []
    xoff := fun _ => false
    reads := 0
    polls := 0
    sent := []
    received := []
    submitted := []
    numbered := []
    accepted := []
    acked := [] : Link }.sendReqReq env

end Link

end Plptools
