import LiwusOS.Lib.Bytes

/-! # TCP (`tcp.c` and the IPv4 branch of `netstack_handle_packet`)

The sockets lie in memory by address; `sockets` is the list that `tcp.c` links
them into. A call and the handling of a frame are one step each: the driver's
interrupt is taken between the calls. `tcp_connect` is the step that sends the
SYN, any number of retransmissions, and the step that ends the wait.

Frames of other protocols touch no socket. -/

namespace LiwusOS.Net
open LiwusOS.Lib

inductive TcpState where
  | closed
  | listen
  | synSent
  | synReceived
  | established
  | finWait1
  | finWait2
  | closeWait
  | closing
  | lastAck
  | timeWait
deriving DecidableEq

/-- `tcp_socket_t`. -/
structure TcpSocket where
  localPort : UInt16
  remotePort : UInt16
  remoteIp : UInt32
  localIp : UInt32
  seqNum : UInt32
  ackNum : UInt32
  ackReceived : UInt32
  state : TcpState
  recvBuffer : Buf
  recvBufferSize : UInt32
  recvWritePtr : UInt32
  recvReadPtr : UInt32

/-- A socket after `memset`, with its buffer. -/
def blankSocket (buffer : Buf) : TcpSocket where
  localPort := 0
  remotePort := 0
  remoteIp := 0
  localIp := 0
  seqNum := 0
  ackNum := 0
  ackReceived := 0
  state := .closed
  recvBuffer := buffer
  recvBufferSize := 32768
  recvWritePtr := 0
  recvReadPtr := 0

def tcpFin : UInt8 := 0x01
def tcpSyn : UInt8 := 0x02
def tcpRst : UInt8 := 0x04
def tcpPsh : UInt8 := 0x08
def tcpAck : UInt8 := 0x10

/-- `flags & bit`. -/
def has (flags bit : UInt8) : Bool := flags &&& bit ≠ 0

/-! ## Headers -/

/-- A field in network byte order. -/
def netU16 (p : Buf) (off : Nat) : UInt16 := UInt16.ofNat (256 * (p off).toNat + (p (off + 1)).toNat)

def netU32 (p : Buf) (off : Nat) : UInt32 :=
  UInt32.ofNat (16777216 * (p off).toNat + 65536 * (p (off + 1)).toNat + 256 * (p (off + 2)).toNat +
    (p (off + 3)).toNat)

/-- The fields of `tcp_header_t` that the handler reads. -/
structure TcpHeader where
  srcPort : UInt16
  destPort : UInt16
  seqNum : UInt32
  ackNum : UInt32
  dataOffsetReserved : UInt8
  flags : UInt8

def tcpHeader (packet : Buf) : TcpHeader :=
  ⟨netU16 packet 0, netU16 packet 2, netU32 packet 4, netU32 packet 8, packet 12, packet 13⟩

/-- The length of the header in bytes. -/
def TcpHeader.dataOffset (hdr : TcpHeader) : UInt16 := (hdr.dataOffsetReserved >>> 4).toUInt16 * 4

/-! ## Sending -/

/-- What `send_tcp_packet` hands to `netstack_send_ipv4`. -/
structure Packet where
  srcPort : UInt16
  destPort : UInt16
  destIp : UInt32
  seq : UInt32
  ack : UInt32
  flags : UInt8
  payload : List UInt8

def sendTcpPacket (x : TcpSocket) (flags : UInt8) (payload : List UInt8) (seq : UInt32) : Packet :=
  ⟨x.localPort, x.remotePort, x.remoteIp, seq, x.ackNum, flags, payload⟩

/-! ## The state machine -/

/-- What a segment leads to: the socket, the packets sent and the number of
bytes copied to the buffer. -/
structure Reply where
  sock : TcpSocket
  sent : List Packet
  copied : Nat

/-- The segment changes nothing. -/
def ignore (x : TcpSocket) : Reply := ⟨x, [], 0⟩

/-- The acknowledgement in state ESTABLISHED. -/
def acknowledge (x : TcpSocket) (ack : UInt32) : TcpSocket :=
  { x with
    seqNum := if ack > x.seqNum then ack else x.seqNum
    ackReceived := if ack > x.ackReceived then ack else x.ackReceived }

/-- The data in state ESTABLISHED. -/
def receiveData (x : TcpSocket) (payload : Buf) (payloadLen : UInt32) : Reply :=
  if payloadLen = 0 then ignore x else
  let currentUsage := x.recvWritePtr - x.recvReadPtr
  let space := x.recvBufferSize - x.recvWritePtr
  if space ≥ payloadLen then
    let x := { x with
      recvBuffer := x.recvBuffer.copy x.recvWritePtr.toNat payload payloadLen.toNat
      recvWritePtr := x.recvWritePtr + payloadLen
      ackNum := x.ackNum + payloadLen }
    ⟨x, [sendTcpPacket x tcpAck [] x.seqNum], payloadLen.toNat⟩
  else if currentUsage = 0 then
    let x := { x with
      recvBuffer := x.recvBuffer.copy 0 payload payloadLen.toNat
      recvWritePtr := payloadLen
      recvReadPtr := 0
      ackNum := x.ackNum + payloadLen }
    ⟨x, [sendTcpPacket x tcpAck [] x.seqNum], payloadLen.toNat⟩
  else ignore x

/-- A FIN is acknowledged. -/
def receiveFin (r : Reply) (next : TcpState) : Reply :=
  let x := { r.sock with ackNum := r.sock.ackNum + 1 }
  ⟨{ x with state := next }, r.sent ++ [sendTcpPacket x tcpAck [] x.seqNum], r.copied⟩

/-- The state machine of `tcp_handle_packet`. -/
def tcpInput (x : TcpSocket) (hdr : TcpHeader) (payload : Buf) (payloadLen : UInt32) : Reply :=
  let seq := hdr.seqNum
  let ack := hdr.ackNum
  let flags := hdr.flags
  match x.state with
  | .listen =>
    if has flags tcpSyn then
      let y := { x with ackNum := seq + 1, state := .synReceived, seqNum := x.seqNum + 1 }
      ⟨y, [sendTcpPacket y (tcpSyn ||| tcpAck) [] x.seqNum], 0⟩
    else ignore x
  | .synReceived =>
    if has flags tcpAck then ignore { x with state := .established, seqNum := ack } else ignore x
  | .synSent =>
    if has flags tcpSyn ∧ has flags tcpAck then
      let x := { x with ackNum := seq + 1, seqNum := ack, state := .established }
      ⟨x, [sendTcpPacket x tcpAck [] x.seqNum], 0⟩
    else if has flags tcpRst then ignore { x with state := .closed }
    else ignore x
  | .established =>
    let r := receiveData (if has flags tcpAck then acknowledge x ack else x) payload payloadLen
    if has flags tcpFin then receiveFin r .closeWait else r
  | .finWait1 =>
    if has flags tcpFin ∧ has flags tcpAck then receiveFin (ignore x) .timeWait
    else if has flags tcpFin then receiveFin (ignore x) .timeWait
    else if has flags tcpAck then ignore { x with state := .finWait2 }
    else ignore x
  | .finWait2 => if has flags tcpFin then receiveFin (ignore x) .timeWait else ignore x
  | .lastAck => if has flags tcpAck then ignore { x with state := .closed } else ignore x
  | .closed => ignore x
  | .closeWait => ignore x
  | .closing => ignore x
  | .timeWait => ignore x

/-! ## Sockets -/

structure Stack where
  sockets : List Nat
  sock : Nat → TcpSocket
  ephemeralPort : UInt16
  myIp : UInt32

/-- After `tcp_init`. -/
def tcpInit (sock : Nat → TcpSocket) (myIp : UInt32) : Stack := ⟨[], sock, 49152, myIp⟩

namespace Stack

def setSock (s : Stack) (a : Nat) (x : TcpSocket) : Stack := { s with sock := Function.update s.sock a x }

/-- A new socket becomes the head of the list. -/
def addSock (s : Stack) (a : Nat) (x : TcpSocket) : Stack := { s.setSock a x with sockets := a :: s.sockets }

/-- The search of `tcp_handle_packet`: the connection of the segment, and the
last listener passed on the way. -/
def findSocket (s : Stack) (srcIp : UInt32) (srcPort destPort : UInt16) :
    List Nat → Option Nat → Option Nat × Option Nat
  | [], listenSock => (none, listenSock)
  | a :: rest, listenSock =>
    if (s.sock a).localPort = destPort then
      if (s.sock a).state = .listen then findSocket s srcIp srcPort destPort rest (some a)
      else if (s.sock a).remoteIp = srcIp ∧ (s.sock a).remotePort = srcPort then (some a, listenSock)
      else findSocket s srcIp srcPort destPort rest listenSock
    else findSocket s srcIp srcPort destPort rest listenSock

/-- What the handling of a frame leads to. -/
structure Handled where
  stack : Stack
  sent : List Packet
  copied : Nat

def deliver (s : Stack) (a : Nat) (hdr : TcpHeader) (payload : Buf) (payloadLen : UInt32) : Handled :=
  let r := tcpInput (s.sock a) hdr payload payloadLen
  ⟨s.setSock a r.sock, r.sent, r.copied⟩

/-- The socket of a connection that is being accepted. -/
def childSocket (buffer : Buf) (srcIp destIp : UInt32) (hdr : TcpHeader) : TcpSocket :=
  { blankSocket buffer with
    localPort := hdr.destPort
    remotePort := hdr.srcPort
    remoteIp := srcIp
    localIp := destIp
    seqNum := 1000
    state := .listen }

/-- `child` is the memory for a new socket and its buffer, if `kmalloc` has any. -/
def tcpHandlePacket (s : Stack) (packet : Buf) (len : UInt16) (srcIp destIp : UInt32)
    (child : Option (Nat × Buf)) : Handled :=
  let hdr := tcpHeader packet
  let payload : Buf := fun k => packet (hdr.dataOffset.toNat + k)
  let payloadLen := len.toUInt32 - hdr.dataOffset.toUInt32
  match s.findSocket srcIp hdr.srcPort hdr.destPort s.sockets none with
  | (some a, _) => s.deliver a hdr payload payloadLen
  | (none, some _) =>
    if has hdr.flags tcpSyn then
      match child with
      | none => ⟨s, [], 0⟩
      | some (c, buffer) =>
        (s.addSock c (childSocket buffer srcIp destIp hdr)).deliver c hdr payload payloadLen
    else ⟨s, [], 0⟩
  | (none, none) => ⟨s, [], 0⟩

/-- IPv4 and protocol 6. -/
def isTcp (data : Buf) : Bool := netU16 data 12 = 0x0800 && data 23 = 6

/-- The total length in the IP header. -/
def ipLen (data : Buf) : UInt16 := netU16 data 16

/-- The segment starts behind an IP header without options. -/
def tcpSegment (data : Buf) : Buf := fun k => data (34 + k)

/-- `len` is the length of the frame; the TCP branch does not look at it. -/
def netstackHandlePacket (s : Stack) (data : Buf) (_len : UInt16) (child : Option (Nat × Buf)) : Handled :=
  if isTcp data then
    s.tcpHandlePacket (tcpSegment data) (ipLen data - 20) (data.u32 26) (data.u32 30) child
  else ⟨s, [], 0⟩

/-! ## Calls -/

/-- The socket of `tcp_connect` up to its wait, and the SYN. -/
def tcpConnect (s : Stack) (addr : Nat) (buffer : Buf) (destIp : UInt32) (destPort : UInt16) (timerTicks : UInt32) :
    Stack × Packet :=
  let port := s.ephemeralPort
  let s := { s with ephemeralPort := s.ephemeralPort + 1 }
  let synSeq := timerTicks * 1000 + (s.ephemeralPort &&& 0xFFF).toUInt32
  let sock := { blankSocket buffer with
    localPort := port
    remotePort := destPort
    remoteIp := destIp
    localIp := s.myIp
    seqNum := synSeq + 1 }
  (s.addSock addr { sock with state := .synSent }, sendTcpPacket sock tcpSyn [] synSeq)

/-- The SYN is sent again during the wait. -/
def connectRetry (s : Stack) (a : Nat) : Option Packet :=
  if (s.sock a).state = .synSent then some (sendTcpPacket (s.sock a) tcpSyn [] ((s.sock a).seqNum - 1)) else none

/-- After the wait: without a connection the socket is taken from the list and
freed. -/
def connectEnd (s : Stack) (a : Nat) : Option Nat × Stack :=
  if (s.sock a).state ≠ .established then (none, { s with sockets := s.sockets.erase a }) else (some a, s)

def tcpListen (s : Stack) (addr : Nat) (buffer : Buf) (port : UInt16) : Stack :=
  s.addSock addr { blankSocket buffer with localPort := port, state := .listen }

def tcpSend (s : Stack) (a : Nat) (data : List UInt8) : UInt32 × Stack × List Packet :=
  let x := s.sock a
  if x.state ≠ .established then (0, s, [])
  else
    let seq := x.seqNum
    let x := { x with seqNum := x.seqNum + UInt32.ofNat data.length }
    (seq, s.setSock a x, [sendTcpPacket x (tcpPsh ||| tcpAck) data seq])

def tcpClose (s : Stack) (a : Nat) : Stack × Packet :=
  let finSeq := (s.sock a).seqNum
  let x := { s.sock a with seqNum := (s.sock a).seqNum + 1 }
  (s.setSock a { x with state := .finWait1 }, sendTcpPacket x (tcpFin ||| tcpAck) [] finSeq)

/-- The bytes copied to the caller; none for the result -1. -/
def tcpReceive (s : Stack) (a : Nat) (len : UInt32) : Option (List UInt8) × Stack :=
  let x := s.sock a
  if x.state = .closed ∧ x.recvReadPtr = x.recvWritePtr then (none, s)
  else if x.recvReadPtr = x.recvWritePtr then (some [], s)
  else
    let available := x.recvWritePtr - x.recvReadPtr
    let toRead := if len < available then len else available
    let bytes := x.recvBuffer.bytes x.recvReadPtr.toNat toRead.toNat
    let x := { x with recvReadPtr := x.recvReadPtr + toRead }
    let x := if x.recvReadPtr = x.recvWritePtr then { x with recvReadPtr := 0, recvWritePtr := 0 } else x
    (some bytes, s.setSock a x)

end Stack

/-! ## Runs -/

inductive NetOp where
  | netstackHandlePacket (data : Buf) (len : UInt16) (child : Option (Nat × Buf))
  | tcpConnect (addr : Nat) (buffer : Buf) (destIp : UInt32) (destPort : UInt16) (timerTicks : UInt32)
  | connectRetry (a : Nat)
  | connectEnd (a : Nat)
  | tcpListen (addr : Nat) (buffer : Buf) (port : UInt16)
  | tcpSend (a : Nat) (data : List UInt8)
  | tcpClose (a : Nat)
  | tcpReceive (a : Nat) (len : UInt32)

namespace Stack

def exec (s : Stack) : NetOp → Stack
  | .netstackHandlePacket data len child => (s.netstackHandlePacket data len child).stack
  | .tcpConnect addr buffer destIp destPort timerTicks =>
    (s.tcpConnect addr buffer destIp destPort timerTicks).1
  | .connectRetry _ => s
  | .connectEnd a => (s.connectEnd a).2
  | .tcpListen addr buffer port => s.tcpListen addr buffer port
  | .tcpSend a data => (s.tcpSend a data).2.1
  | .tcpClose a => (s.tcpClose a).1
  | .tcpReceive a len => (s.tcpReceive a len).2

/-- New sockets are in memory that no socket has, and calls are made with
sockets of the list. -/
def Admits (s : Stack) : NetOp → Prop
  | .netstackHandlePacket _ _ child => ∀ c ∈ child, c.1 ∉ s.sockets
  | .tcpConnect addr .. => addr ∉ s.sockets
  | .connectRetry a => a ∈ s.sockets
  | .connectEnd a => a ∈ s.sockets
  | .tcpListen addr .. => addr ∉ s.sockets
  | .tcpSend a _ => a ∈ s.sockets
  | .tcpClose a => a ∈ s.sockets
  | .tcpReceive a _ => a ∈ s.sockets

end Stack
end LiwusOS.Net
