import LiwusOS.Net.TcpBounds

/-! # The byte stream of a connection

Data is put into the buffer in the order in which it comes in: the handler does
not compare the sequence number of a segment with the one it expects. -/

namespace LiwusOS.Net
open LiwusOS.Lib Relation List

/-- The bytes in the receive buffer. -/
def TcpSocket.buffered (x : TcpSocket) : List UInt8 :=
  x.recvBuffer.bytes x.recvReadPtr.toNat (x.recvWritePtr - x.recvReadPtr).toNat

/-- A frame carries the bytes of the stream from position `k` on, the first of
which has sequence number `base`. -/
structure Carries (stream : List UInt8) (base : UInt32) (data : Buf) (len : UInt16) (k : Nat) : Prop where
  seq : (frameHeader data).seqNum = base + UInt32.ofNat k
  headers : 20 + (frameHeader data).dataOffset.toNat ≤ (Stack.ipLen data).toNat
  frame : 14 + (Stack.ipLen data).toNat ≤ len.toNat
  payload : (framePayload data).bytes 0 (framePayloadLen data).toNat =
    (stream.drop k).take (framePayloadLen data).toNat

/-- The stack, with the bytes that `tcp_receive` has returned for one socket. -/
structure Session where
  stack : Stack
  received : List UInt8

namespace Session

def exec (a : Nat) (r : Session) (op : NetOp) : Session where
  stack := r.stack.exec op
  received := match op with
    | .tcpReceive b len => if b = a then r.received ++ ((r.stack.tcpReceive b len).1.getD []) else r.received
    | _ => r.received

/-- The bytes taken from the network so far. -/
def taken (a : Nat) (r : Session) : List UInt8 := r.received ++ (r.stack.sock a).buffered

/-- The network delivers segments of the peer to the connection, and the wait of
its `tcp_connect` is over. -/
def FromPeer (stream : List UInt8) (base : UInt32) (a : Nat) (r : Session) : NetOp → Prop
  | .netstackHandlePacket data len child => r.stack.target (.netstackHandlePacket data len child) = some a →
      ∃ k, Carries stream base data len k
  | .connectEnd b => b ≠ a
  | _ => True

/-- Data comes in order and fits into the buffer. -/
def InOrder (stream : List UInt8) (base : UInt32) (a : Nat) (r : Session) : NetOp → Prop
  | .netstackHandlePacket data len child => r.stack.target (.netstackHandlePacket data len child) = some a →
      framePayloadLen data ≠ 0 →
      Carries stream base data len (r.taken a).length ∧ (framePayloadLen data).toNat ≤ 32768
  | _ => True

def PeerStep (stream : List UInt8) (base : UInt32) (a : Nat) (r r' : Session) : Prop :=
  ∃ op, r.stack.Admits op ∧ FromPeer stream base a r op ∧ r' = exec a r op

def OrderedStep (stream : List UInt8) (base : UInt32) (a : Nat) (r r' : Session) : Prop :=
  ∃ op, r.stack.Admits op ∧ FromPeer stream base a r op ∧ InOrder stream base a r op ∧ r' = exec a r op

end Session

/-- A connection from which nothing has been received yet. -/
structure Stack.Connected (s : Stack) (a : Nat) : Prop where
  mem : a ∈ s.sockets
  state : (s.sock a).state = .established
  empty : (s.sock a).recvReadPtr = (s.sock a).recvWritePtr
  inside : (s.sock a).recvWritePtr ≤ (s.sock a).recvBufferSize
  size : (s.sock a).recvBufferSize = 32768

namespace TcpSocket
variable {x y : TcpSocket}

theorem SameRecv.buffered (h : SameRecv x y) : y.buffered = x.buffered := by
  rw [TcpSocket.buffered, h.buffer, h.read, h.write]
  rfl

theorem buffered_nil (h : x.recvWritePtr - x.recvReadPtr = 0) : x.buffered = [] := by
  rw [buffered, h]
  rfl

theorem buffered_eq (h : x.recvReadPtr ≤ x.recvWritePtr) : x.buffered =
    x.recvBuffer.bytes x.recvReadPtr.toNat (x.recvWritePtr.toNat - x.recvReadPtr.toNat) := by
  rw [buffered, UInt32.toNat_sub_of_le _ _ h]

/-- Data is put behind what is there. -/
theorem Stores.buffered {payload : Buf} {n : UInt32} (h : x.Stores payload n y) (hx : x.InBounds) :
    y.buffered = x.buffered ++ payload.bytes 0 (x.stored n).toNat := by
  rcases h with ⟨hzero, hsame⟩ | ⟨hall, w, r, hsame, hplace⟩
  · rw [hzero, hsame.buffered]
    exact (append_nil _).symm
  rw [hall, hsame.buffered]
  rcases hplace with ⟨rfl, rfl, hspace⟩ | ⟨rfl, rfl, husage⟩
  · have hread := UInt32.le_iff_toNat_le.mp hx.1
    obtain ⟨hsum, -⟩ := add_le_of_le_sub hx.2 hspace
    have hle : x.recvReadPtr ≤ x.recvWritePtr + n := by
      rw [UInt32.le_iff_toNat_le, hsum]
      omega
    have hlen : x.recvWritePtr.toNat + n.toNat - x.recvReadPtr.toNat =
        x.recvWritePtr.toNat - x.recvReadPtr.toNat + n.toNat := by omega
    have hpos : x.recvReadPtr.toNat + (x.recvWritePtr.toNat - x.recvReadPtr.toNat) = x.recvWritePtr.toNat := by omega
    rw [buffered_eq hle, buffered_eq hx.1]
    dsimp only [store]
    rw [hsum, hlen, Buf.bytes_append, hpos, Buf.bytes_copy]
    congr 1
    exact Buf.bytes_congr fun i _ hi => Buf.copy_outside _ _ (.inl (by omega))
  · rw [buffered_nil husage, buffered_eq UInt32.zero_le]
    dsimp only [store]
    rw [UInt32.zero_add]
    exact Buf.bytes_copy ..

theorem send_recv (x : TcpSocket) (data : List UInt8) : SameRecv x (x.send data) := by
  rw [send]
  split <;> exact ⟨rfl, rfl, rfl, rfl⟩

/-- `tcp_receive` takes bytes from the front. -/
theorem receive_buffered (hx : x.InBounds) (len : UInt32) (hne : x.recvReadPtr ≠ x.recvWritePtr) :
    x.buffered = x.recvBuffer.bytes x.recvReadPtr.toNat (x.toRead len).toNat ++ (x.receive len).buffered := by
  obtain ⟨hsum, hle⟩ := add_le_of_le_sub hx.1 (x.toRead_le len)
  have hlen : x.recvWritePtr.toNat - x.recvReadPtr.toNat =
      (x.toRead len).toNat + (x.recvWritePtr.toNat - (x.recvReadPtr.toNat + (x.toRead len).toNat)) := by omega
  rw [buffered_eq hx.1, hlen, Buf.bytes_append, receive, if_neg hne]
  congr 1
  dsimp only
  split
  · rename_i hempty
    rw [← hempty, hsum, Nat.sub_self]
    exact (buffered_nil (UInt32.sub_self 0)).symm
  · rw [buffered_eq (by rw [UInt32.le_iff_toNat_le, hsum]; exact hle)]
    dsimp only
    rw [hsum]

/-- All of a segment's data is copied or none of it. -/
theorem copied_cases (x : TcpSocket) (data : Buf) : (x.reply data).copied = 0 ∨
    (x.reply data).copied = (framePayloadLen data).toNat ∧ framePayloadLen data ≠ 0 := by
  rcases x.reply_recv data with ⟨-, hc⟩ | ⟨-, hin⟩
  · exact .inl hc
  · rw [hin.copied]
    by_cases hn : x.stored (framePayloadLen data) = 0
    · exact .inl (congrArg UInt32.toNat hn)
    · have hall := (x.stored_cases _).resolve_right hn
      exact .inr ⟨congrArg UInt32.toNat hall, hall ▸ hn⟩

end TcpSocket

/-! ## Runs -/

namespace Session
variable {stream : List UInt8} {base : UInt32} {a : Nat} {r r' : Session} {op : NetOp}

/-- What has been taken from the network is a piece of the stream. -/
structure Inv (stream : List UInt8) (a : Nat) (r : Session) : Prop where
  mem : a ∈ r.stack.sockets
  inBounds : (r.stack.sock a).InBounds ∧ (r.stack.sock a).recvBufferSize = 32768
  taken : r.taken a <+: stream

/-- A prefix grows by the bytes that follow it. -/
theorem prefix_append {l m : List UInt8} (h : l <+: stream) {n : Nat} (hm : m = (stream.drop l.length).take n) :
    l ++ m <+: stream := by
  obtain ⟨rest, rfl⟩ := h
  rw [drop_left] at hm
  rw [hm, List.prefix_append_right_inj]
  exact List.take_prefix ..

/-- The application receives bytes. -/
theorem receive_taken (hx : (r.stack.sock a).InBounds) (len : UInt32) :
    r.received ++ (r.stack.tcpReceive a len).1.getD [] ++ ((r.stack.sock a).receive len).buffered = r.taken a := by
  rw [Session.taken, append_assoc]
  congr 1
  rw [Stack.tcpReceive]
  dsimp only
  by_cases hempty : (r.stack.sock a).recvReadPtr = (r.stack.sock a).recvWritePtr
  · have hsame : (r.stack.sock a).receive len = r.stack.sock a := if_pos hempty
    rw [hsame]
    split <;> rfl
  · rw [if_neg fun hc => hempty hc.2, if_neg hempty, TcpSocket.receive_buffered hx len hempty]
    rfl

theorem taken_exec (hadm : r.stack.Admits op) (ha : a ∈ r.stack.sockets) : (exec a r op).taken a =
    (exec a r op).received ++
      (if r.stack.target op = some a then op.effect (r.stack.sock a) else r.stack.sock a).buffered := by
  rw [taken, ← Stack.exec_sock hadm ha]
  rfl

/-- The bytes that an operation puts into the buffer of the connection. -/
def arrived (a : Nat) (r : Session) : NetOp → List UInt8
  | .netstackHandlePacket data len child =>
    if r.stack.target (.netstackHandlePacket data len child) = some a then
      (framePayload data).bytes 0 (r.stack.netstackHandlePacket data len child).copied
    else []
  | _ => []

/-- A segment is not longer than the buffer. -/
def Small (a : Nat) (r : Session) : NetOp → Prop
  | .netstackHandlePacket data len child =>
    r.stack.target (.netstackHandlePacket data len child) = some a → (framePayloadLen data).toNat ≤ 32768
  | _ => True

theorem arrived_other (ht : r.stack.target op ≠ some a) : arrived a r op = [] := by
  cases op with
  | netstackHandlePacket data len child => exact if_neg ht
  | _ => rfl

/-- What a step adds to the bytes taken. -/
theorem step_taken (ha : a ∈ r.stack.sockets)
    (hin : (r.stack.sock a).InBounds ∧ (r.stack.sock a).recvBufferSize = 32768) (hadm : r.stack.Admits op)
    (hend : op ≠ .connectEnd a) (hsmall : Small a r op) :
    a ∈ (exec a r op).stack.sockets ∧ (((exec a r op).stack.sock a).InBounds ∧
      ((exec a r op).stack.sock a).recvBufferSize = 32768) ∧ (exec a r op).taken a = r.taken a ++ arrived a r op := by
  refine ⟨Stack.mem_exec ha hend, ?_⟩
  have hsock : (exec a r op).stack.sock a = _ := Stack.exec_sock hadm ha
  have htaken := taken_exec hadm ha
  rw [hsock, htaken]
  by_cases ht : r.stack.target op = some a
  · rw [if_pos ht]
    cases op with
    | netstackHandlePacket data len child =>
      refine ⟨Traffic.input_inBounds hin (hsmall ht), ?_⟩
      rw [arrived, if_pos ht, Stack.handle_target ht, taken, append_assoc]
      refine congrArg (r.received ++ ·) ?_
      rcases (r.stack.sock a).reply_recv data with ⟨hsame, hcopied⟩ | ⟨-, hin'⟩
      · rw [Stack.answer, hcopied]
        exact hsame.buffered.trans (append_nil _).symm
      · rw [Stack.answer, hin'.copied]
        exact hin'.recv.buffered hin.1
    | tcpSend b data =>
      have hsame := (r.stack.sock a).send_recv data
      refine ⟨⟨hsame.inBounds hin.1, hsame.size.trans hin.2⟩, ?_⟩
      exact (congrArg (r.received ++ ·) hsame.buffered).trans (append_nil _).symm
    | tcpClose b => exact ⟨hin, (append_nil _).symm⟩
    | tcpReceive b len =>
      cases ht
      obtain ⟨h1, h2⟩ := (r.stack.sock a).receive_inBounds hin.1 len
      refine ⟨⟨h1, h2.trans hin.2⟩, Eq.trans ?_ (append_nil _).symm⟩
      rw [exec]
      dsimp only
      rw [if_pos rfl]
      exact receive_taken hin.1 len
    | _ => cases ht
  · have hreceived : (exec a r op).received = r.received := by
      cases op with
      | tcpReceive b len => exact if_neg fun heq => ht (congrArg some heq)
      | _ => rfl
    rw [if_neg ht, arrived_other ht, append_nil, hreceived]
    exact ⟨hin, rfl⟩

theorem Inv.step (h : r.Inv stream a) (hadm : r.stack.Admits op) (hp : FromPeer stream base a r op)
    (ho : InOrder stream base a r op) : (exec a r op).Inv stream a := by
  have hsmall : Small a r op := by
    cases op with
    | netstackHandlePacket data len child =>
      intro ht
      by_cases hn : framePayloadLen data = 0
      · rw [hn]
        exact Nat.zero_le _
      · exact (ho ht hn).2
    | _ => trivial
  obtain ⟨hmem, hin, htaken⟩ := step_taken h.mem h.inBounds hadm (fun heq => by subst heq; exact hp rfl) hsmall
  refine ⟨hmem, hin, ?_⟩
  rw [htaken]
  cases op with
  | netstackHandlePacket data len child =>
    rw [arrived]
    split
    · rename_i ht
      rcases (r.stack.sock a).copied_cases data with hc | ⟨hc, hn⟩
      · rw [Stack.handle_target ht, Stack.answer, hc]
        exact (append_nil (r.taken a)).symm ▸ h.taken
      · -- the bytes that follow what was taken so far
        rw [Stack.handle_target ht, Stack.answer, hc]
        exact prefix_append h.taken (ho ht hn).1.payload
    · exact (append_nil (r.taken a)).symm ▸ h.taken
  | _ => exact (append_nil (r.taken a)).symm ▸ h.taken

/-- **What `tcp_receive` returns is a prefix of what the peer sent** in every run
in which each segment with data carries the bytes that come next. -/
theorem received_prefix_of_ordered {s : Stack} (hs : s.Connected a)
    (hr : ReflTransGen (OrderedStep stream (s.sock a).ackNum a) ⟨s, []⟩ r) : r.received <+: stream := by
  have hinv : r.Inv stream a := by
    induction hr with
    | refl =>
      refine ⟨hs.mem, ⟨⟨hs.empty ▸ UInt32.le_refl _, hs.inside⟩, hs.size⟩, ?_⟩
      have hnil : (s.sock a).buffered = [] := TcpSocket.buffered_nil (by rw [hs.empty, UInt32.sub_self])
      rw [taken, hnil]
      exact nil_prefix
    | tail _ hstep ih =>
      obtain ⟨op, hadm, hp, ho, rfl⟩ := hstep
      exact ih.step hadm hp ho
  exact (List.prefix_append ..).trans hinv.taken

/-! ## Concrete machines -/

/-- A connection that has just been opened; the first byte has sequence number 501. -/
def opened : Stack := (idleStack.exec peerConnect).exec (peerAnswer 2)

theorem opened_connected : opened.Connected 1 := by
  have h : opened.sockets = [1] ∧ (opened.sock 1).state = .established ∧
      (opened.sock 1).recvReadPtr = (opened.sock 1).recvWritePtr ∧
      (opened.sock 1).recvWritePtr ≤ (opened.sock 1).recvBufferSize ∧ (opened.sock 1).recvBufferSize = 32768 := by
    decide +kernel
  obtain ⟨h1, h2, h3, h4, h5⟩ := h
  exact ⟨h1 ▸ mem_singleton_self _, h2, h3, h4, h5⟩

/-- The segment with the first byte of "AB". -/
def firstByte : Buf := peerFrame 41 501 2 0x50 0x18 [65]

theorem firstByte_carries : Carries [65, 66] (opened.sock 1).ackNum firstByte 55 0 := by
  have h : (frameHeader firstByte).seqNum = (opened.sock 1).ackNum + UInt32.ofNat 0 ∧
      20 + (frameHeader firstByte).dataOffset.toNat ≤ (Stack.ipLen firstByte).toNat ∧
      14 + (Stack.ipLen firstByte).toNat ≤ (55 : UInt16).toNat ∧
      (framePayload firstByte).bytes 0 (framePayloadLen firstByte).toNat =
        ([65, 66].drop 0).take (framePayloadLen firstByte).toNat := by
    decide +kernel
  exact ⟨h.1, h.2.1, h.2.2.1, h.2.2.2⟩

/-- The segment comes in. -/
def deliverFirst : NetOp := .netstackHandlePacket firstByte 55 none

/-- The segment comes in, once or twice, and the application asks for ten bytes. -/
theorem opened_received :
    let r := exec 1 ⟨opened, []⟩ deliverFirst
    (exec 1 r (.tcpReceive 1 10)).received = [65] ∧
      (exec 1 (exec 1 r deliverFirst) (.tcpReceive 1 10)).received = [65, 65] := by
  decide +kernel

theorem received_prefix_opened : ∃ r, ReflTransGen (OrderedStep [65, 66] (opened.sock 1).ackNum 1) ⟨opened, []⟩ r ∧
    r.received = [65] ∧ r.received <+: [65, 66] := by
  obtain ⟨hone, -⟩ := opened_received
  have hmem : 1 ∈ (opened.exec deliverFirst).sockets := Stack.mem_exec opened_connected.mem nofun
  have hlen : (framePayloadLen firstByte).toNat ≤ 32768 ∧ (taken 1 ⟨opened, []⟩).length = 0 := by decide +kernel
  have h1 : OrderedStep [65, 66] (opened.sock 1).ackNum 1 ⟨opened, []⟩ (exec 1 ⟨opened, []⟩ deliverFirst) :=
    ⟨deliverFirst, nofun, fun _ => ⟨0, firstByte_carries⟩, fun _ _ => ⟨hlen.2 ▸ firstByte_carries, hlen.1⟩, rfl⟩
  have h2 : OrderedStep [65, 66] (opened.sock 1).ackNum 1 (exec 1 ⟨opened, []⟩ deliverFirst)
      (exec 1 (exec 1 ⟨opened, []⟩ deliverFirst) (.tcpReceive 1 10)) :=
    ⟨.tcpReceive 1 10, hmem, trivial, trivial, rfl⟩
  have hr := ReflTransGen.refl.tail h1 |>.tail h2
  exact ⟨_, hr, hone, received_prefix_of_ordered opened_connected hr⟩

/-- A segment that the network delivers twice is received twice. -/
theorem duplicate_received : ∃ r, ReflTransGen (PeerStep [65, 66] (opened.sock 1).ackNum 1) ⟨opened, []⟩ r ∧
    ¬ r.received <+: [65, 66] := by
  obtain ⟨-, htwice⟩ := opened_received
  have hmem : 1 ∈ ((opened.exec deliverFirst).exec deliverFirst).sockets :=
    Stack.mem_exec (Stack.mem_exec opened_connected.mem nofun) nofun
  have hdeliver : ∀ r : Session, PeerStep [65, 66] (opened.sock 1).ackNum 1 r (exec 1 r deliverFirst) :=
    fun r => ⟨deliverFirst, nofun, fun _ => ⟨0, firstByte_carries⟩, rfl⟩
  have h3 : PeerStep [65, 66] (opened.sock 1).ackNum 1 (exec 1 (exec 1 ⟨opened, []⟩ deliverFirst) deliverFirst)
      (exec 1 (exec 1 (exec 1 ⟨opened, []⟩ deliverFirst) deliverFirst) (.tcpReceive 1 10)) :=
    ⟨.tcpReceive 1 10, hmem, trivial, rfl⟩
  refine ⟨_, ReflTransGen.refl.tail (hdeliver _) |>.tail (hdeliver _) |>.tail h3, ?_⟩
  rw [htwice]
  decide +kernel

end Session
end LiwusOS.Net
