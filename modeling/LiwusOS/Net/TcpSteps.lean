import LiwusOS.Net.Tcp

/-! # What a step does to the sockets

Every operation acts on at most one socket of the list and adds at most one. -/

namespace LiwusOS.Net
open LiwusOS.Lib Function Option

/-- The header of the segment in a frame. -/
def frameHeader (data : Buf) : TcpHeader := tcpHeader (Stack.tcpSegment data)

def framePayload (data : Buf) : Buf := fun k => Stack.tcpSegment data ((frameHeader data).dataOffset.toNat + k)

/-- The length of the payload as the handler computes it. -/
def framePayloadLen (data : Buf) : UInt32 :=
  (Stack.ipLen data - 20).toUInt32 - (frameHeader data).dataOffset.toUInt32

/-- What a socket does with the segment in a frame. -/
def TcpSocket.reply (x : TcpSocket) (data : Buf) : Reply :=
  tcpInput x (frameHeader data) (framePayload data) (framePayloadLen data)

/-- A socket after a segment. -/
def TcpSocket.input (x : TcpSocket) (data : Buf) : TcpSocket :=
  (tcpInput x (frameHeader data) (framePayload data) (framePayloadLen data)).sock

/-- A listener's answer to a SYN. -/
theorem listen_reply {x : TcpSocket} {data : Buf} (hst : x.state = .listen)
    (hsyn : has (frameHeader data).flags tcpSyn) : x.reply data =
      let y := { x with ackNum := (frameHeader data).seqNum + 1, state := .synReceived, seqNum := x.seqNum + 1 }
      ⟨y, [sendTcpPacket y (tcpSyn ||| tcpAck) [] x.seqNum], 0⟩ := by
  rw [TcpSocket.reply, tcpInput, hst]
  exact if_pos hsyn

/-- A socket after `tcp_send`. -/
def TcpSocket.send (x : TcpSocket) (data : List UInt8) : TcpSocket :=
  if x.state ≠ .established then x else { x with seqNum := x.seqNum + UInt32.ofNat data.length }

/-- A socket after `tcp_close`. -/
def TcpSocket.close (x : TcpSocket) : TcpSocket := { x with seqNum := x.seqNum + 1, state := .finWait1 }

/-- The number of bytes that `tcp_receive` copies out. -/
def TcpSocket.toRead (x : TcpSocket) (len : UInt32) : UInt32 :=
  let available := x.recvWritePtr - x.recvReadPtr
  if len < available then len else available

/-- A socket after `tcp_receive`. -/
def TcpSocket.receive (x : TcpSocket) (len : UInt32) : TcpSocket :=
  if x.recvReadPtr = x.recvWritePtr then x else
  let x := { x with recvReadPtr := x.recvReadPtr + x.toRead len }
  if x.recvReadPtr = x.recvWritePtr then { x with recvReadPtr := 0, recvWritePtr := 0 } else x

theorem TcpSocket.toRead_le (x : TcpSocket) (len : UInt32) : x.toRead len ≤ x.recvWritePtr - x.recvReadPtr := by
  rw [toRead]
  split
  · rename_i h
    exact UInt32.le_of_lt h
  · exact UInt32.le_refl _

/-- What an operation does to the socket that it acts on. -/
def NetOp.effect : NetOp → TcpSocket → TcpSocket
  | .netstackHandlePacket data _ _, x => x.input data
  | .tcpSend _ data, x => x.send data
  | .tcpClose _, x => x.close
  | .tcpReceive _ len, x => x.receive len
  | _, x => x

/-! ## Segments -/

/-- The states after `tcp_close`. -/
def TcpState.Closing (t : TcpState) : Prop := t = .finWait1 ∨ t = .finWait2 ∨ t = .timeWait

namespace TcpSocket

/-- The receive side is the same. -/
structure SameRecv (x y : TcpSocket) : Prop where
  buffer : y.recvBuffer = x.recvBuffer
  size : y.recvBufferSize = x.recvBufferSize
  write : y.recvWritePtr = x.recvWritePtr
  read : y.recvReadPtr = x.recvReadPtr

/-- How much of a segment's data is put into the buffer: all of it, if it fits
behind what was put there before or if nothing is left to read. -/
def stored (x : TcpSocket) (n : UInt32) : UInt32 :=
  if n ≤ x.recvBufferSize - x.recvWritePtr ∨ x.recvWritePtr - x.recvReadPtr = 0 then n else 0

/-- The data is put at `w` and is read from `r` on. -/
def store (x : TcpSocket) (payload : Buf) (n w r : UInt32) : TcpSocket :=
  { x with
    recvBuffer := x.recvBuffer.copy w.toNat payload n.toNat
    recvWritePtr := w + n
    recvReadPtr := r
    ackNum := x.ackNum + n }

/-- Where data is put: behind the data before it, or at the start of the buffer
if that has all been read. -/
def Place (x : TcpSocket) (n w r : UInt32) : Prop :=
  w = x.recvWritePtr ∧ r = x.recvReadPtr ∧ n ≤ x.recvBufferSize - x.recvWritePtr ∨
    w = 0 ∧ r = 0 ∧ x.recvWritePtr - x.recvReadPtr = 0

/-- The receive side of `y` is that of `x` with the data of a segment. -/
def Stores (x : TcpSocket) (payload : Buf) (n : UInt32) (y : TcpSocket) : Prop :=
  x.stored n = 0 ∧ SameRecv x y ∨ x.stored n = n ∧ ∃ w r, SameRecv (x.store payload n w r) y ∧ x.Place n w r

variable {x y : TcpSocket}

theorem stored_cases (x : TcpSocket) (n : UInt32) : x.stored n = n ∨ x.stored n = 0 := by
  rw [stored]
  split
  · exact .inl rfl
  · exact .inr rfl

theorem stored_le (x : TcpSocket) (n : UInt32) : (x.stored n).toNat ≤ n.toNat := by
  rcases x.stored_cases n with h | h
  · rw [h]
  · rw [h]
    exact Nat.zero_le _

theorem receiveData_cases (x : TcpSocket) (payload : Buf) (n : UInt32) :
    x.stored n = 0 ∧ receiveData x payload n = ignore x ∨
    x.stored n = n ∧ n ≠ 0 ∧ ∃ w r, x.Place n w r ∧ receiveData x payload n =
      ⟨x.store payload n w r, [sendTcpPacket (x.store payload n w r) tcpAck [] x.seqNum], n.toNat⟩ := by
  rw [receiveData]
  split
  · rename_i hn
    exact .inl ⟨by rw [hn]; exact (x.stored_cases 0).elim id id, rfl⟩
  rename_i hn
  dsimp only
  split
  · rename_i hspace
    exact .inr ⟨if_pos (.inl hspace), hn, _, _, .inl ⟨rfl, rfl, hspace⟩, rfl⟩
  rename_i hspace
  split
  · rename_i husage
    refine .inr ⟨if_pos (.inr husage), hn, 0, 0, .inr ⟨rfl, rfl, husage⟩, ?_⟩
    simp only [store, UInt32.zero_add]
    rfl
  · rename_i husage
    exact .inl ⟨if_neg fun h => h.elim hspace husage, rfl⟩

/-- A segment in state ESTABLISHED. -/
structure Established (x : TcpSocket) (data : Buf) (r : Reply) : Prop where
  recv : x.Stores (framePayload data) (framePayloadLen data) r.sock
  copied : r.copied = (x.stored (framePayloadLen data)).toNat
  seqNum : (has (frameHeader data).flags tcpAck → (frameHeader data).ackNum ≤ x.seqNum) → r.sock.seqNum = x.seqNum
  ackNum : r.sock.ackNum =
    x.ackNum + x.stored (framePayloadLen data) + if has (frameHeader data).flags tcpFin then 1 else 0
  state : r.sock.state = if has (frameHeader data).flags tcpFin then .closeWait else .established
  sent : r.sent.map Packet.ack =
    (if x.stored (framePayloadLen data) = 0 then [] else [x.ackNum + x.stored (framePayloadLen data)]) ++
      if has (frameHeader data).flags tcpFin then [x.ackNum + x.stored (framePayloadLen data) + 1] else []

theorem established_reply (hst : x.state = .established) (data : Buf) : x.Established data (x.reply data) := by
  -- the acknowledgement comes first and does not reach the receive side
  obtain ⟨s, k, hack, hseq⟩ : ∃ s k,
      (if has (frameHeader data).flags tcpAck then acknowledge x (frameHeader data).ackNum else x) =
        { x with seqNum := s, ackReceived := k } ∧
      ((has (frameHeader data).flags tcpAck → (frameHeader data).ackNum ≤ x.seqNum) → s = x.seqNum) := by
    split
    · rename_i hflag
      exact ⟨_, _, rfl, fun hle => if_neg (UInt32.not_lt.mpr (hle hflag))⟩
    · exact ⟨_, _, rfl, fun _ => rfl⟩
  rw [reply, tcpInput, hst]
  dsimp only
  rw [hack]
  rcases receiveData_cases { x with seqNum := s, ackReceived := k } (framePayload data) (framePayloadLen data) with
    ⟨hzero, hr⟩ | ⟨hall, hn, w, r, hplace, hr⟩
  · change x.stored _ = 0 at hzero
    rw [hr]
    split <;> rename_i hfin <;> exact ⟨.inl ⟨hzero, rfl, rfl, rfl, rfl⟩, (congrArg UInt32.toNat hzero).symm, hseq,
      by simp [hzero, hfin, receiveFin, ignore], by simp [hfin, hst, receiveFin, ignore],
      by simp [hzero, hfin, receiveFin, ignore, sendTcpPacket]⟩
  · change x.stored _ = _ at hall
    rw [hr]
    split <;> rename_i hfin <;> exact ⟨.inr ⟨hall, w, r, ⟨rfl, rfl, rfl, rfl⟩, hplace⟩,
      (congrArg UInt32.toNat hall).symm, hseq,
      by simp [hall, hfin, receiveFin, store], by simp [hfin, hst, receiveFin, store],
      by simp [hall, hn, hfin, receiveFin, store, sendTcpPacket]⟩

/-- What a segment leads to in the other states: nothing, the next step of the
handshake, or an end of the connection. -/
inductive Moves (x : TcpSocket) (hdr : TcpHeader) : TcpSocket → Prop
  | same : Moves x hdr x
  | answers {z} (state : x.state = .listen) : Moves x hdr z
  | opens {z} (flags : x.state = .synReceived ∧ has hdr.flags tcpAck ∨
      x.state = .synSent ∧ has hdr.flags tcpSyn ∧ has hdr.flags tcpAck)
    (seq : z.seqNum = hdr.ackNum) (state : z.state = .established) : Moves x hdr z
  | leaves {z} (seq : z.seqNum = x.seqNum)
    (state : z.state.Closing ∨ z.state = .closed ∧ ¬ x.state.Closing) : Moves x hdr z

theorem reply_other (hst : x.state ≠ .established) (data : Buf) : SameRecv x (x.reply data).sock ∧
    (x.reply data).copied = 0 ∧ x.Moves (frameHeader data) (x.reply data).sock := by
  have hsame : SameRecv x x := ⟨rfl, rfl, rfl, rfl⟩
  rw [reply, tcpInput]
  cases hx : x.state with
  | established => exact absurd hx hst
  | listen =>
    dsimp only
    split <;> exact ⟨⟨rfl, rfl, rfl, rfl⟩, rfl, .answers hx⟩
  | synReceived =>
    dsimp only
    split
    · rename_i hack
      exact ⟨⟨rfl, rfl, rfl, rfl⟩, rfl, .opens (.inl ⟨hx, hack⟩) rfl rfl⟩
    · exact ⟨hsame, rfl, .same⟩
  | synSent =>
    dsimp only
    split
    · rename_i hflags
      exact ⟨⟨rfl, rfl, rfl, rfl⟩, rfl, .opens (.inr ⟨hx, hflags⟩) rfl rfl⟩
    split
    · exact ⟨⟨rfl, rfl, rfl, rfl⟩, rfl, .leaves rfl (.inr ⟨rfl, by rw [hx, TcpState.Closing]; decide⟩)⟩
    · exact ⟨hsame, rfl, .same⟩
  | finWait1 =>
    dsimp only
    split
    · exact ⟨⟨rfl, rfl, rfl, rfl⟩, rfl, .leaves rfl (.inl (.inr (.inr rfl)))⟩
    split
    · exact ⟨⟨rfl, rfl, rfl, rfl⟩, rfl, .leaves rfl (.inl (.inr (.inr rfl)))⟩
    split
    · exact ⟨⟨rfl, rfl, rfl, rfl⟩, rfl, .leaves rfl (.inl (.inr (.inl rfl)))⟩
    · exact ⟨hsame, rfl, .same⟩
  | finWait2 =>
    dsimp only
    split
    · exact ⟨⟨rfl, rfl, rfl, rfl⟩, rfl, .leaves rfl (.inl (.inr (.inr rfl)))⟩
    · exact ⟨hsame, rfl, .same⟩
  | lastAck =>
    dsimp only
    split
    · exact ⟨⟨rfl, rfl, rfl, rfl⟩, rfl, .leaves rfl (.inr ⟨rfl, by rw [hx, TcpState.Closing]; decide⟩)⟩
    · exact ⟨hsame, rfl, .same⟩
  | closed | closeWait | closing | timeWait => exact ⟨hsame, rfl, .same⟩

/-- Only the data of a segment in state ESTABLISHED reaches the receive side. -/
theorem reply_recv (x : TcpSocket) (data : Buf) : SameRecv x (x.reply data).sock ∧ (x.reply data).copied = 0 ∨
    x.state = .established ∧ x.Established data (x.reply data) := by
  by_cases hst : x.state = .established
  · exact .inr ⟨hst, established_reply hst data⟩
  · obtain ⟨hsame, hcopied, -⟩ := reply_other hst data
    exact .inl ⟨hsame, hcopied⟩

theorem receive_kept (x : TcpSocket) (len : UInt32) : (x.receive len).localPort = x.localPort ∧
    (x.receive len).seqNum = x.seqNum ∧ (x.receive len).ackNum = x.ackNum ∧ (x.receive len).state = x.state := by
  rw [receive]
  split
  · exact ⟨rfl, rfl, rfl, rfl⟩
  · dsimp only
    split <;> exact ⟨rfl, rfl, rfl, rfl⟩

end TcpSocket

namespace Stack

/-- The sockets that the search of the handler ends at. -/
def lookup (s : Stack) (data : Buf) : Option Nat × Option Nat :=
  s.findSocket (data.u32 26) (frameHeader data).srcPort (frameHeader data).destPort s.sockets none

/-- The socket of the list that an operation acts on. -/
def target (s : Stack) : NetOp → Option Nat
  | .netstackHandlePacket data _ _ => if isTcp data then (s.lookup data).1 else none
  | .tcpSend a _ => some a
  | .tcpClose a => some a
  | .tcpReceive a _ => some a
  | _ => none

/-- A socket in SYN_SENT. -/
def connectSocket (s : Stack) (buffer : Buf) (destIp : UInt32) (destPort : UInt16) (timerTicks : UInt32) : TcpSocket :=
  { blankSocket buffer with
    localPort := s.ephemeralPort
    remotePort := destPort
    remoteIp := destIp
    localIp := s.myIp
    seqNum := timerTicks * 1000 + ((s.ephemeralPort + 1) &&& 0xFFF).toUInt32 + 1
    state := .synSent }

/-- The socket that an operation adds to the list. -/
def fresh (s : Stack) : NetOp → Option (Nat × TcpSocket)
  | .netstackHandlePacket data _ child =>
    if isTcp data ∧ (s.lookup data).1 = none ∧ (s.lookup data).2 ≠ none ∧ has (frameHeader data).flags tcpSyn then
      child.map fun c => (c.1, (childSocket c.2 (data.u32 26) (data.u32 30) (frameHeader data)).input data)
    else none
  | .tcpConnect addr buffer destIp destPort timerTicks =>
    some (addr, s.connectSocket buffer destIp destPort timerTicks)
  | .tcpListen addr buffer port => some (addr, { blankSocket buffer with localPort := port, state := .listen })
  | _ => none

variable {s : Stack} {op : NetOp} {a : Nat}

@[simp] theorem setSock_sock (s : Stack) (a b : Nat) (x : TcpSocket) :
    (s.setSock a x).sock b = if b = a then x else s.sock b := update_apply ..

section Search
variable {srcIp : UInt32} {srcPort destPort : UInt16}

/-- A socket that a segment may belong to, other than a listener. -/
structure Matches (s : Stack) (srcIp : UInt32) (srcPort destPort : UInt16) (a : Nat) : Prop where
  localPort : (s.sock a).localPort = destPort
  state : (s.sock a).state ≠ .listen
  remoteIp : (s.sock a).remoteIp = srcIp
  remotePort : (s.sock a).remotePort = srcPort

variable {o : Option Nat} {l : List Nat}

/-- The search ends at the first socket that matches. -/
theorem findSocket_some (h : (s.findSocket srcIp srcPort destPort l o).1 = some a) :
    a ∈ l ∧ s.Matches srcIp srcPort destPort a := by
  induction l generalizing o with
  | nil => cases h
  | cons b rest ih =>
    have hrest : ∀ o, (s.findSocket srcIp srcPort destPort rest o).1 = some a →
        a ∈ b :: rest ∧ s.Matches srcIp srcPort destPort a :=
      fun o h => ⟨.tail _ (ih h).1, (ih h).2⟩
    rw [findSocket] at h
    split at h
    · rename_i hport
      split at h
      · exact hrest _ h
      · rename_i hl
        split at h
        · rename_i hremote
          cases h
          exact ⟨.head _, hport, hl, hremote.1, hremote.2⟩
        · exact hrest _ h
    · exact hrest _ h

/-- The search does not pass a socket that matches. -/
theorem findSocket_ne_none (ha : a ∈ l) (h : s.Matches srcIp srcPort destPort a) :
    (s.findSocket srcIp srcPort destPort l o).1 ≠ none := by
  induction l generalizing o with
  | nil => cases ha
  | cons b rest ih =>
    rw [findSocket]
    rcases List.mem_cons.mp ha with rfl | ha
    · rw [if_pos h.localPort, if_neg h.state, if_pos ⟨h.remoteIp, h.remotePort⟩]
      nofun
    · split
      · split
        · exact ih ha
        · split
          · nofun
          · exact ih ha
      · exact ih ha

/-- A search that finds no connection has passed every socket. -/
theorem findSocket_none (h : ∀ b ∈ l, ¬ s.Matches srcIp srcPort destPort b)
    (ho : o ≠ none ∨ ∃ b ∈ l, (s.sock b).localPort = destPort ∧ (s.sock b).state = .listen) :
    ∃ b, s.findSocket srcIp srcPort destPort l o = (none, some b) := by
  induction l generalizing o with
  | nil =>
    rcases ho with ho | ⟨b, hb, -⟩
    · obtain ⟨b, rfl⟩ := ne_none_iff_exists'.mp ho
      exact ⟨b, rfl⟩
    · cases hb
  | cons c rest ih =>
    have ih := fun o => @ih o fun b hb => h b (.tail _ hb)
    -- unless it is the head, the listener is still to come
    have hlater : ¬ ((s.sock c).localPort = destPort ∧ (s.sock c).state = .listen) →
        o ≠ none ∨ ∃ b ∈ rest, (s.sock b).localPort = destPort ∧ (s.sock b).state = .listen := by
      intro hc
      rcases ho with ho | ⟨b, hb, hlisten⟩
      · exact .inl ho
      · rcases List.mem_cons.mp hb with rfl | hb
        · exact absurd hlisten hc
        · exact .inr ⟨b, hb, hlisten⟩
    rw [findSocket]
    split
    · rename_i hport
      split
      · exact ih _ (.inl nofun)
      · rename_i hl
        split
        · rename_i hremote
          exact absurd ⟨hport, hl, hremote.1, hremote.2⟩ (h c (.head _))
        · exact ih _ (hlater fun hc => hl hc.2)
    · rename_i hport
      exact ih _ (hlater fun hc => hport hc.1)

/-- A frame goes to a connection of the list. -/
theorem target_matches {data : Buf} {len : UInt16} {child : Option (Nat × Buf)}
    (h : s.target (.netstackHandlePacket data len child) = some a) : a ∈ s.sockets ∧
      s.Matches (data.u32 26) (frameHeader data).srcPort (frameHeader data).destPort a := by
  rw [target] at h
  split at h
  · exact findSocket_some h
  · cases h

end Search

theorem setSock_self (s : Stack) (a : Nat) : s.setSock a (s.sock a) = s := by
  rw [setSock, update_eq_self]

theorem tcpSend_stack (s : Stack) (a : Nat) (data : List UInt8) :
    (s.tcpSend a data).2.1 = s.setSock a ((s.sock a).send data) := by
  rw [Stack.tcpSend, TcpSocket.send]
  split
  · exact (setSock_self s a).symm
  · rfl

theorem tcpReceive_stack (s : Stack) (a : Nat) (len : UInt32) :
    (s.tcpReceive a len).2 = s.setSock a ((s.sock a).receive len) := by
  rw [Stack.tcpReceive, TcpSocket.receive]
  split
  · rename_i h
    rw [if_pos h.2, setSock_self]
  split
  · rw [setSock_self]
  · rfl

theorem addSock_self (s : Stack) (a : Nat) (x : TcpSocket) : (s.addSock a x).sock a = x := update_self ..

section Frame
variable {data : Buf} {len : UInt16} {child : Option (Nat × Buf)}

/-- A segment is delivered to socket `a`. -/
def answer (s : Stack) (a : Nat) (data : Buf) : Handled :=
  ⟨s.setSock a ((s.sock a).input data), ((s.sock a).reply data).sent, ((s.sock a).reply data).copied⟩

/-- The socket of a connection request. -/
def requested (data : Buf) (buffer : Buf) : TcpSocket :=
  childSocket buffer (data.u32 26) (data.u32 30) (frameHeader data)

/-- What a frame does, by the socket that the search finds. -/
theorem handle_cases (s : Stack) (data : Buf) (len : UInt16) (child : Option (Nat × Buf)) :
    (∃ a, isTcp data ∧ s.target (.netstackHandlePacket data len child) = some a ∧
      s.fresh (.netstackHandlePacket data len child) = none ∧
      s.netstackHandlePacket data len child = s.answer a data) ∨
    (∃ c, child = some c ∧ isTcp data ∧ has (frameHeader data).flags tcpSyn ∧
      s.target (.netstackHandlePacket data len child) = none ∧
      s.fresh (.netstackHandlePacket data len child) = some (c.1, (requested data c.2).input data) ∧
      s.netstackHandlePacket data len child = (s.addSock c.1 (requested data c.2)).answer c.1 data) ∨
    s.target (.netstackHandlePacket data len child) = none ∧ s.fresh (.netstackHandlePacket data len child) = none ∧
      s.netstackHandlePacket data len child = ⟨s, [], 0⟩ := by
  rw [target, fresh, netstackHandlePacket]
  by_cases htcp : isTcp data
  · rw [if_pos htcp, if_pos htcp]
    unfold tcpHandlePacket
    dsimp only
    rw [← frameHeader, ← lookup]
    obtain ⟨o, o'⟩ := s.lookup data
    cases o with
    | some a => exact .inl ⟨a, htcp, rfl, if_neg (by rintro ⟨-, h, -⟩; cases h), rfl⟩
    | none =>
      right
      cases o' with
      | none => exact .inr ⟨rfl, if_neg fun h => h.2.2.1 rfl, rfl⟩
      | some b =>
        dsimp only
        by_cases hsyn : has (frameHeader data).flags tcpSyn
        · rw [if_pos hsyn, if_pos ⟨htcp, rfl, nofun, hsyn⟩]
          cases child with
          | none => exact .inr ⟨rfl, rfl, rfl⟩
          | some c => exact .inl ⟨c, rfl, htcp, hsyn, rfl, rfl, rfl⟩
        · rw [if_neg hsyn, if_neg fun h => hsyn h.2.2.2]
          exact .inr ⟨rfl, rfl, rfl⟩
  · rw [if_neg htcp, if_neg htcp, if_neg fun h => htcp h.1]
    exact .inr (.inr ⟨rfl, rfl, rfl⟩)

/-- A frame for a connection of the list. -/
theorem handle_target (ht : s.target (.netstackHandlePacket data len child) = some a) :
    s.netstackHandlePacket data len child = s.answer a data := by
  rcases s.handle_cases data len child with ⟨b, -, hb, -, heq⟩ | ⟨_, -, -, -, hn, -⟩ | ⟨hn, -⟩
  · cases ht.symm.trans hb
    exact heq
  · cases ht.symm.trans hn
  · cases ht.symm.trans hn

end Frame

/-- An operation adds a socket, or acts on at most one of the list and leaves the
list as it is unless it ends a wait. -/
theorem exec_cases (s : Stack) (op : NetOp) :
    (∃ c x, s.target op = none ∧ s.fresh op = some (c, x) ∧ (s.exec op).sockets = c :: s.sockets ∧
      (s.exec op).sock = update s.sock c x) ∨
    s.fresh op = none ∧
      ((s.exec op).sockets = s.sockets ∨ ∃ b, op = .connectEnd b ∧ (s.exec op).sockets = s.sockets.erase b) ∧
      ∀ a, (s.exec op).sock a = if s.target op = some a then op.effect (s.sock a) else s.sock a := by
  have hacts : ∀ {s' : Stack} {b : Nat} {f : TcpSocket → TcpSocket}, s' = s.setSock b (f (s.sock b)) →
      ∀ a, s'.sock a = if some b = some a then f (s.sock a) else s.sock a := by
    rintro _ b f rfl a
    rw [setSock_sock]
    by_cases h : a = b
    · rw [if_pos h, if_pos (congrArg some h.symm), h]
    · rw [if_neg h, if_neg fun heq => h (some.inj heq).symm]
  cases op with
  | netstackHandlePacket data len child =>
    rw [exec]
    rcases s.handle_cases data len child with ⟨b, -, ht, hf, heq⟩ | ⟨c, -, -, -, ht, hf, heq⟩ | ⟨ht, hf, heq⟩
    · rw [heq, ht]
      exact .inr ⟨hf, .inl rfl, hacts (f := (·.input data)) rfl⟩
    · rw [heq]
      refine .inl ⟨_, _, ht, hf, rfl, ?_⟩
      simp only [answer, addSock, setSock, update_self, update_idem]
    · rw [heq, ht]
      exact .inr ⟨hf, .inl rfl, fun _ => rfl⟩
  | tcpConnect addr buffer destIp destPort timerTicks => exact .inl ⟨_, _, rfl, rfl, rfl, rfl⟩
  | tcpListen addr buffer port => exact .inl ⟨_, _, rfl, rfl, rfl, rfl⟩
  | connectRetry b => exact .inr ⟨rfl, .inl rfl, fun _ => rfl⟩
  | connectEnd b =>
    right
    rw [exec, Stack.connectEnd]
    split
    · exact ⟨rfl, .inr ⟨b, rfl, rfl⟩, fun _ => rfl⟩
    · exact ⟨rfl, .inl rfl, fun _ => rfl⟩
  | tcpSend b data =>
    rw [exec, tcpSend_stack]
    exact .inr ⟨rfl, .inl rfl, hacts (f := (·.send data)) rfl⟩
  | tcpClose b => exact .inr ⟨rfl, .inl rfl, hacts (f := TcpSocket.close) rfl⟩
  | tcpReceive b len =>
    rw [exec, tcpReceive_stack]
    exact .inr ⟨rfl, .inl rfl, hacts (f := (·.receive len)) rfl⟩

theorem target_of_fresh {p : Nat × TcpSocket} (h : s.fresh op = some p) : s.target op = none := by
  rcases s.exec_cases op with ⟨_, _, ht, -⟩ | ⟨hf, -⟩
  · exact ht
  · cases h.symm.trans hf

/-- A new socket is in memory that no socket had. -/
theorem fresh_notMem (hadm : s.Admits op) {c : Nat} {x : TcpSocket} (h : s.fresh op = some (c, x)) :
    c ∉ s.sockets := by
  cases op with
  | netstackHandlePacket data len child =>
    rcases s.handle_cases data len child with ⟨_, -, -, hf, -⟩ | ⟨p, rfl, -, -, -, hf, -⟩ | ⟨-, hf, -⟩ <;>
      cases h.symm.trans hf
    exact hadm p rfl
  | tcpConnect addr buffer destIp destPort timerTicks =>
    cases h
    exact hadm
  | tcpListen addr buffer port =>
    cases h
    exact hadm
  | _ => cases h

/-- What becomes of a socket of the list. -/
theorem exec_sock (hadm : s.Admits op) (ha : a ∈ s.sockets) :
    (s.exec op).sock a = if s.target op = some a then op.effect (s.sock a) else s.sock a := by
  rcases s.exec_cases op with ⟨c, x, ht, hf, -, hsock⟩ | ⟨-, -, hsock⟩
  · rw [hsock, ht, if_neg nofun]
    exact update_of_ne (fun heq : a = c => fresh_notMem hadm hf (heq ▸ ha)) _ _
  · exact hsock a

/-- A connection stays in the list unless its `tcp_connect` takes it out. -/
theorem mem_exec (ha : a ∈ s.sockets) (hop : op ≠ .connectEnd a) : a ∈ (s.exec op).sockets := by
  rcases s.exec_cases op with ⟨c, x, -, -, hlist, -⟩ | ⟨-, hlist | ⟨b, rfl, hlist⟩, -⟩ <;> rw [hlist]
  · exact .tail _ ha
  · exact ha
  · exact (List.mem_erase_of_ne fun heq : a = b => hop (heq ▸ rfl)).mpr ha

/-- A property of every socket after an operation. -/
theorem forall_exec {P : Nat → TcpSocket → Prop} (hadm : s.Admits op)
    (hold : ∀ a ∈ s.sockets, P a (if s.target op = some a then op.effect (s.sock a) else s.sock a))
    (hnew : ∀ a x, s.fresh op = some (a, x) → P a x) : ∀ a ∈ (s.exec op).sockets, P a ((s.exec op).sock a) := by
  intro a ha
  have hmem : a ∈ s.sockets → P a ((s.exec op).sock a) := fun h => exec_sock hadm h ▸ hold a h
  rcases s.exec_cases op with ⟨c, x, -, hf, hlist, hsock⟩ | ⟨-, hlist | ⟨b, -, hlist⟩, -⟩ <;> rw [hlist] at ha
  · rcases List.mem_cons.mp ha with rfl | ha
    · rw [hsock, update_self]
      exact hnew a x hf
    · exact hmem ha
  · exact hmem ha
  · exact hmem (List.mem_of_mem_erase ha)

end Stack

/-! ## Concrete frames -/

/-- A frame from port 80 of 10.0.2.2 to port 49152. -/
def peerFrame (ipLen : UInt16) (seq ack : UInt32) (dataOffset flags : UInt8) (payload : List UInt8) : Buf :=
  let be16 (v : UInt16) : List UInt8 := [(v >>> 8).toUInt8, v.toUInt8]
  let be32 (v : UInt32) : List UInt8 := [(v >>> 24).toUInt8, (v >>> 16).toUInt8, (v >>> 8).toUInt8, v.toUInt8]
  fun k => (List.replicate 12 0 ++ [0x08, 0x00, 0x45, 0x00] ++ be16 ipLen ++ [0, 0, 0, 0, 64, 6, 0, 0] ++
    [10, 0, 2, 2] ++ [10, 0, 2, 15] ++ be16 80 ++ be16 49152 ++ be32 seq ++ be32 ack ++ [dataOffset, flags] ++
    List.replicate 6 0 ++ payload).getD k 0

/-- `tcp_connect` to port 80 of 10.0.2.2. -/
def peerConnect : NetOp := .tcpConnect 1 Buf.zero 0x0202000A 80 0

/-- The answer to its SYN, with an acknowledgement number. -/
def peerAnswer (ack : UInt32) : NetOp := .netstackHandlePacket (peerFrame 40 500 ack 0x50 0x12 []) 54 none

def idleStack : Stack := tcpInit (fun _ => blankSocket Buf.zero) 0x0F02000A

instance (s : Stack) (op : NetOp) : Decidable (s.Admits op) := by
  cases op <;> dsimp only [Stack.Admits] <;> infer_instance

end LiwusOS.Net
