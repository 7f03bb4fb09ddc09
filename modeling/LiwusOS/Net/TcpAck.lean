import LiwusOS.Net.TcpStream
import Mathlib.Data.List.GetD

/-! # What the acknowledgements of a connection cover

A FIN is acknowledged whether or not the data of its segment was put into the
buffer. Its position in the stream is that of the first byte that was not. -/

namespace LiwusOS.Net
open LiwusOS.Lib List Relation Option

variable {data : Buf} {n : Nat} {child : Option (Nat × Buf)} {s : Stack} {ipLen len : UInt16}
  {ack seq : UInt32} {flags off : UInt8}

/-! ## The peer -/

/-- The packets that an operation sends for a socket of the list. -/
def Stack.sentBy (s : Stack) (a : Nat) : NetOp → List Packet
  | .netstackHandlePacket data len child =>
    if s.target (.netstackHandlePacket data len child) = some a then (s.netstackHandlePacket data len child).sent
    else []
  | .tcpSend b data => if b = a then (s.tcpSend b data).2.2 else []
  | .tcpClose b => if b = a then [(s.tcpClose b).2] else []
  | .connectRetry b => if b = a then (s.connectRetry b).toList else []
  | _ => []

/-- A connection with how much its peer takes for acknowledged: a number of bytes,
or one more than the stream has when the FIN is acknowledged too. -/
structure Peer where
  session : Session
  acked : Nat

/-- An acknowledgement number comes in when everything up to position `k` is acknowledged. -/
def ackedTo (base : UInt32) (k : Nat) (ack : UInt32) : Nat := k + (ack - (base + UInt32.ofNat k)).toNat

theorem ackedTo_add (base : UInt32) (k : Nat) (d : UInt32) :
    ackedTo base k (base + UInt32.ofNat k + d) = k + d.toNat := by
  have hsub : base + UInt32.ofNat k + d - (base + UInt32.ofNat k) = d := by grind
  rw [ackedTo, hsub]

/-- Positions are counted modulo 2^32 in sequence numbers. -/
theorem position_add (base : UInt32) (k : Nat) (d : UInt32) :
    base + UInt32.ofNat (k + d.toNat) = base + UInt32.ofNat k + d := by
  rw [UInt32.ofNat_add, UInt32.ofNat_toNat, UInt32.add_assoc]

theorem position_fin (base : UInt32) (k : Nat) (d : UInt32) (fin : Bool) :
    base + UInt32.ofNat (k + d.toNat + if fin then 1 else 0) =
      base + UInt32.ofNat k + d + if fin then 1 else 0 := by
  cases fin with
  | false => exact (position_add base k d).trans (UInt32.add_zero _).symm
  | true => exact (position_add base (k + d.toNat) 1).trans (congrArg (· + 1) (position_add base k d))

/-- The acknowledgements of a segment, taken together. -/
theorem foldl_ackedTo (base : UInt32) (k : Nat) (d : UInt32) (fin : Bool) :
    ((if d = 0 then [] else [base + UInt32.ofNat k + d]) ++
      (if fin then [base + UInt32.ofNat k + d + 1] else [])).foldl (ackedTo base) k =
    k + d.toNat + if fin then 1 else 0 := by
  have hdata : (if d = 0 then [] else [base + UInt32.ofNat k + d]).foldl (ackedTo base) k = k + d.toNat := by
    split
    · rename_i hd
      rw [hd]
      rfl
    · exact ackedTo_add base k d
  rw [foldl_append, hdata, ← position_add]
  cases fin with
  | false => rfl
  | true => exact ackedTo_add base (k + d.toNat) 1

namespace Peer

def exec (base : UInt32) (a : Nat) (p : Peer) (op : NetOp) : Peer where
  session := p.session.exec a op
  acked := (p.session.stack.sentBy a op).foldl (fun k q => ackedTo base k q.ack) p.acked

/-- Data and the FIN come in sequence: from the first byte that is not acknowledged
on, and the FIN with the last byte or behind it. The connection is not closed on
this side. -/
def InSequence (stream : List UInt8) (base : UInt32) (a : Nat) (p : Peer) : NetOp → Prop
  | .netstackHandlePacket data len child =>
    p.session.stack.target (.netstackHandlePacket data len child) = some a →
    framePayloadLen data ≠ 0 ∨ has (frameHeader data).flags tcpFin →
      Carries stream base data len p.acked ∧ p.acked + (framePayloadLen data).toNat ≤ stream.length ∧
      (has (frameHeader data).flags tcpFin → p.acked + (framePayloadLen data).toNat = stream.length)
  | .tcpClose b => b ≠ a
  | .connectEnd b => b ≠ a
  | _ => True

def Small (a : Nat) (p : Peer) : NetOp → Prop
  | .netstackHandlePacket data len child =>
    p.session.stack.target (.netstackHandlePacket data len child) = some a → (framePayloadLen data).toNat ≤ 32768
  | _ => True

/-- The data of a segment with a FIN is stored. -/
def Kept (a : Nat) (p : Peer) : NetOp → Prop
  | .netstackHandlePacket data len child =>
    p.session.stack.target (.netstackHandlePacket data len child) = some a →
    has (frameHeader data).flags tcpFin →
      (p.session.stack.sock a).stored (framePayloadLen data) = framePayloadLen data
  | _ => True

def SeqStep (stream : List UInt8) (base : UInt32) (a : Nat) (p p' : Peer) : Prop :=
  ∃ op, p.session.stack.Admits op ∧ InSequence stream base a p op ∧ p' = exec base a p op

def KeptStep (stream : List UInt8) (base : UInt32) (a : Nat) (p p' : Peer) : Prop :=
  ∃ op, p.session.stack.Admits op ∧ InSequence stream base a p op ∧ Small a p op ∧ Kept a p op ∧
    p' = exec base a p op

/-- What is acknowledged has been stored, and the FIN is acknowledged behind all of it. -/
structure AckSound (stream : List UInt8) (a : Nat) (p : Peer) : Prop where
  covered : stream.take p.acked <+: p.session.taken a
  fin : stream.length < p.acked → p.acked = stream.length + 1 ∧ p.session.taken a = stream ∧
    (p.session.stack.sock a).state = .closeWait

/-- `tcp_receive` can return all that was sent. -/
def Returns (stream : List UInt8) (base : UInt32) (a : Nat) (p : Peer) : Prop :=
  ∃ len, (exec base a p (.tcpReceive a len)).session.received = stream

/-- Up to where the stream is stored, in either state of the connection. -/
structure Inv (stream : List UInt8) (base : UInt32) (a : Nat) (p : Peer) : Prop where
  mem : a ∈ p.session.stack.sockets
  inBounds : (p.session.stack.sock a).InBounds ∧ (p.session.stack.sock a).recvBufferSize = 32768
  ackNum : (p.session.stack.sock a).ackNum = base + UInt32.ofNat p.acked
  phase : ((p.session.stack.sock a).state = .established ∧ p.session.taken a = stream.take p.acked ∧
      p.acked ≤ stream.length) ∨
    ((p.session.stack.sock a).state = .closeWait ∧ p.session.taken a = stream ∧ p.acked = stream.length + 1)

variable {stream : List UInt8} {base : UInt32} {a : Nat} {p p' : Peer} {op : NetOp}

theorem Inv.ackSound (h : p.Inv stream base a) : p.AckSound stream a := by
  rcases h.phase with ⟨-, htaken, hle⟩ | ⟨hst, htaken, heq⟩
  · exact ⟨htaken ▸ prefix_rfl, fun hlt => absurd hle (Nat.not_le_of_lt hlt)⟩
  · exact ⟨htaken ▸ List.take_prefix .., fun _ => ⟨heq, htaken, hst⟩⟩

theorem exec_target (hadm : p.session.stack.Admits op) (ha : a ∈ p.session.stack.sockets)
    (ht : p.session.stack.target op = some a) :
    (exec base a p op).session.stack.sock a = op.effect (p.session.stack.sock a) := by
  refine (Stack.exec_sock hadm ha).trans ?_
  rw [if_pos ht]

theorem sentBy_input (ht : s.target (.netstackHandlePacket data len child) = some a) :
    s.sentBy a (.netstackHandlePacket data len child) = ((s.sock a).reply data).sent := by
  rw [Stack.sentBy, if_pos ht, Stack.handle_target ht]
  rfl

/-- A step that leaves alone what the peer can tell of the connection. -/
theorem Inv.keep (h : p.Inv stream base a) (hadm : p.session.stack.Admits op) (hend : op ≠ .connectEnd a)
    (hsmall : Small a p op) (harrived : Session.arrived a p.session op = [])
    (hack : ((exec base a p op).session.stack.sock a).ackNum = (p.session.stack.sock a).ackNum)
    (hst : ((exec base a p op).session.stack.sock a).state = (p.session.stack.sock a).state)
    (hacked : (exec base a p op).acked = p.acked) : (exec base a p op).Inv stream base a := by
  obtain ⟨hmem, hin, htaken⟩ := Session.step_taken h.mem h.inBounds hadm hend hsmall
  rw [harrived, append_nil] at htaken
  refine ⟨hmem, hin, by rw [hack, hacked, h.ackNum], ?_⟩
  rw [hst, hacked]
  exact htaken.symm ▸ h.phase

theorem Inv.state_ne (h : p.Inv stream base a) {t : TcpState} (h1 : t ≠ .established) (h2 : t ≠ .closeWait) :
    (p.session.stack.sock a).state ≠ t := by
  rcases h.phase with ⟨hst, -⟩ | ⟨hst, -⟩ <;> rw [hst]
  · exact h1.symm
  · exact h2.symm

/-- An operation on other sockets sends nothing for this one. -/
theorem sentBy_other (ht : s.target op ≠ some a) (hst : (s.sock a).state ≠ .synSent) : s.sentBy a op = [] := by
  cases op with
  | netstackHandlePacket data len child => exact if_neg ht
  | tcpSend b data => exact if_neg fun heq => ht (congrArg some heq)
  | tcpClose b => exact if_neg fun heq => ht (congrArg some heq)
  | connectRetry b =>
    rw [Stack.sentBy]
    split
    · rename_i heq
      subst heq
      rw [Stack.connectRetry, if_neg hst]
      rfl
    · rfl
  | _ => rfl

section
variable (h : p.Inv stream base a)
include h

theorem Inv.other (hadm : p.session.stack.Admits op)
    (ht : p.session.stack.target op ≠ some a) (hend : op ≠ .connectEnd a) : (exec base a p op).Inv stream base a := by
  have hsock : (exec base a p op).session.stack.sock a = p.session.stack.sock a := by
    refine (Stack.exec_sock hadm h.mem).trans ?_
    rw [if_neg ht]
  have hsmall : Small a p op := by
    cases op with
    | netstackHandlePacket data len child => exact fun hc => absurd hc ht
    | _ => trivial
  refine h.keep hadm hend hsmall (Session.arrived_other ht) ?_ ?_ ?_
  · rw [hsock]
  · rw [hsock]
  · rw [exec, sentBy_other ht (h.state_ne nofun nofun)]
    rfl

section
variable (hadm : p.session.stack.Admits (.netstackHandlePacket data len child))
  (ht : p.session.stack.target (.netstackHandlePacket data len child) = some a)
  (hseq : InSequence stream base a p (.netstackHandlePacket data len child))
  (hsmall : Small a p (.netstackHandlePacket data len child))
include hadm ht hseq hsmall

/-- The socket and the stream behind a segment, whether or not it is kept. -/
theorem Inv.segment (hst : (p.session.stack.sock a).state = .established)
    (htaken : p.session.taken a = stream.take p.acked) :
    let d := (p.session.stack.sock a).stored (framePayloadLen data)
    let fin := has (frameHeader data).flags tcpFin
    let q := exec base a p (.netstackHandlePacket data len child)
    q.acked = p.acked + d.toNat + (if fin then 1 else 0) ∧
      (q.session.stack.sock a).ackNum = base + UInt32.ofNat q.acked ∧
      (q.session.stack.sock a).state = (if fin then .closeWait else .established) ∧
      q.session.taken a = stream.take (p.acked + d.toNat) := by
  intro d fin q
  have hsock : q.session.stack.sock a = (p.session.stack.sock a).input data := exec_target hadm h.mem ht
  have hin := TcpSocket.established_reply hst data
  have hacked : q.acked = p.acked + d.toNat + (if fin then 1 else 0) := by
    have hfold : q.acked = ((p.session.stack.sentBy a (.netstackHandlePacket data len child)).map Packet.ack).foldl
        (ackedTo base) p.acked := foldl_map.symm
    rw [hfold, sentBy_input ht, hin.sent, h.ackNum]
    exact foldl_ackedTo base p.acked d fin
  refine ⟨hacked, ?_, hsock ▸ hin.state, ?_⟩
  · have hack : ((p.session.stack.sock a).input data).ackNum = _ := hin.ackNum
    rw [hsock, hack, h.ackNum, hacked, position_fin]
  · have hq : q.session.taken a = _ := (Session.step_taken h.mem h.inBounds hadm nofun hsmall).2.2
    rw [hq, Session.arrived, if_pos ht, Stack.handle_target ht, Stack.answer, hin.copied, htaken, take_add]
    refine congrArg (stream.take p.acked ++ ·) ?_
    change (framePayload data).bytes 0 d.toNat = _
    by_cases hd : d = 0
    · rw [hd]
      rfl
    · have hall : d = framePayloadLen data := ((p.session.stack.sock a).stored_cases _).resolve_right hd
      rw [hall] at hd ⊢
      exact (hseq ht (.inl hd)).1.payload

/-- A segment is delivered to the connection. -/
theorem Inv.input (hkept : Kept a p (.netstackHandlePacket data len child)) :
    (exec base a p (.netstackHandlePacket data len child)).Inv stream base a := by
  obtain ⟨hmem, hbounds, -⟩ := Session.step_taken h.mem h.inBounds hadm nofun hsmall
  have hsock : (exec base a p (.netstackHandlePacket data len child)).session.stack.sock a =
      (p.session.stack.sock a).input data := exec_target hadm h.mem ht
  rcases h.phase with ⟨hst, htaken, hle⟩ | ⟨hst, htaken, heq⟩
  · obtain ⟨hacked, hack, hstate, htaken'⟩ := h.segment hadm ht hseq hsmall hst htaken
    refine ⟨hmem, hbounds, hack, ?_⟩
    by_cases hfin : has (frameHeader data).flags tcpFin = true
    · -- the FIN comes with the last byte of the stream, and that is stored
      have hend := (hseq ht (.inr hfin)).2.2 hfin
      rw [hkept ht hfin] at hacked htaken'
      rw [if_pos hfin, hend] at hacked
      rw [if_pos hfin] at hstate
      rw [hend, take_length] at htaken'
      exact .inr ⟨hstate, htaken', hacked⟩
    · rw [if_neg hfin] at hacked hstate
      refine .inl ⟨hstate, ?_, ?_⟩
      · rw [htaken', hacked]
        rfl
      · rw [hacked]
        by_cases hd : (p.session.stack.sock a).stored (framePayloadLen data) = 0
        · rw [hd]
          exact hle
        · have hall := ((p.session.stack.sock a).stored_cases _).resolve_right hd
          rw [hall] at hd ⊢
          exact (hseq ht (.inl hd)).2.1
  · -- behind the FIN nothing is read any more
    have hreply : (p.session.stack.sock a).reply data = ignore (p.session.stack.sock a) := by
      rw [TcpSocket.reply, tcpInput, hst]
    have hsame : (p.session.stack.sock a).input data = p.session.stack.sock a := congrArg Reply.sock hreply
    refine h.keep hadm nofun hsmall ?_ ?_ ?_ ?_
    · rw [Session.arrived, if_pos ht, Stack.handle_target ht, Stack.answer, hreply]
      rfl
    · rw [hsock, hsame]
    · rw [hsock, hsame]
    · rw [exec, sentBy_input ht, hreply]
      rfl

end

/-- The application sends data. -/
theorem Inv.send (data : List UInt8) : (exec base a p (.tcpSend a data)).Inv stream base a := by
  have hsock : (exec base a p (.tcpSend a data)).session.stack.sock a = (p.session.stack.sock a).send data :=
    exec_target (show p.session.stack.Admits (.tcpSend a data) from h.mem) h.mem rfl
  have hsame : ((p.session.stack.sock a).send data).ackNum = (p.session.stack.sock a).ackNum ∧
      ((p.session.stack.sock a).send data).state = (p.session.stack.sock a).state := by
    rw [TcpSocket.send]
    split <;> exact ⟨rfl, rfl⟩
  refine h.keep h.mem (by simp) trivial rfl (hsock ▸ hsame.1) (hsock ▸ hsame.2) ?_
  rw [exec, Stack.sentBy, if_pos rfl, Stack.tcpSend]
  dsimp only
  split
  · rfl
  · -- the packet repeats the acknowledgement
    have hzero := ackedTo_add base p.acked 0
    rw [UInt32.add_zero, ← h.ackNum] at hzero
    exact hzero

/-- The application receives bytes. -/
theorem Inv.receive (len : UInt32) : (exec base a p (.tcpReceive a len)).Inv stream base a := by
  have hsock : (exec base a p (.tcpReceive a len)).session.stack.sock a = (p.session.stack.sock a).receive len :=
    exec_target (show p.session.stack.Admits (.tcpReceive a len) from h.mem) h.mem rfl
  obtain ⟨-, -, hack, hst⟩ := (p.session.stack.sock a).receive_kept len
  exact h.keep h.mem nofun trivial rfl (hsock ▸ hack) (hsock ▸ hst) rfl

theorem Inv.step (hadm : p.session.stack.Admits op) (hseq : InSequence stream base a p op)
    (hsmall : Small a p op) (hkept : Kept a p op) : (exec base a p op).Inv stream base a := by
  cases op with
  | netstackHandlePacket data len child =>
    by_cases ht : p.session.stack.target (.netstackHandlePacket data len child) = some a
    · exact h.input hadm ht hseq hsmall hkept
    · exact h.other hadm ht nofun
  | tcpSend b data =>
    by_cases hb : b = a
    · exact hb ▸ h.send data
    · exact h.other hadm (fun ht => hb (some.inj ht)) nofun
  | tcpReceive b len =>
    by_cases hb : b = a
    · exact hb ▸ h.receive len
    · exact h.other hadm (fun ht => hb (some.inj ht)) nofun
  | tcpClose b => exact h.other hadm (fun ht => hseq (some.inj ht)) nofun
  | connectEnd b => exact h.other hadm nofun fun heq => hseq (NetOp.connectEnd.inj heq)
  | tcpConnect addr buffer destIp destPort timerTicks => exact h.other hadm nofun nofun
  | connectRetry b => exact h.other hadm nofun nofun
  | tcpListen addr buffer port => exact h.other hadm nofun nofun

/-- A FIN whose data is not stored is acknowledged in the place of a byte of the stream. -/
theorem Inv.kept_of_ackSound (hadm : p.session.stack.Admits op)
    (hseq : InSequence stream base a p op) (hsmall : Small a p op) (hsound : (exec base a p op).AckSound stream a) :
    Kept a p op := by
  cases op with
  | netstackHandlePacket data len child =>
    intro ht hfin
    obtain ⟨-, hroom, -⟩ := hseq ht (.inr hfin)
    by_contra hlost
    have hzero := ((p.session.stack.sock a).stored_cases _).resolve_left hlost
    have hsome : 0 < (framePayloadLen data).toNat := by
      refine Nat.pos_of_ne_zero fun hn => hlost ?_
      rw [hzero]
      exact (UInt32.toNat_inj.mp hn).symm
    rcases h.phase with ⟨hst, htaken, -⟩ | ⟨-, -, heq⟩
    · obtain ⟨hacked, -, -, htaken'⟩ := h.segment hadm ht hseq hsmall hst htaken
      rw [hzero, if_pos hfin] at hacked
      rw [hzero] at htaken'
      have hcovered := hsound.covered.length_le
      rw [hacked, htaken', length_take, length_take, UInt32.toNat_zero] at hcovered
      omega
    · omega
  | _ => exact trivial

end

theorem Stack.Connected.inv (hs : s.Connected a) (stream : List UInt8) :
    Inv stream (s.sock a).ackNum a ⟨⟨s, []⟩, 0⟩ where
  mem := hs.mem
  inBounds := ⟨⟨hs.empty ▸ UInt32.le_refl _, hs.inside⟩, hs.size⟩
  ackNum := (UInt32.add_zero _).symm
  phase := by
    refine .inl ⟨hs.state, ?_, Nat.zero_le _⟩
    exact TcpSocket.buffered_nil (by rw [hs.empty, UInt32.sub_self])

/-- Everything in the buffer can be read at once. -/
theorem receive_all (x : TcpSocket) : (x.receive 0xFFFFFFFF).buffered = [] := by
  rw [TcpSocket.receive]
  split
  · rename_i hempty
    exact TcpSocket.buffered_nil (by rw [hempty, UInt32.sub_self])
  · have hread : x.recvReadPtr + x.toRead 0xFFFFFFFF = x.recvWritePtr := by
      have hmax : ¬ (0xFFFFFFFF : UInt32) < x.recvWritePtr - x.recvReadPtr := by
        rw [UInt32.lt_iff_toNat_lt]
        exact Nat.not_lt_of_le (Nat.le_of_lt_succ (UInt32.toNat_lt _))
      rw [TcpSocket.toRead, if_neg hmax]
      grind
    rw [if_pos hread]
    exact TcpSocket.buffered_nil (UInt32.sub_self 0)

theorem Inv.returns (h : p.Inv stream base a) (hacked : p.acked = stream.length + 1) : p.Returns stream base a := by
  have htaken : p.session.taken a = stream := (h.ackSound.fin (hacked ▸ Nat.lt_succ_self _)).2.1
  have hall := Session.receive_taken (r := p.session) h.inBounds.1 0xFFFFFFFF
  rw [receive_all, append_nil, htaken] at hall
  refine ⟨0xFFFFFFFF, ?_⟩
  rw [exec, Session.exec]
  dsimp only
  rw [if_pos rfl, hall]

/-- **The acknowledgements cover only what is stored**, and when everything is
acknowledged `tcp_receive` can return the whole stream, in every run in which the
data of a segment with a FIN is stored. A segment in sequence for which this does not
hold is acknowledged too far. -/
theorem acks_sound {s : Stack} (hs : s.Connected a)
    (hr : ReflTransGen (KeptStep stream (s.sock a).ackNum a) ⟨⟨s, []⟩, 0⟩ p) :
    p.AckSound stream a ∧ (p.acked = stream.length + 1 → p.Returns stream (s.sock a).ackNum a) ∧
      ∀ op, p.session.stack.Admits op → InSequence stream (s.sock a).ackNum a p op → Small a p op →
        ((exec (s.sock a).ackNum a p op).AckSound stream a ↔ Kept a p op) := by
  have hinv : p.Inv stream (s.sock a).ackNum a := by
    induction hr with
    | refl => exact Stack.Connected.inv hs stream
    | tail _ hstep ih =>
      obtain ⟨op, hadm, hseq, hsmall, hkept, rfl⟩ := hstep
      exact ih.step hadm hseq hsmall hkept
  refine ⟨hinv.ackSound, hinv.returns,
    fun op hadm hseq hsmall => ⟨hinv.kept_of_ackSound hadm hseq hsmall, fun hkept => ?_⟩⟩
  exact (hinv.step hadm hseq hsmall hkept).ackSound

/-! ## Concrete machines -/

/-- A stream of one byte, with its FIN in the same segment. -/
def onlyByte : Buf := peerFrame 41 501 2 0x50 0x19 [65]

theorem onlyByte_acked : (exec (Session.opened.sock 1).ackNum 1 ⟨⟨Session.opened, []⟩, 0⟩
      (.netstackHandlePacket onlyByte 55 none)).acked = 2 ∧ (framePayloadLen onlyByte).toNat = 1 ∧
    (Session.opened.sock 1).stored (framePayloadLen onlyByte) = framePayloadLen onlyByte ∧
    (frameHeader onlyByte).seqNum = (Session.opened.sock 1).ackNum + UInt32.ofNat 0 ∧
    20 + (frameHeader onlyByte).dataOffset.toNat ≤ (Stack.ipLen onlyByte).toNat ∧
    14 + (Stack.ipLen onlyByte).toNat ≤ (55 : UInt16).toNat ∧
    (framePayload onlyByte).bytes 0 (framePayloadLen onlyByte).toNat =
      ([65].drop 0).take (framePayloadLen onlyByte).toNat := by
  decide +kernel

theorem acks_sound_onlyByte : ∃ p, ReflTransGen (KeptStep [65] (Session.opened.sock 1).ackNum 1)
      ⟨⟨Session.opened, []⟩, 0⟩ p ∧ p.acked = 2 ∧ p.AckSound [65] 1 ∧
    p.Returns [65] (Session.opened.sock 1).ackNum 1 := by
  obtain ⟨hacked, hlen, hstored, hseq, hheaders, hframe, hpayload⟩ := onlyByte_acked
  have hend : 0 + (framePayloadLen onlyByte).toNat = [(65 : UInt8)].length := by rw [hlen]; rfl
  have hstep : KeptStep [65] (Session.opened.sock 1).ackNum 1 ⟨⟨Session.opened, []⟩, 0⟩ _ :=
    ⟨.netstackHandlePacket onlyByte 55 none, nofun,
      fun _ _ => ⟨⟨hseq, hheaders, hframe, hpayload⟩, hend.le, fun _ => hend⟩,
      fun _ => hlen ▸ (by decide : 1 ≤ 32768), fun _ _ => hstored, rfl⟩
  have hsound := acks_sound Session.opened_connected (ReflTransGen.refl.tail hstep)
  exact ⟨_, ReflTransGen.refl.tail hstep, hacked, hsound.1, hsound.2.1 hacked⟩

/-- Behind the headers a frame without data is filled with zeros. -/
theorem peerFrame_zero {k : Nat} (h : 54 ≤ k) : peerFrame ipLen seq ack off flags [] k = 0 :=
  getD_eq_default _ _ h

/-- The bytes of such a frame. -/
theorem bytes_peerFrame (hoff : (frameHeader (peerFrame ipLen seq ack off flags [])).dataOffset.toNat = 20) :
    (framePayload (peerFrame ipLen seq ack off flags [])).bytes 0 n = List.replicate n 0 := by
  have hzero : ∀ k, framePayload (peerFrame ipLen seq ack off flags []) k = 0 := by
    intro k
    rw [framePayload, hoff]
    exact peerFrame_zero (by omega)
  exact Buf.bytes_const hzero 0 n

/-- The stream is 32769 zero bytes: one more than the buffer holds. -/
def zeroStream : List UInt8 := List.replicate 32769 0

/-- A segment of 1024 of them. -/
def zerosFrame (m : Nat) : Buf := peerFrame 1064 (501 + UInt32.ofNat (1024 * m)) 2 0x50 0x18 []
def zeros (m : Nat) : NetOp := .netstackHandlePacket (zerosFrame m) 1078 none

/-- The last one, with the FIN. -/
def lastFrame : Buf := peerFrame 41 (501 + UInt32.ofNat 32768) 2 0x50 0x19 []
def last : NetOp := .netstackHandlePacket lastFrame 55 none

/-- After `m` segments. -/
def filled : Nat → Peer
  | 0 => ⟨⟨Session.opened, []⟩, 0⟩
  | m + 1 => exec 501 1 (filled m) (zeros m)

/-- The headers of a frame, as far as `Carries` is about them. -/
def wellFormed (data : Buf) (len : UInt16) (k : Nat) (n : Nat) : Bool :=
  (frameHeader data).seqNum = 501 + UInt32.ofNat k && (frameHeader data).dataOffset.toNat = 20 &&
    20 + 20 ≤ (Stack.ipLen data).toNat && 14 + (Stack.ipLen data).toNat ≤ len.toNat &&
    (framePayloadLen data).toNat = n

theorem filled_facts : (Session.opened.sock 1).ackNum = 501 ∧
    (∀ m < 32, (filled m).acked = 1024 * m ∧ wellFormed (zerosFrame m) 1078 (1024 * m) 1024 ∧
      ! has (frameHeader (zerosFrame m)).flags tcpFin) ∧
    (filled 32).acked = 32768 ∧ wellFormed lastFrame 55 32768 1 ∧
    (exec 501 1 (filled 32) last).acked = 32769 ∧
    ((exec 501 1 (filled 32) last).session.stack.sock 1).recvWritePtr -
      ((exec 501 1 (filled 32) last).session.stack.sock 1).recvReadPtr = 32768 := by
  decide +kernel

theorem wellFormed.carries {k : Nat} (h : wellFormed (peerFrame ipLen seq ack off flags []) len k n)
    (hk : k + n ≤ 32769) :
    Carries zeroStream 501 (peerFrame ipLen seq ack off flags []) len k ∧
      (framePayloadLen (peerFrame ipLen seq ack off flags [])).toNat = n := by
  simp only [wellFormed, Bool.and_eq_true, decide_eq_true_eq] at h
  obtain ⟨⟨⟨⟨hseq, hoff⟩, hheaders⟩, hframe⟩, hlen⟩ := h
  refine ⟨⟨hseq, hoff ▸ hheaders, hframe, ?_⟩, hlen⟩
  have hmin : min n (32769 - k) = n := Nat.min_eq_left (by omega)
  rw [bytes_peerFrame hoff, hlen, zeroStream, drop_replicate, take_replicate, hmin]

theorem filled_run (m : Nat) (hm : m ≤ 32) :
    ReflTransGen (SeqStep zeroStream 501 1) ⟨⟨Session.opened, []⟩, 0⟩ (filled m) := by
  induction m with
  | zero => exact .refl
  | succ m ih =>
    obtain ⟨hacked, hwf, hfin⟩ := filled_facts.2.1 m hm
    refine (ih (Nat.le_of_succ_le hm)).tail ⟨zeros m, nofun, fun _ _ => ?_, rfl⟩
    obtain ⟨hcarries, hlen⟩ := wellFormed.carries hwf (by omega)
    have hroom : 1024 * m + 1024 ≤ zeroStream.length := by
      rw [zeroStream, length_replicate]
      omega
    have hend : (filled m).acked + (framePayloadLen (zerosFrame m)).toNat ≤ zeroStream.length := by
      rw [hacked, zerosFrame, hlen]
      exact hroom
    refine ⟨hacked ▸ hcarries, hend, fun h => ?_⟩
    rw [h] at hfin
    cases hfin

theorem exec_frame_received (p : Peer) (data : Buf) (len : UInt16) (child : Option (Nat × Buf)) :
    (exec base a p (.netstackHandlePacket data len child)).session.received = p.session.received := rfl

theorem filled_received (m : Nat) : (filled m).session.received = [] := by
  induction m with
  | zero => rfl
  | succ m ih => rw [filled, zeros, exec_frame_received, ih]

/-- Nothing has been read, and fewer bytes are buffered than are acknowledged. -/
theorem not_ackSound (hreceived : p.session.received = [])
    (hn : ((p.session.stack.sock a).recvWritePtr - (p.session.stack.sock a).recvReadPtr).toNat = n)
    (hacked : n < p.acked) (hlength : n < stream.length) : ¬ p.AckSound stream a := by
  intro hsound
  have hcovered := hsound.covered.length_le
  rw [Session.taken, hreceived, nil_append, TcpSocket.buffered, Buf.length_bytes, hn, length_take] at hcovered
  omega

/-- **The FIN is acknowledged although the last byte was not stored.** -/
theorem fin_acked_unstored : ∃ p, ReflTransGen (SeqStep zeroStream (Session.opened.sock 1).ackNum 1)
    ⟨⟨Session.opened, []⟩, 0⟩ p ∧ ¬ p.AckSound zeroStream 1 := by
  obtain ⟨hbase, -, hacked, hwf, hacked', hwindow⟩ := filled_facts
  rw [hbase]
  have hlength : zeroStream.length = 32769 := length_replicate
  obtain ⟨hcarries, hlen⟩ := wellFormed.carries hwf le_rfl
  have hlast : SeqStep zeroStream 501 1 (filled 32) (exec 501 1 (filled 32) last) := by
    have hend : (filled 32).acked + (framePayloadLen lastFrame).toNat = zeroStream.length := by
      rw [hacked, hlength, lastFrame, hlen]
    exact ⟨last, nofun, fun _ _ => ⟨hacked ▸ hcarries, hend.le, fun _ => hend⟩, rfl⟩
  refine ⟨_, (filled_run 32 le_rfl).tail hlast, ?_⟩
  refine not_ackSound ?_ (congrArg UInt32.toNat hwindow) ?_ ?_
  · rw [last, exec_frame_received, filled_received]
  · rw [hacked']
    decide
  · rw [hlength]
    decide

end Peer
end LiwusOS.Net
