import LiwusOS.Lib.Runs
import LiwusOS.Net.TcpSteps

/-! # The handshake

The handler takes the sequence number of a socket from the segment that ends the
handshake, and later from every acknowledgement that is larger. -/

namespace LiwusOS.Net
open LiwusOS.Lib Relation

/-- What has happened to a socket: the sequence number of the SYN or SYN-ACK that
it sent, whether a segment has acknowledged it, whether the socket has been
ESTABLISHED, the bytes that `tcp_send` took, and whether it has been closed. -/
structure Record where
  iss : UInt32
  acked : Bool
  opened : Bool
  bytes : Nat
  closed : Bool

namespace Record

/-- The sequence number that the socket ought to have. -/
def expected (c : Record) : UInt32 := c.iss + 1 + UInt32.ofNat c.bytes + if c.closed then 1 else 0

/-- After an operation that took the socket from `x` to `y`. -/
def note (c : Record) (op : NetOp) (x y : TcpSocket) : Record where
  iss := c.iss
  acked := match op with
    | .netstackHandlePacket data _ _ => c.acked || (frameHeader data).ackNum = c.iss + 1
    | _ => c.acked
  opened := c.opened || y.state = .established
  bytes := match op with
    | .tcpSend _ data => if x.state = .established then c.bytes + data.length else c.bytes
    | _ => c.bytes
  closed := match op with
    | .tcpClose _ => true
    | _ => c.closed

end Record

namespace Stack

/-- The sequence number of the first packet that an operation sends. -/
def synSeq (s : Stack) : NetOp → UInt32
  | .netstackHandlePacket data len child =>
    match (s.netstackHandlePacket data len child).sent with
    | p :: _ => p.seq
    | [] => 0
  | .tcpConnect addr buffer destIp destPort timerTicks => (s.tcpConnect addr buffer destIp destPort timerTicks).2.seq
  | _ => 0

end Stack

structure Ledger where
  stack : Stack
  record : Nat → Record

namespace Ledger

def exec (r : Ledger) (op : NetOp) : Ledger where
  stack := r.stack.exec op
  record := match r.stack.fresh op, r.stack.target op with
    | some (a, _), _ => Function.update r.record a ⟨r.stack.synSeq op, false, false, 0, false⟩
    | none, some a =>
      Function.update r.record a ((r.record a).note op (r.stack.sock a) ((r.stack.exec op).sock a))
    | none, none => r.record

def Step (r r' : Ledger) : Prop := ∃ op, r.stack.Admits op ∧ r' = r.exec op

/-- A socket in state ESTABLISHED has had its SYN acknowledged, and the sequence
number of a socket that was ESTABLISHED moves with what the socket sends. -/
structure Validated (r : Ledger) : Prop where
  acked : ∀ a ∈ r.stack.sockets, (r.stack.sock a).state = .established → (r.record a).acked
  moved : ∀ a ∈ r.stack.sockets, (r.record a).opened → (r.stack.sock a).seqNum = (r.record a).expected

end Ledger

/-! ## One socket -/

/-- A socket and its record. -/
structure Tracked (x : TcpSocket) (c : Record) : Prop where
  syn : x.state = .synSent ∨ x.state = .synReceived → x.seqNum = c.iss + 1 ∧ c.opened = false
  established : x.state = .established → c.opened = true ∧ c.closed = false
  opened : c.opened → c.acked ∧ x.seqNum = c.expected
  closed : c.closed → x.state.Closing
  unopened : c.opened = false → c.bytes = 0

/-- An inbound segment acknowledges what the socket has sent. -/
def TcpSocket.Acknowledges (x : TcpSocket) (hdr : TcpHeader) : Prop :=
  match x.state with
  | .synReceived => has hdr.flags tcpAck → hdr.ackNum = x.seqNum
  | .synSent => has hdr.flags tcpSyn → has hdr.flags tcpAck → hdr.ackNum = x.seqNum
  | .established => has hdr.flags tcpAck → hdr.ackNum ≤ x.seqNum
  | _ => True

namespace Tracked
variable {x y : TcpSocket} {c : Record}

/-- The socket goes to a state that is not part of the handshake. -/
theorem leave (h : Tracked x c) (hseq : y.seqNum = x.seqNum)
    (hst : y.state ≠ .synSent ∧ y.state ≠ .synReceived ∧ y.state ≠ .established)
    (hclosed : c.closed → y.state.Closing) : Tracked y c where
  syn hs := absurd hs (not_or.mpr ⟨hst.1, hst.2.1⟩)
  established hs := absurd hs hst.2.2
  opened ho := by
    rw [hseq]
    exact h.opened ho
  closed := hclosed
  unopened := h.unopened

/-- The socket stays in its state. -/
theorem stay (h : Tracked x c) (hseq : y.seqNum = x.seqNum) (hst : y.state = x.state) : Tracked y c where
  syn hs := by
    rw [hseq]
    rw [hst] at hs
    exact h.syn hs
  established hs := h.established (hst ▸ hs)
  opened ho := by
    rw [hseq]
    exact h.opened ho
  closed hc := hst ▸ h.closed hc
  unopened := h.unopened

/-- A segment that acknowledges more. -/
theorem ack (h : Tracked x c) (b : Bool) : Tracked x { c with acked := c.acked || b } where
  syn := h.syn
  established := h.established
  opened ho := ⟨by simp [(h.opened ho).1], (h.opened ho).2⟩
  closed := h.closed
  unopened := h.unopened

/-- The handshake ends. -/
theorem opens (h : Tracked x c) (hx : x.state = .synSent ∨ x.state = .synReceived) (hseq : y.seqNum = x.seqNum)
    (hy : y.state = .established) (b : Bool) (hb : x.seqNum = c.iss + 1 → b = true) :
    Tracked y { c with acked := c.acked || b, opened := true } := by
  obtain ⟨hiss, hopened⟩ := h.syn hx
  have hclosed : c.closed = false := by
    by_contra hc
    rcases h.closed (by simpa using hc) with hs | hs | hs <;> rcases hx with hx | hx <;> rw [hx] at hs <;> cases hs
  refine ⟨fun hs => ?_, fun _ => ⟨rfl, hclosed⟩, fun _ => ⟨by simp [hb hiss], ?_⟩, fun hc => ?_, nofun⟩
  · rw [hy] at hs
    simp at hs
  · rw [hseq, hiss, Record.expected]
    simp [hclosed, h.unopened hopened]
  · exact absurd hc (by simp [hclosed])

section Input
variable {data : Buf} {len : UInt16} {child : Option (Nat × Buf)}

/-- A segment after which the socket is not newly ESTABLISHED. -/
theorem frame (h : Tracked y c) (hopen : y.state = .established → c.opened = true) :
    Tracked y (c.note (.netstackHandlePacket data len child) x y) := by
  have hnote : c.note (.netstackHandlePacket data len child) x y =
      { c with acked := c.acked || decide ((frameHeader data).ackNum = c.iss + 1) } := by
    have hopened : (c.opened || decide (y.state = .established)) = c.opened := by
      by_cases hy : y.state = .established
      · simp [hopen hy]
      · simp [hy]
    simp only [Record.note, hopened]
  rw [hnote]
  exact h.ack _

/-- A segment that ends the handshake. -/
theorem frame_opens (h : Tracked x c) (hx : x.state = .synSent ∨ x.state = .synReceived)
    (hack : (frameHeader data).ackNum = x.seqNum) (hseq : y.seqNum = (frameHeader data).ackNum)
    (hy : y.state = .established) : Tracked y (c.note (.netstackHandlePacket data len child) x y) := by
  have hnote : c.note (.netstackHandlePacket data len child) x y =
      { c with acked := c.acked || decide ((frameHeader data).ackNum = c.iss + 1), opened := true } := by
    simp only [Record.note, hy, decide_true, Bool.or_true]
  rw [hnote]
  exact h.opens hx (hseq.trans hack) hy _ fun hiss => decide_eq_true (hack.trans hiss)

theorem input_established (h : Tracked x c) (hst : x.state = .established)
    (hack : x.Acknowledges (frameHeader data)) :
    Tracked (x.input data) (c.note (.netstackHandlePacket data len child) x (x.input data)) := by
  obtain ⟨hopened, hclosed⟩ := h.established hst
  refine frame ?_ fun _ => hopened
  rw [TcpSocket.Acknowledges, hst] at hack
  -- an acknowledgement of what was sent leaves the sequence number
  have hin := TcpSocket.established_reply hst data
  have hstate := hin.state
  split at hstate
  · refine h.leave (hin.seqNum hack) (hstate ▸ ⟨nofun, nofun, nofun⟩) fun hc => ?_
    rw [hclosed] at hc
    cases hc
  · exact h.stay (hin.seqNum hack) (hstate.trans hst.symm)

theorem input (h : Tracked x c) (hl : x.state ≠ .listen) (hack : x.Acknowledges (frameHeader data)) :
    Tracked (x.input data) (c.note (.netstackHandlePacket data len child) x (x.input data)) := by
  by_cases hst : x.state = .established
  · exact h.input_established hst hack
  obtain ⟨-, -, hmoves⟩ := TcpSocket.reply_other hst data
  change x.Moves _ (x.input data) at hmoves
  rw [TcpSocket.Acknowledges] at hack
  generalize x.input data = y at hmoves ⊢
  cases hmoves with
  | same => exact h.frame fun hs => absurd hs hst
  | answers hx => exact absurd hx hl
  | opens hflags hseq hy =>
    rcases hflags with ⟨hx, hflag⟩ | ⟨hx, hsyn, hflag⟩ <;> rw [hx] at hack
    · exact h.frame_opens (.inr hx) (hack hflag) hseq hy
    · exact h.frame_opens (.inl hx) (hack hsyn hflag) hseq hy
  | leaves hseq hy =>
    have hne : y.state ≠ .synSent ∧ y.state ≠ .synReceived ∧ y.state ≠ .established := by
      rcases hy with (hy | hy | hy) | ⟨hy, -⟩ <;> rw [hy] <;> decide
    refine (h.leave hseq hne fun hc => ?_).frame fun hs => absurd hs hne.2.2
    exact hy.resolve_right fun hclosed => hclosed.2 (h.closed hc)

end Input

/-- A socket that was ESTABLISHED before is not newly so. -/
theorem opened_or (h : Tracked x c) (hst : y.state = .established → x.state = .established) :
    (c.opened || decide (y.state = .established)) = c.opened := by
  by_cases hy : y.state = .established
  · simp [(h.established (hst hy)).1]
  · simp [hy]

theorem send (h : Tracked x c) (b : Nat) (data : List UInt8) :
    Tracked (x.send data) (c.note (.tcpSend b data) x (x.send data)) := by
  by_cases hst : x.state = .established
  · obtain ⟨hopened, hclosed⟩ := h.established hst
    have hsend : x.send data = { x with seqNum := x.seqNum + UInt32.ofNat data.length } := if_neg (not_not.mpr hst)
    rw [hsend]
    refine ⟨fun hs => ?_, fun _ => ⟨?_, hclosed⟩, fun _ => ⟨(h.opened hopened).1, ?_⟩, fun hc => ?_, fun hn => ?_⟩
    · change x.state = .synSent ∨ x.state = .synReceived at hs
      rw [hst] at hs
      simp at hs
    · simp [Record.note, hopened]
    · simp only [Record.note, Record.expected, hst, if_true, hclosed, UInt32.ofNat_add]
      rw [(h.opened hopened).2, Record.expected, hclosed]
      simp [UInt32.add_assoc]
    · change c.closed = true at hc
      rw [hclosed] at hc
      cases hc
    · simp [Record.note, hopened] at hn
  · have hsend : x.send data = x := if_pos hst
    have hnote : c.note (.tcpSend b data) x x = c := by
      simp only [Record.note, h.opened_or id, if_neg hst]
    rw [hsend, hnote]
    exact h

theorem close (h : Tracked x c) (b : Nat) (hst : ¬ x.state.Closing) :
    Tracked x.close (c.note (.tcpClose b) x x.close) := by
  have hclosed : c.closed = false := by
    by_contra hc
    exact hst (h.closed (by simpa using hc))
  have hnote : c.note (.tcpClose b) x x.close = { c with closed := true } := by
    simp [Record.note, TcpSocket.close]
  rw [hnote]
  refine ⟨nofun, nofun, fun ho => ⟨(h.opened ho).1, ?_⟩, fun _ => .inl rfl, h.unopened⟩
  show x.seqNum + 1 = _
  rw [(h.opened ho).2, Record.expected, Record.expected]
  simp [hclosed]

theorem receive (h : Tracked x c) (b : Nat) (len : UInt32) :
    Tracked (x.receive len) (c.note (.tcpReceive b len) x (x.receive len)) := by
  obtain ⟨-, hseq, -, hst⟩ := x.receive_kept len
  have hnote : c.note (.tcpReceive b len) x (x.receive len) = c := by
    simp only [Record.note, h.opened_or fun hs => hst.symm.trans hs]
  rw [hnote]
  exact h.stay hseq hst

/-- A socket that has just sent its SYN. -/
theorem sentSyn (hst : x.state = .synSent ∨ x.state = .synReceived) {iss : UInt32} (hseq : x.seqNum = iss + 1) :
    Tracked x ⟨iss, false, false, 0, false⟩ where
  syn _ := ⟨hseq, rfl⟩
  established hs := by
    rw [hs] at hst
    simp at hst
  opened := nofun
  closed := nofun
  unopened _ := rfl

end Tracked

/-! ## Runs -/

namespace Ledger
variable {r r' : Ledger} {op : NetOp} {a : Nat}

theorem record_new {x : TcpSocket} (h : r.stack.fresh op = some (a, x)) :
    (r.exec op).record a = ⟨r.stack.synSeq op, false, false, 0, false⟩ := by
  simp [exec, h]

theorem record_old (hadm : r.stack.Admits op) (ha : a ∈ r.stack.sockets) : (r.exec op).record a =
    if r.stack.target op = some a then (r.record a).note op (r.stack.sock a) ((r.stack.exec op).sock a)
    else r.record a := by
  cases hf : r.stack.fresh op with
  | some p =>
    have hne : a ≠ p.1 := fun heq => Stack.fresh_notMem hadm hf (heq ▸ ha)
    rw [Stack.target_of_fresh hf, if_neg nofun]
    simp [exec, hf, hne]
  | none =>
    cases ht : r.stack.target op with
    | none => simp [exec, hf, ht]
    | some b =>
      by_cases hab : a = b
      · subst hab
        simp [exec, hf, ht]
      · rw [if_neg fun heq => hab (Option.some.inj heq).symm]
        simp [exec, hf, ht, hab]

theorem fresh_tracked {s : Stack} {x : TcpSocket} (h : s.fresh op = some (a, x)) :
    Tracked x ⟨s.synSeq op, false, false, 0, false⟩ := by
  cases op with
  | netstackHandlePacket data len child =>
    rcases s.handle_cases data len child with ⟨_, -, -, hf, -⟩ | ⟨c, -, -, hsyn, -, hf, heq⟩ | ⟨-, hf, -⟩
    · cases h.symm.trans hf
    · cases h.symm.trans hf
      have hreply := listen_reply (x := Stack.requested data c.2) rfl hsyn
      have hseq : s.synSeq (.netstackHandlePacket data len child) = 1000 := by
        rw [Stack.synSeq, heq, Stack.answer, Stack.addSock_self, hreply]
        rfl
      have hsock : (Stack.requested data c.2).input data = _ := congrArg Reply.sock hreply
      rw [hseq, hsock]
      exact .sentSyn (.inr rfl) rfl
    · cases h.symm.trans hf
  | tcpConnect addr buffer destIp destPort timerTicks =>
    cases h
    exact .sentSyn (.inl rfl) rfl
  | tcpListen addr buffer port =>
    cases h
    refine ⟨?_, ?_, ?_, ?_, fun _ => rfl⟩
    · rintro (h | h) <;> cases h
    all_goals
      intro h
      cases h
  | _ => cases h

/-- Segments acknowledge what was sent, and a socket is closed once. -/
def Honest (s : Stack) : NetOp → Prop
  | .netstackHandlePacket data len child => ∀ a, s.target (.netstackHandlePacket data len child) = some a →
      (s.sock a).Acknowledges (frameHeader data)
  | .tcpClose a => ¬ (s.sock a).state.Closing
  | _ => True

def Inv (r : Ledger) : Prop := ∀ a ∈ r.stack.sockets, Tracked (r.stack.sock a) (r.record a)

theorem Inv.step (h : r.Inv) (hadm : r.stack.Admits op) (hh : Honest r.stack op) : (r.exec op).Inv := by
  refine Stack.forall_exec (P := fun a x => Tracked x ((r.exec op).record a)) hadm (fun a ha => ?_) fun a x hx => ?_
  · rw [record_old hadm ha, Stack.exec_sock hadm ha]
    have hold := h a ha
    by_cases ht : r.stack.target op = some a
    · rw [if_pos ht, if_pos ht]
      cases op with
      | netstackHandlePacket data len child =>
        exact hold.input (Stack.target_matches ht).2.state (hh a ht)
      | tcpSend b data => exact hold.send b data
      | tcpClose b =>
        cases ht
        exact hold.close a hh
      | tcpReceive b len => exact hold.receive b len
      | _ => cases ht
    · rw [if_neg ht, if_neg ht]
      exact hold
  · rw [record_new hx]
    exact fresh_tracked hx

theorem Inv.validated (h : r.Inv) : r.Validated where
  acked a ha hst := ((h a ha).opened ((h a ha).established hst).1).1
  moved a ha ho := ((h a ha).opened ho).2

def HonestStep (r r' : Ledger) : Prop := ∃ op, r.stack.Admits op ∧ Honest r.stack op ∧ r' = r.exec op

/-- **The handshake is validated** in every run in which the segments acknowledge
what the sockets have sent and no socket is closed twice. -/
theorem validated_of_honest {sock : Nat → TcpSocket} {myIp : UInt32} {record : Nat → Record}
    (hr : ReflTransGen HonestStep ⟨tcpInit sock myIp, record⟩ r) : r.Validated := by
  have hinv : r.Inv := by
    induction hr with
    | refl => exact nofun
    | tail _ hstep ih =>
      obtain ⟨op, hadm, hh, rfl⟩ := hstep
      exact ih.step hadm hh
  exact hinv.validated

/-! ## Concrete machines -/

def idle : Ledger := ⟨idleStack, fun _ => ⟨0, false, false, 0, false⟩⟩

/-- The sequence number of the SYN is 1. -/
theorem idle_answer :
    let r := idle.exec peerConnect
    r.stack.target (peerAnswer 2) = some 1 ∧ (r.stack.sock 1).state = .synSent ∧ (r.stack.sock 1).seqNum = 2 ∧
      ((r.exec (peerAnswer 2)).stack.sock 1).state = .established := by
  decide +kernel

theorem validated_answer : ∃ r, ReflTransGen HonestStep idle r ∧
    (r.stack.sock 1).state = .established ∧ r.Validated := by
  obtain ⟨ht, hst, hseq, hopen⟩ := idle_answer
  have h1 : HonestStep idle (idle.exec peerConnect) := ⟨peerConnect, List.not_mem_nil, trivial, rfl⟩
  have h2 : HonestStep (idle.exec peerConnect) ((idle.exec peerConnect).exec (peerAnswer 2)) := by
    refine ⟨peerAnswer 2, nofun, fun a ha => ?_, rfl⟩
    cases ht.symm.trans ha
    rw [TcpSocket.Acknowledges, hst]
    intro _ _
    rw [hseq]
    decide +kernel
  have hr := ReflTransGen.refl.tail h1 |>.tail h2
  exact ⟨_, hr, hopen, validated_of_honest hr⟩

/-- A later acknowledgement of bytes that were never sent. -/
def forgedAck : NetOp := .netstackHandlePacket (peerFrame 40 501 90000 0x50 0x10 []) 54 none

/-- Any acknowledgement number ends the handshake, and a later one moves the
sequence number. -/
theorem forged_ack_accepted :
    (∃ r, ReflTransGen Step idle r ∧ ∃ a ∈ r.stack.sockets,
      (r.stack.sock a).state = .established ∧ (r.record a).acked = false) ∧
    ∃ r, ReflTransGen Step idle r ∧ ∃ a ∈ r.stack.sockets,
      (r.record a).opened = true ∧ (r.stack.sock a).seqNum ≠ (r.record a).expected := by
  have hstep : ∀ {r op r'}, r.stack.Admits op → some (r.exec op) = some r' → Step r r' :=
    fun h hr => ⟨_, h, (Option.some.inj hr).symm⟩
  exact ⟨exists_run (fun _ r op => some (r.exec op)) (fun r op => r.stack.Admits op) hstep
      [(peerConnect, 0), (peerAnswer 77, 0)] (by decide +kernel),
    exists_run (fun _ r op => some (r.exec op)) (fun r op => r.stack.Admits op) hstep
      [(peerConnect, 0), (peerAnswer 2, 0), (forgedAck, 0)] (by decide +kernel)⟩

end Ledger
end LiwusOS.Net
