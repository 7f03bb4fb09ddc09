import LiwusOS.Net.TcpSteps

/-! # A listening port

A connection request goes to the socket of an earlier connection between the same
addresses as long as that socket is in the list. Only `tcp_connect` takes a socket
from the list: that of an accepted connection stays there. -/

namespace LiwusOS.Net
open LiwusOS.Lib Relation

/-- A frame with a connection request for a port. -/
structure IsSyn (data : Buf) (port : UInt16) : Prop where
  tcp : Stack.isTcp data
  syn : has (frameHeader data).flags tcpSyn
  port : (frameHeader data).destPort = port

namespace Stack

/-- Socket `l` listens on a port. -/
structure Listening (s : Stack) (l : Nat) (port : UInt16) : Prop where
  mem : l ∈ s.sockets
  localPort : (s.sock l).localPort = port
  state : (s.sock l).state = .listen

/-- A socket is between the addresses of a frame. -/
def Between (s : Stack) (data : Buf) (a : Nat) : Prop :=
  s.Matches (data.u32 26) (frameHeader data).srcPort (frameHeader data).destPort a

/-- The earlier connections between the addresses of a frame have ended. -/
def Ended (s : Stack) (data : Buf) : Prop :=
  ∀ a ∈ s.sockets, s.Between data a → (s.sock a).state = .timeWait ∨ (s.sock a).state = .closed

/-- A request is answered with a SYN-ACK and leads to a socket in SYN_RECEIVED. -/
def Accepts (s : Stack) (data : Buf) (len : UInt16) (child : Option (Nat × Buf)) : Prop :=
  let h := s.netstackHandlePacket data len child
  (∃ p ∈ h.sent, p.flags = tcpSyn ||| tcpAck ∧ p.srcPort = (frameHeader data).destPort ∧
    p.destIp = data.u32 26 ∧ p.destPort = (frameHeader data).srcPort ∧ p.ack = (frameHeader data).seqNum + 1) ∧
  ∃ a ∈ h.stack.sockets, h.stack.Between data a ∧ (h.stack.sock a).state = .synReceived

/-- Any operation that does not end the listener itself. -/
def ListenStep (l : Nat) (s s' : Stack) : Prop :=
  ∃ op, s.Admits op ∧ op ≠ .tcpClose l ∧ op ≠ .connectEnd l ∧ s' = s.exec op

variable {s s' : Stack} {op : NetOp} {l : Nat} {port : UInt16} {data : Buf} {len : UInt16}
  {child : Option (Nat × Buf)}

/-- No segment is delivered to a listener, and the calls leave it as it is. -/
theorem Listening.step (h : s.Listening l port) (hstep : ListenStep l s s') : s'.Listening l port := by
  obtain ⟨op, hadm, hclose, hend, rfl⟩ := hstep
  have hsame : ((s.exec op).sock l).localPort = (s.sock l).localPort ∧
      ((s.exec op).sock l).state = (s.sock l).state := by
    rw [exec_sock hadm h.mem]
    split
    · rename_i ht
      cases op with
      | netstackHandlePacket data len child => exact absurd h.state (target_matches ht).2.state
      | tcpSend b data =>
        have hst : (s.sock l).state ≠ .established := by
          rw [h.state]
          nofun
        have hsend : (s.sock l).send data = s.sock l := if_pos hst
        rw [NetOp.effect, hsend]
        exact ⟨rfl, rfl⟩
      | tcpClose b =>
        cases ht
        exact absurd rfl hclose
      | tcpReceive b len =>
        obtain ⟨hport, -, -, hst⟩ := (s.sock l).receive_kept len
        exact ⟨hport, hst⟩
      | _ => cases ht
    · exact ⟨rfl, rfl⟩
  exact ⟨mem_exec h.mem hend, hsame.1.trans h.localPort, hsame.2.trans h.state⟩

theorem Listening.run (h : s.Listening l port) (hr : ReflTransGen (ListenStep l) s s') : s'.Listening l port := by
  induction hr with
  | refl => exact h
  | tail _ hstep ih => exact ih.step hstep

theorem tcpListen_listening (s : Stack) (l : Nat) (buffer : Buf) (port : UInt16) :
    (s.tcpListen l buffer port).Listening l port where
  mem := .head _
  localPort := by rw [tcpListen, addSock_self]
  state := by rw [tcpListen, addSock_self]

/-- The request reaches the listener if no socket is between its addresses. -/
theorem Listening.lookup (h : s.Listening l port) (hport : (frameHeader data).destPort = port)
    (hnone : ∀ a ∈ s.sockets, ¬ s.Between data a) : ∃ b, s.lookup data = (none, some b) :=
  findSocket_none hnone (.inr ⟨l, h.mem, h.localPort.trans hport.symm, h.state⟩)

/-- The socket of a request that reaches a listener. -/
theorem accepts_child {c : Nat × Buf} {b : Nat} (htcp : isTcp data) (hl : s.lookup data = (none, some b))
    (hsyn : has (frameHeader data).flags tcpSyn) : s.Accepts data len (some c) := by
  have hf : s.fresh (.netstackHandlePacket data len (some c)) ≠ none := by
    rw [fresh, hl, if_pos ⟨htcp, rfl, by simp, hsyn⟩]
    simp
  have hreply := listen_reply (x := requested data c.2) rfl hsyn
  have hsock : (requested data c.2).input data = _ := congrArg Reply.sock hreply
  rcases s.handle_cases data len (some c) with ⟨_, -, -, hn, -⟩ | ⟨_, hc, -, -, -, -, heq⟩ | ⟨-, hn, -⟩
  · exact absurd hn hf
  · cases hc
    rw [Accepts, heq, answer, addSock_self, hsock, hreply]
    refine ⟨⟨_, List.mem_singleton_self _, rfl, rfl, rfl, rfl, rfl⟩, c.1, .head _, ?_⟩
    rw [Between]
    refine ⟨⟨?_, ?_, ?_, ?_⟩, ?_⟩ <;> rw [setSock_sock, if_pos rfl] <;> first | rfl | (intro h; cases h)
  · exact absurd hn hf

/-- A socket of a connection that has ended answers nothing. -/
theorem sent_ended {a : Nat} (ht : s.target (.netstackHandlePacket data len child) = some a)
    (hst : (s.sock a).state = .timeWait ∨ (s.sock a).state = .closed) :
    (s.netstackHandlePacket data len child).sent = [] := by
  rw [handle_target ht, answer, TcpSocket.reply, tcpInput]
  rcases hst with hst | hst <;> rw [hst] <;> rfl

/-- Without memory for a socket nothing is answered. -/
theorem sent_noMemory (ht : s.target (.netstackHandlePacket data len none) = none) :
    (s.netstackHandlePacket data len none).sent = [] := by
  rcases s.handle_cases data len none with ⟨_, -, ht', -⟩ | ⟨_, hc, -⟩ | ⟨-, -, heq⟩
  · cases ht.symm.trans ht'
  · cases hc
  · rw [heq]

/-- **A request for a listening port is accepted if and only if no socket of an
earlier connection between its addresses is left in the list** and there is memory
for a new one. -/
theorem accepts_iff {s₀ : Stack} {buffer : Buf}
    (hr : ReflTransGen (ListenStep l) (s₀.tcpListen l buffer port) s) (hsyn : IsSyn data port)
    (hended : s.Ended data) : s.Accepts data len child ↔ child ≠ none ∧ ∀ a ∈ s.sockets, ¬ s.Between data a := by
  have hlisten := (tcpListen_listening s₀ l buffer port).run hr
  constructor
  · intro h
    obtain ⟨⟨p, hp, -⟩, -⟩ := h
    have htarget : s.target (.netstackHandlePacket data len child) = none := by
      refine Option.eq_none_iff_forall_ne_some.mpr fun a ht => ?_
      obtain ⟨hmem, hbetween⟩ := target_matches ht
      rw [sent_ended ht (hended a hmem hbetween)] at hp
      cases hp
    refine ⟨?_, fun a ha hbetween => ?_⟩
    · rintro rfl
      rw [sent_noMemory htarget] at hp
      cases hp
    · -- the search would have ended at this socket or before
      rw [target, if_pos hsyn.tcp] at htarget
      exact findSocket_ne_none ha hbetween htarget
  · rintro ⟨hchild, hnone⟩
    obtain ⟨c, rfl⟩ := Option.ne_none_iff_exists'.mp hchild
    obtain ⟨b, hb⟩ := hlisten.lookup hsyn.port hnone
    exact accepts_child hsyn.tcp hb hsyn.syn

/-! ## Concrete machines -/

/-- A frame from port 80 of 10.0.2.2 to port 49152 without data. -/
def bareFrame (seq : UInt32) (flags : UInt8) : Buf := peerFrame 40 seq 1001 0x50 flags []

/-- Port 49152 is listened on. -/
def listening : Stack := idleStack.tcpListen 1 Buf.zero 49152

theorem bareFrame_isSyn : IsSyn (bareFrame 9000 0x02) 49152 := by
  have h : isTcp (bareFrame 9000 0x02) ∧ has (frameHeader (bareFrame 9000 0x02)).flags tcpSyn ∧
      (frameHeader (bareFrame 9000 0x02)).destPort = 49152 := by decide +kernel
  exact ⟨h.1, h.2.1, h.2.2⟩

/-- A request, the acknowledgement that opens the connection, `tcp_close` and the
FIN of the peer. -/
def reqOp : NetOp := .netstackHandlePacket (bareFrame 500 0x02) 54 (some (2, Buf.zero))
def ackOp : NetOp := .netstackHandlePacket (bareFrame 501 0x10) 54 none
def finOp : NetOp := .netstackHandlePacket (bareFrame 501 0x11) 54 none

/-- A connection has been accepted and closed by both sides. -/
def served : Stack := (((listening.exec reqOp).exec ackOp).exec (.tcpClose 2)).exec finOp

theorem served_run : ReflTransGen (ListenStep 1) listening served := by
  have hreq : listening.Admits reqOp := by
    intro c hc
    cases hc
    exact fun hmem => absurd (List.mem_singleton.mp hmem) (by decide)
  have hclose : 2 ∈ ((listening.exec reqOp).exec ackOp).sockets := by decide +kernel
  exact ReflTransGen.refl |>.tail ⟨reqOp, hreq, nofun, nofun, rfl⟩
    |>.tail ⟨ackOp, nofun, nofun, nofun, rfl⟩ |>.tail ⟨.tcpClose 2, hclose, nofun, nofun, rfl⟩
    |>.tail ⟨finOp, nofun, nofun, nofun, rfl⟩

theorem served_end : served.sockets = [2, 1] ∧ (served.sock 1).state = .listen ∧
    (served.sock 2).state = .timeWait ∧
    (served.netstackHandlePacket (bareFrame 9000 0x02) 54 (some (3, Buf.zero))).sent.isEmpty := by
  decide +kernel

/-- A request from port 81 of the same host. -/
def otherRequest : Buf := (bareFrame 500 0x02).set 35 81

theorem otherRequest_isSyn : IsSyn otherRequest 49152 ∧ (frameHeader otherRequest).srcPort = 81 := by
  have h : isTcp otherRequest ∧ has (frameHeader otherRequest).flags tcpSyn ∧
      (frameHeader otherRequest).destPort = 49152 ∧ (frameHeader otherRequest).srcPort = 81 := by decide +kernel
  obtain ⟨h1, h2, h3, h4⟩ := h
  exact ⟨⟨h1, h2, h3⟩, h4⟩

theorem served_sockets {a : Nat} (ha : a ∈ served.sockets) : a = 2 ∨ a = 1 := by
  rw [served_end.1] at ha
  simpa using ha

/-- After the connection of port 80 a request of port 81 is accepted. -/
theorem served_accepts : ReflTransGen (ListenStep 1) listening served ∧ IsSyn otherRequest 49152 ∧
    served.Ended otherRequest ∧ served.Accepts otherRequest 54 (some (3, Buf.zero)) := by
  obtain ⟨-, hlisten, -⟩ := served_end
  have hnone : ∀ a ∈ served.sockets, ¬ served.Between otherRequest a := by
    intro a ha hbetween
    rcases served_sockets ha with rfl | rfl
    · have hport : (served.sock 2).remotePort = 80 := by decide +kernel
      have hsrc := hbetween.remotePort
      rw [hport, otherRequest_isSyn.2] at hsrc
      cases hsrc
    · exact hbetween.state hlisten
  have hended : served.Ended otherRequest := fun a ha hbetween => absurd hbetween (hnone a ha)
  exact ⟨served_run, otherRequest_isSyn.1, hended,
    (accepts_iff served_run otherRequest_isSyn.1 hended).mpr ⟨nofun, hnone⟩⟩

/-- **The next request of the same peer gets no answer.** -/
theorem request_after_close_ignored : ReflTransGen (ListenStep 1) listening served ∧
    IsSyn (bareFrame 9000 0x02) 49152 ∧
    served.Admits (.netstackHandlePacket (bareFrame 9000 0x02) 54 (some (3, Buf.zero))) ∧
    served.Ended (bareFrame 9000 0x02) ∧ ¬ served.Accepts (bareFrame 9000 0x02) 54 (some (3, Buf.zero)) := by
  obtain ⟨hsockets, hlisten, htimeWait, hsent⟩ := served_end
  refine ⟨served_run, bareFrame_isSyn, ?_, ?_, ?_⟩
  · intro c hc
    cases hc
    rw [hsockets]
    decide
  · intro a ha hbetween
    rcases served_sockets ha with rfl | rfl
    · exact .inl htimeWait
    · exact absurd hlisten hbetween.state
  · rintro ⟨⟨p, hp, -⟩, -⟩
    rw [List.isEmpty_iff.mp hsent] at hp
    cases hp

end Stack
end LiwusOS.Net
