import LiwusOS.Net.TcpAck

/-! # The receive buffer as a queue

The handler drops a segment that does not fit, and starts the buffer anew only when
nothing is left to read. So the buffer is a queue of the segments that were not
dropped, whatever their order. -/

namespace LiwusOS.Net.Session
open LiwusOS.Lib Relation

/-- A data segment without FIN for the connection, or a call of `tcp_receive`. -/
def IsQueueOp (a : Nat) (s : Stack) : NetOp → Prop
  | .netstackHandlePacket data len child => s.target (.netstackHandlePacket data len child) = some a ∧
      has (frameHeader data).flags tcpFin = false ∧ 1 ≤ (framePayloadLen data).toNat ∧
      (framePayloadLen data).toNat ≤ 1460
  | .tcpReceive b _ => b = a
  | _ => False

/-- A step, with the bytes copied from the segments so far. -/
def QueueStep (a : Nat) (p q : Session × List UInt8) : Prop :=
  ∃ op, p.1.stack.Admits op ∧ IsQueueOp a p.1.stack op ∧ q = (exec a p.1 op, p.2 ++ arrived a p.1 op)

/-- An established connection whose pointers are in order. -/
structure Open (s : Stack) (a : Nat) : Prop where
  mem : a ∈ s.sockets
  state : (s.sock a).state = .established
  inBounds : (s.sock a).InBounds ∧ (s.sock a).recvBufferSize = 32768

/-- The segment is acknowledged and copied as a whole, or neither. -/
def AllOrNothing (s : Stack) (a : Nat) (data : Buf) (len : UInt16) (child : Option (Nat × Buf)) : Prop :=
  let h := s.netstackHandlePacket data len child
  h.copied = (framePayloadLen data).toNat ∧ (h.stack.sock a).ackNum = (s.sock a).ackNum + framePayloadLen data ∨
    h.copied = 0 ∧ (h.stack.sock a).ackNum = (s.sock a).ackNum

variable {a : Nat} {r : Session} {op : NetOp}

theorem Open.allOrNothing {s : Stack} (h : Open s a) {data : Buf} {len : UInt16} {child : Option (Nat × Buf)}
    (hop : IsQueueOp a s (.netstackHandlePacket data len child)) : AllOrNothing s a data len child := by
  obtain ⟨ht, hfin, -, -⟩ := hop
  have hin := TcpSocket.established_reply h.state data
  have hack : ((s.sock a).input data).ackNum = _ := hin.ackNum
  rw [hfin, if_neg Bool.false_ne_true, UInt32.add_zero] at hack
  simp only [AllOrNothing, Stack.handle_target ht, Stack.answer, Stack.setSock_sock, if_true]
  rw [hack, hin.copied]
  rcases (s.sock a).stored_cases (framePayloadLen data) with hall | hnone
  · rw [hall]
    exact .inl ⟨rfl, rfl⟩
  · rw [hnone, UInt32.add_zero]
    exact .inr ⟨rfl, rfl⟩

theorem Open.step (h : Open r.stack a) (hadm : r.stack.Admits op) (hop : IsQueueOp a r.stack op) :
    Open (exec a r op).stack a ∧ (exec a r op).taken a = r.taken a ++ arrived a r op := by
  have hend : op ≠ .connectEnd a := fun heq => by
    subst heq
    exact hop
  have hsmall : Small a r op := by
    cases op with
    | netstackHandlePacket data len child => exact fun _ => hop.2.2.2.trans (by decide)
    | _ => trivial
  obtain ⟨hmem, hin, htaken⟩ := step_taken h.mem h.inBounds hadm hend hsmall
  refine ⟨⟨hmem, ?_, hin⟩, htaken⟩
  have hsock : (exec a r op).stack.sock a = _ := Stack.exec_sock hadm h.mem
  rw [hsock]
  cases op with
  | netstackHandlePacket data len child =>
    rw [if_pos hop.1]
    refine (TcpSocket.established_reply h.state data).state.trans ?_
    rw [hop.2.1, if_neg Bool.false_ne_true]
  | tcpReceive b len =>
    obtain rfl : b = a := hop
    rw [if_pos (c := r.stack.target (.tcpReceive b len) = some b) rfl]
    exact (TcpSocket.receive_kept _ len).2.2.2.trans h.state
  | _ => exact hop.elim

/-- **The receive buffer is a lossless queue**: what `tcp_receive` returned and what
is still buffered are the segments that were not dropped, in the order of arrival. -/
theorem receive_lossless {s : Stack} (hs : Open s a) {q : Session × List UInt8}
    (hr : ReflTransGen (QueueStep a) (⟨s, []⟩, []) q) :
    q.1.received ++ (q.1.stack.sock a).buffered = (s.sock a).buffered ++ q.2 ∧
      ∀ data len child, IsQueueOp a q.1.stack (.netstackHandlePacket data len child) →
        AllOrNothing q.1.stack a data len child := by
  have hinv : Open q.1.stack a ∧ q.1.taken a = (s.sock a).buffered ++ q.2 := by
    induction hr with
    | refl => exact ⟨hs, (List.append_nil _).symm⟩
    | tail _ hstep ih =>
      obtain ⟨op, hadm, hop, rfl⟩ := hstep
      obtain ⟨hopen, htaken⟩ := ih.1.step hadm hop
      refine ⟨hopen, ?_⟩
      rw [htaken, ih.2, List.append_assoc]
  exact ⟨hinv.2, fun data len child => hinv.1.allOrNothing⟩

theorem receive_lossless_opened : ∃ q, ReflTransGen (QueueStep 1) (⟨opened, []⟩, []) q ∧ q.1.received = [65] ∧
    q.1.received ++ (q.1.stack.sock 1).buffered = (opened.sock 1).buffered ++ q.2 := by
  have hmem : 1 ∈ (opened.exec deliverFirst).sockets := Stack.mem_exec opened_connected.mem nofun
  have hop : IsQueueOp 1 opened deliverFirst := by
    unfold IsQueueOp deliverFirst
    decide +kernel
  have h1 : QueueStep 1 (⟨opened, []⟩, []) _ := ⟨deliverFirst, nofun, hop, rfl⟩
  have h2 : QueueStep 1 (exec 1 ⟨opened, []⟩ deliverFirst, arrived 1 ⟨opened, []⟩ deliverFirst) _ :=
    ⟨.tcpReceive 1 10, hmem, rfl, rfl⟩
  have hr := ReflTransGen.refl.tail h1 |>.tail h2
  have hopen : Open opened 1 := ⟨opened_connected.mem, opened_connected.state,
    ⟨opened_connected.empty ▸ UInt32.le_refl _, opened_connected.inside⟩, opened_connected.size⟩
  exact ⟨_, hr, opened_received.1, (receive_lossless hopen hr).1⟩

end LiwusOS.Net.Session
