import LiwusOS.Lib.Runs
import LiwusOS.Net.TcpSteps

/-! # The receive buffer of a socket

The handler trusts the lengths in the headers: the length of the frame itself
is not looked at, and a segment that does not fit behind the write pointer goes
to the start of an empty buffer whatever its size. -/

namespace LiwusOS.Net
open LiwusOS.Lib Relation

namespace TcpSocket

/-- The pointers lie in order within the buffer. -/
def InBounds (x : TcpSocket) : Prop := x.recvReadPtr ≤ x.recvWritePtr ∧ x.recvWritePtr ≤ x.recvBufferSize

variable {x y : TcpSocket} {payload : Buf} {n : UInt32}

/-- What is behind the write pointer is enough. -/
theorem add_le_of_le_sub {w k size : UInt32} (hw : w ≤ size) (h : k ≤ size - w) :
    (w + k).toNat = w.toNat + k.toNat ∧ w.toNat + k.toNat ≤ size.toNat := by
  rw [UInt32.le_iff_toNat_le] at hw h
  rw [UInt32.toNat_sub_of_le _ _ (UInt32.le_iff_toNat_le.mpr hw)] at h
  have hsize := size.toNat_lt
  rw [UInt32.toNat_add]
  omega

theorem SameRecv.inBounds (h : SameRecv x y) (hx : x.InBounds) : y.InBounds := by
  rw [InBounds, h.read, h.write, h.size]
  exact hx

theorem Stores.size (h : x.Stores payload n y) : y.recvBufferSize = x.recvBufferSize := by
  rcases h with ⟨-, hsame⟩ | ⟨-, w, r, hsame, -⟩
  · exact hsame.size
  · exact hsame.size

theorem Stores.inBounds (h : x.Stores payload n y) (hx : x.InBounds) (hn : n ≤ x.recvBufferSize) : y.InBounds := by
  rcases h with ⟨-, hsame⟩ | ⟨-, w, r, hsame, hplace⟩
  · exact hsame.inBounds hx
  refine hsame.inBounds ?_
  rcases hplace with ⟨rfl, rfl, hspace⟩ | ⟨rfl, rfl, -⟩
  · obtain ⟨hsum, hle⟩ := add_le_of_le_sub hx.2 hspace
    have hread := UInt32.le_iff_toNat_le.mp hx.1
    refine ⟨UInt32.le_iff_toNat_le.mpr ?_, UInt32.le_iff_toNat_le.mpr ?_⟩ <;> dsimp only [store] <;> omega
  · refine ⟨UInt32.zero_le, ?_⟩
    dsimp only [store]
    rwa [UInt32.zero_add]

theorem receive_inBounds (hx : x.InBounds) (len : UInt32) :
    (x.receive len).InBounds ∧ (x.receive len).recvBufferSize = x.recvBufferSize := by
  rw [receive]
  split
  · exact ⟨hx, rfl⟩
  dsimp only
  split
  · exact ⟨⟨UInt32.le_refl _, UInt32.zero_le⟩, rfl⟩
  · refine ⟨⟨?_, hx.2⟩, rfl⟩
    obtain ⟨hsum, hle⟩ := add_le_of_le_sub hx.1 (x.toRead_le len)
    exact UInt32.le_iff_toNat_le.mpr (hsum ▸ hle)

end TcpSocket

/-! ## Frames -/

/-- The bytes of the frame behind the TCP header. -/
def present (data : Buf) (len : UInt16) : Nat := len.toNat - (34 + (frameHeader data).dataOffset.toNat)

/-- The lengths of a TCP frame agree: the headers fit into the IP packet, the IP
packet into the frame, and the payload into a receive buffer. -/
def Sized (data : Buf) (len : UInt16) : Prop :=
  20 + (frameHeader data).dataOffset.toNat ≤ (Stack.ipLen data).toNat ∧
  14 + (Stack.ipLen data).toNat ≤ len.toNat ∧
  (Stack.ipLen data).toNat ≤ 20 + (frameHeader data).dataOffset.toNat + 32768

theorem Sized.payloadLen {data : Buf} {len : UInt16} (h : Sized data len) :
    (framePayloadLen data).toNat = (Stack.ipLen data).toNat - 20 - (frameHeader data).dataOffset.toNat := by
  obtain ⟨h1, -, -⟩ := h
  have h20 : (20 : UInt16) ≤ Stack.ipLen data := by
    rw [UInt16.le_iff_toNat_le]
    exact (Nat.le_add_right ..).trans h1
  have hsub : (Stack.ipLen data - 20).toNat = (Stack.ipLen data).toNat - 20 := UInt16.toNat_sub_of_le _ _ h20
  rw [framePayloadLen, UInt32.toNat_sub_of_le, UInt16.toNat_toUInt32, UInt16.toNat_toUInt32, hsub]
  rw [UInt32.le_iff_toNat_le, UInt16.toNat_toUInt32, UInt16.toNat_toUInt32, hsub]
  omega

/-! ## Runs -/

/-- The stack, with the number of bytes copied from each frame so far and the
number of bytes that the frame had behind its headers. -/
structure Traffic where
  stack : Stack
  copies : List (Nat × Nat)

namespace Traffic

def exec (r : Traffic) (op : NetOp) : Traffic where
  stack := r.stack.exec op
  copies := match op with
    | .netstackHandlePacket data len child =>
      ((r.stack.netstackHandlePacket data len child).copied, present data len) :: r.copies
    | _ => r.copies

def Step (r r' : Traffic) : Prop := ∃ op, r.stack.Admits op ∧ r' = r.exec op

structure InBounds (r : Traffic) : Prop where
  sockets : ∀ a ∈ r.stack.sockets, (r.stack.sock a).InBounds
  copies : ∀ c ∈ r.copies, c.1 ≤ c.2

end Traffic

/-- The TCP frames that come in have lengths that agree. -/
def NetOp.Sized : NetOp → Prop
  | .netstackHandlePacket data len _ => Stack.isTcp data → Net.Sized data len
  | _ => True

namespace Traffic

def SizedStep (r r' : Traffic) : Prop := ∃ op, r.stack.Admits op ∧ op.Sized ∧ r' = r.exec op

/-- Every buffer has 32 KiB. -/
structure Inv (r : Traffic) : Prop where
  sockets : ∀ a ∈ r.stack.sockets, (r.stack.sock a).InBounds ∧ (r.stack.sock a).recvBufferSize = 32768
  copies : ∀ c ∈ r.copies, c.1 ≤ c.2

variable {r r' : Traffic} {op : NetOp} {x : TcpSocket}

theorem input_inBounds {data : Buf} (hx : x.InBounds ∧ x.recvBufferSize = 32768)
    (hn : (framePayloadLen data).toNat ≤ 32768) :
    (x.input data).InBounds ∧ (x.input data).recvBufferSize = 32768 := by
  obtain ⟨hb, hsize⟩ := hx
  rcases x.reply_recv data with ⟨hsame, -⟩ | ⟨-, hin⟩
  · exact ⟨hsame.inBounds hb, hsame.size.trans hsize⟩
  · have hle : framePayloadLen data ≤ x.recvBufferSize := by
      rw [hsize, UInt32.le_iff_toNat_le]
      exact hn
    exact ⟨hin.recv.inBounds hb hle, hin.recv.size.trans hsize⟩

theorem send_inBounds (hx : x.InBounds ∧ x.recvBufferSize = 32768) (data : List UInt8) :
    (x.send data).InBounds ∧ (x.send data).recvBufferSize = 32768 := by
  rw [TcpSocket.send]
  split <;> exact hx

/-- The sockets that operations make have empty buffers. -/
theorem fresh_inBounds {s : Stack} {a : Nat} (h : s.fresh op = some (a, x)) :
    x.InBounds ∧ x.recvBufferSize = 32768 := by
  have hzero : ∀ {y : TcpSocket}, y.recvReadPtr = 0 → y.recvWritePtr = 0 → y.recvBufferSize = 32768 →
      y.InBounds ∧ y.recvBufferSize = 32768 := fun h1 h2 h3 => by
    rw [TcpSocket.InBounds, h1, h2]
    exact ⟨⟨UInt32.le_refl _, UInt32.zero_le⟩, h3⟩
  cases op with
  | netstackHandlePacket data len child =>
    rw [Stack.fresh] at h
    split at h
    · obtain ⟨c, -, heq⟩ := Option.map_eq_some_iff.mp h
      cases heq
      rcases (Stack.requested data c.2).reply_recv data with ⟨hsame, -⟩ | ⟨hst, -⟩
      · exact hzero hsame.read hsame.write hsame.size
      · cases hst
    · cases h
  | tcpConnect addr buffer destIp destPort timerTicks =>
    cases h
    exact hzero rfl rfl rfl
  | tcpListen addr buffer port =>
    cases h
    exact hzero rfl rfl rfl
  | _ => cases h

/-- The bytes copied from a frame are in the frame. -/
theorem handle_copied {s : Stack} {data : Buf} {len : UInt16} {child : Option (Nat × Buf)}
    (hs : Stack.isTcp data → Sized data len) : (s.netstackHandlePacket data len child).copied ≤ present data len := by
  have hinput : ∀ y : TcpSocket, Stack.isTcp data → (y.reply data).copied ≤ present data len := by
    intro y htcp
    obtain ⟨h1, h2, h3⟩ := hs htcp
    have hlen := (hs htcp).payloadLen
    rcases y.reply_recv data with ⟨-, hc⟩ | ⟨-, hin⟩
    · rw [hc]
      exact Nat.zero_le _
    · rw [hin.copied, present]
      have hle := y.stored_le (framePayloadLen data)
      omega
  rcases s.handle_cases data len child with ⟨b, htcp, -, -, heq⟩ | ⟨c, -, htcp, -, -, -, heq⟩ | ⟨-, -, heq⟩
  · rw [heq]
    exact hinput _ htcp
  · rw [heq]
    exact hinput _ htcp
  · rw [heq]
    exact Nat.zero_le _

theorem Inv.step (h : r.Inv) (hadm : r.stack.Admits op) (hs : op.Sized) : (r.exec op).Inv := by
  refine ⟨Stack.forall_exec hadm (fun a ha => ?_) fun a x hx => fresh_inBounds hx, ?_⟩
  · split
    · cases op with
      | netstackHandlePacket data len child =>
        rename_i ht
        have htcp : Stack.isTcp data := by
          rw [Stack.target] at ht
          by_contra hn
          rw [if_neg hn] at ht
          cases ht
        refine input_inBounds (h.sockets a ha) ?_
        have hlen := (hs htcp).payloadLen
        obtain ⟨-, -, h3⟩ := hs htcp
        omega
      | tcpSend b data => exact send_inBounds (h.sockets a ha) data
      | tcpReceive b len =>
        obtain ⟨h1, h2⟩ := (r.stack.sock a).receive_inBounds (h.sockets a ha).1 len
        exact ⟨h1, h2.trans (h.sockets a ha).2⟩
      | _ => exact h.sockets a ha
    · exact h.sockets a ha
  · cases op with
    | netstackHandlePacket data len child =>
      exact List.forall_mem_cons.mpr ⟨handle_copied hs, h.copies⟩
    | _ => exact h.copies

theorem init_inv (sock : Nat → TcpSocket) (myIp : UInt32) : Inv ⟨tcpInit sock myIp, []⟩ := ⟨nofun, nofun⟩

/-- **The receive pointers stay within the buffer and the copies within the
frame** in every run in which the lengths of the TCP frames agree. -/
theorem inBounds_of_sized {sock : Nat → TcpSocket} {myIp : UInt32}
    (hr : ReflTransGen SizedStep ⟨tcpInit sock myIp, []⟩ r) : r.InBounds := by
  have hinv : r.Inv := by
    induction hr with
    | refl => exact init_inv sock myIp
    | tail _ hstep ih =>
      obtain ⟨op, hadm, hs, rfl⟩ := hstep
      exact ih.step hadm hs
  exact ⟨fun a ha => (hinv.sockets a ha).1, hinv.copies⟩

/-! ## Concrete machines -/

def idle : Traffic := ⟨idleStack, []⟩

/-- A segment with one byte. -/
def oneByte : NetOp := .netstackHandlePacket (peerFrame 41 501 2 0x50 0x18 [65]) 55 none

instance (op : NetOp) : Decidable op.Sized := by
  apply NetOp.casesOn (motive := fun op => Decidable op.Sized) op <;> intros <;>
    dsimp only [NetOp.Sized, Net.Sized] <;> infer_instance

theorem inBounds_oneByte : ∃ r, ReflTransGen SizedStep idle r ∧ r.copies = [(1, 1), (0, 0)] ∧ r.InBounds := by
  obtain ⟨r, hr, hcopies⟩ : ∃ r, ReflTransGen SizedStep idle r ∧ r.copies = [(1, 1), (0, 0)] :=
    exists_run (fun _ r op => some (r.exec op)) (fun r op => r.stack.Admits op ∧ op.Sized)
      (fun h hr => ⟨_, h.1, h.2, (Option.some.inj hr).symm⟩) [(peerConnect, 0), (peerAnswer 2, 0), (oneByte, 0)]
      (by decide +kernel)
  exact ⟨r, hr, hcopies, inBounds_of_sized hr⟩

/-- A segment whose header is said to be longer than the packet. -/
def longHeader : NetOp := .netstackHandlePacket (peerFrame 40 501 2 0xF0 0x10 []) 54 none

/-- The length of the payload wraps, and four gigabytes are copied. -/
theorem long_header_overruns : ∃ r, ReflTransGen Step idle r ∧
    (∃ a ∈ r.stack.sockets, ¬ (r.stack.sock a).InBounds) ∧ ∃ c ∈ r.copies, ¬ c.1 ≤ c.2 := by
  obtain ⟨r, hr, ⟨a, ha, hwrite⟩, hcopies⟩ : ∃ r, ReflTransGen Step idle r ∧
      (∃ a ∈ r.stack.sockets, ¬ (r.stack.sock a).recvWritePtr ≤ (r.stack.sock a).recvBufferSize) ∧
      ∃ c ∈ r.copies, ¬ c.1 ≤ c.2 :=
    exists_run (fun _ r op => some (r.exec op)) (fun r op => r.stack.Admits op)
      (fun h hr => ⟨_, h, (Option.some.inj hr).symm⟩) [(peerConnect, 0), (peerAnswer 2, 0), (longHeader, 0)]
      (by decide +kernel)
  exact ⟨r, hr, ⟨a, ha, fun h => hwrite h.2⟩, hcopies⟩

end Traffic
end LiwusOS.Net
