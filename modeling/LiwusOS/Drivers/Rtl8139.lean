import LiwusOS.Lib.Bytes
import LiwusOS.Lib.Fuel

/-! # The receive ring

`rtl8139_handler` reads frames from the ring and writes a marker where it will
look next. When more frames are queued, that is the header of the second one. -/

namespace LiwusOS.Drivers

open Lib

structure Rtl8139 where
  rxBuffer : Buf
  rxOffset : Nat
  /-- The packets that were given to `netstack_handle_packet`. -/
  handled : List (List UInt8)

/-- `(rx_offset + packet_len + 4 + 3) & ~3U`. -/
def nextFrame (off len : Nat) : Nat := (off + len + 4 + 3) % 2 ^ 32 / 4 * 4

def rxLoop : Nat → Rtl8139 → Option Rtl8139
  | 0, _ => none
  | fuel + 1, s =>
    let header := s.rxBuffer.u32 s.rxOffset
    let packetLen := (header >>> 16).toUInt16
    let pktStatus := header.toUInt16
    if pktStatus &&& 0x8000 ≠ 0 then some s
    else if packetLen = 0xFFF0 ∨ packetLen = 0 then some s
    else
      let handled := if 4 ≤ packetLen.toNat then
          s.handled ++ [s.rxBuffer.bytes (s.rxOffset + 4) (packetLen.toNat - 4)] else s.handled
      let off := nextFrame s.rxOffset packetLen.toNat
      let off := if 16384 ≤ off then off - 16384 else off
      rxLoop fuel ⟨s.rxBuffer.putU32 off 0xFFF00000, off, handled⟩

/-- `isr` is what the interrupt status register reads. -/
def rtl8139Handler (fuel : Nat) (isr : UInt16) (s : Rtl8139) : Option Rtl8139 :=
  if isr &&& 0x01 ≠ 0 then rxLoop fuel s else some s

/-- A frame as the device stores it, with its checksum at the end. -/
structure Frame where
  status : UInt16
  data : List UInt8
  checksum : 4 ≤ data.length

def Frame.packet (f : Frame) : List UInt8 := f.data.take (f.data.length - 4)

/-- Frames lie one behind the other from `off` on, each behind its header, and
end before the ring does. -/
def Queued (b : Buf) : Nat → List Frame → Prop
  | _, [] => True
  | off, f :: fs => (b.u32 off).toUInt16 = f.status ∧ (b.u32 off >>> 16).toUInt16.toNat = f.data.length ∧
    b.bytes (off + 4) f.data.length = f.data ∧ off + f.data.length + 7 < 16384 ∧
    Queued b (nextFrame off f.data.length) fs

/-- The handler passes on the packets of all frames and stops behind the last. -/
def Delivers (isr : UInt16) (s : Rtl8139) (fs : List Frame) : Prop :=
  ∃ s', Settles (fun fuel => rtl8139Handler fuel isr s) s' ∧ s'.handled = s.handled ++ fs.map Frame.packet ∧
    s'.rxOffset = fs.foldl (fun off f => nextFrame off f.data.length) s.rxOffset

variable {s : Rtl8139} {f : Frame} {fs : List Frame} {isr : UInt16}

/-- One frame is taken, and a marker is written behind it. -/
def afterFirst (s : Rtl8139) (f : Frame) : Rtl8139 :=
  let off := nextFrame s.rxOffset f.data.length
  ⟨s.rxBuffer.putU32 off 0xFFF00000, off, s.handled ++ [f.packet]⟩

/-- The marker stops the loop behind the first frame. -/
theorem rxLoop_settles (hq : Queued s.rxBuffer s.rxOffset (f :: fs)) (hown : f.status &&& 0x8000 = 0) :
    Settles (fun fuel => rxLoop fuel s) (afterFirst s f) := by
  obtain ⟨hstatus, hheader, hdata, hend, -⟩ := hq
  have hc := f.checksum
  have hgo : ¬ ((s.rxBuffer.u32 s.rxOffset >>> 16).toUInt16 = 0xFFF0 ∨
      (s.rxBuffer.u32 s.rxOffset >>> 16).toUInt16 = 0) := by
    rintro (h | h)
    · rw [h] at hheader
      exact absurd hheader.symm (Nat.ne_of_lt (by omega : f.data.length < 0xFFF0))
    · rw [h] at hheader
      exact absurd (hheader ▸ hc) (by decide)
  have hpacket : s.rxBuffer.bytes (s.rxOffset + 4) (f.data.length - 4) = f.packet := by
    have hsplit := s.rxBuffer.bytes_append (s.rxOffset + 4) (f.data.length - 4) 4
    rw [Nat.sub_add_cancel hc, hdata] at hsplit
    rw [Frame.packet]
    generalize f.data.length - 4 = n at hsplit ⊢
    rw [hsplit, List.take_left' (Buf.length_bytes _ _ _)]
  have hstop : Settles (fun fuel => rxLoop fuel (afterFirst s f)) (afterFirst s f) := by
    refine .succ rfl (fun n => ?_) (.const _)
    have hmark : (afterFirst s f).rxBuffer.u32 (afterFirst s f).rxOffset = 0xFFF00000 := Buf.u32_putU32 _ _ _
    rw [rxLoop, hmark]
    rfl
  refine .succ rfl (fun n => ?_) hstop
  rw [rxLoop]
  dsimp only
  rw [if_neg (by rw [hstatus]; exact not_not.mpr hown), if_neg hgo, hheader, if_pos hc, hpacket,
    if_neg (by unfold nextFrame; omega)]
  rfl

/-- **Queued frames are delivered** by one call exactly if there is only one of
them and bit 15 of its status is clear. -/
theorem handler_delivers_iff (hisr : isr &&& 0x01 ≠ 0) (hq : Queued s.rxBuffer s.rxOffset (f :: fs)) :
    Delivers isr s (f :: fs) ↔ fs = [] ∧ f.status &&& 0x8000 = 0 := by
  by_cases hown : f.status &&& 0x8000 = 0
  · have hset : Settles (fun fuel => rtl8139Handler fuel isr s) (afterFirst s f) := .pos hisr (rxLoop_settles hq hown)
    constructor
    · rintro ⟨s', hs', hhandled, -⟩
      rw [← hset.unique hs'] at hhandled
      exact ⟨by simpa [afterFirst] using hhandled, hown⟩
    · rintro ⟨rfl, -⟩
      exact ⟨_, hset, rfl, rfl⟩
  · refine iff_of_false ?_ fun h => hown h.2
    rintro ⟨s', hs', hhandled, -⟩
    have hset : Settles (fun fuel => rtl8139Handler fuel isr s) s :=
      .pos hisr (.succ rfl (fun n => if_pos (by rw [hq.1]; exact hown)) (.const s))
    rw [← hset.unique hs'] at hhandled
    simp at hhandled

/-- A frame of 60 zeros with a checksum of 0. -/
def zeroFrame : Frame := ⟨1, List.replicate 64 0, by decide⟩

/-- A ring with two such frames at 0 and 68. -/
def twoFrames : Rtl8139 := ⟨(Buf.zero.putU32 0 0x400001).putU32 68 0x400001, 0, []⟩

theorem delivers_one : Delivers 1 ⟨Buf.zero.putU32 0 0x400001, 0, []⟩ [zeroFrame] :=
  (handler_delivers_iff (by decide) (by simp only [Queued]; decide +kernel)).mpr ⟨rfl, by decide⟩

/-- Of two frames the second is lost. -/
theorem second_frame_lost : Queued twoFrames.rxBuffer twoFrames.rxOffset [zeroFrame, zeroFrame] ∧
    ¬ Delivers 1 twoFrames [zeroFrame, zeroFrame] := by
  have hq : Queued twoFrames.rxBuffer twoFrames.rxOffset [zeroFrame, zeroFrame] := by
    simp only [Queued]
    decide +kernel
  refine ⟨hq, ?_⟩
  rintro ⟨s', hs', hhandled, -⟩
  have hset : Settles (fun fuel => rtl8139Handler fuel 1 twoFrames) _ :=
    .pos (by decide) (rxLoop_settles hq (by decide))
  rw [← hset.unique hs'] at hhandled
  cases congrArg List.length hhandled

end LiwusOS.Drivers
