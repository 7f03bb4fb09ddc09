import LiwusOS.Lib.Bytes

/-! # DMA transfers

`ata_bmide_transfer` polls the bus-master status register. Its countdown is
decremented once more when it has run out, and the test behind the loop asks for 0. -/

namespace LiwusOS.Drivers

open Lib

/-- What the controller and the drive answer: the bus-master status at each
poll, the ATA status behind the loop, and what is then in `ata_dma_buf`. -/
structure Ata where
  present : Bool
  status : Nat → UInt8
  ataStatus : UInt8
  dmaBuf : Buf

/-- BM_STATUS_INT. -/
abbrev Interrupted (s : UInt8) : Prop := s &&& 0x01 ≠ 0

/-- BM_STATUS_ERR. -/
abbrev Failed (s : UInt8) : Prop := s &&& 0x02 ≠ 0

/-- `while (timeout--)` from poll `i` on: the countdown behind the loop, unless
the loop returns with an error. -/
def pollLoop (status : Nat → UInt8) : Nat → Nat → Option UInt32
  | 0, _ => some (0 - 1)
  | timeout + 1, i =>
    if Interrupted (status i) then some (UInt32.ofNat timeout)
    else if Failed (status i) then none
    else pollLoop status timeout (i + 1)

def pollBudget : Nat := 2000000

/-- The result and the caller's buffer. -/
def ataBmideTransfer (a : Ata) (count : UInt8) (buffer : Buf) (write : Bool) : Int × Buf :=
  if !a.present then (-1, buffer)
  else match pollLoop a.status pollBudget 0 with
    | none => (-1, buffer)
    | some timeout =>
      if timeout = 0 then (-1, buffer)
      else if a.ataStatus &&& 0x01 ≠ 0 then (-1, buffer)
      else (0, if write then buffer else buffer.copy 0 a.dmaBuf (count.toNat * 512))

/-- The bus-master IDE branch of `sdfs_read_block`. The RAM disk, NVMe, AHCI and PIO branches
are not modelled. -/
def sdfsReadBlock (a : Ata) (buffer : Buf) : Int × Buf := ataBmideTransfer a 8 buffer false

/-- Neither bit is set. -/
def Quiet (s : UInt8) : Prop := ¬ Interrupted s ∧ ¬ Failed s

/-- The first poll that finds one of the bits ends the loop. -/
theorem pollLoop_cases (status : Nat → UInt8) (n i : Nat) :
    (∀ j < n, Quiet (status (i + j))) ∧ pollLoop status n i = some (0 - 1) ∨
    ∃ j < n, (∀ k < j, Quiet (status (i + k))) ∧
      (Interrupted (status (i + j)) ∨ Failed (status (i + j)) ∧ pollLoop status n i = none) := by
  induction n generalizing i with
  | zero => exact .inl ⟨nofun, rfl⟩
  | succ n ih =>
    rw [pollLoop]
    split
    · rename_i hint
      exact .inr ⟨0, n.succ_pos, nofun, .inl hint⟩
    · rename_i hint
      split
      · rename_i hfail
        exact .inr ⟨0, n.succ_pos, nofun, .inr ⟨hfail, rfl⟩⟩
      · rename_i hfail
        have hcons : ∀ {m}, (∀ j < m, Quiet (status (i + 1 + j))) → ∀ j < m + 1, Quiet (status (i + j)) := by
          intro m hrest j hj
          cases j with
          | zero => exact ⟨hint, hfail⟩
          | succ j => exact Nat.add_right_comm i 1 j ▸ hrest j (Nat.lt_of_succ_lt_succ hj)
        rcases ih (i + 1) with ⟨hrest, h⟩ | ⟨j, hj, hrest, h⟩
        · exact .inl ⟨hcons hrest, h⟩
        · exact .inr ⟨j + 1, Nat.succ_lt_succ hj, hcons hrest, Nat.add_right_comm i 1 j ▸ h⟩

/-- The countdown is then 0xFFFFFFFF, and the test for 0 lets the call pass. -/
theorem transfer_of_quiet {a : Ata} (hpresent : a.present = true) (hata : a.ataStatus &&& 0x01 = 0)
    (hquiet : ∀ j < pollBudget, Quiet (a.status j)) (count : UInt8) (buffer : Buf) (write : Bool) :
    ataBmideTransfer a count buffer write =
      (0, if write then buffer else buffer.copy 0 a.dmaBuf (count.toNat * 512)) := by
  have hpoll : pollLoop a.status pollBudget 0 = some (0 - 1) := by
    rcases pollLoop_cases a.status pollBudget 0 with ⟨-, hpoll⟩ | ⟨j, hj, -, hbit⟩
    · exact hpoll
    · rw [Nat.zero_add] at hbit
      exact (hbit.elim (hquiet j hj).1 fun hbit => (hquiet j hj).2 hbit.1).elim
  simp [ataBmideTransfer, hpresent, hpoll, hata]

/-- Success means that a poll found the interrupt, and without one the call
fails and the buffer keeps its contents. -/
structure Completes (a : Ata) (count : UInt8) (buffer : Buf) (write : Bool) : Prop where
  observed : (ataBmideTransfer a count buffer write).1 = 0 →
    ∃ j < pollBudget, Interrupted (a.status j) ∧ ∀ k < j, Quiet (a.status k)
  stalled : (∀ j < pollBudget, ¬ Interrupted (a.status j)) → ataBmideTransfer a count buffer write = (-1, buffer)

/-- **A transfer completes** before it is reported exactly if one of the polls
finds the interrupt or an error, or the call fails for another reason. -/
theorem transfer_completes_iff (a : Ata) (count : UInt8) (buffer : Buf) (write : Bool) :
    Completes a count buffer write ↔
      a.present = false ∨ a.ataStatus &&& 0x01 ≠ 0 ∨ ∃ j < pollBudget, ¬ Quiet (a.status j) := by
  constructor
  · intro h
    by_contra hnot
    simp only [not_or, not_exists, not_and, Bool.not_eq_false, not_not] at hnot
    obtain ⟨hpresent, hata, hquiet⟩ := hnot
    have hfail := h.stalled fun j hj => (hquiet j hj).1
    rw [transfer_of_quiet hpresent hata hquiet] at hfail
    cases hfail
  · intro h
    have hfails : ataBmideTransfer a count buffer write = (-1, buffer) → Completes a count buffer write :=
      fun hret => ⟨fun hzero => absurd (hret ▸ hzero) (by simp), fun _ => hret⟩
    have hcases := pollLoop_cases a.status pollBudget 0
    simp only [Nat.zero_add] at hcases
    rcases hcases with ⟨hquiet, hpoll⟩ | ⟨j, hj, hbefore, hint | ⟨-, hpoll⟩⟩
    · rcases h with hpresent | hata | ⟨j, hj, hbit⟩
      · exact hfails (by simp [ataBmideTransfer, hpresent])
      · exact hfails (by simp [ataBmideTransfer, hpoll, hata])
      · exact absurd (hquiet j hj) hbit
    · exact ⟨fun _ => ⟨j, hj, hint, hbefore⟩, fun hnone => absurd hint (hnone j hj)⟩
    · exact hfails (by simp [ataBmideTransfer, hpoll])

/-- A drive that does nothing: the block is what the DMA buffer had before. -/
theorem stalled_read_succeeds : ∃ a, (∀ j, Quiet (a.status j)) ∧
    (sdfsReadBlock a Buf.zero).1 = 0 ∧ (sdfsReadBlock a Buf.zero).2 0 = 7 := by
  have hquiet : Quiet 0 := by
    unfold Quiet
    decide
  refine ⟨⟨true, fun _ => 0, 0x50, fun _ => 7⟩, fun _ => hquiet, ?_⟩
  rw [sdfsReadBlock, transfer_of_quiet rfl (by decide) fun _ _ => hquiet]
  simp [Buf.copy]

end LiwusOS.Drivers
