import LiwusOS.Fs.Dir
import LiwusOS.Lib.Fuel

/-! # Chain walks on any disk

The loops of `sdfs.c` follow next pointers as the disk has them, without a bound and
without a note of where they have been. There are finitely many blocks, so they return
unless the pointers lead to a cycle on which nothing stops them. -/

namespace LiwusOS.Fs
open LiwusOS.Lib Relation

/-! ## The records of a block -/

variable (s : Volume) (start : Nat)

/-- The lowest block that the bitmap has as free. -/
def LowestFree (b : Nat) : Prop :=
  b < s.totalBlocks ∧ sdfsBitmapTest s b = false ∧ ∀ a < b, sdfsBitmapTest s a = true

def InBitmap (b : Nat) : Prop := ∃ i < s.bitmapBlocks, lba b = lba (s.bitmapBlock + i)

/-- A block of the chain from `start`. -/
def Walked (b : Nat) : Prop := ReflTransGen (fun a b => sdfsGetNextBlock s a = b ∧ b ≠ 0) start b

/-! ## Loops that only read -/

variable {s start} {s' : Volume}

/-- `s'` differs from `s` in blocks of the bitmap at most. -/
structure OffBitmap (s s' : Volume) : Prop where
  first : s'.bitmapBlock = s.bitmapBlock
  count : s'.bitmapBlocks = s.bitmapBlocks
  read : ∀ b, ¬ InBitmap s b → sdfsReadBlock s' b = sdfsReadBlock s b

theorem OffBitmap.trans {s'' : Volume} (h : OffBitmap s s') (h' : OffBitmap s' s'') : OffBitmap s s'' := by
  refine ⟨h'.first.trans h.first, h'.count.trans h.count, fun b hb => ?_⟩
  rw [h'.read b (by rwa [InBitmap, h.first, h.count]), h.read b hb]

theorem OffBitmap.saveBlocks (cache : Buf) (s : Volume) {n : Nat} (hn : n ≤ s.bitmapBlocks) :
    OffBitmap s (saveBitmapBlocks cache s n) := by
  induction n with
  | zero => exact ⟨rfl, rfl, fun _ _ => rfl⟩
  | succ n ih =>
    obtain ⟨hfirst, hcount, hread⟩ := ih (by omega)
    refine ⟨hfirst, hcount, fun b hb => ?_⟩
    rw [← hread b hb]
    exact Function.update_of_ne (fun h => hb ⟨n, hn, h⟩) _ _

theorem OffBitmap.touch (s : Volume) : OffBitmap s (sdfsBitmapTouch s) := by
  rw [sdfsBitmapTouch]
  dsimp only
  split
  · rw [sdfsSaveBitmap]
    dsimp only
    split
    · exact ⟨rfl, rfl, fun _ _ => rfl⟩
    · rename_i cache hcache
      obtain ⟨hfirst, hcount, hread⟩ :=
        OffBitmap.saveBlocks cache { s with bitmapDirtyOps := s.bitmapDirtyOps + 1 } le_rfl
      exact ⟨hfirst, hcount, hread⟩
  · exact ⟨rfl, rfl, fun _ _ => rfl⟩

theorem OffBitmap.set (s : Volume) (b : Nat) (v : Bool) : OffBitmap s (sdfsBitmapTouch (sdfsBitmapSet s b v)) := by
  have hset : OffBitmap s (sdfsBitmapSet s b v) := by
    unfold sdfsBitmapSet
    split
    · exact ⟨rfl, rfl, fun _ _ => rfl⟩
    · dsimp only
      split
      · exact ⟨rfl, rfl, fun _ _ => rfl⟩
      · split <;> exact ⟨rfl, rfl, fun _ _ => rfl⟩
  exact hset.trans (.touch _)

theorem lowestFree_iff {b : Nat} : LowestFree s b ↔ firstFree (sdfsBitmapTest s) s.totalBlocks 0 = some b :=
  firstFree_eq_some.symm

theorem LowestFree.unique {a b : Nat} (ha : LowestFree s a) (hb : LowestFree s b) : a = b :=
  Option.some.inj ((lowestFree_iff.mp ha).symm.trans (lowestFree_iff.mp hb))

theorem Walked.next {b : Nat} (h : Walked s start b) (hne : sdfsGetNextBlock s b ≠ 0) :
    Walked s start (sdfsGetNextBlock s b) := h.tail ⟨rfl, hne⟩

section
variable (h : ∀ b, Walked s start b → ¬ InBitmap s b)
include h

end

end LiwusOS.Fs
