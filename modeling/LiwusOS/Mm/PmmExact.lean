import LiwusOS.Mm.Pmm
import Mathlib.Data.Finset.Card

/-! # The counter of the physical memory manager

`pmm_used_blocks` and the bitmap are kept in step by every operation: what they
differ by after `pmm_init` they differ by for ever. `pmm_init` fills whole words
only, so they differ by the clear bits it finds behind the last whole word.
`pmm_alloc_block` looks at whole words only, and it cannot tell block 0 from
NULL. -/

namespace LiwusOS.Lib.Words

/-- The set bits below `n`. -/
def count (w : Words) (n : Nat) : Nat := ((Finset.range n).filter fun b => w.test b = true).card

theorem count_le (w : Words) (n : Nat) : w.count n ≤ n := by
  have h := Finset.card_filter_le (Finset.range n) fun b => w.test b = true
  rwa [Finset.card_range] at h

theorem count_eq_iff (w : Words) (n : Nat) : w.count n = n ↔ ∀ b < n, w.test b = true := by
  have hcard : w.count n = n ↔ w.count n = (Finset.range n).card := by rw [Finset.card_range]
  rw [hcard, count, Finset.card_filter_eq_iff]
  simp only [Finset.mem_range]

theorem count_set {w : Words} {b n : Nat} (hb : b < n) (hfree : w.test b = false) :
    (w.set b).count n = w.count n + 1 := by
  have hins : ((Finset.range n).filter fun c => (w.set b).test c = true) =
      insert b ((Finset.range n).filter fun c => w.test c = true) := by
    ext c
    simp only [Finset.mem_filter, Finset.mem_range, Finset.mem_insert, test_set, Bool.or_eq_true,
      decide_eq_true_eq]
    constructor
    · rintro ⟨hc, rfl | hc'⟩
      · exact .inl rfl
      · exact .inr ⟨hc, hc'⟩
    · rintro (rfl | ⟨hc, hc'⟩)
      · exact ⟨hb, .inl rfl⟩
      · exact ⟨hc, .inr hc'⟩
  rw [count, hins, Finset.card_insert_of_notMem, count]
  rw [Finset.mem_filter, hfree]
  simp

theorem count_unset {w : Words} {b n : Nat} (hb : b < n) (hused : w.test b = true) :
    w.count n = (w.unset b).count n + 1 := by
  have hback : ∀ c, ((w.unset b).set b).test c = w.test c := fun c => by
    rw [test_set, test_unset]
    by_cases hc : c = b
    · subst hc
      rw [hused]
      simp
    · simp [hc]
  have hfree : (w.unset b).test b = false := by simp [test_unset]
  rw [← count_set hb hfree, count, count]
  congr 1
  exact Finset.filter_congr fun c _ => by rw [hback]

end LiwusOS.Lib.Words

namespace LiwusOS.Mm
open LiwusOS.Lib Relation

/-! ## Operations -/

inductive PmmOp where
  | initRegion (base size : Nat)
  | deinitRegion (base size : Nat)
  | reserveRegion (base size : Nat)
  | allocBlock
  | freeBlock (addr : Nat)

def PmmOp.exec (p : Pmm) : PmmOp → Pmm
  | .initRegion base size => pmmInitRegion p base size
  | .deinitRegion base size => pmmDeinitRegion p base size
  | .reserveRegion base size => pmmReserveRegion p base size
  | .allocBlock => (pmmAllocBlock p).2
  | .freeBlock addr => pmmFreeBlock p addr

/-- Only blocks in use are freed. -/
def PmmOp.Admits (p : Pmm) : PmmOp → Prop
  | .freeBlock addr => addr / blockSize < p.maxBlocks ∧ p.bitmapTest (addr / blockSize) = true
  | _ => True

def PmmStep (p p' : Pmm) : Prop := ∃ op : PmmOp, op.Admits p ∧ op.exec p = p'

/-! ## The property -/

/-- The blocks in use, counted in the bitmap. -/
def Pmm.setBits (p : Pmm) : Nat := p.bitmap.count p.maxBlocks

/-- No block is free. -/
def Pmm.Full (p : Pmm) : Prop := ∀ b < p.maxBlocks, p.bitmapTest b = true

/-- What a call of `pmm_alloc_block` returns: a block that was free, or NULL
when there is none. -/
structure Pmm.AllocExact (p : Pmm) : Prop where
  free : (pmmAllocBlock p).1 ≠ 0 → ∃ b < p.maxBlocks, p.bitmapTest b = false ∧
    (pmmAllocBlock p).1 = b * blockSize
  null : (pmmAllocBlock p).1 = 0 → p.Full

structure Pmm.Exact (p : Pmm) : Prop where
  used : p.usedBlocks.toNat = p.setBits
  alloc : p.AllocExact

/-! ## The condition -/

/-- The memory below the bitmap has the bits behind the last whole word set. -/
def TailSet (words : Words) (size : Nat) : Prop :=
  ∀ b, size / blockSize / 32 * 32 ≤ b → b < size / blockSize → words.test b = true

/-- Unless no block is free, block 0 is not, and one of a whole word is. -/
def Pmm.AllocSafe (p : Pmm) : Prop :=
  p.Full ∨ p.bitmapTest 0 = true ∧ ∃ b < p.maxBlocks / 32 * 32, p.bitmapTest b = false

/-! ## The counter -/

/-- What the counter and the bitmap differ by. -/
def Pmm.drift (p : Pmm) : UInt64 := p.usedBlocks - UInt64.ofNat p.setBits

/-- A step that keeps what the two differ by. -/
structure SameDrift (p p' : Pmm) : Prop where
  max : p'.maxBlocks = p.maxBlocks
  drift : p'.drift = p.drift

theorem SameDrift.refl (p : Pmm) : SameDrift p p := ⟨rfl, rfl⟩

theorem SameDrift.trans {p p' p'' : Pmm} (h : SameDrift p p') (h' : SameDrift p' p'') : SameDrift p p'' :=
  ⟨h'.max.trans h.max, h'.drift.trans h.drift⟩

theorem sameDrift_take {p : Pmm} {b : Nat} (hb : b < p.maxBlocks) (hfree : p.bitmapTest b = false) :
    SameDrift p { p.bitmapSet b with usedBlocks := p.usedBlocks + 1 } := by
  refine ⟨rfl, ?_⟩
  have hcount : (p.bitmap.set b).count p.maxBlocks = p.bitmap.count p.maxBlocks + 1 := Words.count_set hb hfree
  show p.usedBlocks + 1 - UInt64.ofNat ((p.bitmap.set b).count p.maxBlocks) = p.usedBlocks -
    UInt64.ofNat (p.bitmap.count p.maxBlocks)
  rw [hcount, UInt64.ofNat_add]
  grind

theorem sameDrift_free {p : Pmm} {b : Nat} (hb : b < p.maxBlocks) (hused : p.bitmapTest b = true) :
    SameDrift p { p.bitmapUnset b with usedBlocks := p.usedBlocks - 1 } := by
  refine ⟨rfl, ?_⟩
  have hcount : p.bitmap.count p.maxBlocks = (p.bitmap.unset b).count p.maxBlocks + 1 :=
    Words.count_unset hb hused
  show p.usedBlocks - 1 - UInt64.ofNat ((p.bitmap.unset b).count p.maxBlocks) = p.usedBlocks -
    UInt64.ofNat (p.bitmap.count p.maxBlocks)
  rw [hcount, UInt64.ofNat_add]
  grind

theorem sameDrift_freeFrames (p : Pmm) (n a : Nat) : SameDrift p (freeFrames p n a) := by
  induction n generalizing p a with
  | zero => exact .refl p
  | succ n ih =>
    rw [freeFrames]
    split
    · rename_i ha
      refine SameDrift.trans ?_ (ih _ _)
      split
      · rename_i hused
        exact sameDrift_free ha hused
      · exact .refl p
    · exact .refl p

theorem sameDrift_takeFrames (p : Pmm) (n a : Nat) : SameDrift p (takeFrames p n a) := by
  induction n generalizing p a with
  | zero => exact .refl p
  | succ n ih =>
    rw [takeFrames]
    split
    · rename_i ha
      refine SameDrift.trans ?_ (ih _ _)
      split
      · exact .refl p
      · rename_i hfree
        exact sameDrift_take ha (by simpa using hfree)
    · exact .refl p

theorem PmmStep.sameDrift {p p' : Pmm} (h : PmmStep p p') : SameDrift p p' := by
  obtain ⟨op, hadmits, rfl⟩ := h
  cases op with
  | initRegion base size => exact sameDrift_freeFrames _ _ _
  | deinitRegion base size => exact sameDrift_takeFrames _ _ _
  | reserveRegion base size => exact sameDrift_takeFrames _ _ _
  | allocBlock =>
    show SameDrift p (pmmAllocBlock p).2
    rcases pmmAllocBlock_cases p with ⟨f, hf, hfree, -, heq⟩ | ⟨-, heq⟩
    · rw [heq]
      exact sameDrift_take (by omega) hfree
    · rw [heq]
      exact .refl p
  | freeBlock addr => exact sameDrift_free hadmits.1 hadmits.2

theorem pmmRun_sameDrift {p p' : Pmm} (h : ReflTransGen PmmStep p p') : SameDrift p p' := by
  induction h with
  | refl => exact .refl p
  | tail _ hstep ih => exact ih.trans hstep.sameDrift

/-- The bits after `pmm_init`: set in whole words, and what was there behind them. -/
theorem test_pmmInit_tail {words : Words} {size b : Nat} (hb : size / blockSize / 32 * 32 ≤ b) :
    (pmmInit words size).bitmapTest b = words.test b := by
  have hword : ¬ b / 32 < size / blockSize / 32 := by omega
  have hsame : (pmmInit words size).bitmap (b / 32) = words (b / 32) := if_neg hword
  rw [Pmm.bitmapTest, Words.test, hsame]
  rfl

theorem pmmInit_full_iff (words : Words) (size : Nat) : (pmmInit words size).Full ↔ TailSet words size := by
  constructor
  · intro h b hlo hhi
    rw [← test_pmmInit_tail hlo]
    exact h b hhi
  · intro h b hb
    by_cases hlo : b < size / blockSize / 32 * 32
    · exact test_pmmInit hlo
    · rw [test_pmmInit_tail (Nat.le_of_not_lt hlo)]
      exact h b (Nat.le_of_not_lt hlo) hb

/-- The counter is right exactly if nothing is left to differ by. -/
theorem drift_eq_zero_iff {p : Pmm} (hp : p.maxBlocks < 2 ^ 64) : p.drift = 0 ↔ p.usedBlocks.toNat = p.setBits := by
  have hle : p.setBits ≤ p.maxBlocks := Words.count_le _ _
  have hzero : p.drift = 0 ↔ p.usedBlocks = UInt64.ofNat p.setBits := by
    rw [Pmm.drift]
    grind
  rw [hzero, ← UInt64.toNat_inj, UInt64.toNat_ofNat_of_lt' (hle.trans_lt hp)]

/-! ## Allocation -/

theorem Pmm.allocExact_iff (p : Pmm) : p.AllocExact ↔ p.AllocSafe := by
  have hwhole : p.maxBlocks / 32 * 32 ≤ p.maxBlocks := by omega
  rcases pmmAllocBlock_cases p with ⟨f, hf, hfree, hlow, heq⟩ | ⟨hall, heq⟩
  · have hnot : ¬ p.Full := fun hfull => by
      rw [hfull f (by omega)] at hfree
      cases hfree
    have hzero : f = 0 ↔ p.bitmapTest 0 = false := by
      constructor
      · rintro rfl
        exact hfree
      · intro h0
        by_contra hne
        rw [hlow 0 (Nat.pos_of_ne_zero hne)] at h0
        cases h0
    have haddr : (pmmAllocBlock p).1 = f * blockSize := by rw [heq]
    constructor
    · intro h
      refine .inr ⟨?_, f, hf, hfree⟩
      by_contra h0
      rw [Bool.not_eq_true] at h0
      refine hnot (h.null ?_)
      rw [haddr, hzero.mpr h0, Nat.zero_mul]
    · rintro (hfull | ⟨h0, -⟩)
      · exact absurd hfull hnot
      · have hpos : (pmmAllocBlock p).1 ≠ 0 := by
          rw [haddr, blockSize]
          have : f ≠ 0 := fun hf0 => by rw [hzero.mp hf0] at h0; cases h0
          omega
        exact ⟨fun _ => ⟨f, by omega, hfree, haddr⟩, fun h => absurd h hpos⟩
  · have haddr : (pmmAllocBlock p).1 = 0 := by rw [heq]
    constructor
    · exact fun h => .inl (h.null haddr)
    · rintro (hfull | ⟨-, b, hb, hfree⟩)
      · exact ⟨fun h => absurd haddr h, fun _ => hfull⟩
      · rw [hall b hb] at hfree
        cases hfree

/-! ## Runs -/

/-- In every state of a run the counter is exact if and only if the bits behind
the last whole word were set before `pmm_init`, and `pmm_alloc_block` is exact
if and only if block 0 is in use and a whole word has a free block, or none is
free at all. -/
theorem pmm_exact_iff {words : Words} {size : UInt64} {p : Pmm}
    (h : ReflTransGen PmmStep (pmmInit words size.toNat) p) : p.Exact ↔ TailSet words size.toNat ∧ p.AllocSafe := by
  have hsame := pmmRun_sameDrift h
  have hmax : (pmmInit words size.toNat).maxBlocks < 2 ^ 64 :=
    Nat.lt_of_le_of_lt (Nat.div_le_self _ _) size.toNat_lt
  have hused : p.usedBlocks.toNat = p.setBits ↔ TailSet words size.toNat := by
    have hinit : (pmmInit words size.toNat).usedBlocks.toNat = (pmmInit words size.toNat).maxBlocks :=
      UInt64.toNat_ofNat_of_lt' hmax
    rw [← drift_eq_zero_iff (hsame.max ▸ hmax), hsame.drift, drift_eq_zero_iff hmax, hinit,
      ← pmmInit_full_iff, eq_comm]
    exact Words.count_eq_iff _ _
  constructor
  · intro hex
    exact ⟨hused.mp hex.used, p.allocExact_iff.mp hex.alloc⟩
  · rintro ⟨htail, hsafe⟩
    exact ⟨hused.mpr htail, p.allocExact_iff.mpr hsafe⟩

/-- A memory of 32 blocks with blocks 1 to 3 given to the allocator. -/
def smallPmm : Pmm := pmmInitRegion (pmmInit (fun _ => 0) 131072) 4096 12288

theorem smallPmm_exact : ReflTransGen PmmStep (pmmInit (fun _ => 0) 131072) smallPmm ∧ smallPmm.Exact := by
  have hrun : ReflTransGen PmmStep (pmmInit (fun _ => 0) (131072 : UInt64).toNat) smallPmm :=
    .single ⟨.initRegion 4096 12288, trivial, rfl⟩
  refine ⟨hrun, (pmm_exact_iff hrun).mpr
    ⟨fun b hlo hhi => ?_, .inr ⟨by decide +kernel, 1, by decide, by decide +kernel⟩⟩⟩
  have hblocks : (131072 : UInt64).toNat / blockSize = 32 := by decide
  rw [hblocks] at hlo hhi
  omega

/-- `pmm_init` for 33 blocks on clear memory: the counter says 33, and block 32
is free in the bitmap. -/
theorem pmmInit_33_not_exact : ¬ ∀ (words : Words) (size : UInt64) (p : Pmm),
    ReflTransGen PmmStep (pmmInit words size.toNat) p → p.Exact := by
  intro hall
  have hused := (hall (fun _ => 0) 135168 _ .refl).used
  have hset : (pmmInit (fun _ => 0) (135168 : UInt64).toNat).setBits = 32 := by decide +kernel
  have hcounter : (pmmInit (fun _ => 0) (135168 : UInt64).toNat).usedBlocks.toNat = 33 := by decide +kernel
  rw [hset, hcounter] at hused
  cases hused

end LiwusOS.Mm
