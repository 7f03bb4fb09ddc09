import LiwusOS.Lib.Words

/-! # The physical memory manager (`pmm.c`)

One bit per 4 KiB frame, set while the frame is in use. Addresses and sizes are
`uint64_t`: naturals here, with the wrap written out where the source adds
them. Every function runs under `pmm_lock`, so each is one step. -/

namespace LiwusOS.Mm
open LiwusOS.Lib

def blockSize : Nat := 4096

structure Pmm where
  bitmap : Words
  maxBlocks : Nat
  usedBlocks : UInt64

namespace Pmm

def bitmapSet (p : Pmm) (bit : Nat) : Pmm := { p with bitmap := p.bitmap.set bit }
def bitmapUnset (p : Pmm) (bit : Nat) : Pmm := { p with bitmap := p.bitmap.unset bit }
def bitmapTest (p : Pmm) (bit : Nat) : Bool := p.bitmap.test bit

end Pmm

/-- `pmm_init` over the memory `words` the bitmap is placed on. Only whole
words of frames are filled. -/
def pmmInit (words : Words) (size : Nat) : Pmm where
  bitmap := fun i => if i < size / blockSize / 32 then 0xFFFFFFFF else words i
  maxBlocks := size / blockSize
  usedBlocks := UInt64.ofNat (size / blockSize)

/-- The loop of `pmm_init_region`. -/
def freeFrames (p : Pmm) : Nat → Nat → Pmm
  | 0, _ => p
  | blocks + 1, align =>
    if align < p.maxBlocks then
      let p := if p.bitmapTest align then
          { p.bitmapUnset align with usedBlocks := p.usedBlocks - 1 }
        else p
      freeFrames p blocks (align + 1)
    else p

/-- The loop of `pmm_deinit_region` and of `pmm_reserve_region`. -/
def takeFrames (p : Pmm) : Nat → Nat → Pmm
  | 0, _ => p
  | blocks + 1, align =>
    if align < p.maxBlocks then
      let p := if p.bitmapTest align then p
        else { p.bitmapSet align with usedBlocks := p.usedBlocks + 1 }
      takeFrames p blocks (align + 1)
    else p

def pmmInitRegion (p : Pmm) (base size : Nat) : Pmm :=
  freeFrames p (size / blockSize) (base / blockSize)

def pmmDeinitRegion (p : Pmm) (base size : Nat) : Pmm :=
  takeFrames p (size / blockSize) (base / blockSize)

/-- The first frame of a reserved region. -/
def reserveFirst (base : Nat) : Nat := base / blockSize
/-- The frame after the last one of a reserved region. -/
def reserveLast (base size : Nat) : Nat := (base + size + blockSize - 1) % 2 ^ 64 / blockSize

def pmmReserveRegion (p : Pmm) (base size : Nat) : Pmm :=
  takeFrames p (reserveLast base size - reserveFirst base) (reserveFirst base)

/-- `pmm_alloc_block`: the frame's address, or NULL (0) when no word has a
clear bit. -/
def pmmAllocBlock (p : Pmm) : Nat × Pmm :=
  match p.bitmap.firstClear (p.maxBlocks / 32) 0 with
  | some block => (block * blockSize, { p.bitmapSet block with usedBlocks := p.usedBlocks + 1 })
  | none => (0, p)

/-- `pmm_free_block` clears the bit whether or not it was set. -/
def pmmFreeBlock (p : Pmm) (addr : Nat) : Pmm :=
  { p.bitmapUnset (addr / blockSize) with usedBlocks := p.usedBlocks - 1 }

/-! ## What the operations do to the bits -/

@[simp] theorem Pmm.test_bitmapSet (p : Pmm) (b c : Nat) :
    (p.bitmapSet b).bitmapTest c = (decide (c = b) || p.bitmapTest c) := Words.test_set _ _ _

@[simp] theorem Pmm.test_bitmapUnset (p : Pmm) (b c : Nat) :
    (p.bitmapUnset b).bitmapTest c = (!decide (c = b) && p.bitmapTest c) := Words.test_unset _ _ _

/-- The counter plays no part in the bits. -/
theorem Pmm.test_counter (p : Pmm) (n : UInt64) (c : Nat) :
    ({ p with usedBlocks := n } : Pmm).bitmapTest c = p.bitmapTest c := rfl

theorem test_pmmInit {words : Words} {size b : Nat} (hb : b < size / blockSize / 32 * 32) :
    (pmmInit words size).bitmapTest b = true := by
  refine Words.full_word (i := b / 32) ?_ rfl
  exact if_pos (by omega)

/-- A loop over the frames from `a` on that gives each bit it passes the value `v`. -/
theorem frames_bits {F : Pmm → Nat → Nat → Pmm} {round : Pmm → Nat → Pmm} {v : Bool}
    (hzero : ∀ p a, F p 0 a = p)
    (hsucc : ∀ p n a, F p (n + 1) a = if a < p.maxBlocks then F (round p a) n (a + 1) else p)
    (hround : ∀ p a, (round p a).maxBlocks = p.maxBlocks ∧
      ∀ c, (round p a).bitmapTest c = if c = a then v else p.bitmapTest c) (p : Pmm) (n a : Nat) :
    (F p n a).maxBlocks = p.maxBlocks ∧ ∀ b, (F p n a).bitmapTest b =
      if a ≤ b ∧ b < a + n ∧ b < p.maxBlocks then v else p.bitmapTest b := by
  induction n generalizing p a with
  | zero =>
    rw [hzero]
    exact ⟨rfl, fun b => (if_neg (by omega)).symm⟩
  | succ n ih =>
    obtain ⟨hmax, hbit⟩ := hround p a
    rw [hsucc]
    split
    · refine ⟨(ih _ _).1.trans hmax, fun b => ?_⟩
      rw [(ih _ _).2, hbit, hmax]
      split_ifs <;> first | rfl | omega
    · exact ⟨rfl, fun b => (if_neg (by omega)).symm⟩

theorem freeFrames_bits (p : Pmm) (n a : Nat) :
    (freeFrames p n a).maxBlocks = p.maxBlocks ∧ ∀ b, (freeFrames p n a).bitmapTest b =
      if a ≤ b ∧ b < a + n ∧ b < p.maxBlocks then false else p.bitmapTest b := by
  refine frames_bits (fun _ _ => rfl) (fun _ _ _ => rfl) (fun p a => ?_) p n a
  -- the bit is clear afterwards, whatever it was
  split <;> refine ⟨rfl, fun c => ?_⟩ <;> by_cases hc : c = a <;> simp_all [Pmm.test_counter]

theorem takeFrames_bits (p : Pmm) (n a : Nat) :
    (takeFrames p n a).maxBlocks = p.maxBlocks ∧ ∀ b, (takeFrames p n a).bitmapTest b =
      if a ≤ b ∧ b < a + n ∧ b < p.maxBlocks then true else p.bitmapTest b := by
  refine frames_bits (fun _ _ => rfl) (fun _ _ _ => rfl) (fun p a => ?_) p n a
  split <;> refine ⟨rfl, fun c => ?_⟩ <;> by_cases hc : c = a <;> simp_all [Pmm.test_counter]

/-- A reserved region's frames are in use, the others are as they were. -/
theorem test_pmmReserveRegion (p : Pmm) (base size b : Nat) :
    (pmmReserveRegion p base size).bitmapTest b = (p.bitmapTest b ||
      decide (reserveFirst base ≤ b ∧ b < reserveLast base size ∧ b < p.maxBlocks)) := by
  rw [pmmReserveRegion, (takeFrames_bits _ _ _).2, Bool.if_true_left, Bool.or_comm]
  congr 2
  rw [eq_iff_iff]
  omega

@[simp] theorem pmmReserveRegion_maxBlocks (p : Pmm) (base size : Nat) :
    (pmmReserveRegion p base size).maxBlocks = p.maxBlocks := (takeFrames_bits _ _ _).1

/-- An allocation takes the least free frame below the last whole word. -/
theorem pmmAllocBlock_cases (p : Pmm) :
    (∃ f, f < p.maxBlocks / 32 * 32 ∧ p.bitmapTest f = false ∧
      (∀ m < f, p.bitmapTest m = true) ∧
      pmmAllocBlock p =
        (f * blockSize, { p.bitmapSet f with usedBlocks := p.usedBlocks + 1 })) ∨
    ((∀ m < p.maxBlocks / 32 * 32, p.bitmapTest m = true) ∧ pmmAllocBlock p = (0, p)) := by
  rw [pmmAllocBlock]
  cases h : p.bitmap.firstClear (p.maxBlocks / 32) 0 with
  | none =>
    exact .inr ⟨fun m hm => Words.firstClear_none h m (Nat.zero_le _) (by omega), rfl⟩
  | some f =>
    obtain ⟨h2, h3, h4⟩ := Words.firstClear_some h
    exact .inl ⟨f, by omega, h3, fun m hm => h4 m (by omega) hm, rfl⟩

end LiwusOS.Mm
