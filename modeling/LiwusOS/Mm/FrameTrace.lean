import Mathlib.Order.Interval.Finset.Nat
import LiwusOS.Lib.FirstFit
import LiwusOS.Mm.HeapFrames

/-! # Frames handed out while the heap grows

Page tables come from `kmalloc_a`, which moves the end of the heap and reserves
the frames it passes, free or not. `pmm_alloc_block` hands out the lowest free
frame. How many calls find one, with some tables made before each, is said here
in terms of the state before the first. -/

namespace LiwusOS.Mm
open LiwusOS.Lib List

/-- The frames `pmm_alloc_block` chooses from. -/
def Pmm.free (p : Pmm) : Finset Nat := (Finset.range (p.maxBlocks / 32 * 32)).filter fun f => p.bitmapTest f = false

theorem Pmm.mem_free {p : Pmm} {f : Nat} :
    f ∈ p.free ↔ f < p.maxBlocks / 32 * 32 ∧ p.bitmapTest f = false := by
  simp [free]

/-- One call. -/
theorem pmmAllocBlock_free (p : Pmm) :
    (∃ f ∈ p.free, (∀ g ∈ p.free, f ≤ g) ∧ (pmmAllocBlock p).1 / 4096 = f ∧
      (pmmAllocBlock p).2.maxBlocks = p.maxBlocks ∧ (pmmAllocBlock p).2.free = p.free.erase f) ∨
    p.free = ∅ ∧ (pmmAllocBlock p).1 / 4096 = 0 ∧ (pmmAllocBlock p).2 = p := by
  rcases pmmAllocBlock_cases p with ⟨f, hf, hfree, hleast, heq⟩ | ⟨hall, heq⟩
  · refine .inl ⟨f, Pmm.mem_free.mpr ⟨hf, hfree⟩, fun g hg => ?_, ?_, ?_, ?_⟩
    · by_contra hlt
      have hused := hleast g (by omega)
      rw [(Pmm.mem_free.mp hg).2] at hused
      cases hused
    · rw [heq]
      exact Nat.mul_div_cancel f (by decide)
    · rw [heq]
      rfl
    · ext b
      rw [heq, Finset.mem_erase, Pmm.mem_free, Pmm.mem_free, Pmm.test_counter, Pmm.test_bitmapSet]
      by_cases hb : b = f
      · simp [hb]
      · simp [hb, Pmm.bitmapSet]
  · refine .inr ⟨Finset.eq_empty_of_forall_notMem fun f hf => ?_, by rw [heq, Nat.zero_div], by rw [heq]⟩
    obtain ⟨hlt, hfree⟩ := Pmm.mem_free.mp hf
    rw [hall f hlt] at hfree
    cases hfree

/-! ## The end of the heap -/

/-- Where the heap ends once a page table is put behind `current`. -/
def tableEnd (current : Nat) : Nat := (current + headerSize + 4095) / 4096 * 4096 + 4096

/-- Where it ends after `n` page tables. -/
def Kheap.endAfter (k : Kheap) (n : Nat) : Nat := tableEnd^[n] k.kheapCurrent

/-- The frames that are reserved for `n` page tables. -/
def Kheap.Covers (k : Kheap) (n f : Nat) : Prop := 0 < n ∧ k.kheapCurrent / 4096 ≤ f ∧ f * 4096 < k.endAfter n

instance (k : Kheap) (n f : Nat) : Decidable (k.Covers n f) := inferInstanceAs (Decidable (_ ∧ _))

section Growth
variable {k k₁ k' : Kheap} {n m f p : Nat} {fs gs : List Nat}

theorem endAfter_mono (k : Kheap) : Monotone k.endAfter := by
  refine monotone_nat_of_le_succ fun n => ?_
  rw [Kheap.endAfter, Kheap.endAfter, Function.iterate_succ_apply', tableEnd]
  omega

theorem endAfter_add (h : k₁.kheapCurrent = k.endAfter n) (m : Nat) : k₁.endAfter m = k.endAfter (n + m) := by
  rw [Kheap.endAfter, h, Kheap.endAfter, Kheap.endAfter, ← Function.iterate_add_apply, Nat.add_comm]

theorem Kheap.Covers.mono (h : k.Covers n f) (hn : n ≤ m) : k.Covers m f :=
  ⟨Nat.lt_of_lt_of_le h.1 hn, h.2.1, Nat.lt_of_lt_of_le h.2.2 (endAfter_mono k hn)⟩

/-- Growth in two parts leaves no gap. -/
theorem covers_add (h : k₁.kheapCurrent = k.endAfter n) : k.Covers (n + m) f ↔ k.Covers n f ∨ k₁.Covers m f := by
  constructor
  · intro hc
    by_cases hn : 0 < n ∧ f * 4096 < k.endAfter n
    · exact .inl ⟨hn.1, hc.2.1, hn.2⟩
    · by_cases hm : 0 < m
      · refine .inr ⟨hm, ?_, endAfter_add h m ▸ hc.2.2⟩
        by_cases h0 : n = 0
        · subst h0
          rw [h]
          exact hc.2.1
        · rw [h]
          omega
      · obtain rfl : m = 0 := by omega
        exact .inl hc
  · rintro (hc | ⟨hm, hlo, hhi⟩)
    · exact hc.mono (Nat.le_add_right n m)
    · rw [endAfter_add h] at hhi
      refine ⟨by omega, ?_, hhi⟩
      have hle : k.kheapCurrent ≤ k.endAfter n := endAfter_mono k (Nat.zero_le n)
      rw [h] at hlo
      omega

/-- From `k` to `k'` the heap has grown by `n` page tables and `pmm_alloc_block` has
handed out `fs`. -/
structure Spent (k k' : Kheap) (n : Nat) (fs : List Nat) : Prop where
  ready : k'.Ready
  current : k'.kheapCurrent = k.endAfter n
  max : k'.pmm.maxBlocks = k.pmm.maxBlocks
  free : ∀ f, f ∈ k'.pmm.free ↔ f ∈ k.pmm.free ∧ f ∉ fs ∧ ¬ k.Covers n f

namespace Spent

theorem refl (hk : k.Ready) : Spent k k 0 [] := ⟨hk, rfl, rfl, fun f => by simp [Kheap.Covers]⟩

theorem trans (h : Spent k k₁ n fs) (h' : Spent k₁ k' m gs) : Spent k k' (n + m) (fs ++ gs) where
  ready := h'.ready
  current := by rw [h'.current, endAfter_add h.current]
  max := h'.max.trans h.max
  free f := by
    rw [h'.free, h.free, covers_add h.current, mem_append]
    tauto

theorem subset (h : Spent k k' n fs) : k'.pmm.free ⊆ k.pmm.free := fun f hf => ((h.free f).mp hf).1

theorem le_current (h : Spent k k' n fs) : k.kheapCurrent ≤ k'.kheapCurrent :=
  h.current ▸ endAfter_mono k (Nat.zero_le n)

/-- A frame is handed out, or there is none. -/
theorem alloc (hk : k.Ready) :
    Spent k { k with pmm := (pmmAllocBlock k.pmm).2 } 0 [(pmmAllocBlock k.pmm).1 / 4096] := by
  have hready : Kheap.Ready { k with pmm := (pmmAllocBlock k.pmm).2 } := ⟨hk.started, hk.bound, hk.memory⟩
  rcases pmmAllocBlock_free k.pmm with ⟨f, -, -, heq, hmax, hfree⟩ | ⟨hempty, -, hsame⟩
  · refine ⟨hready, rfl, hmax, fun g => ?_⟩
    rw [hfree, heq, Finset.mem_erase, mem_singleton]
    simp [Kheap.Covers, and_comm]
  · refine ⟨hready, rfl, by rw [hsame], fun g => ?_⟩
    rw [hsame, hempty]
    simp

end Spent

theorem alignPage_mod (x : Nat) : alignPage x % 4096 = 0 := by
  unfold alignPage
  split <;> omega

/-- A page from `kmalloc_a`. -/
theorem kmallocA_spent (hk : k.Ready) (h : kmallocA k 4096 = some (p, k')) : Spent k k' 1 [] := by
  have hc := hk.bound
  have hm := hk.memory
  have hb := alignPage_bounds (x := k.kheapCurrent + headerSize) (by unfold headerSize; omega)
  have hmod := alignPage_mod (k.kheapCurrent + headerSize)
  simp only [kmallocA, kheapReady_started hk.started, Option.map_eq_some_iff, Prod.mk.injEq] at h
  obtain ⟨k₁, hg, -, rfl⟩ := h
  rw [alignedTotal_eq hc (by omega)] at hg
  unfold headerSize at *
  obtain ⟨hroom, rfl⟩ := kheapGrow_some hg hk (by omega)
  have hcur : k.kheapCurrent + (alignPage (k.kheapCurrent + 8) - k.kheapCurrent + 4096) =
      tableEnd k.kheapCurrent := by
    unfold tableEnd headerSize
    omega
  refine ⟨⟨hk.started, ?_, hm⟩, hcur, pmmReserveRegion_maxBlocks _ _ _, fun f => ?_⟩
  · dsimp only
    omega
  · have hlast : reserveLast k.kheapCurrent (alignPage (k.kheapCurrent + 8) - k.kheapCurrent + 4096) =
        tableEnd k.kheapCurrent / 4096 := by
      unfold reserveLast blockSize
      rw [hcur, Nat.mod_eq_of_lt (by omega)]
      unfold tableEnd
      omega
    rw [Pmm.mem_free, Pmm.mem_free, test_pmmReserveRegion, pmmReserveRegion_maxBlocks, hlast]
    have hiff : reserveFirst k.kheapCurrent ≤ f ∧ f < tableEnd k.kheapCurrent / 4096 ↔ k.Covers 1 f := by
      unfold reserveFirst blockSize Kheap.Covers Kheap.endAfter
      rw [Function.iterate_one]
      unfold tableEnd
      omega
    simp only [← hiff, not_mem_nil, not_false_eq_true, true_and, Bool.or_eq_false_iff, decide_eq_false_iff_not]
    constructor
    · rintro ⟨hlt, hfree, hn⟩
      exact ⟨⟨hlt, hfree⟩, fun hc => hn ⟨hc.1, hc.2, by omega⟩⟩
    · rintro ⟨⟨hlt, hfree⟩, hn⟩
      exact ⟨hlt, hfree, fun hc => hn ⟨hc.1, hc.2.1⟩⟩

end Growth

/-! ## Calls in a row -/

/-- A free frame that the heap has not reached with `T i` page tables. -/
def Kheap.Left (k : Kheap) (T : Nat → Nat) (i f : Nat) : Prop := f ∈ k.pmm.free ∧ ¬ k.Covers (T i) f

/-- Each of `n` calls finds a frame when `T i` page tables have been made before call
`i`: there are free frames, in increasing order, that the heap does not reach in time.
A free frame 0 would be the first and is taken for NULL. -/
structure Supplies (k : Kheap) (T : Nat → Nat) (n : Nat) : Prop where
  nonzero : 0 < n → 0 ∉ k.pmm.free
  frames : Increasing (k.Left T) n

/-- The frames `fs` were handed out in a row. -/
structure Drawn (k k' : Kheap) (T : Nat → Nat) (fs : List Nat) : Prop where
  spent : Spent k k' (T fs.length) fs
  nonzero : 0 ∉ fs
  firstFit : FirstFit (k.Left T) fs

section Draw
variable {k k₁ k' : Kheap} {T : Nat → Nat} {n m : Nat} {fs : List Nat}

theorem Supplies.mono (h : Supplies k T m) (hn : n ≤ m) : Supplies k T n :=
  ⟨fun h0 => h.nonzero (Nat.lt_of_lt_of_le h0 hn), h.frames.mono hn⟩

namespace Drawn

theorem nil (hk : k.Ready) (h0 : T 0 = 0) : Drawn k k T [] := ⟨h0 ▸ .refl hk, not_mem_nil, .nil⟩

/-- One more frame, and then some tables. -/
theorem snoc (h : Drawn k k₁ T fs) (hne : (pmmAllocBlock k₁.pmm).1 / 4096 ≠ 0)
    (hs : Spent { k₁ with pmm := (pmmAllocBlock k₁.pmm).2 } k' m []) (hT : T (fs.length + 1) = T fs.length + m) :
    Drawn k k' T (fs ++ [(pmmAllocBlock k₁.pmm).1 / 4096]) := by
  refine ⟨?_, fun hm => ?_, h.firstFit.snoc ?_⟩
  · have hall := (h.spent.trans (.alloc h.spent.ready)).trans hs
    rwa [length_append, length_singleton, hT, ← append_nil (fs ++ _)]
  · exact (mem_append.mp hm).elim h.nonzero fun h0 => hne (mem_singleton.mp h0).symm
  · rcases pmmAllocBlock_free k₁.pmm with ⟨f, hf, hleast, heq, -⟩ | ⟨-, h0, -⟩
    · rw [heq]
      obtain ⟨hfree, hnew, hcov⟩ := (h.spent.free f).mp hf
      exact ⟨⟨⟨hfree, hcov⟩, hnew⟩, fun g hg => hleast g ((h.spent.free g).mpr ⟨hg.1.1, hg.2, hg.1.2⟩)⟩
    · exact absurd h0 hne

theorem left_antitone (k : Kheap) (hT : Monotone T) : Antitone (k.Left T) := fun _ _ hij _ h =>
  ⟨h.1, fun hc => h.2 (hc.mono (hT hij))⟩

end Drawn
end Draw
end LiwusOS.Mm
