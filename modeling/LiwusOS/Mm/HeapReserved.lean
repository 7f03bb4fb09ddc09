import LiwusOS.Mm.HeapBlocks

/-! # The frames under the heap

Growth reserves the frames of the new memory, so every frame under a block of
the heap is in use, and stays so while nobody frees it. `kfree` does: the pages
of a block that starts on a page boundary and is a page long or more go back to
the frame allocator, and the block goes on the free list as well. -/

namespace LiwusOS.Mm
open LiwusOS.Lib List Function Relation

namespace Ledger

/-- Every frame under a live or free block is marked used. -/
def Reserved (u : Ledger) : Prop :=
  ∀ a ∈ u.headers, ∀ x, a ≤ x → x < a + u.heap.blockSizeAt a →
    u.heap.pmm.bitmapTest (x / blockSize) = true

/-- `kfree` returns the pages of this block. -/
def PageBlock (u : Ledger) (ptr : Nat) : Prop :=
  headerOf ptr % 4096 = 0 ∧ 4096 ≤ u.heap.blockSizeAt (headerOf ptr)

/-- The call frees no block whose pages `kfree` returns. -/
def Retains (u : Ledger) : HeapOp → Prop
  | .alloc _ _ => True
  | .kfree ptr => ¬ u.PageBlock ptr
  | .krealloc ptr _ => ¬ u.PageBlock ptr

def RetainedStep (u v : Ledger) : Prop := ∃ op, u.Allowed op ∧ u.Retains op ∧ u.step op = some v

/-- The bitmap has a bit for every byte of memory. -/
def Covered (u : Ledger) : Prop := u.heap.memorySize ≤ u.heap.pmm.maxBlocks * blockSize

variable {u v : Ledger}

/-- Growth over `[lo, lo + total)` reserves every frame there. -/
theorem test_reserve_of_mem {p : Pmm} {lo total x memory : Nat} (hx1 : lo ≤ x) (hx2 : x < lo + total)
    (hroom : lo + total < memory) (hm : memory ≤ 2 ^ 62) (hcover : memory ≤ p.maxBlocks * blockSize) :
    (pmmReserveRegion p lo total).bitmapTest (x / blockSize) = true := by
  rw [test_pmmReserveRegion, Bool.or_eq_true, decide_eq_true_eq]
  unfold reserveFirst reserveLast blockSize at *
  omega

/-- A served block lies on frames that are in use, and takes none from the
others. -/
theorem Reserved.served {k : Kheap} {b n lo total : Nat} {live : List (Nat × Nat)}
    (hres : u.Reserved) (hcover : u.Covered) (hm : u.heap.memorySize ≤ 2 ^ 62)
    (hserved : Served u.heap k b n lo total) (hlive : liveHeaders live = b :: liveHeaders u.live)
    (hnew : ∀ a ∈ u.headers, k.blockSizeAt a ≤ u.heap.blockSizeAt a) :
    (⟨k, live⟩ : Ledger).Reserved ∧ (⟨k, live⟩ : Ledger).Covered := by
  have hb : k.blockSizeAt b = n := by rw [hserved.sizes, update_self]
  -- the old blocks only got shorter
  have hold : (∀ f, u.heap.pmm.bitmapTest f = true → k.pmm.bitmapTest f = true) →
      ∀ a ∈ u.headers, ∀ x, a ≤ x → x < a + k.blockSizeAt a → k.pmm.bitmapTest (x / blockSize) = true :=
    fun hkeep a ha x h1 h2 =>
      hkeep _ (hres a ha x h1 (h2.trans_le (Nat.add_le_add_left (hnew a ha) a)))
  cases hserved.place with
  | reused mem fits free pmm =>
    refine ⟨fun a ha => hold (fun f hf => pmm ▸ hf) a ?_, ?_⟩
    · rw [headers, hlive, free] at ha
      rcases mem_append.mp ha with ha | ha
      · rcases mem_cons.mp ha with rfl | ha
        · exact mem_append_right _ mem
        · exact mem_append_left _ ha
      · exact mem_append_right _ (mem_of_mem_erase ha)
    · rw [Covered, hserved.memory, pmm]
      exact hcover
  | fresh above below free pmm reserved room =>
    constructor
    · intro a ha x h1 h2
      rw [headers, hlive, free, cons_append] at ha
      rcases mem_cons.mp ha with rfl | ha
      · change x < a + k.blockSizeAt a at h2
        show k.pmm.bitmapTest _ = true
        rw [pmm]
        exact test_reserve_of_mem (reserved.1.trans h1) (by omega) room hm hcover
      · refine hold (fun f hf => ?_) a ha x h1 h2
        rw [pmm, test_pmmReserveRegion, hf, Bool.true_or]
    · rw [Covered, hserved.memory, pmm, pmmReserveRegion_maxBlocks]
      exact hcover

theorem kheapReady_fields (k : Kheap) : (kheapReady k).freeList = k.freeList ∧
    (kheapReady k).blockSizeAt = k.blockSizeAt ∧ (kheapReady k).pmm = k.pmm ∧
    (kheapReady k).memorySize = k.memorySize := by
  have hset : ∀ start, (kheapSetStart k start).freeList = k.freeList ∧
      (kheapSetStart k start).blockSizeAt = k.blockSizeAt ∧ (kheapSetStart k start).pmm = k.pmm ∧
      (kheapSetStart k start).memorySize = k.memorySize := fun _ => ⟨rfl, rfl, rfl, rfl⟩
  rw [kheapReady]
  split
  · exact hset _
  · exact ⟨rfl, rfl, rfl, rfl⟩

theorem alloc_reserved (h : u.Inv) (hres : u.Reserved) (hcover : u.Covered) {call : HeapCall}
    {size : Nat} (hok : u.Allowed (.alloc call size)) (hv : u.step (.alloc call size) = some v) :
    v.Reserved ∧ v.Covered := by
  obtain ⟨b, n, hlive, ⟨lo, total, hserved⟩, hnew, -⟩ := h.alloc hok hv
  obtain ⟨hfree, hsizes, hpmm, hmem⟩ := kheapReady_fields u.heap
  obtain ⟨hready, -⟩ := h.ready
  have hres' : (⟨kheapReady u.heap, u.live⟩ : Ledger).Reserved := by
    rw [Reserved, headers]
    dsimp only
    rw [hfree, hsizes, hpmm]
    exact hres
  have hcover' : (⟨kheapReady u.heap, u.live⟩ : Ledger).Covered := by
    rw [Covered]
    dsimp only
    rw [hpmm, hmem]
    exact hcover
  refine hres'.served hcover' hready.memory hserved ?_ fun a ha => ?_
  · rw [hlive]
    simp [liveHeaders]
  · rw [hserved.sizes]
    rcases eq_or_ne a b with rfl | hne
    · rw [update_self]
      cases hserved.place with
      | reused mem fits free pmm => exact fits
      | fresh above below free pmm reserved room =>
        exact absurd ha (hready.regions.notMem_of_ge (by decide) (above.trans reserved.1))
    · rw [update_of_ne hne]

theorem kfree_reserved (h : u.Inv) (hres : u.Reserved) (hcover : u.Covered) {ptr : Nat}
    (hok : u.Holds ptr) (hkeep : ¬ u.PageBlock ptr) (hv : u.step (.kfree ptr) = some v) : v.Reserved ∧ v.Covered := by
  cases hv
  rcases hok with rfl | hmem
  · rw [h.drop_zero]
    exact ⟨hres, hcover⟩
  obtain ⟨p, hp, rfl⟩ := mem_map.mp hmem
  rw [PageBlock, (h.headerOf hp).1] at hkeep
  rw [kfree_live h hp, if_neg hkeep]
  refine ⟨fun a ha => hres a ?_, hcover⟩
  exact (h.headers_perm hp).mem_iff.mpr ha

theorem retainedStep_reserved (h : u.Inv) (hres : u.Reserved) (hcover : u.Covered)
    (hstep : RetainedStep u v) : v.Reserved ∧ v.Covered := by
  obtain ⟨op, hok, hkeep, hv⟩ := hstep
  cases op with
  | alloc call size => exact alloc_reserved h hres hcover hok hv
  | kfree ptr => exact kfree_reserved h hres hcover hok hkeep hv
  | krealloc ptr size =>
    have hok' : u.Allowed (.alloc .kmalloc size) := ⟨hok.1, fun hc => by cases hc⟩
    rcases h.krealloc_cases hok hv with ⟨-, hv⟩ | ⟨-, hv⟩ | ⟨p, hp, -, rfl⟩ | ⟨w, p, hp, rfl, hw, hv⟩
    · exact alloc_reserved h hres hcover hok' hv
    · exact kfree_reserved h hres hcover hok.2 hkeep hv
    · refine ⟨fun a ha => hres a ?_, hcover⟩
      exact (((h.live_perm hp).map _).append_right _).mem_iff.mpr ha
    · -- the new block leaves the size of the old one as it is
      obtain ⟨b, n, hlive, ⟨lo, total, hserved⟩, hnew, hinv⟩ := h.alloc hok' hw
      obtain ⟨hres', hcover'⟩ := alloc_reserved h hres hcover hok' hw
      have hne : p.1 - headerSize ≠ b := ne_of_mem_of_not_mem (mem_map.mpr ⟨p, hp, rfl⟩) hnew
      refine kfree_reserved hinv hres' hcover' (.inr ?_) ?_ hv
      · rw [hlive]
        exact .tail _ (mem_map_of_mem hp)
      · rw [PageBlock, (h.headerOf hp).1, hserved.sizes, update_of_ne hne,
          (kheapReady_fields u.heap).2.1]
        rwa [Retains, PageBlock, (h.headerOf hp).1] at hkeep

/-- **The frames under the heap stay reserved** in every run that frees no
page-aligned block of a page or more. -/
theorem heap_frames_reserved {k : Kheap} (hk : k.Fresh) (hm : k.memorySize ≤ k.pmm.maxBlocks * blockSize)
    (hr : ReflTransGen RetainedStep ⟨k, []⟩ u) : u.Reserved := by
  have hall : u.Inv ∧ u.Reserved ∧ u.Covered := by
    induction hr with
    | refl =>
      refine ⟨fresh_inv hk, fun a ha => ?_, hm⟩
      rw [headers, hk.free] at ha
      cases ha
    | tail _ hstep ih =>
      obtain ⟨hinv, hres, hcover⟩ := ih
      have hallowed : AllowedStep _ _ := hstep.imp fun op h => ⟨h.1, h.2.2⟩
      exact ⟨allowedStep_inv hinv hallowed, retainedStep_reserved hinv hres hcover hstep⟩
  exact hall.2.1

end Ledger

/-! ## A freed block of two pages -/

/-- `kfree(kmalloc(8192))` as the first calls after boot: the header lies on a
page boundary, so the frame of the freed block can be handed out. -/
theorem kfree_releases_heap_frame : ∃ u v,
    Ledger.step ⟨bootHeap largeInitrd, []⟩ (.alloc .kmalloc 8192) = some u ∧
    u.live = [(8194 * 4096 + 8, 8192)] ∧ u.step (.kfree (8194 * 4096 + 8)) = some v ∧
    8194 * 4096 ∈ v.heap.freeList ∧ v.heap.pmm.bitmapTest 8194 = false ∧ ¬ v.Reserved := by
  obtain ⟨u, hu, v, hv, hlive, hfree, hsize, htest⟩ :
      ∃ u ∈ Ledger.step ⟨bootHeap largeInitrd, []⟩ (.alloc .kmalloc 8192),
      ∃ v ∈ u.step (.kfree (8194 * 4096 + 8)), u.live = [(8194 * 4096 + 8, 8192)] ∧ 8194 * 4096 ∈ v.heap.freeList ∧
        v.heap.blockSizeAt (8194 * 4096) = 8200 ∧ v.heap.pmm.bitmapTest 8194 = false := by
    rw [bootHeap_largeInitrd]
    decide +kernel
  refine ⟨u, v, hu, hlive, hv, hfree, htest, fun hres => ?_⟩
  have hused := hres _ (mem_append_right _ hfree) (8194 * 4096) le_rfl (by omega)
  rw [show 8194 * 4096 / blockSize = 8194 from rfl, htest] at hused
  cases hused

instance (u : Ledger) (op : HeapOp) : Decidable (u.Retains op) := by
  apply HeapOp.casesOn (motive := fun op => Decidable (u.Retains op)) op <;> intros <;>
    dsimp only [Ledger.Retains, Ledger.PageBlock] <;> infer_instance

/-- Two small blocks, of which one is freed. -/
theorem heap_frames_reserved_largeInitrd : ∃ u,
    ReflTransGen Ledger.RetainedStep ⟨bootHeap largeInitrd, []⟩ u ∧
    u.live = [(8194 * 4096 + 8, 16)] ∧ u.heap.freeList = [8194 * 4096 + 24] ∧ u.Reserved := by
  obtain ⟨u, hr, hlive, hfree⟩ : ∃ u, ReflTransGen Ledger.RetainedStep ⟨bootHeap largeInitrd, []⟩ u ∧
      u.live = [(8194 * 4096 + 8, 16)] ∧ u.heap.freeList = [8194 * 4096 + 24] :=
    exists_run (fun _ => Ledger.step) (fun u op => u.Allowed op ∧ u.Retains op) (fun h hv => ⟨_, h.1, h.2, hv⟩)
      [(.alloc .kmalloc 16, 0), (.alloc .kmalloc 16, 0), (.kfree (8194 * 4096 + 32), 0)] (by decide +kernel)
  have hcover : (bootHeap largeInitrd).memorySize ≤ (bootHeap largeInitrd).pmm.maxBlocks * blockSize := by
    rw [(bootHeap_fields largeInitrd).1, bootPmm_maxBlocks, (bootHeap_fields largeInitrd).2.1,
      largeInitrd_values.1, blockSize]
  exact ⟨u, hr, hlive, hfree, Ledger.heap_frames_reserved (bootHeap_fresh largeInitrd_sane) hcover hr⟩

end LiwusOS.Mm
