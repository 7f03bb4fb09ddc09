import LiwusOS.Mm.Kheap

/-! # Heap growth and frames handed out

The heap and the frame allocator share physical memory. Growing the heap calls
`pmm_reserve_region`, which skips frames that are already taken. The two stay
apart exactly as long as no growth reaches a frame that `pmm_alloc_block` has
handed out; nothing in the code enforces that. -/

namespace LiwusOS.Mm
open LiwusOS.Lib List Relation Function
open Option (map_eq_some_iff)

/-! ## Boot -/

/-- `reserved_start` of `kernel_main`: past the image and every boot module. -/
def reservedStart (kernelEnd : Nat) (moduleEnds : List Nat) : Nat :=
  moduleEnds.foldl (fun r e => if e + 0x1000 > r then e + 0x1000 else r) (kernelEnd + 0x1000)

def pmmBitmapBytes (memorySize : Nat) : Nat :=
  if memorySize / 4096 / 32 * 4 = 0 then 4096 else memorySize / 4096 / 32 * 4

def heapStart (reserved bitmapBytes : Nat) : Nat :=
  if reserved + bitmapBytes + 0x1000 < 0x1000000 then 0x1000000
  else reserved + bitmapBytes + 0x1000

/-- What `kernel_main` finds: the symbol `end`, the ends of the boot modules,
the memory size, the available regions of the memory map, and the words that
happen to lie where the bitmap goes. -/
structure BootInfo where
  kernelEnd : Nat
  moduleEnds : List Nat
  memorySize : Nat
  regions : List (Nat × Nat)
  words : Words

def BootInfo.memory (i : BootInfo) : Nat := if i.memorySize = 0 then 512 * 1024 * 1024 else i.memorySize
def BootInfo.reserved (i : BootInfo) : Nat := reservedStart i.kernelEnd i.moduleEnds

/-- `kernel_main` up to `kheap_set_start`. -/
def bootPmm (i : BootInfo) : Pmm :=
  let p := pmmInit i.words i.memory
  let p := i.regions.foldl (fun p r => pmmInitRegion p r.1 r.2) p
  let p := pmmDeinitRegion p 0 i.reserved
  pmmReserveRegion p i.reserved (pmmBitmapBytes i.memory)

def bootHeap (i : BootInfo) : Kheap :=
  kheapSetStart
    { pmm := bootPmm i
      memorySize := i.memory
      kernelEnd := i.kernelEnd
      kheapStart := 0
      kheapCurrent := 0
      freeList := []
      blockSizeAt := fun _ => 0 }
    (heapStart i.reserved (pmmBitmapBytes i.memory))

theorem bootHeap_fields (i : BootInfo) :
    (bootHeap i).pmm = bootPmm i ∧ (bootHeap i).memorySize = i.memory ∧
    (bootHeap i).kheapStart = alignPage (heapStart i.reserved (pmmBitmapBytes i.memory)) ∧
    (bootHeap i).kheapCurrent = alignPage (heapStart i.reserved (pmmBitmapBytes i.memory)) ∧
    (bootHeap i).freeList = [] := by
  simp only [bootHeap, kheapSetStart, and_self]

/-! ## Runs -/

inductive HeapCall where
  | kmalloc
  | kmallocA
  | kmallocAp
deriving DecidableEq

def heapCall (k : Kheap) : HeapCall → Nat → Option (Nat × Kheap)
  | .kmalloc, size => kmalloc k size
  | .kmallocA, size => kmallocA k size
  | .kmallocAp, size => kmallocAp k size

inductive MemOp where
  | heap (call : HeapCall) (size : Nat)
  | pmmAllocBlock
  | pmmFreeBlock (addr : Nat)

/-- The machine with the blocks the heap has returned, header included and as
`[first byte, end)`, and the frames handed out and not yet freed. -/
structure Shared where
  heap : Kheap
  blocks : List (Nat × Nat)
  frames : List Nat

def Shared.boot (i : BootInfo) : Shared := ⟨bootHeap i, [], []⟩

def memStep (u : Shared) : MemOp → Option Shared
  | .heap call size => (heapCall u.heap call size).map fun (ptr, k) =>
      { u with heap := k, blocks := (ptr - headerSize, ptr + size) :: u.blocks }
  | .pmmAllocBlock =>
      let (addr, p) := LiwusOS.Mm.pmmAllocBlock u.heap.pmm
      some { u with
        heap := { u.heap with pmm := p }
        frames := if addr = 0 then u.frames else addr / blockSize :: u.frames }
  | .pmmFreeBlock addr => some { u with
        heap := { u.heap with pmm := LiwusOS.Mm.pmmFreeBlock u.heap.pmm addr }
        frames := u.frames.filter (· ≠ addr / blockSize) }

/-- No byte of a heap block lies in a frame that is handed out. -/
def Shared.Apart (u : Shared) : Prop :=
  ∀ b ∈ u.blocks, ∀ x, b.1 ≤ x → x < b.2 → x / blockSize ∉ u.frames

/-- Where a call that finds no free block grows the heap from. -/
def growthStart (k : Kheap) : HeapCall → Nat
  | .kmallocAp => alignPage k.kheapCurrent
  | _ => k.kheapCurrent

def growthTotal (k : Kheap) : HeapCall → Nat → Nat
  | .kmalloc, size => blockTotal (roundUp4 size)
  | .kmallocA, size => alignedTotal k.kheapCurrent size
  | .kmallocAp, size => blockTotal size

/-- A heap call asks for less than 2 GiB and grows the heap over no frame that
is handed out; only frames that are handed out are freed. -/
def Shared.Clear (u : Shared) : MemOp → Prop
  | .heap call size => size < 2 ^ 31 ∧ ∀ f ∈ u.frames,
      (f + 1) * blockSize ≤ growthStart u.heap call ∨
      growthStart u.heap call + growthTotal u.heap call size ≤ f * blockSize
  | .pmmAllocBlock => True
  | .pmmFreeBlock addr => addr / blockSize ∈ u.frames

def ClearStep (u v : Shared) : Prop := ∃ op, u.Clear op ∧ memStep u op = some v

/-! ## One call -/

variable {size f : Nat} {k k' : Kheap}

theorem blockTotal_bounds (h : size < 2 ^ 31 + 4) :
    size + headerSize ≤ blockTotal size ∧ blockTotal size < 2 ^ 32 := by
  unfold blockTotal headerSize
  dsimp only
  split <;> omega

theorem roundUp4_bounds (h : size < 2 ^ 31) : size ≤ roundUp4 size ∧ roundUp4 size < 2 ^ 31 + 4 := by
  unfold roundUp4
  omega

theorem alignPage_bounds {x : Nat} (h : x < 2 ^ 63 + 2 ^ 12) : x ≤ alignPage x ∧ alignPage x < x + 4096 := by
  unfold alignPage
  split <;> omega

theorem alignPage_le_two_pow {x : Nat} (h : x ≤ 2 ^ 62) : x ≤ alignPage x ∧ alignPage x ≤ 2 ^ 62 := by
  unfold alignPage
  split <;> omega

theorem alignedTotal_eq {current : Nat} (hc : current ≤ 2 ^ 62) (h : size < 2 ^ 31) :
    alignedTotal current size = alignPage (current + headerSize) - current + size := by
  have hal := alignPage_bounds (x := current + headerSize) (by unfold headerSize; omega)
  unfold alignedTotal headerSize at *
  omega

theorem blockTotal_range (size : Nat) : 16 ≤ blockTotal size ∧ blockTotal size < 2 ^ 32 := by
  unfold blockTotal
  dsimp only
  split <;> omega

theorem kheapReady_started (h : k.kheapStart ≠ 0) : kheapReady k = k := if_neg h

/-- A heap in use. Physical addresses have far fewer than 62 bits. -/
structure Kheap.Ready (k : Kheap) : Prop where
  started : k.kheapStart ≠ 0
  bound : k.kheapCurrent ≤ 2 ^ 62
  memory : k.memorySize ≤ 2 ^ 62

/-- Where a call put its block `[b, b + n)`: on a block of the free list, which
is cut to `n`, or on the `total` bytes from `lo` that the heap grew over. -/
inductive Placed (k k' : Kheap) (b n lo total : Nat) : Prop
  | reused (mem : b ∈ k.freeList) (fits : n ≤ k.blockSizeAt b)
      (free : k'.freeList = k.freeList.erase b) (pmm : k'.pmm = k.pmm)
  | fresh (above : k.kheapCurrent ≤ lo) (below : b + n ≤ k'.kheapCurrent)
      (free : k'.freeList = k.freeList) (pmm : k'.pmm = pmmReserveRegion k.pmm lo total)
      (reserved : lo ≤ b ∧ b + n ≤ lo + total) (room : lo + total < k.memorySize)

/-- What a call that returns `b + HEADER_SIZE` does to a heap that is set up. -/
structure Served (k k' : Kheap) (b n lo total : Nat) : Prop where
  start : k'.kheapStart = k.kheapStart
  memory : k'.memorySize = k.memorySize
  kernel : k'.kernelEnd = k.kernelEnd
  grows : k.kheapCurrent ≤ k'.kheapCurrent
  bound : k'.kheapCurrent ≤ 2 ^ 62
  sizes : k'.blockSizeAt = update k.blockSizeAt b n
  place : Placed k k' b n lo total

variable {b lo n ptr total : Nat}

theorem Served.ready (h : Served k k' b n lo total) (hk : k.Ready) : k'.Ready :=
  ⟨h.start ▸ hk.started, h.bound, h.memory ▸ hk.memory⟩

theorem takeFree_served {fits : Nat → Bool} (h : takeFree k total fits = some (b, k')) (hk : k.Ready) :
    Served k k' b total lo n := by
  rw [takeFree, map_eq_some_iff] at h
  obtain ⟨c, hc, heq⟩ := h
  cases heq
  have hfits := find?_some hc
  rw [Bool.and_eq_true, decide_eq_true_eq] at hfits
  exact ⟨rfl, rfl, rfl, le_rfl, hk.bound, rfl, .reused (mem_of_find?_eq_some hc) hfits.1 rfl rfl⟩

theorem kheapGrow_some (h : kheapGrow k total = some k') (hk : k.Ready) (ht : total < 2 ^ 33) :
    k.kheapCurrent + total < k.memorySize ∧ k' = { k with
      pmm := pmmReserveRegion k.pmm k.kheapCurrent total
      kheapCurrent := k.kheapCurrent + total } := by
  have hc := hk.bound
  have hmod : (k.kheapCurrent + total) % 2 ^ 64 = k.kheapCurrent + total := Nat.mod_eq_of_lt (by omega)
  rw [kheapGrow, hmod] at h
  split at h
  · cases h
  · rename_i hlt
    cases h
    exact ⟨Nat.lt_of_not_le hlt, rfl⟩

/-- A block placed in memory the heap has just grown over. -/
theorem kheapGrow_served (h : kheapGrow k total = some k') (hk : k.Ready) (ht : total < 2 ^ 33)
    (hlo : k.kheapCurrent ≤ b) (hhi : b + n ≤ k.kheapCurrent + total) :
    Served k { k' with blockSizeAt := update k.blockSizeAt b n } b n k.kheapCurrent total := by
  obtain ⟨hroom, rfl⟩ := kheapGrow_some h hk ht
  have hm := hk.memory
  refine ⟨rfl, rfl, rfl, Nat.le_add_right _ _, ?_, rfl, .fresh le_rfl hhi rfl rfl ⟨hlo, hhi⟩ hroom⟩
  show k.kheapCurrent + total ≤ 2 ^ 62
  omega

theorem bumpBlock_served (h : bumpBlock k total = some (ptr, k')) (hk : k.Ready) (ht : total < 2 ^ 32) :
    ptr = k.kheapCurrent + headerSize ∧ Served k k' k.kheapCurrent total k.kheapCurrent total := by
  rw [bumpBlock, map_eq_some_iff] at h
  obtain ⟨m, hm, heq⟩ := h
  cases heq
  exact ⟨rfl, kheapGrow_served hm hk (by omega) le_rfl le_rfl⟩

/-- Every call serves a block with room for the request. -/
theorem heapCall_served {call : HeapCall} (h : heapCall k call size = some (ptr, k')) (hk : k.Ready)
    (ha : call = .kmallocA → size < 2 ^ 31) :
    ∃ b n, ptr = b + headerSize ∧ Served k k' b n (growthStart k call) (growthTotal k call size) ∧
      (size < 2 ^ 31 → size + headerSize ≤ n) ∧ ((call = .kmallocA → 8 ≤ size) → 16 ≤ n) := by
  cases call with
  | kmalloc =>
    obtain ⟨h16, h32⟩ := blockTotal_range (roundUp4 size)
    have hroom : size < 2 ^ 31 → size + headerSize ≤ blockTotal (roundUp4 size) := by
      intro hlt
      have h4 := roundUp4_bounds hlt
      have := (blockTotal_bounds h4.2).1
      omega
    simp only [heapCall, kmalloc, kheapReady_started hk.started] at h
    split at h
    · rename_i b k1 htake
      cases h
      exact ⟨b, _, rfl, takeFree_served htake hk, hroom, fun _ => h16⟩
    · obtain ⟨rfl, hserved⟩ := bumpBlock_served h hk h32
      exact ⟨_, _, rfl, hserved, hroom, fun _ => h16⟩
  | kmallocA =>
    have h31 := ha rfl
    have hc := hk.bound
    simp only [heapCall, kmallocA, kheapReady_started hk.started, map_eq_some_iff] at h
    obtain ⟨m, hm, heq⟩ := h
    cases heq
    have hal := alignPage_bounds (x := k.kheapCurrent + headerSize) (by unfold headerSize; omega)
    have hsz : (size + headerSize) % 2 ^ 32 = size + headerSize := by
      unfold headerSize
      omega
    have htotal := alignedTotal_eq hc h31
    rw [hsz]
    refine ⟨alignPage (k.kheapCurrent + headerSize) - headerSize, size + headerSize, by omega,
      (kheapGrow_served hm hk ?_ ?_ ?_ : Served _ _ _ _ _ (alignedTotal k.kheapCurrent size)), fun _ => le_rfl,
      fun h8 => (Nat.add_le_add_right (h8 rfl) headerSize :)⟩ <;>
    unfold headerSize at * <;> omega
  | kmallocAp =>
    obtain ⟨h16, h32⟩ := blockTotal_range size
    obtain ⟨hal1, hal2⟩ := alignPage_le_two_pow hk.bound
    have hk' : Kheap.Ready { k with kheapCurrent := alignPage k.kheapCurrent } := ⟨hk.started, hal2, hk.memory⟩
    have hroom : size < 2 ^ 31 → size + headerSize ≤ blockTotal size := fun hlt =>
      (blockTotal_bounds (by omega)).1
    -- `kheap_current` is aligned first, whatever happens next
    have hlift : ∀ {b n lo total : Nat}, Served { k with kheapCurrent := alignPage k.kheapCurrent } k' b n lo total →
        Served k k' b n lo total := by
      intro b n lo total ⟨h1, h2, h3, h4, h5, h6, h7⟩
      refine ⟨h1, h2, h3, hal1.trans h4, h5, h6, ?_⟩
      cases h7 with
      | reused mem fits free pmm => exact .reused mem fits free pmm
      | fresh above below free pmm reserved room => exact .fresh (hal1.trans above) below free pmm reserved room
    simp only [heapCall, kmallocAp, kheapReady_started hk.started] at h
    split at h
    · rename_i b k1 htake
      cases h
      exact ⟨b, _, rfl, hlift (takeFree_served htake hk'), hroom, fun _ => h16⟩
    · obtain ⟨rfl, hserved⟩ := bumpBlock_served h hk' h32
      exact ⟨_, _, rfl, hlift hserved, hroom, fun _ => h16⟩

/-! ## Every run -/

/-- The invariant of runs without `kfree`. -/
structure Shared.Inv (u : Shared) : Prop where
  ready : u.heap.Ready
  noFree : u.heap.freeList = []
  taken : ∀ f ∈ u.frames, u.heap.pmm.bitmapTest f = true
  reserved : ∀ b ∈ u.blocks, ∀ x, b.1 ≤ x → x < b.2 → x / blockSize < u.heap.pmm.maxBlocks →
    u.heap.pmm.bitmapTest (x / blockSize) = true
  apart : u.Apart

theorem inv_heap {u v : Shared} {call : HeapCall} (hi : u.Inv)
    (hc : u.Clear (.heap call size)) (h : memStep u (.heap call size) = some v) : v.Inv := by
  obtain ⟨hsize, hclear⟩ := hc
  rw [memStep, Option.map_eq_some_iff] at h
  obtain ⟨⟨ptr, k⟩, hk, heq⟩ := h
  cases heq
  obtain ⟨b, n, rfl, hserved, hn, -⟩ := heapCall_served hk hi.ready fun _ => hsize
  cases hserved.place with
  | reused mem =>
    rw [hi.noFree] at mem
    cases mem
  | fresh _ _ free pmm reserved room =>
    set lo := growthStart u.heap call
    set total := growthTotal u.heap call size
    have hroom := hn hsize
    have hmemory := hi.ready.memory
    have hlast : reserveLast lo total = (lo + total + 4095) / 4096 := by
      unfold reserveLast blockSize
      omega
    have hpmm : ∀ f, k.pmm.bitmapTest f = (u.heap.pmm.bitmapTest f ||
        decide (reserveFirst lo ≤ f ∧ f < reserveLast lo total ∧ f < u.heap.pmm.maxBlocks)) := by
      intro f
      rw [pmm, test_pmmReserveRegion]
    have hmax : k.pmm.maxBlocks = u.heap.pmm.maxBlocks := by rw [pmm, pmmReserveRegion_maxBlocks]
    refine ⟨hserved.ready hi.ready, free.trans hi.noFree, ?_, ?_, ?_⟩
    · intro f hf
      show k.pmm.bitmapTest f = true
      rw [hpmm, hi.taken f hf, Bool.true_or]
    · -- the frames of the new block have just been reserved
      intro c hc x h1 h2 h3
      show k.pmm.bitmapTest (x / blockSize) = true
      rw [hpmm, Bool.or_eq_true, decide_eq_true_eq]
      rcases mem_cons.mp hc with rfl | hc
      · right
        dsimp only at h1 h2
        rw [hlast]
        unfold reserveFirst blockSize
        exact ⟨Nat.div_le_div_right (by omega), by omega, hmax ▸ h3⟩
      · exact .inl (hi.reserved c hc x h1 h2 (hmax ▸ h3))
    · intro c hc x h1 h2 hf
      rcases mem_cons.mp hc with rfl | hc
      · dsimp only at h1 h2
        have hf' := hclear _ hf
        unfold blockSize at hf'
        omega
      · exact hi.apart c hc x h1 h2 hf

theorem inv_alloc {u v : Shared} (hi : u.Inv) (h : memStep u .pmmAllocBlock = some v) : v.Inv := by
  rw [memStep] at h
  rcases pmmAllocBlock_cases u.heap.pmm with ⟨f, hlt, hfree, -, heq⟩ | ⟨-, heq⟩
  · rw [heq] at h
    cases h
    have htest : ∀ g, u.heap.pmm.bitmapTest g = true →
        (u.heap.pmm.bitmapSet f).bitmapTest g = true := fun g hg => by simp [hg]
    have hframe : ∀ g, g ∈ (if f * blockSize = 0 then u.frames
        else f * blockSize / blockSize :: u.frames) → g = f ∨ g ∈ u.frames := by
      intro g hg
      split at hg
      · exact .inr hg
      · rw [Nat.mul_div_cancel f (by decide)] at hg
        exact mem_cons.mp hg
    refine ⟨⟨hi.ready.started, hi.ready.bound, hi.ready.memory⟩, hi.noFree, ?_, ?_, ?_⟩
    · intro g hg
      rcases hframe g hg with rfl | hg
      · show (u.heap.pmm.bitmapSet g).bitmapTest g = true
        simp
      · exact htest g (hi.taken g hg)
    · exact fun b hb x h1 h2 h3 => htest _ (hi.reserved b hb x h1 h2 h3)
    · -- a free frame holds no byte of a heap block
      intro b hb x h1 h2 hf
      rcases hframe _ hf with hxf | hf
      · have hres := hi.reserved b hb x h1 h2 (by omega)
        rw [hxf, hfree] at hres
        cases hres
      · exact hi.apart b hb x h1 h2 hf
  · rw [heq] at h
    cases h
    exact hi

theorem inv_free {u v : Shared} {addr : Nat} (hi : u.Inv) (hc : u.Clear (.pmmFreeBlock addr))
    (h : memStep u (.pmmFreeBlock addr) = some v) : v.Inv := by
  rw [memStep] at h
  cases h
  have hmem : ∀ g, g ∈ u.frames.filter (· ≠ addr / blockSize) → g ∈ u.frames ∧ g ≠ addr / blockSize := by
    intro g hg
    simpa using hg
  have htest : ∀ g, g ≠ addr / blockSize → u.heap.pmm.bitmapTest g = true →
      (u.heap.pmm.bitmapUnset (addr / blockSize)).bitmapTest g = true := by
    intro g hne hg
    simp [hne, hg]
  refine ⟨⟨hi.ready.started, hi.ready.bound, hi.ready.memory⟩, hi.noFree, ?_, ?_, ?_⟩
  · intro g hg
    obtain ⟨hg, hne⟩ := hmem g hg
    exact htest g hne (hi.taken g hg)
  · intro b hb x h1 h2 h3
    refine htest _ (fun he => hi.apart b hb x h1 h2 ?_) (hi.reserved b hb x h1 h2 h3)
    rw [he]
    exact hc
  · exact fun b hb x h1 h2 hf => hi.apart b hb x h1 h2 (hmem _ hf).1

theorem clearStep_inv {u v : Shared} (hi : u.Inv) (h : ClearStep u v) : v.Inv := by
  obtain ⟨op, hc, hs⟩ := h
  cases op with
  | heap call size => exact inv_heap hi hc hs
  | pmmAllocBlock => exact inv_alloc hi hs
  | pmmFreeBlock addr => exact inv_free hi hc hs

/-- Physical memory and the boot image lie in the lower half of the address space. -/
structure BootInfo.Sane (i : BootInfo) : Prop where
  kernel : i.kernelEnd < 2 ^ 32
  modules : ∀ e ∈ i.moduleEnds, e < 2 ^ 32
  memory : i.memorySize ≤ 2 ^ 62

theorem reservedStart_lt {kernelEnd : Nat} {moduleEnds : List Nat} (hk : kernelEnd < 2 ^ 32)
    (hm : ∀ e ∈ moduleEnds, e < 2 ^ 32) : reservedStart kernelEnd moduleEnds < 2 ^ 33 := by
  have hfold : ∀ (l : List Nat) (r : Nat), (∀ e ∈ l, e < 2 ^ 32) → r < 2 ^ 33 →
      l.foldl (fun r e => if e + 0x1000 > r then e + 0x1000 else r) r < 2 ^ 33 := by
    intro l
    induction l with
    | nil => exact fun r _ h => h
    | cons e l ih =>
      intro r he hr
      have := he e (.head _)
      refine ih _ (fun e' h' => he e' (.tail _ h')) ?_
      dsimp only
      split <;> omega
  exact hfold _ _ hm (by omega)

theorem heapStart_bounds {i : BootInfo} (h : i.Sane) : i.memory ≤ 2 ^ 62 ∧
    0 < heapStart i.reserved (pmmBitmapBytes i.memory) ∧
    heapStart i.reserved (pmmBitmapBytes i.memory) ≤ 2 ^ 62 := by
  have hr : i.reserved < 2 ^ 33 := reservedStart_lt h.kernel h.modules
  have hmem : i.memory ≤ 2 ^ 62 := by
    have := h.memory
    unfold BootInfo.memory
    split <;> omega
  have hb : pmmBitmapBytes i.memory ≤ 2 ^ 60 := by
    unfold pmmBitmapBytes
    split <;> omega
  unfold heapStart
  split <;> omega

theorem boot_inv {i : BootInfo} (h : i.Sane) : (Shared.boot i).Inv := by
  obtain ⟨hmem, hpos, hs⟩ := heapStart_bounds h
  obtain ⟨ha1, ha2⟩ := alignPage_le_two_pow hs
  obtain ⟨-, hmemory, hstart, hcurrent, hfree⟩ := bootHeap_fields i
  exact ⟨⟨by rw [Shared.boot, hstart]; omega, hcurrent ▸ ha2, hmemory ▸ hmem⟩, hfree, nofun, nofun, nofun⟩

/-- **The heap and the handed-out frames stay apart** in every run from boot in
which no heap call grows over a frame that is handed out. -/
theorem heap_apart_of_clear {i : BootInfo} (h : i.Sane) {u : Shared}
    (hr : ReflTransGen ClearStep (Shared.boot i) u) : u.Apart := by
  have hinv : u.Inv := by
    induction hr with
    | refl => exact boot_inv h
    | tail _ hstep ih => exact clearStep_inv ih hstep
  exact hinv.apart

/-! ## A large boot module -/

/-- 64 MiB of memory and an initrd that ends just below 32 MiB, so that the heap
starts right after the bitmap. -/
def largeInitrd : BootInfo where
  kernelEnd := 0x1400000
  moduleEnds := [0x1FFF000]
  memorySize := 0x4000000
  regions := [(0x100000, 0x3F00000)]
  words := fun _ => 0

theorem largeInitrd_sane : largeInitrd.Sane := by
  refine ⟨by simp [largeInitrd], fun e he => ?_, by simp [largeInitrd]⟩
  rw [mem_singleton.mp he]
  omega

theorem largeInitrd_values : largeInitrd.memory = 0x4000000 ∧ largeInitrd.reserved = 0x2000000 ∧
    pmmBitmapBytes 0x4000000 = 2048 ∧ alignPage (heapStart 0x2000000 2048) = 8194 * 4096 := by
  simp [BootInfo.memory, BootInfo.reserved, reservedStart, largeInitrd, pmmBitmapBytes, heapStart,
    alignPage]

theorem bootPmm_maxBlocks (i : BootInfo) : (bootPmm i).maxBlocks = i.memory / blockSize := by
  have hfold : ∀ (l : List (Nat × Nat)) (p : Pmm),
      (l.foldl (fun p r => pmmInitRegion p r.1 r.2) p).maxBlocks = p.maxBlocks := by
    intro l
    induction l with
    | nil => exact fun p => rfl
    | cons r l ih => exact fun p => (ih _).trans (freeFrames_bits _ _ _).1
  rw [bootPmm, pmmReserveRegion_maxBlocks, pmmDeinitRegion, (takeFrames_bits _ _ _).1, hfold, pmmInit]

theorem largeInitrd_test (f : Nat) : (bootPmm largeInitrd).bitmapTest f = decide (f < 8193) := by
  obtain ⟨hm, hr, hb, -⟩ := largeInitrd_values
  have hmax : (pmmInit largeInitrd.words 0x4000000).maxBlocks = 16384 := rfl
  -- all frames start as used, and there is nothing behind the last one
  have hinit : (pmmInit largeInitrd.words 0x4000000).bitmapTest f = decide (f < 16384) := by
    by_cases hf : f < 16384
    · rw [test_pmmInit (by unfold blockSize; omega), decide_eq_true hf]
    · have hzero : (pmmInit largeInitrd.words 0x4000000).bitmap (f / 32) = 0 := by
        rw [pmmInit]
        exact if_neg (by unfold blockSize; omega)
      rw [Pmm.bitmapTest, Words.test, hzero, decide_eq_false hf]
      simp
  rw [bootPmm, show largeInitrd.regions = [(0x100000, 0x3F00000)] from rfl, hm, hr, hb, foldl_cons, foldl_nil,
    test_pmmReserveRegion, pmmDeinitRegion, pmmInitRegion, (takeFrames_bits _ _ _).1, (takeFrames_bits _ _ _).2,
    (freeFrames_bits _ _ _).1, (freeFrames_bits _ _ _).2, hmax, hinit, Bool.eq_iff_iff]
  simp only [Bool.or_eq_true, Bool.if_true_left, Bool.if_false_left, Bool.and_eq_true, Bool.not_eq_true',
    decide_eq_true_eq, decide_eq_false_iff_not]
  unfold reserveFirst reserveLast blockSize
  omega

/-- The bitmap after boot: the frames below 8193 are in use. -/
def bootBitmap : Words := fun i => if i < 256 then 0xFFFFFFFF else if i = 256 then 1 else 0

theorem test_bootBitmap (b : Nat) : bootBitmap.test b = decide (b < 8193) := by
  have hone : ∀ j < 32, ((1 : UInt32) &&& Words.mask j != 0) = decide (j = 0) := by decide
  by_cases hlow : b / 32 < 256
  · rw [decide_eq_true (by omega), Words.full_word (if_pos hlow) rfl]
  · rw [Words.test, bootBitmap, if_neg hlow]
    split
    · rw [hone _ (Nat.mod_lt _ (by decide)), decide_eq_decide]
      omega
    · rw [decide_eq_false (by omega)]
      simp

theorem Pmm.eq_of_fields {p : Pmm} {w : Words} {n : Nat} (hw : p.bitmap = w) (hn : p.maxBlocks = n) :
    p = ⟨w, n, p.usedBlocks⟩ := by
  subst hw hn
  rfl

/-- The frames after boot, with a bitmap that can be evaluated. -/
theorem bootPmm_largeInitrd : bootPmm largeInitrd = ⟨bootBitmap, 16384, (bootPmm largeInitrd).usedBlocks⟩ := by
  have hmax : largeInitrd.memory / blockSize = 16384 := by rw [largeInitrd_values.1, blockSize]
  refine Pmm.eq_of_fields (Words.ext_test fun b => ?_) ((bootPmm_maxBlocks _).trans hmax)
  rw [test_bootBitmap]
  exact largeInitrd_test b

theorem bootHeap_eq (i : BootInfo) : bootHeap i = ⟨bootPmm i, i.memory, i.kernelEnd,
    alignPage (heapStart i.reserved (pmmBitmapBytes i.memory)),
    alignPage (heapStart i.reserved (pmmBitmapBytes i.memory)),
    [], fun _ => 0⟩ := rfl

theorem bootHeap_largeInitrd : bootHeap largeInitrd = ⟨⟨bootBitmap, 16384, (bootPmm largeInitrd).usedBlocks⟩,
    0x4000000, 0x1400000, 8194 * 4096, 8194 * 4096, [], fun _ => 0⟩ := by
  obtain ⟨hm, hr, hb, hs⟩ := largeInitrd_values
  rw [bootHeap_eq, hm, hr, hb, hs, show largeInitrd.kernelEnd = 0x1400000 from rfl]
  exact congrArg (fun p => Kheap.mk p 0x4000000 0x1400000 (8194 * 4096) (8194 * 4096) [] fun _ => 0) bootPmm_largeInitrd

/-- Two frames are allocated and then a 16-byte heap block: it lies in the
second frame. -/
theorem heap_steals_frame : ∃ u,
    [MemOp.pmmAllocBlock, .pmmAllocBlock, .heap .kmalloc 16].foldlM memStep
      (Shared.boot largeInitrd) = some u ∧
    u.frames = [8194, 8193] ∧ u.blocks = [(8194 * 4096, 8194 * 4096 + 24)] ∧ ¬ u.Apart := by
  obtain ⟨u, hu, hframes, hblocks⟩ : ∃ u ∈ [MemOp.pmmAllocBlock, .pmmAllocBlock, .heap .kmalloc 16].foldlM memStep
      (Shared.boot largeInitrd), u.frames = [8194, 8193] ∧ u.blocks = [(8194 * 4096, 8194 * 4096 + 24)] := by
    rw [Shared.boot, bootHeap_largeInitrd]
    decide +kernel
  refine ⟨u, hu, hframes, hblocks, fun ha => ?_⟩
  -- the first payload byte
  rw [Shared.Apart, hframes, hblocks] at ha
  exact ha _ mem_cons_self (8194 * 4096 + 8) (by omega) (by omega) (by simp [blockSize])

/-- After the first of the two frames alone, the block lies behind it. -/
theorem heap_apart_largeInitrd : ∃ u, ReflTransGen ClearStep (Shared.boot largeInitrd) u ∧
    u.frames = [8193] ∧ u.blocks = [(8194 * 4096, 8194 * 4096 + 24)] ∧ u.Apart := by
  obtain ⟨u, hu, hframes, hcurrent, v, hv, hframes', hblocks⟩ : ∃ u ∈ memStep (Shared.boot largeInitrd) .pmmAllocBlock,
      u.frames = [8193] ∧ u.heap.kheapCurrent = 8194 * 4096 ∧
        ∃ v ∈ memStep u (.heap .kmalloc 16), v.frames = [8193] ∧ v.blocks = [(8194 * 4096, 8194 * 4096 + 24)] := by
    rw [Shared.boot, bootHeap_largeInitrd]
    decide +kernel
  have hclear : u.Clear (.heap .kmalloc 16) := by
    refine ⟨by omega, fun f hf => .inl ?_⟩
    rw [hframes, mem_singleton] at hf
    rw [growthStart, hcurrent, hf, blockSize]
    simp
  have hrun : ReflTransGen ClearStep (Shared.boot largeInitrd) v :=
    (ReflTransGen.single ⟨.pmmAllocBlock, trivial, hu⟩).tail ⟨.heap .kmalloc 16, hclear, hv⟩
  exact ⟨v, hrun, hframes', hblocks, heap_apart_of_clear largeInitrd_sane hrun⟩

end LiwusOS.Mm
