import LiwusOS.Mm.Pmm

/-! # The kernel heap (`kheap.c`)

A bump allocator over identity-mapped memory with a first-fit free list. The
`size` field of a block's header is kept by header address; the free list is
the list of header addresses in `next` order. A request that would pass
`memory_size` halts the machine: `none`.

`size_t` arguments are below `2 ^ 64`; `total` is a `uint32_t` in `kmalloc` and
`kmalloc_ap` and a `uint64_t` in `kmalloc_a`. -/

namespace LiwusOS.Mm
open Function

def headerSize : Nat := 8

structure Kheap where
  pmm : Pmm
  memorySize : Nat
  /-- The linker symbol `end`. -/
  kernelEnd : Nat
  kheapStart : Nat
  kheapCurrent : Nat
  freeList : List Nat
  blockSizeAt : Nat → Nat

/-- `x` rounded up to a page as the source does it. -/
def alignPage (x : Nat) : Nat := if x % 4096 ≠ 0 then (x + (4096 - x % 4096)) % 2 ^ 64 else x

def kheapSetStart (k : Kheap) (start : Nat) : Kheap :=
  { k with kheapStart := alignPage start, kheapCurrent := alignPage start }

/-- The first lines of every allocator. -/
def kheapReady (k : Kheap) : Kheap :=
  if k.kheapStart = 0 then kheapSetStart k (k.kernelEnd + 0x1000) else k

/-- `total` of `kmalloc` and `kmalloc_ap` for a payload of `size` bytes. -/
def blockTotal (size : Nat) : Nat :=
  let total := (size + headerSize) % 2 ^ 32
  if total < 16 then 16 else total

/-- The search of the free list: the first block at least `total` long that
`fits`, cut out of the list. Its size is set to `total`. -/
def takeFree (k : Kheap) (total : Nat) (fits : Nat → Bool) : Option (Nat × Kheap) :=
  (k.freeList.find? fun b => k.blockSizeAt b ≥ total && fits b).map fun b =>
    (b, { k with
      freeList := k.freeList.erase b
      blockSizeAt := update k.blockSizeAt b total })

/-- Growth by `total` bytes: reserve the frames and move `kheap_current`. -/
def kheapGrow (k : Kheap) (total : Nat) : Option Kheap :=
  if (k.kheapCurrent + total) % 2 ^ 64 ≥ k.memorySize then none else
  some { k with
    pmm := pmmReserveRegion k.pmm k.kheapCurrent total
    kheapCurrent := (k.kheapCurrent + total) % 2 ^ 64 }

/-- A new block of `total` bytes at `kheap_current`. -/
def bumpBlock (k : Kheap) (total : Nat) : Option (Nat × Kheap) :=
  (kheapGrow k total).map fun k' =>
    (k.kheapCurrent + headerSize,
      { k' with blockSizeAt := update k.blockSizeAt k.kheapCurrent total })

/-- `(size + 3) & ~3` on a `size_t`. -/
def roundUp4 (size : Nat) : Nat := (size + 3) % 2 ^ 64 / 4 * 4

def kmalloc (k : Kheap) (size : Nat) : Option (Nat × Kheap) :=
  let k := kheapReady k
  let total := blockTotal (roundUp4 size)
  match takeFree k total fun _ => true with
  | some (b, k) => some (b + headerSize, k)
  | none => bumpBlock k total

/-- `total` of `kmalloc_a`: the gap up to the aligned payload and the payload. -/
def alignedTotal (current size : Nat) : Nat :=
  (alignPage (current + headerSize) - current + size) % 2 ^ 64

/-- `kmalloc_a`: the payload is page aligned, the header lies right below it.
The free list is not searched. -/
def kmallocA (k : Kheap) (size : Nat) : Option (Nat × Kheap) :=
  let k := kheapReady k
  let aligned := alignPage (k.kheapCurrent + headerSize)
  (kheapGrow k (alignedTotal k.kheapCurrent size)).map fun k' =>
    (aligned, { k' with
      blockSizeAt := update k.blockSizeAt (aligned - headerSize)
        ((size + headerSize) % 2 ^ 32) })

/-- `kmalloc_ap`: the header is page aligned. `kheap_current` is aligned before
the free list is searched. -/
def kmallocAp (k : Kheap) (size : Nat) : Option (Nat × Kheap) :=
  let k := kheapReady k
  let k := { k with kheapCurrent := alignPage k.kheapCurrent }
  let total := blockTotal size
  match takeFree k total fun b => b % 4096 = 0 with
  | some (b, k) => some (b + headerSize, k)
  | none => bumpBlock k total

/-- `ptr - HEADER_SIZE` on a `uint64_t`. -/
def headerOf (ptr : Nat) : Nat := (ptr + 2 ^ 64 - headerSize) % 2 ^ 64

/-- The loop of `kfree` that returns the pages of a page-aligned block. -/
def freePages (p : Pmm) (start : Nat) : Nat → Pmm
  | 0 => p
  | n + 1 => pmmFreeBlock (freePages p start n) (start + n * 4096)

def kfree (k : Kheap) (ptr : Nat) : Kheap :=
  if ptr = 0 then k else
  let header := headerOf ptr
  if header < k.kheapStart then k else
  let size := k.blockSizeAt header
  { k with
    pmm := if header % 4096 = 0 ∧ size ≥ 4096 then freePages k.pmm header (size / 4096) else k.pmm
    freeList := header :: k.freeList }

/-- `krealloc`; the copied bytes are not part of the model. -/
def krealloc (k : Kheap) (ptr newSize : Nat) : Option (Nat × Kheap) :=
  if ptr = 0 then kmalloc k newSize
  else if newSize = 0 then some (0, kfree k ptr)
  else
    let header := headerOf ptr
    if header < k.kheapStart then some (0, k) else
    let size := k.blockSizeAt header
    let oldSize := if size > headerSize then size - headerSize else 0
    if newSize ≤ oldSize then some (ptr, k) else
    (kmalloc k newSize).map fun (np, k) => (np, kfree k ptr)

end LiwusOS.Mm
