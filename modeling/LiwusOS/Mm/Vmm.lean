import LiwusOS.Lib.Radix
import LiwusOS.Mm.Kheap

/-! # Page tables (`vmm.c`)

Four levels of 512 entries. A 64-bit entry is kept cut at bit 12: `frame` is
`entry >> 12`, `flags` is `entry & 0xFFF`. Tables are identity mapped and page
aligned, so a table is named by its frame. The tables and the contents of pages
are kept apart: in the machine they are one memory, which is this one as long
as no frame is both.

`none` is a halt in `kmalloc` or `kmalloc_a`. TLB flushes are left out. -/

namespace LiwusOS.Mm
open LiwusOS.Lib Function

structure Pte where
  frame : Nat
  flags : BitVec 12
deriving DecidableEq

def pteP : BitVec 12 := 0x1#12
def pteW : BitVec 12 := 0x2#12
def pteU : BitVec 12 := 0x4#12
def ptePS : BitVec 12 := 0x80#12

namespace Pte

def present (e : Pte) : Bool := e.flags.getLsbD 0
def write (e : Pte) : Bool := e.flags.getLsbD 1
def user (e : Pte) : Bool := e.flags.getLsbD 2
def large (e : Pte) : Bool := e.flags.getLsbD 7

def zero : Pte := ⟨0, 0⟩

/-- The entry as the word `w` in memory. -/
def ofWord (w : Nat) : Pte := ⟨w / 4096, BitVec.ofNat 12 w⟩

/-- The table an entry leads to, where it is not the last one. -/
def child (e : Pte) : Option Nat := if e.present && !e.large then some e.frame else none

end Pte

abbrev Tables := Nat → Fin 512 → Pte

/-- `page_directory_t`: its address and the frame of its PML4; `pml4_virt` and
`pml4_phys` are the same. -/
structure Directory where
  addr : Nat
  pml4 : Nat
deriving DecidableEq

structure Vm where
  heap : Kheap
  table : Tables
  /-- The contents of the other frames. -/
  page : Nat → Fin 4096 → UInt8
  kernelDirectory : Directory
  currentDirectory : Directory

instance neZeroEntries : NeZero 512 := ⟨by decide⟩
instance neZeroPage : NeZero 4096 := ⟨by decide⟩

def vaddrPml4i (v : Nat) : Fin 512 := Fin.ofNat 512 (v / 2 ^ 39)
def vaddrPdpi (v : Nat) : Fin 512 := Fin.ofNat 512 (v / 2 ^ 30)
def vaddrPdi (v : Nat) : Fin 512 := Fin.ofNat 512 (v / 2 ^ 21)
def vaddrPti (v : Nat) : Fin 512 := Fin.ofNat 512 (v / 2 ^ 12)

/-- The indices of an address on the four levels; they name its page. -/
def pagePath (v : Nat) : List (Fin 512) := [vaddrPml4i v, vaddrPdpi v, vaddrPdi v, vaddrPti v]

theorem pagePath_eq_iff {v w : Nat} : pagePath v = pagePath w ↔ v / 4096 % 2 ^ 36 = w / 4096 % 2 ^ 36 := by
  simp only [pagePath, vaddrPml4i, vaddrPdpi, vaddrPdi, vaddrPti, List.cons.injEq, Fin.ext_iff, Fin.val_ofNat,
    and_true]
  omega

/-- The path of an address is that of its page. -/
theorem pagePath_page (v : Nat) : pagePath (v / 4096 * 4096) = pagePath v := pagePath_eq_iff.mpr (by omega)

theorem pagePath_mod (v : Nat) : pagePath (v % 2 ^ 64) = pagePath v := pagePath_eq_iff.mpr (by omega)

/-! The range of user addresses (`usercopy.h`). -/

def userAddrMin : Nat := 0x1000
def userAddrMax : Nat := 0xC0000000

def setEntry (m : Tables) (t : Nat) (i : Fin 512) (e : Pte) : Tables :=
  update m t (update (m t) i e)

/-- `kmalloc_a(4096)`, cleared with `memset`. -/
def newTable (vm : Vm) : Option (Nat × Vm) :=
  (kmallocA vm.heap 4096).map fun (p, k) =>
    (p / 4096, { vm with heap := k, table := update vm.table (p / 4096) fun _ => Pte.zero })

/-! ## Mapping -/

/-- `alloc_flags` of `walk_pt`. -/
def allocFlags (flags : BitVec 64) : BitVec 12 :=
  if flags.getLsbD 2 then pteP ||| pteW ||| pteU else pteP ||| pteW

/-- A missing table at entry `i` of `t`. -/
def addTable (vm : Vm) (t : Nat) (i : Fin 512) (flags : BitVec 64) : Option (Nat × Vm) :=
  (newTable vm).map fun (f, vm) => (f, { vm with table := setEntry vm.table t i ⟨f, allocFlags flags⟩ })

/-- One level of `walk_pt`: the table that entry `i` of `t` leads to. It is
made where it is missing, and the entry is opened to user mode on demand. With
`flags` zero nothing is made: the walk ends. -/
def nextTable (vm : Vm) (t : Nat) (i : Fin 512) (flags : BitVec 64) : Option (Option Nat × Vm) :=
  let e := vm.table t i
  if !e.present then
    if flags = 0 then some (none, vm)
    else (addTable vm t i flags).map fun (f, vm) => (some f, vm)
  else if flags.getLsbD 2 && !e.user then
    some (some e.frame, { vm with table := setEntry vm.table t i ⟨e.frame, e.flags ||| pteU⟩ })
  else some (some e.frame, vm)

/-- `large_flags & ~PTE_PS` of `walk_pt`. -/
def splitFlags (flags : BitVec 64) (l : BitVec 12) : BitVec 12 :=
  let l := l &&& 0x1FF
  let l := if flags.getLsbD 2 then l ||| pteU else l
  let l := if flags.getLsbD 1 then l ||| pteW else l
  l &&& ~~~ptePS

/-- Frame `j` of the 2 MB page at `e`. -/
def largeFrame (e : Pte) (j : Nat) : Nat := e.frame / 512 * 512 + j

/-- A 2 MB page is cut into 512 pages, whether or not it is present. -/
def splitTable (vm : Vm) (t : Nat) (i : Fin 512) (flags : BitVec 64) : Option Vm :=
  let e := vm.table t i
  (newTable vm).map fun (f, vm) =>
    let m := update vm.table f fun j => ⟨largeFrame e j, splitFlags flags e.flags⟩
    { vm with table := setEntry m t i ⟨f, allocFlags flags⟩ }

/-- The page directory's level of `walk_pt`. -/
def nextTableSplit (vm : Vm) (t : Nat) (i : Fin 512) (flags : BitVec 64) : Option (Option Nat × Vm) :=
  if (vm.table t i).large then
    if flags = 0 then some (none, vm)
    else (splitTable vm t i flags).bind fun vm => nextTable vm t i flags
  else nextTable vm t i flags

/-- `walk_pt`: the entry of `vaddr` in its page table, or NULL. -/
def walkPt (vm : Vm) (dir : Directory) (vaddr : Nat) (flags : BitVec 64) :
    Option (Option (Nat × Fin 512) × Vm) := do
  let (pdp, vm) ← nextTable vm dir.pml4 (vaddrPml4i vaddr) flags
  let some pdp := pdp | return (none, vm)
  let (pd, vm) ← nextTable vm pdp (vaddrPdpi vaddr) flags
  let some pd := pd | return (none, vm)
  let (pt, vm) ← nextTableSplit vm pd (vaddrPdi vaddr) flags
  let some pt := pt | return (none, vm)
  return (some (pt, vaddrPti vaddr), vm)

/-- The entry `vmm_map_page` writes. -/
def leafEntry (phys : Nat) (flags : BitVec 64) : Pte := ⟨phys / 4096, flags.setWidth 12 ||| pteP⟩

def vmmMapPage (vm : Vm) (phys virt : Nat) (flags : BitVec 64) : Option Vm :=
  (walkPt vm vm.currentDirectory virt flags).map fun
    | (some (t, i), vm) => { vm with table := setEntry vm.table t i (leafEntry phys flags) }
    | (none, vm) => vm

def Vm.freeFrame (vm : Vm) (frame : Nat) : Vm :=
  { vm with heap := { vm.heap with pmm := pmmFreeBlock vm.heap.pmm (frame * 4096) } }

/-- `vmm_unmap_page`; pages inside a 2 MB mapping are refused. -/
def vmmUnmapPage (vm : Vm) (virt : Nat) : Int × Vm :=
  let pml4e := vm.table vm.currentDirectory.pml4 (vaddrPml4i virt)
  if !pml4e.present then (-1, vm) else
  let pdpe := vm.table pml4e.frame (vaddrPdpi virt)
  if !pdpe.present then (-1, vm) else
  let pde := vm.table pdpe.frame (vaddrPdi virt)
  if !pde.present then (-1, vm) else
  if pde.large then (-1, vm) else
  let pte := vm.table pde.frame (vaddrPti virt)
  if !pte.present then (-1, vm) else
  (0, { vm.freeFrame pte.frame with table := setEntry vm.table pde.frame (vaddrPti virt) Pte.zero })

/-! ## Directories -/

/-- `init_vmm` on the tables that `boot.s` has loaded into `cr3`. -/
def initVmm (heap : Kheap) (table : Tables) (page : Nat → Fin 4096 → UInt8) (cr3 : Nat) : Option Vm :=
  (kmallocA heap 16).map fun (addr, k) =>
    { heap := k, table, page, kernelDirectory := ⟨addr, cr3 / 4096⟩, currentDirectory := ⟨addr, cr3 / 4096⟩ }

/-- The tables of `boot.s` at frames `f`, `f + 1` and `f + 2`: the first
gigabyte in 2 MB pages. -/
def bootTables (f : Nat) : Tables := fun t i =>
  if t = f ∧ i = 0 then ⟨f + 1, 0x3#12⟩
  else if t = f + 1 ∧ i = 0 then ⟨f + 2, 0x3#12⟩
  else if t = f + 2 then ⟨512 * i, 0x83#12⟩
  else Pte.zero

/-- `vmm_create_directory`: the top level is the kernel's. -/
def vmmCreateDirectory (vm : Vm) : Option (Directory × Vm) := do
  let (addr, k) ← kmalloc vm.heap 16
  let (pml4, vm) ← newTable { vm with heap := k }
  return (⟨addr, pml4⟩, { vm with
    table := update vm.table pml4 (vm.table vm.kernelDirectory.pml4) })

/-- `pmm_alloc_block`, as a frame; 0 when there is none. -/
def Vm.allocFrame (vm : Vm) : Nat × Vm :=
  let (addr, p) := pmmAllocBlock vm.heap.pmm
  (addr / 4096, { vm with heap := { vm.heap with pmm := p } })

/-- `kfree` of a table. The list node it writes has its link on entry 0. -/
def kfreeTable (vm : Vm) (t : Nat) : Vm :=
  if t * 4096 = 0 ∨ headerOf (t * 4096) < vm.heap.kheapStart then vm else
  { vm with
    heap := kfree vm.heap (t * 4096)
    table := setEntry vm.table t 0 (Pte.ofWord (vm.heap.freeList.headD 0)) }

def freePte (t : Nat) (vm : Vm) (l : Fin 512) : Vm :=
  let e := vm.table t l
  if e.present then vm.freeFrame e.frame else vm

def freePde (t : Nat) (vm : Vm) (k : Fin 512) : Vm :=
  let e := vm.table t k
  if !e.present then vm
  else if e.large then vm.freeFrame (largeFrame e 0)
  else kfreeTable ((List.finRange 512).foldl (freePte e.frame) vm) e.frame

def freePdpe (t : Nat) (vm : Vm) (j : Fin 512) : Vm :=
  let e := vm.table t j
  if !e.present then vm else kfreeTable ((List.finRange 512).foldl (freePde e.frame) vm) e.frame

def freePml4e (t : Nat) (vm : Vm) (i : Fin 512) : Vm :=
  let e := vm.table t i
  if !e.present then vm else kfreeTable ((List.finRange 512).foldl (freePdpe e.frame) vm) e.frame

def Vm.kfree (vm : Vm) (ptr : Nat) : Vm := { vm with heap := LiwusOS.Mm.kfree vm.heap ptr }

def vmmFreeDirectory (vm : Vm) : Option Directory → Vm
  | none => vm
  | some dir =>
    if dir.pml4 = 0 then vm.kfree dir.addr
    else (kfreeTable ((List.finRange 512).foldl (freePml4e dir.pml4) vm) dir.pml4).kfree dir.addr

/-! ## What the tables mean -/

/-- What the processor finds for a page: the frame, and the flags of the
entries on the way to it, the last one being the page's own. -/
structure Mapping where
  frame : Nat
  levels : List (BitVec 12)
deriving DecidableEq

/-- The permissions are the conjunction over all levels. -/
def Mapping.write (a : Mapping) : Bool := a.levels.all (·.getLsbD 1)
def Mapping.user (a : Mapping) : Bool := a.levels.all (·.getLsbD 2)

/-- Where a page is mapped and what may be done there. -/
def Mapping.access (a : Mapping) : Nat × Bool × Bool := (a.frame, a.write, a.user)

/-- The number of a page among those below an entry. -/
def pageOffset (p : List (Fin 512)) : Nat := p.foldl (fun (a : Nat) i => a * 512 + i.val) 0

/-- The processor's walk. An entry with `PTE_PS` above the last level is a
large page. -/
def translate (m : Tables) : Nat → List (Fin 512) → Option Mapping
  | _, [] => none
  | t, [i] => if (m t i).present then some ⟨(m t i).frame, [(m t i).flags]⟩ else none
  | t, i :: j :: p =>
    let e := m t i
    if !e.present then none
    else if e.large then
      some ⟨e.frame / 512 ^ (p.length + 1) * 512 ^ (p.length + 1) + pageOffset (j :: p), [e.flags]⟩
    else (translate m e.frame (j :: p)).map fun a => { a with levels := e.flags :: a.levels }

end LiwusOS.Mm
