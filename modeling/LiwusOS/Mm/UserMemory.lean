import LiwusOS.Mm.Vmm
import LiwusOS.Sched.Task

/-! # Memory system calls (`sys_brk`, `sys_mmap`, `sys_munmap`)

Arguments and addresses are `uint64_t`: naturals below `2 ^ 64`, with the wrap
written out. The calls act on the current directory and on three fields of the
current task. `none` is a halt in `kmalloc_a`. -/

namespace LiwusOS.Mm
open LiwusOS.Sched (Task)

def isUserAddr (addr : Nat) : Bool := addr ≥ userAddrMin && addr < userAddrMax

/-- `(x + 4095) & ~4095` on a `uint64_t`. -/
def roundUpPage (x : Nat) : Nat := (x + 4095) % 2 ^ 64 / 4096 * 4096

/-- `x & ~4095`. -/
def roundDownPage (x : Nat) : Nat := x / 4096 * 4096

/-- Page `i` of a region, on a `uint64_t`. -/
def pageAddr (base i : Nat) : Nat := (base + i * 4096) % 2 ^ 64

/-- The memory and the current task; `none` is NULL. -/
structure UserMem where
  vm : Vm
  task : Option Task

/-- A frame is mapped and cleared through its new address. -/
def mapCleared (vm : Vm) (frame virt : Nat) (flags : BitVec 64) : Option Vm :=
  (vmmMapPage vm (frame * 4096) virt flags).map fun vm =>
    { vm with page := Function.update vm.page frame fun _ => 0 }

/-- The loop of `sys_brk` over `n` pages. A missing frame is not noticed. -/
def brkLoop (vm : Vm) (start : Nat) : Nat → Option Vm
  | 0 => some vm
  | n + 1 => do
    let vm ← brkLoop vm start n
    let (frame, vm) := vm.allocFrame
    mapCleared vm frame (pageAddr start n) 0x7

/-- `brk_top` of `sys_brk`. -/
def brkTop (t : Task) : Nat := if t.heapEnd < t.heapStart then t.heapStart else t.heapEnd

/-- The number of pages `sys_brk` maps. -/
def brkPages (t : Task) (addr : Nat) : Nat := (roundUpPage addr - roundUpPage (brkTop t)) / 4096

def sysBrk (s : UserMem) (addr : Nat) : Option (Nat × UserMem) :=
  match s.task with
  | none => some (0, s)
  | some t =>
    if addr = 0 then some (t.heapEnd, s)
    else if addr ≤ brkTop t then some (brkTop t, s)
    else (brkLoop s.vm (roundUpPage (brkTop t)) (brkPages t addr)).map fun vm =>
      (roundUpPage addr, ⟨vm, some { t with heapEnd := roundUpPage addr }⟩)

/-- The mapping loop of `sys_mmap` with `n` pages to go, `i` done. It stops when
there is no frame; the result is the number of pages mapped. -/
def mmapLoop (vm : Vm) (base : Nat) (flags : BitVec 64) : Nat → Nat → Option (Nat × Vm)
  | 0, i => some (i, vm)
  | n + 1, i =>
    let (frame, vm) := vm.allocFrame
    if frame = 0 then some (i, vm) else
    (mapCleared vm frame (pageAddr base i) flags).bind fun vm => mmapLoop vm base flags n (i + 1)

def unmapLoop (vm : Vm) (base : Nat) : Nat → Vm
  | 0 => vm
  | n + 1 => (vmmUnmapPage (unmapLoop vm base n) (pageAddr base n)).2

def mapFixed : Nat := 0x10
def mapAnonymous : Nat := 0x20
def mapFailed : Nat := 2 ^ 64 - 1

/-- `flags & bit`, `prot & bit` for one bit. -/
def hasFlag (x bit : Nat) : Bool := x &&& bit != 0

/-- `pte_flags` of `sys_mmap`: `PTE_W` needs `PROT_WRITE`, and `PROT_READ` or
`PROT_EXEC`. -/
def mmapFlags (prot : Nat) : BitVec 64 :=
  if hasFlag prot 2 && (hasFlag prot 1 || hasFlag prot 4) then 0x7 else 0x5

/-- `aligned_len` of `sys_mmap`. -/
def mmapLength (length : Nat) : Nat := if roundUpPage length = 0 then 4096 else roundUpPage length

/-- `(int)(aligned_len / 4096)` as the bound of a loop from 0. -/
def mmapPages (length : Nat) : Nat :=
  let n := mmapLength length / 4096 % 2 ^ 32
  if n < 2 ^ 31 then n else 0

/-- The address of the mapping, when the checks accept it. -/
def mmapBase (t : Task) (addr length flags : Nat) : Option Nat :=
  if !hasFlag flags mapAnonymous then none
  else if addr ≠ 0 && !isUserAddr addr then none
  else
    let fixed := hasFlag flags mapFixed && addr ≠ 0
    let base := if fixed then roundDownPage addr
      else (t.mmapTop + 2 ^ 64 - mmapLength length) % 2 ^ 64
    if !fixed && base < 0x40000000 then none
    else if (base + mmapLength length) % 2 ^ 64 > userAddrMax then none
    else some base

def sysMmap (s : UserMem) (addr length prot flags : Nat) : Option (Nat × UserMem) :=
  match s.task with
  | none => some (mapFailed, s)
  | some t =>
    match mmapBase t addr length flags with
    | none => some (mapFailed, s)
    | some base =>
      (mmapLoop s.vm base (mmapFlags prot) (mmapPages length) 0).map fun (i, vm) =>
        if i < mmapPages length then (mapFailed, { s with vm := unmapLoop vm base i })
        else if hasFlag flags mapFixed && addr ≠ 0 then (base, { s with vm })
        else (base, ⟨vm, some { t with mmapTop := base }⟩)

def eFault : Int := 14

end LiwusOS.Mm
