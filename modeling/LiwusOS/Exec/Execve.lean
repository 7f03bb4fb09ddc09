import LiwusOS.Exec.Elf

/-! # `do_execve`

The calling task's address space is the current one: the new program's segments
and its stack are mapped over it, and the arguments are read after that. What
the filesystems hold is a parameter. `none` is a halt or a fault, as before; a
result of `some none` is `-EFAULT`. -/

namespace LiwusOS.Exec
open LiwusOS.Lib
open LiwusOS.Mm

/-! ## User memory (`usercopy.c`) -/

/-- `walk_user_pt(vaddr, 1)`: is there an entry? -/
def walkUserPt (vm : Vm) (vaddr : Nat) : Bool :=
  let pml4e := vm.table vm.currentDirectory.pml4 (vaddrPml4i vaddr)
  let pdpe := vm.table pml4e.frame (vaddrPdpi vaddr)
  let pde := vm.table pdpe.frame (vaddrPdi vaddr)
  let pte := vm.table pde.frame (vaddrPti vaddr)
  pml4e.present && pml4e.user && (pdpe.present && pdpe.user) &&
    if pde.large then pde.present && pde.user else pde.present && pde.user && (pte.present && pte.user)

/-- `validate_user_pointer`; `true` is 0. -/
def validateUserPointer (vm : Vm) (start size : Nat) : Bool :=
  size = 0 || (start + size < 2 ^ 64 && userAddrMin ≤ start && start + size ≤ userAddrMax &&
    let first := roundDownPage start
    let last := roundDownPage (start + size - 1)
    (List.range ((last - first) / 4096 + 1)).all fun i => walkUserPt vm (first + i * 4096))

/-- Eight bytes, as a `uint64_t`. -/
def loadWord (vm : Vm) (v : Nat) : Option Nat :=
  ((List.range 8).mapM fun i => vm.load ((v + i) % 2 ^ 64)).map fun bs =>
    bs.foldr (fun b w => b.toNat + 256 * w) 0

/-- `copy_from_user` of a pointer. -/
def copyPointer (vm : Vm) (src : Nat) : Option (Option Nat) :=
  if validateUserPointer vm src 8 then (loadWord vm src).map some else some none

/-- The loop of `strncpy_from_user` with `n` bytes to go, `i` done. A page is
looked up when the string enters it. -/
def copyString (vm : Vm) (src : Nat) : Nat → Nat → Option (Option (List UInt8))
  | 0, _ => some (some [])
  | n + 1, i =>
    let addr := (src + i) % 2 ^ 64
    if addr ≥ userAddrMax then some none
    else if (addr % 4096 = 0 ∨ i = 0) ∧ walkUserPt vm addr = false then some none
    else (vm.load addr).bind fun c =>
      if c = 0 then some (some []) else (copyString vm src n (i + 1)).map fun s => s.map (c :: ·)

/-- `strncpy_from_user`: the bytes before the terminator. -/
def strncpyFromUser (vm : Vm) (src maxlen : Nat) : Option (Option (List UInt8)) :=
  if maxlen = 0 then some none
  else if isUserAddr src then copyString vm src (maxlen - 1) 0
  else some none

/-! ## The file -/

/-- What `sdfs_read_file` (with the size) and `initrd_get_file` find. -/
structure Files where
  sdfs : List UInt8 → Option (Nat × Buf)
  initrd : List UInt8 → Option Buf

/-- `sdfs_path`. -/
def sdfsPath (name : List UInt8) : List UInt8 := if name.head? = some 47 then name else 47 :: name.take 254

def execStackTop : Nat := 0xC0000000
def execStackBase : Nat := execStackTop - 64 * 1024

def mapStackPage (vm : Vm) (vaddr : Nat) : Option Vm :=
  (kmallocA vm.heap 4096).bind fun (phys, heap) => mapCleared { vm with heap } (phys / 4096) vaddr 0x7

def mapStack (vm : Vm) (pages : Nat) : Option Vm :=
  (List.range pages).foldlM (fun vm i => mapStackPage vm (execStackBase + i * 4096)) vm

def maxArgs : Nat := 16

/-- The loop over `argv` with `n` pointers to go, `argc` done. -/
def readArgv (vm : Vm) (argv : Nat) : Nat → Nat → Option (Option (List (List UInt8)))
  | 0, _ => some (some [])
  | n + 1, argc =>
    (copyPointer vm ((argv + 8 * argc) % 2 ^ 64)).bind fun
      | none => some none
      | some up =>
        if up = 0 then some (some []) else
        (strncpyFromUser vm up 255).bind fun
          | none => some none
          | some s => (readArgv vm argv n (argc + 1)).map fun rest => rest.map (s :: ·)

/-- The strings go below `top` one after the other: their addresses, and the new end. -/
def pushStrings (vm : Vm) (top : Nat) : List (List UInt8) → Option (List Nat × Nat × Vm)
  | [] => some ([], top, vm)
  | s :: rest =>
    let str := top - (s.length + 1)
    (vm.storeBytes str (fun i => s.getD i 0) (s.length + 1)).bind fun vm =>
      (pushStrings vm str rest).map fun (ptrs, top, vm) => (str :: ptrs, top, vm)

/-- One word of `size` bytes below `top`. -/
def pushWord (size : Nat) (top : Nat) (vm : Vm) (w : Nat) : Option (Nat × Vm) :=
  (vm.storeBytes (top - size) (fun i => UInt8.ofNat (w / 256 ^ i)) size).map fun vm => (top - size, vm)

/-- Words, each below the one before. -/
def pushWords (size : Nat) (top : Nat) (vm : Vm) (ws : List Nat) : Option (Nat × Vm) :=
  ws.foldlM (fun (top, vm) w => pushWord size top vm w) (top, vm)

/-- Strings, terminators (and `auxv` for 64 bits), pointers and `argc`: the new `rsp`. -/
def pushArgs (cls : UInt8) (vm : Vm) (args : List (List UInt8)) : Option (Nat × Vm) :=
  (pushStrings vm execStackTop args).bind fun (ptrs, top, vm) =>
    let size := if cls = elfClass32 then 4 else 8
    let zeros := if cls = elfClass32 then [0, 0] else [0, 0, 0, 0]
    pushWords size (top / 16 * 16) vm (zeros ++ ptrs.reverse ++ [args.length])

/-! ## The call -/

end LiwusOS.Exec
