import LiwusOS.Exec.Elf
import LiwusOS.Mm.UserRegions

/-! # The pages of a loaded program

Loading maps the pages of the segments and leaves an address space of the kind
it found. -/

namespace LiwusOS.Exec
open LiwusOS.Lib List Option
open LiwusOS.Mm

theorem roundUpPage_mod (x : Nat) : roundUpPage x % 4096 = 0 := Nat.mul_mod_left _ _

section Load
variable {vm vm' : Vm} {file : Buf} {p : Phdr} {ps : List Phdr}

/-- The pages of a segment. -/
def segmentPages (p : Phdr) : List (List (Fin 512)) := regionPages p.startPage 0 p.pages

/-- The stores to a segment: the part from the file, and zeros. -/
def segmentStores (file : Buf) (p : Phdr) : List (Nat × UInt8) :=
  bytesTo p.vaddr (fun i => file ((p.offset + i) % 2 ^ 64)) (p.filesz % 2 ^ 32) ++
    if p.memsz > p.filesz then bytesTo (p.vaddr + p.filesz) (fun _ => 0) (p.memsz - p.filesz) else []

section Overlays
variable (hk : vm.Ready)
include hk

end Overlays

end Load

/-! ## The end of the segments -/

def littleEndian (n x : Nat) : List UInt8 := (List.range n).map fun i => UInt8.ofNat (x / 256 ^ i)

/-- A 64-bit program whose segment has no bytes in the file. -/
def elfImage (entry vaddr memsz : Nat) : Buf := fun i =>
  ([0x7F, 69, 76, 70, 2, 1, 1, 0, 0, 0, 0, 0, 0, 0, 0, 0] ++ littleEndian 2 2 ++ littleEndian 2 62 ++
    littleEndian 4 1 ++ littleEndian 8 entry ++ littleEndian 8 64 ++ littleEndian 8 0 ++ littleEndian 4 0 ++
    littleEndian 2 64 ++ littleEndian 2 56 ++ littleEndian 2 1 ++ littleEndian 6 0 ++
    littleEndian 4 1 ++ littleEndian 4 7 ++ littleEndian 8 0 ++ littleEndian 8 vaddr ++ littleEndian 8 vaddr ++
    littleEndian 8 0 ++ littleEndian 8 memsz ++ littleEndian 8 4096).getD i 0

end LiwusOS.Exec
