import LiwusOS.Lib.Bytes
import LiwusOS.Mm.Access
import LiwusOS.Mm.UserMemory

/-! # The ELF loaders (`elf.c`)

A file is the memory from `file_buffer` on; the loaders never compare an offset
with the size of the file. They map the pages of each `PT_LOAD` segment in the
current directory and write to them through their new addresses. `none` is a
halt or a fault. Of the diagnostics only the dump of the bytes at the entry point
is kept, since it follows a pointer from the file. -/

namespace LiwusOS.Exec
open LiwusOS.Lib
open LiwusOS.Mm

/-- The fields of `Elf32_Ehdr` and `Elf64_Ehdr` that are read. -/
structure Ehdr where
  machine : Nat
  entry : Nat
  phoff : Nat
  phnum : Nat

/-- The fields of `Elf32_Phdr` and `Elf64_Phdr` that are read. -/
structure Phdr where
  type : Nat
  offset : Nat
  vaddr : Nat
  filesz : Nat
  memsz : Nat
deriving DecidableEq

def elfClass32 : UInt8 := 1
def elfClass64 : UInt8 := 2
def em386 : Nat := 3
def emX8664 : Nat := 62
def ptLoad : Nat := 1

/-- `elf_class`; `none` is -1. -/
def elfClass (file : Buf) : Option UInt8 :=
  if file 0 ≠ 0x7F ∨ file 1 ≠ 69 ∨ file 2 ≠ 76 ∨ file 3 ≠ 70 then none
  else if file 4 ≠ elfClass32 ∧ file 4 ≠ elfClass64 then none
  else some (file 4)

def elf32Ehdr (file : Buf) : Ehdr :=
  ⟨(file.u16 18).toNat, (file.u32 24).toNat, (file.u32 28).toNat, (file.u16 44).toNat⟩

def elf64Ehdr (file : Buf) : Ehdr := ⟨(file.u16 18).toNat, file.u64 24, file.u64 32, (file.u16 56).toNat⟩

def elf32Phdr (file : Buf) (i : Nat) : Phdr :=
  let off := (elf32Ehdr file).phoff + 32 * i
  ⟨(file.u32 off).toNat, (file.u32 (off + 4)).toNat, (file.u32 (off + 8)).toNat, (file.u32 (off + 16)).toNat,
    (file.u32 (off + 20)).toNat⟩

def elf64Phdr (file : Buf) (i : Nat) : Phdr :=
  let off := ((elf64Ehdr file).phoff + 56 * i) % 2 ^ 64
  ⟨(file.u32 off).toNat, file.u64 (off + 8), file.u64 (off + 16), file.u64 (off + 32), file.u64 (off + 40)⟩

/-- The `PT_LOAD` segments, in order. -/
def loadSegments32 (file : Buf) : List Phdr :=
  ((List.range (elf32Ehdr file).phnum).map (elf32Phdr file)).filter (·.type = ptLoad)

def loadSegments64 (file : Buf) : List Phdr :=
  ((List.range (elf64Ehdr file).phnum).map (elf64Phdr file)).filter (·.type = ptLoad)

namespace Phdr

def startPage (p : Phdr) : Nat := roundDownPage p.vaddr
def endPage (p : Phdr) : Nat := roundUpPage (p.vaddr + p.memsz)

/-- The number of pages the loader maps. -/
def pages (p : Phdr) : Nat := (p.endPage - p.startPage) / 4096

end Phdr

/-- `max_end` of `elf64_load_file`. -/
def maxEnd (ps : List Phdr) : Nat := ps.foldl (fun m p => if p.endPage > m then p.endPage else m) 0

end LiwusOS.Exec
