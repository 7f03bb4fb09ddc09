import LiwusOS.Fs.Vfs
import LiwusOS.Lib.Fuel

/-! # The initial ramdisk (`initrd.c`)

A tar archive in memory. Every operation walks the headers from the first one;
`address` is a `uint32_t`. The loops have no bound of their own, so they take
fuel. A string that overflows its array is undefined behaviour, `none` too. -/

namespace LiwusOS.Fs
open LiwusOS.Lib

namespace Initrd

/-! ## Headers -/

/-- Offsets in `struct tar_header`. -/
def sizeOff : Nat := 124
def typeflagOff : Nat := 156

/-- `normalize_initrd_name`. -/
def normalizeName : List UInt8 → List UInt8
  | 46 :: 47 :: rest => rest
  | 47 :: rest => rest
  | name => name

/-- `normalize_initrd_name` of a string in memory. -/
def normalizeAt (mem : Buf) (p : Nat) : Nat :=
  if mem p = 46 ∧ mem (p + 1) = 47 then p + 2 else if mem p = 47 then p + 1 else p

/-- `strcmp` with a string in memory, for equality. -/
def strcmpAt (mem : Buf) : Nat → List UInt8 → Bool
  | p, [] => mem p == 0
  | p, c :: cs => mem p == c && strcmpAt mem (p + 1) cs

/-- `strcpy` into an array of `n` bytes. -/
def strcpyAt (mem : Buf) : Nat → Nat → Option (List UInt8)
  | 0, _ => none
  | n + 1, p => if mem p = 0 then some [] else (strcpyAt mem n (p + 1)).map (mem p :: ·)

/-- `initrd_name_equals`. -/
def nameEquals (mem : Buf) (address : Nat) (name : List UInt8) : Bool :=
  strcmpAt mem (normalizeAt mem address) (normalizeName name)

def skipSpaces (mem : Buf) : Nat → Nat → Option Nat
  | 0, _ => none
  | fuel + 1, p => if mem p = 32 then skipSpaces mem fuel (p + 1) else some p

/-- The loop of `get_size` with `n` characters to go. -/
def octal (mem : Buf) : Nat → Nat → Nat → Nat
  | 0, _, size => size
  | n + 1, p, size =>
    if mem p < 48 ∨ 55 < mem p then size else octal mem n (p + 1) ((size * 8 + ((mem p).toNat - 48)) % 2 ^ 32)

def getSize (fuel : Nat) (mem : Buf) (p : Nat) : Option Nat :=
  (skipSpaces mem fuel p).map fun p => octal mem 11 p 0

/-- `address + 512 + ((filesize + 511) & ~511)`. -/
def nextHeader (address filesize : Nat) : Nat :=
  (address + 512 + (filesize + 511) % 2 ^ 32 / 512 * 512) % 2 ^ 32

/-- The loop over the headers, up to one that passes `test`: its number and
address, or the number of headers when none does. -/
def scan (mem : Buf) (test : Nat → Nat → Bool) : Nat → Nat → Nat → Option (Nat ⊕ Nat × Nat)
  | 0, _, _ => none
  | fuel + 1, i, address =>
    if mem address = 0 then some (.inl i)
    else if test i address then some (.inr (i, address))
    else (getSize fuel mem (address + sizeOff)).bind fun filesize =>
      scan mem test fuel (i + 1) (nextHeader address filesize)

/-- `initrd_get_file`: where the data is, and the size. -/
def initrdGetFile (fuel : Nat) (mem : Buf) (location : Nat) (name : List UInt8) : Option (Option (Nat × Nat)) :=
  (scan mem (fun _ address => nameEquals mem address name) fuel 0 location).bind fun
    | .inl _ => some none
    | .inr (_, address) => (getSize fuel mem (address + sizeOff)).map fun size => some (address + 512, size)

/-! ## Nodes -/

/-- "initrd", "house" and "localhost". -/
def initrdName : List UInt8 := [105, 110, 105, 116, 114, 100]
def houseName : List UInt8 := [104, 111, 117, 115, 101]
def localhostName : List UInt8 := [108, 111, 99, 97, 108, 104, 111, 115, 116]

/-- The values of `node->readdir`. -/
inductive Readdir where
  | null
  | initrdReaddir
  | initrdReaddirEmpty
deriving DecidableEq

/-- The fields of `fs_node_t` that the ramdisk sets; `read` says whether
`node->read` is `initrd_read` or NULL. Directories have `initrd_finddir`. -/
structure TarNode where
  name : List UInt8
  isDir : Bool
  length : Nat
  read : Bool
  readdir : Readdir
deriving DecidableEq

/-- The node that `init_initrd` returns. -/
def tarRoot : TarNode := ⟨initrdName, true, 0, false, .initrdReaddir⟩
def houseNode : TarNode := ⟨houseName, true, 0, false, .initrdReaddir⟩
def localhostNode : TarNode := ⟨localhostName, true, 0, false, .initrdReaddirEmpty⟩
def fileNode (name : List UInt8) (size : Nat) : TarNode := ⟨name, false, size, true, .null⟩

section Calls
variable (fuel : Nat) (mem : Buf) (location : Nat)

/-- `initrd_read`: the bytes that it copies. -/
def initrdRead (node : TarNode) (offset size : Nat) : Option (List UInt8) :=
  (initrdGetFile fuel mem location node.name).map fun
    | none => []
    | some (data, fileSize) =>
      if offset > fileSize then []
      else if (offset + size) % 2 ^ 32 > fileSize then mem.bytes (data + offset) (fileSize - offset)
      else mem.bytes (data + offset) size

/-- `read_fs`. -/
def readFs (node : TarNode) (offset size : Nat) : Option (List UInt8) :=
  if node.read then initrdRead fuel mem location node offset size else some []

/-- `initrd_readdir`: the name. -/
def initrdReaddir (node : TarNode) (index : Nat) : Option (Option (List UInt8)) :=
  if !node.isDir then some none else
  (scan mem (fun i _ => i == index) fuel 0 location).bind fun
    | .inr (_, address) => (strcpyAt mem 128 (normalizeAt mem address)).map some
    | .inl i => if index = i ∧ node.name = initrdName then some (some houseName) else some none

/-- `readdir_fs`. -/
def readdirFs (node : TarNode) (index : Nat) : Option (Option (List UInt8)) :=
  if node.isDir then
    match node.readdir with
    | .initrdReaddir => initrdReaddir fuel mem location node index
    | .null | .initrdReaddirEmpty => some none
  else some none

/-- `initrd_finddir`, as `finddir_fs` calls it. -/
def initrdFinddir (node : TarNode) (name : List UInt8) : Option (Option TarNode) :=
  if !node.isDir then some none
  else if name = houseName ∧ node.name = initrdName then some (some houseNode)
  else if name = localhostName ∧ node.name = houseName then some (some localhostNode)
  else (initrdGetFile fuel mem location name).map fun r => r.map fun (_, size) => fileNode name size

/-- `vfs_open` when the ramdisk is the only mount, at "/". -/
def openTar (path : List UInt8) : Option (Option TarNode) :=
  vfsOpen (initrdFinddir fuel mem location) (some tarRoot) [⟨[slash], tarRoot⟩] path

end Calls

/-! ## Archives -/

/-- An entry as the code sees it: the string in its header, the type and the data. -/
structure TarEntry where
  name : List UInt8
  typeflag : UInt8
  data : List UInt8

/-- Types '0' and NUL. -/
def TarEntry.Regular (e : TarEntry) : Prop := e.typeflag = 48 ∨ e.typeflag = 0

/-- A header and the data behind it. -/
structure HeaderAt (mem : Buf) (address : Nat) (e : TarEntry) : Prop where
  named : e.name ≠ []
  noNul : 0 ∉ e.name
  short : e.name.length < 128
  name : ∀ i (h : i < e.name.length), mem (address + i) = e.name[i]
  terminator : mem (address + e.name.length) = 0
  size : Settles (fun n => getSize n mem (address + sizeOff)) e.data.length
  typeflag : mem (address + typeflagOff) = e.typeflag
  data : ∀ i (h : i < e.data.length), mem (address + 512 + i) = e.data[i]

/-- The size of an entry in the archive. -/
def TarEntry.span (e : TarEntry) : Nat := 512 + (e.data.length + 511) / 512 * 512

/-- The entries from `address` on, up to a zero block. -/
def Archive (mem : Buf) : Nat → List TarEntry → Prop
  | address, [] => mem address = 0
  | address, e :: rest =>
    HeaderAt mem address e ∧ address + e.span < 2 ^ 32 ∧ Archive mem (address + e.span) rest

end Initrd
end LiwusOS.Fs
