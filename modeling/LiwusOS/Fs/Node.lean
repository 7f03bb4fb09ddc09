import LiwusOS.Fs.File

/-! # VFS callbacks (`sdfs.c`)

A node caches the start block, the length and the position of the directory
record at the time `sdfs_finddir` built it. `sdfs_write` and `sdfs_truncate`
work from these and change only `length`. -/

namespace LiwusOS.Fs
open LiwusOS.Lib

/-- The fields of `fs_node_t` that SDFS uses. -/
structure Node where
  isDir : Bool
  inode : Nat
  length : UInt32
  impl : Nat
  implOffset : Nat
deriving DecidableEq

/-- The node `sdfs_mount` returns. -/
def rootNode (s : Volume) : Node where
  isDir := true
  inode := s.rootBlock
  length := 0
  impl := 0
  implOffset := 0

def nodeOf (l : Located) : Node where
  isDir := l.entry.type == sdfsTypeDir
  inode := l.entry.startBlock.toNat
  length := l.entry.fileSize
  impl := l.block
  implOffset := l.blockOffset

def sdfsFinddir (fuel : Nat) (s : Volume) (node : Node) (name : List UInt8) : Option (Option Node) :=
  if !node.isDir then some none
  else (sdfsDirFindEntry s name fuel node.inode).map fun found => found.map nodeOf

def sdfsVfsCreate (fuel : Nat) (s : Volume) (dir : Node) (name : List UInt8) :
    Option (Option Node × Volume) :=
  if !dir.isDir then some (none, s) else
  (sdfsDirFindEntry s name fuel dir.inode).bind fun found =>
    if found.isSome then some (none, s) else
    let (startBlock, s) := sdfsAllocBlock s
    if startBlock = 0 then some (none, s) else
    let e := newEntry sdfsTypeFile (name.take 255) startBlock s.timerTicks sdfsDefaultPerm
    (sdfsDirAddEntry e fuel s dir.inode).bind fun (ret, s) =>
      if ret ≠ 0 then some (none, sdfsFreeBlock s startBlock)
      else (sdfsFinddir fuel s dir name).map fun node => (node, s)

/-- Both loops of `sdfs_read`, after the offset checks: `skip` blocks passed
over, then `remaining` bytes from `offsetInBlock` on. -/
def skipBlocks (s : Volume) : Nat → Nat → Nat
  | 0, cur => cur
  | k + 1, cur => if sdfsGetNextBlock s cur = 0 then 0 else skipBlocks s k (sdfsGetNextBlock s cur)

def readBytesLoop (s : Volume) : Nat → Nat → Nat → Nat → Option (List UInt8)
  | 0, _, _, _ => none
  | fuel + 1, cur, offsetInBlock, remaining =>
    if remaining = 0 ∨ cur = 0 then some [] else
    let toCopy := if sdfsDataSize - offsetInBlock > remaining then remaining
      else sdfsDataSize - offsetInBlock
    (readBytesLoop s fuel (sdfsGetNextBlock s cur) 0 (remaining - toCopy)).map
      ((sdfsReadBlock s cur).bytes (4 + offsetInBlock) toCopy ++ ·)

def sdfsRead (fuel : Nat) (s : Volume) (node : Node) (offset size : UInt32) : Option (List UInt8) :=
  if node.isDir then some []
  else if offset ≥ node.length then some []
  else
    let size := if offset + size > node.length then node.length - offset else size
    let cur := skipBlocks s (offset.toNat / sdfsDataSize) node.inode
    readBytesLoop s fuel cur (offset.toNat % sdfsDataSize) size.toNat

/-- The first loop of `sdfs_write`: `k` blocks forward from `cur`, growing the
chain where it ends. The block is `none` when the chain cannot grow. -/
def seekGrow (fuel : Nat) (start : Nat) : Nat → Volume → Nat → Option (Option Nat × Volume)
  | 0, s, cur => some (some cur, s)
  | k + 1, s, cur =>
    (nextGrow fuel start s cur).bind fun (next, s) =>
      if next = 0 then some (none, s) else seekGrow fuel start k s next
where
  /-- The block after `cur`, appended to the chain if there is none. -/
  nextGrow (fuel : Nat) (start : Nat) (s : Volume) (cur : Nat) : Option (Nat × Volume) :=
    let next := sdfsGetNextBlock s cur
    if next = 0 then sdfsAppendBlock fuel s start else some (next, s)

/-- The second loop of `sdfs_write`: the number of bytes written. -/
def writeBytesLoop (bound : Nat) (start : Nat) (buffer : Buf) :
    Nat → Volume → Nat → Nat → Nat → Nat → Option (Nat × Volume)
  | 0, _, _, _, _, _ => none
  | fuel + 1, s, cur, offsetInBlock, written, remaining =>
    if remaining = 0 then some (written, s) else
    let toWrite := if sdfsDataSize - offsetInBlock > remaining then remaining
      else sdfsDataSize - offsetInBlock
    let buf := (sdfsReadBlock s cur).copy (4 + offsetInBlock) (fun i => buffer (written + i)) toWrite
    let s := sdfsWriteBlock s cur buf
    if remaining - toWrite = 0 then some (written + toWrite, s) else
    (seekGrow.nextGrow bound start s cur).bind fun (next, s) =>
      if next = 0 then some (written + toWrite, s)
      else writeBytesLoop bound start buffer fuel s next 0 (written + toWrite) (remaining - toWrite)

/-- The directory update that ends `sdfs_write` and `sdfs_truncate`: the record
at the node's cached position gets a new size, if there is one. -/
def setEntrySize (s : Volume) (node : Node) (size : UInt32) : Volume :=
  if node.impl = 0 then s else
  let buf := sdfsReadBlock s node.impl
  let rem := sdfsBlockSize - node.implOffset
  match sdfsEntryDeserialize buf node.implOffset rem with
  | .entry e _ =>
    let e := { e with fileSize := size, modifiedTime := s.timerTicks }
    sdfsMetadataWrite s node.impl ((sdfsEntrySerialize buf node.implOffset rem e).getD buf)
  | _ => s

def sdfsWrite (fuel : Nat) (s : Volume) (node : Node) (offset size : UInt32) (buffer : Buf) :
    Option (Nat × Node × Volume) :=
  if node.isDir then some (0, node, s)
  else if offset > node.length then some (0, node, s)
  else
    (seekGrow fuel node.inode (offset.toNat / sdfsDataSize) s node.inode).bind fun (cur, s) =>
      match cur with
      | none => some (0, node, s)
      | some cur =>
        (writeBytesLoop fuel node.inode buffer fuel s cur (offset.toNat % sdfsDataSize) 0
          size.toNat).map fun (written, s) =>
          let endOffset := offset + UInt32.ofNat written
          if endOffset > node.length then
            (written, { node with length := endOffset }, setEntrySize s node endOffset)
          else (written, node, s)

def sdfsTruncate (fuel : Nat) (s : Volume) (node : Node) : Option (Node × Volume) :=
  if node.isDir then some (node, s) else
  let next := sdfsGetNextBlock s node.inode
  (if next ≠ 0 then sdfsFreeChain fuel (sdfsSetNextBlock s node.inode 0) next else some s).map
    fun s => ({ node with length := 0 }, setEntrySize s node 0)

end LiwusOS.Fs
