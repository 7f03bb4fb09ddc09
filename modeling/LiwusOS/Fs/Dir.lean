import LiwusOS.Fs.Entry
import LiwusOS.Fs.Journal

/-! # Block chains and directories (`sdfs.c`)

Loops that follow `next_block` need not end on a damaged volume, so they take
a bound on their rounds and return `none` when it runs out. The scans inside
one block are bounded by its `entry_count`, as in the source. -/

namespace LiwusOS.Fs
open LiwusOS.Lib

/-! ## Block chains -/

/-- The first four bytes of a data or directory block. -/
def blockNext (b : Block) : Nat := (b.u32 0).toNat

def setBlockNext (b : Block) (next : Nat) : Block := b.putU32 0 (UInt32.ofNat next)

def sdfsGetNextBlock (s : Volume) (block : Nat) : Nat := blockNext (sdfsReadBlock s block)

def sdfsSetNextBlock (s : Volume) (block next : Nat) : Volume :=
  sdfsMetadataWrite s block (setBlockNext (sdfsReadBlock s block) next)

/-- The loop of `sdfs_append_block`: the last block of the chain through `cur`. -/
def lastBlock (s : Volume) : Nat → Nat → Option Nat
  | 0, _ => none
  | fuel + 1, cur =>
    let next := sdfsGetNextBlock s cur
    if next = 0 then some cur else lastBlock s fuel next

def sdfsAppendBlock (fuel : Nat) (s : Volume) (chainStart : Nat) : Option (Nat × Volume) :=
  let (newBlock, s) := sdfsAllocBlock s
  if newBlock = 0 then some (0, s)
  else (lastBlock s fuel chainStart).map fun cur => (newBlock, sdfsSetNextBlock s cur newBlock)

def sdfsFreeChain : Nat → Volume → Nat → Option Volume
  | 0, _, _ => none
  | fuel + 1, s, cur =>
    if cur = 0 then some s
    else sdfsFreeChain fuel (sdfsFreeBlock s cur) (sdfsGetNextBlock s cur)

/-! ## Directory blocks -/

def dirEntryCount (b : Block) : Nat := (b.u16 4).toNat

def setDirEntryCount (b : Block) (n : Nat) : Block := b.putU16 4 (UInt16.ofNat n)

/-- `data` starts after `next_block` and `entry_count`. -/
def dirDataStart : Nat := 6
def dirDataSize : Nat := 4090

/-- The scan that `sdfs_dir_find_entry` and `sdfs_dir_remove_entry` share: the
first record named `name` among `k` records from `pos` on. -/
def scanFind (buf : Block) (name : List UInt8) : Nat → Nat → Nat → Option (Entry × Nat)
  | 0, _, _ => none
  | k + 1, pos, remaining =>
    if remaining < 2 then none else
    match sdfsEntryDeserialize buf pos remaining with
    | .bad => none
    | .tombstone => scanFind buf name k (pos + 2) (remaining - 2)
    | .entry e size =>
      if strcmpEq e.name name then some (e, pos)
      else scanFind buf name k (pos + size) (remaining - size)

def sdfsDirFindEntry (s : Volume) (name : List UInt8) : Nat → Nat → Option (Option Located)
  | 0, _ => none
  | fuel + 1, cur =>
    if cur = 0 then some none else
    let buf := sdfsReadBlock s cur
    if dirEntryCount buf = 0 then some none else
    match scanFind buf name (dirEntryCount buf) dirDataStart dirDataSize with
    | some (e, pos) => some (some ⟨e, cur, pos⟩)
    | none => sdfsDirFindEntry s name fuel (blockNext buf)

def scanCount (buf : Block) : Nat → Nat → Nat → Nat
  | 0, _, _ => 0
  | k + 1, pos, remaining =>
    if remaining < 2 then 0 else
    let type := buf pos
    let nameLen := (buf (pos + 1)).toNat
    if isTombstone type then scanCount buf k (pos + 2) (remaining - 2)
    else
      let entrySize := 2 + nameLen + 24
      if entrySize > remaining then 0
      else (if (type = sdfsTypeFile ∨ type = sdfsTypeDir) ∧ nameLen > 0 then 1 else 0) +
        scanCount buf k (pos + entrySize) (remaining - entrySize)

def sdfsDirCountEntries (s : Volume) : Nat → Nat → Option Nat
  | 0, _ => none
  | fuel + 1, cur =>
    if cur = 0 then some 0 else
    let buf := sdfsReadBlock s cur
    if dirEntryCount buf = 0 then some 0 else
    (sdfsDirCountEntries s fuel (blockNext buf)).map
      (scanCount buf (dirEntryCount buf) dirDataStart dirDataSize + ·)

/-- The scan of `sdfs_dir_find_by_index`: the record number `index`, or how
many records were passed. -/
def scanIndex (buf : Block) : Nat → Nat → Nat → Nat → Sum (Entry × Nat) Nat
  | 0, _, _, index => .inr index
  | k + 1, pos, remaining, index =>
    if remaining < 2 then .inr index else
    match sdfsEntryDeserialize buf pos remaining with
    | .bad => .inr index
    | .tombstone => scanIndex buf k (pos + 2) (remaining - 2) index
    | .entry e size =>
      match index with
      | 0 => .inl (e, pos)
      | index + 1 => scanIndex buf k (pos + size) (remaining - size) index

/-- The source counts up to `index`; here `index` counts down. -/
def sdfsDirFindByIndex (s : Volume) : Nat → Nat → Nat → Option (Option Located)
  | 0, _, _ => none
  | fuel + 1, cur, index =>
    if cur = 0 then some none else
    let buf := sdfsReadBlock s cur
    if dirEntryCount buf = 0 then some none else
    match scanIndex buf (dirEntryCount buf) dirDataStart dirDataSize index with
    | .inl (e, pos) => some (some ⟨e, cur, pos⟩)
    | .inr index => sdfsDirFindByIndex s fuel (blockNext buf) index

/-- Where the scan of `sdfs_dir_add_entry` stops: at a free slot large enough,
or behind the last record, with the bytes remaining. -/
inductive AddScan where
  | slot (pos remaining : Nat)
  | tail (pos remaining : Nat)

def scanAdd (buf : Block) (nameLen : Nat) : Nat → Nat → Nat → AddScan
  | 0, pos, remaining => .tail pos remaining
  | k + 1, pos, remaining =>
    if remaining < 2 then .tail pos remaining else
    let slotSize := if isTombstone (buf pos) then 2 else 2 + (buf (pos + 1)).toNat + 24
    if isTombstone (buf pos) ∧ slotSize ≥ 2 + nameLen + 24 then .slot pos remaining
    else if slotSize > remaining then .tail pos remaining
    else scanAdd buf nameLen k (pos + slotSize) (remaining - slotSize)

def sdfsDirAddEntry (e : Entry) : Nat → Volume → Nat → Option (Int × Volume)
  | 0, _, _ => none
  | fuel + 1, s, cur =>
    let buf := sdfsReadBlock s cur
    let entryCount := dirEntryCount buf
    match scanAdd buf e.name.length entryCount dirDataStart dirDataSize with
    | .slot pos remaining =>
      match sdfsEntrySerialize buf pos remaining e with
      | none => some (-1, s)
      | some buf => some (0, sdfsMetadataWrite s cur buf)
    | .tail pos remaining =>
      if remaining ≥ e.size then
        match sdfsEntrySerialize buf pos remaining e with
        | none => some (-1, s)
        | some buf => some (0, sdfsMetadataWrite s cur (setDirEntryCount buf (entryCount + 1)))
      else if blockNext buf = 0 then
        let (newBlock, s) := sdfsAllocBlock s
        if newBlock = 0 then some (-1, s)
        else
          let buf := setBlockNext buf newBlock
          sdfsDirAddEntry e fuel (sdfsMetadataWrite s cur buf) (blockNext buf)
      else sdfsDirAddEntry e fuel s (blockNext buf)

def sdfsDirRemoveEntry (name : List UInt8) : Nat → Volume → Nat → Option (Int × Volume)
  | 0, _, _ => none
  | fuel + 1, s, cur =>
    if cur = 0 then some (-1, s) else
    let buf := sdfsReadBlock s cur
    if dirEntryCount buf = 0 then some (-1, s) else
    match scanFind buf name (dirEntryCount buf) dirDataStart dirDataSize with
    | some (_, pos) => some (0, sdfsMetadataWrite s cur (buf.set pos sdfsTypeDel))
    | none => sdfsDirRemoveEntry name fuel s (blockNext buf)

end LiwusOS.Fs
