import LiwusOS.Fs.Node

/-! # Format and mount (`sdfs.c`)

Which driver serves the disk is not modelled: `identify` is the sector count
`nvme_identify` or `ahci_identify` reports, or 0 when the partition table has
to tell. The mount count and format version statics are written by these
functions and read by nothing else. -/

namespace LiwusOS.Fs
open LiwusOS.Lib

/-- "SDFS0020". -/
def sdfsMagicV2 : List UInt8 := [83, 68, 70, 83, 48, 48, 50, 48]
/-- "SDFS0010". -/
def sdfsMagicV1 : List UInt8 := [83, 68, 70, 83, 48, 48, 49, 48]
def sdfsDefaultMaxMounts : UInt32 := 100

/-- The size of the volume `sdfs_format` lays out, before the root block is
placed. -/
def formatBlocks (disk : Disk) (identify : Nat) : Nat :=
  let partSectors := ((disk 0).u32 458).toNat
  let partSectors := if partSectors = 0 then 204800 else partSectors
  let totalSectors := if identify > 0 then (if identify > 0xFFFFFFFF then 0xFFFFFFFF else identify)
    else partSectors
  let total := totalSectors / sdfsSectorsPerBlock
  let total := if total < 10 then 25600 else total
  if total > sdfsMaxBlocks then sdfsMaxBlocks else total

/-- The statics `sdfs_format` sets for a volume of `total` blocks. -/
def formatGeometry (s : Volume) (total : Nat) : Volume :=
  let bitmapBytes := (total + 7) / 8
  let bitmapBlocks := (bitmapBytes + sdfsBlockSize - 1) / sdfsBlockSize
  let bitmapBlocks := if bitmapBlocks < 1 then 1 else bitmapBlocks
  let journalStart := 1 + bitmapBlocks
  let rootBlock := journalStart + sdfsDefaultJournalBlocks
  { s with
    totalBlocks := if rootBlock + 1 ≥ total then rootBlock + 3 else total
    bitmapBlock := 1
    bitmapBlocks := bitmapBlocks
    journalStart := journalStart
    journalBlocks := sdfsDefaultJournalBlocks
    rootBlock := rootBlock
    bitmapBytes := bitmapBlocks * sdfsBlockSize }

/-- The V2 superblock for the statics of `s`. -/
def superblockOf (s : Volume) : Block :=
  let sb := (Buf.zero : Block).putBytes 0 sdfsMagicV2
  let sb := sb.putU32 8 2
  let sb := sb.putU32 12 (UInt32.ofNat sdfsBlockSize)
  let sb := sb.putU32 16 (UInt32.ofNat s.totalBlocks)
  let sb := sb.putU32 20 (UInt32.ofNat s.bitmapBlock)
  let sb := sb.putU32 24 (UInt32.ofNat s.bitmapBlocks)
  let sb := sb.putU32 28 (UInt32.ofNat s.journalStart)
  let sb := sb.putU32 32 (UInt32.ofNat s.journalBlocks)
  let sb := sb.putU32 36 (UInt32.ofNat s.rootBlock)
  let sb := sb.putU32 40 0
  let sb := sb.putU32 44 sdfsDefaultMaxMounts
  let sb := sb.putU32 48 s.timerTicks
  sb.putU32 52 (crc32Calc sb 0 52)

/-- The bitmap loop of `sdfs_format`: the first `n` blocks marked used. -/
def markReserved (s : Volume) : Nat → Volume
  | 0 => s
  | n + 1 => sdfsBitmapSet (markReserved s n) n true

def sdfsFormat (s : Volume) (identify : Nat) : Volume :=
  let s := formatGeometry s (formatBlocks s.disk identify)
  let s := sdfsWriteBlock s 0 (superblockOf s)
  let s := { s with bitmapCache := some Buf.zero }
  let s := sdfsSaveBitmap (markReserved s (s.rootBlock + 1))
  let s := sdfsZeroBlock s s.rootBlock
  { s with bitmapCache := none }

/-- The statics `sdfs_mount` reads from a V2 superblock. -/
def mountGeometry (s : Volume) (sb : Block) : Volume :=
  { s with
    totalBlocks := (sb.u32 16).toNat
    bitmapBlock := (sb.u32 20).toNat
    bitmapBlocks := (sb.u32 24).toNat
    journalStart := (sb.u32 28).toNat
    journalBlocks := (sb.u32 32).toNat
    rootBlock := (sb.u32 36).toNat }

def mountGeometryV1 (s : Volume) (sb : Block) : Volume :=
  { s with
    totalBlocks := (sb.u32 12).toNat
    bitmapBlock := (sb.u32 16).toNat
    bitmapBlocks := (sb.u32 20).toNat
    rootBlock := (sb.u32 24).toNat
    journalStart := 0
    journalBlocks := 0 }

/-- The superblock `sdfs_mount` writes back. -/
def remountedSuperblock (sb : Block) : Block :=
  let sb := (sb.putU32 40 (sb.u32 40 + 1)).putU32 52 0
  sb.putU32 52 (crc32Calc sb 0 52)

/-- `sdfs_mount` after the superblock: bitmap, journal, root node. -/
def mountTail (s : Volume) : Option Node × Volume :=
  let s := sdfsLoadBitmap s
  let s := if s.journalStart > 0 ∧ s.journalBlocks ≥ 2 then
      (sdfsJournalReplay (sdfsJournalInit s s.journalStart s.journalBlocks)).2
    else s
  (some (rootNode s), { s with mounted := true })

def sdfsMount (s : Volume) : Option Node × Volume :=
  let sb := sdfsReadBlock s 0
  if sb.bytes 0 8 = sdfsMagicV2 then
    let s := mountGeometry s sb
    if s.totalBlocks < 10 ∨ s.totalBlocks > sdfsMaxBlocks ∨ s.bitmapBlocks = 0 ∨
        s.rootBlock ≥ s.totalBlocks ∨ (s.bitmapBlock + s.bitmapBlocks) % 2 ^ 32 > s.totalBlocks then
      (none, s)
    else mountTail (sdfsWriteBlock s 0 (remountedSuperblock sb))
  else if sb.bytes 0 8 = sdfsMagicV1 then mountTail (mountGeometryV1 s sb)
  else (none, s)

end LiwusOS.Fs
