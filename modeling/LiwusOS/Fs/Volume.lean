import LiwusOS.Fs.Crc32

/-! # The mounted volume (`sdfs.c`): statics, block device, allocation bitmap

`Volume` holds the disk and every static of `sdfs.c` and `journal.c` that a
modelled function reads. `kmalloc` halts instead of returning NULL, so the
buffers the source allocates for one block are values here and its
`if (!buf)` exits do not exist. The device never fails: reads return what was
last written. -/

namespace LiwusOS.Fs
open LiwusOS.Lib

/-- `SDFS_BLOCK_SIZE` bytes. Nothing reads a block past that offset. -/
abbrev Block := Buf

def sdfsBlockSize : Nat := 4096
def sdfsSectorsPerBlock : Nat := 8
/-- `SDFS_BITMAP_FLUSH_OPS`. -/
def sdfsBitmapFlushOps : Nat := 256
def sdfsDefaultJournalBlocks : Nat := 16
def sdfsMaxBlocks : Nat := 4 * 1024 * 1024

/-- The blocks a disk holds, by sector address. -/
abbrev Disk := Nat → Block

structure Volume where
  disk : Disk
  /-- The disk before each block write so far, newest first: the states a crash
  between two writes can leave behind. No operation reads it. -/
  past : List Disk
  mounted : Bool
  totalBlocks : Nat
  bitmapBlock : Nat
  bitmapBlocks : Nat
  rootBlock : Nat
  journalStart : Nat
  journalBlocks : Nat
  bitmapCache : Option Buf
  bitmapBytes : Nat
  bitmapDirtyOps : Nat
  jStart : Nat
  jBlocks : Nat
  jMaxEntries : Nat
  /-- `j_read` and `j_write` have been set. -/
  jReady : Bool
  jHeader : Option Block
  timerTicks : UInt32

/-- All statics at their initial values, over whatever the disk holds. -/
def Volume.boot (disk : Disk) : Volume where
  disk := disk
  past := []
  mounted := false
  totalBlocks := 0
  bitmapBlock := 0
  bitmapBlocks := 0
  rootBlock := 0
  journalStart := 0
  journalBlocks := 0
  bitmapCache := none
  bitmapBytes := 0
  bitmapDirtyOps := 0
  jStart := 0
  jBlocks := 0
  jMaxEntries := 0
  jReady := false
  jHeader := none
  timerTicks := 0

/-! ## Block device -/

/-- `uint32_t lba = block * SDFS_SECTORS_PER_BLOCK`, wrapping. -/
def lba (block : Nat) : Nat := block * sdfsSectorsPerBlock % 2 ^ 32

def sdfsReadBlock (s : Volume) (block : Nat) : Block := s.disk (lba block)

def sdfsWriteBlock (s : Volume) (block : Nat) (buf : Block) : Volume :=
  { s with disk := Function.update s.disk (lba block) buf, past := s.disk :: s.past }

def sdfsZeroBlock (s : Volume) (block : Nat) : Volume := sdfsWriteBlock s block Buf.zero

/-! ## Allocation bitmap -/

/-- The cached bitmap as `sdfs_load_bitmap` reads it. -/
def bitmapOfDisk (disk : Disk) (bitmapBlock : Nat) : Buf :=
  fun i => disk (lba (bitmapBlock + i / sdfsBlockSize)) (i % sdfsBlockSize)

def sdfsLoadBitmap (s : Volume) : Volume :=
  { s with
    bitmapBytes := s.bitmapBlocks * sdfsBlockSize % 2 ^ 32
    bitmapCache := some (bitmapOfDisk s.disk s.bitmapBlock)
    bitmapDirtyOps := 0 }

/-- The first `n` rounds of the loop of `sdfs_save_bitmap`. -/
def saveBitmapBlocks (cache : Buf) (s : Volume) : Nat → Volume
  | 0 => s
  | n + 1 =>
    sdfsWriteBlock (saveBitmapBlocks cache s n) (s.bitmapBlock + n)
      (fun i => cache (n * sdfsBlockSize + i))

def sdfsSaveBitmap (s : Volume) : Volume :=
  match s.bitmapCache with
  | none => s
  | some cache => { saveBitmapBlocks cache s s.bitmapBlocks with bitmapDirtyOps := 0 }

def sdfsBitmapTouch (s : Volume) : Volume :=
  let s := { s with bitmapDirtyOps := s.bitmapDirtyOps + 1 }
  if s.bitmapDirtyOps ≥ sdfsBitmapFlushOps then sdfsSaveBitmap s else s

def bitMask (block : Nat) : UInt8 := 1 <<< UInt8.ofNat (block % 8)

def sdfsBitmapSet (s : Volume) (block : Nat) (used : Bool) : Volume :=
  match s.bitmapCache with
  | none => s
  | some cache =>
    let byteIndex := block / 8
    if byteIndex ≥ s.bitmapBytes then s
    else if used then
      { s with bitmapCache := some (cache.set byteIndex (cache byteIndex ||| bitMask block)) }
    else
      { s with bitmapCache := some (cache.set byteIndex (cache byteIndex &&& ~~~bitMask block)) }

def sdfsBitmapTest (s : Volume) (block : Nat) : Bool :=
  match s.bitmapCache with
  | none => false
  | some cache =>
    let byteIndex := block / 8
    if byteIndex ≥ s.bitmapBytes then false
    else cache byteIndex &&& bitMask block != 0

/-- The search of `sdfs_alloc_block_raw`: the first free block among the `k`
blocks from `b` on. -/
def firstFree (used : Nat → Bool) : Nat → Nat → Option Nat
  | 0, _ => none
  | k + 1, b => if used b then firstFree used k (b + 1) else some b

theorem firstFree_eq_find (used : Nat → Bool) (k b : Nat) :
    firstFree used k b = (List.range' b k).find? fun c => !used c := by
  induction k generalizing b with
  | zero => rfl
  | succ k ih =>
    rw [firstFree, List.range'_succ, List.find?_cons, ih]
    cases used b <;> rfl

theorem firstFree_eq_none {used : Nat → Bool} {k : Nat} : firstFree used k 0 = none ↔ ∀ b < k, used b = true := by
  rw [firstFree_eq_find, ← List.range_eq_range', List.find?_range_eq_none]
  simp

theorem firstFree_eq_some {used : Nat → Bool} {k b : Nat} :
    firstFree used k 0 = some b ↔ b < k ∧ used b = false ∧ ∀ a < b, used a = true := by
  rw [firstFree_eq_find, ← List.range_eq_range', List.find?_range_eq_some]
  simp [and_left_comm]

def sdfsAllocBlockRaw (s : Volume) : Nat × Volume :=
  match firstFree (sdfsBitmapTest s) s.totalBlocks 0 with
  | none => (0, s)
  | some b => (b, sdfsBitmapTouch (sdfsBitmapSet s b true))

def sdfsAllocBlock (s : Volume) : Nat × Volume :=
  let (b, s) := sdfsAllocBlockRaw s
  if b = 0 then (0, s) else (b, sdfsZeroBlock s b)

def sdfsFreeBlock (s : Volume) (block : Nat) : Volume :=
  if block = 0 ∨ block ≥ s.totalBlocks then s
  else sdfsBitmapTouch (sdfsBitmapSet s block false)

end LiwusOS.Fs
