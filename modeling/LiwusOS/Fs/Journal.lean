import LiwusOS.Fs.Volume

/-! # The write-ahead journal (`journal.c`)

Block 0 of the journal area is the header; slot `i` takes the two blocks
`1 + 2 * i` (entry header) and `2 + 2 * i` (block image). `j_read` and
`j_write` are `sdfs_read_block` and `sdfs_write_block`, the only functions
ever passed to `sdfs_journal_init`. -/

namespace LiwusOS.Fs
open LiwusOS.Lib

/-- `SDFS_JOURNAL_MAGIC`, "SDFJ". -/
def sdfsJournalMagic : UInt32 := 0x4A464453
/-- `SDFS_JOURNAL_HDR_MAGIC`, "SJDH". -/
def sdfsJournalHdrMagic : UInt32 := 0x48444A53

def journalOpWriteBlock : UInt8 := 1
def journalStatusCommitted : UInt8 := 1
def journalStatusReplayed : UInt8 := 2
def sdfsJournalMaxEntries : Nat := 31

/-! ## Fields of `sdfs_journal_header_t` and `sdfs_journal_entry_hdr_t` -/

namespace JHeader

def magic (h : Block) : UInt32 := h.u32 0
def dirty (h : Block) : UInt32 := h.u32 4
def sequence (h : Block) : UInt32 := h.u32 8
def head (h : Block) : UInt32 := h.u32 12
def count (h : Block) : UInt32 := h.u32 16

def setMagic (h : Block) (v : UInt32) : Block := h.putU32 0 v
def setDirty (h : Block) (v : UInt32) : Block := h.putU32 4 v
def setSequence (h : Block) (v : UInt32) : Block := h.putU32 8 v
def setHead (h : Block) (v : UInt32) : Block := h.putU32 12 v
def setCount (h : Block) (v : UInt32) : Block := h.putU32 16 v
def setCrc (h : Block) (v : UInt32) : Block := h.putU32 20 v

end JHeader

namespace JEntry

def magic (h : Block) : UInt32 := h.u32 0
def status (h : Block) : UInt8 := h 9
def targetBlock (h : Block) : UInt32 := h.u32 12
def entryCrc (h : Block) : UInt32 := h.u32 16

/-- The entry header `sdfs_journal_write_block` fills in. -/
def make (sequence target crc : UInt32) : Block :=
  ((((((Buf.zero : Block).putU32 0 sdfsJournalMagic).putU32 4 sequence).set 8
    journalOpWriteBlock).set 9 journalStatusCommitted).putU32 12 target).putU32 16 crc

end JEntry

/-! ## Operations -/

def sdfsJournalInit (s : Volume) (journalStart journalBlocks : Nat) : Volume :=
  let entries := if journalBlocks > 1 then (journalBlocks - 1) / 2 else 0
  { s with
    jStart := journalStart
    jBlocks := journalBlocks
    jMaxEntries := if entries > sdfsJournalMaxEntries then sdfsJournalMaxEntries else entries
    jReady := true }

def journalLoadHeader (s : Volume) : Volume :=
  { s with jHeader := some (sdfsReadBlock s s.jStart) }

/-- `journal_save_header` for a header `h` in memory. The CRC covers its own
old value. -/
def journalSaveHeader (s : Volume) (h : Block) : Volume :=
  let h := JHeader.setCrc h (crc32Calc h 4 (sdfsBlockSize - 4))
  sdfsWriteBlock { s with jHeader := some h } s.jStart h

def sdfsJournalBegin (s : Volume) : Volume :=
  let h := sdfsReadBlock s s.jStart
  let h := if JHeader.magic h ≠ sdfsJournalHdrMagic
    then JHeader.setMagic Buf.zero sdfsJournalHdrMagic else h
  journalSaveHeader s (JHeader.setCount (JHeader.setDirty h 0) 0)

/-- `journal_entry_blocks`: the header block of slot `idx`. -/
def journalEntryHdr (s : Volume) (idx : Nat) : Nat := s.jStart + 1 + 2 * idx
/-- `journal_entry_blocks`: the data block of slot `idx`. -/
def journalEntryData (s : Volume) (idx : Nat) : Nat := journalEntryHdr s idx + 1

/-- The slot the next `sdfs_journal_write_block` fills. -/
def journalSlot (s : Volume) (h : Block) : Nat :=
  if (JHeader.head h).toNat ≥ s.jMaxEntries then 0 else (JHeader.head h).toNat

/-- The two block writes that fill slot `idx`. -/
def journalPutEntry (s : Volume) (idx : Nat) (hdr data : Block) : Volume :=
  sdfsWriteBlock (sdfsWriteBlock s (journalEntryHdr s idx) hdr) (journalEntryData s idx) data

/-- The header after slot `idx` has been committed. With `j_max_entries = 0`
the source divides by zero here. -/
def JHeader.advance (h : Block) (idx maxEntries : Nat) : Block :=
  let h := JHeader.setHead h (UInt32.ofNat ((idx + 1) % maxEntries))
  let h := JHeader.setCount h (JHeader.count h + 1)
  let h := JHeader.setSequence h (JHeader.sequence h + 1)
  JHeader.setDirty h 1

def sdfsJournalWriteBlock (s : Volume) (targetBlock : Nat) (data : Block) : Int × Volume :=
  match s.jHeader with
  | none => (-1, s)
  | some h =>
    if !s.jReady then (-1, s) else
    let idx := journalSlot s h
    let crc := crc32Calc data 0 sdfsBlockSize
    let hdr := JEntry.make (JHeader.sequence h + 1) (UInt32.ofNat targetBlock) crc
    (0, journalSaveHeader (journalPutEntry s idx hdr data) (JHeader.advance h idx s.jMaxEntries))

def sdfsJournalClean (s : Volume) : Volume :=
  match s.jHeader with
  | none => s
  | some h =>
    let h := JHeader.setHead (JHeader.setCount (JHeader.setDirty h 0) 0) 0
    journalSaveHeader s (JHeader.setSequence h (JHeader.sequence h + 1))

/-- Replay accepts slot `i`: magic, status and CRC all match. -/
def slotLive (s : Volume) (i : Nat) : Bool :=
  let hdr := sdfsReadBlock s (journalEntryHdr s i)
  JEntry.magic hdr == sdfsJournalMagic && JEntry.status hdr == journalStatusCommitted &&
    JEntry.entryCrc hdr == crc32Calc (sdfsReadBlock s (journalEntryData s i)) 0 sdfsBlockSize

/-- One round of the loop of `sdfs_journal_replay`. -/
def replaySlot (s : Volume) (i : Nat) : Volume :=
  if slotLive s i then
    let hdr := sdfsReadBlock s (journalEntryHdr s i)
    let data := sdfsReadBlock s (journalEntryData s i)
    let s := sdfsWriteBlock s (JEntry.targetBlock hdr).toNat data
    sdfsWriteBlock s (journalEntryHdr s i) (Buf.zero.set 0 journalStatusReplayed)
  else s

/-- The first `n` rounds of the loop, with the number of slots replayed. -/
def replaySlots (s : Volume) : Nat → Nat × Volume
  | 0 => (0, s)
  | n + 1 =>
    let (replayed, s) := replaySlots s n
    ((if slotLive s n then replayed + 1 else replayed), replaySlot s n)

def sdfsJournalReplay (s : Volume) : Nat × Volume :=
  if s.jHeader.isNone || !s.jReady then (0, s) else
  let s := journalLoadHeader s
  let h := sdfsReadBlock s s.jStart
  if JHeader.magic h ≠ sdfsJournalHdrMagic then (0, s)
  else if JHeader.dirty h = 0 ∨ JHeader.count h = 0 then (0, s)
  else
    let (replayed, s) := replaySlots s s.jMaxEntries
    (replayed, journalSaveHeader s (JHeader.setHead (JHeader.setCount (JHeader.setDirty h 0) 0) 0))

/-- `sdfs_metadata_write`: journal the block, write it, clear the journal. -/
def sdfsMetadataWrite (s : Volume) (block : Nat) (buffer : Block) : Volume :=
  let s := (sdfsJournalWriteBlock s block buffer).2
  let s := sdfsWriteBlock s block buffer
  sdfsJournalClean s

end LiwusOS.Fs
