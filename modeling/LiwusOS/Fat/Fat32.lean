import LiwusOS.Fs.Path

/-! # The FAT32 driver (`fat32.c`)

The disk is the sector at each address; block I/O always succeeds. The statics
that `fat32_mount` fills are read-only afterwards, so every other function takes
them as an argument and returns the new disk. `kmalloc` halts instead of
returning NULL. Cluster numbers and sector addresses are numbers with the
wrap-around of `uint32_t` written out; loops along a cluster chain take fuel. -/

namespace LiwusOS.Fat
open LiwusOS.Lib LiwusOS.Fs

abbrev Sectors := Nat → Buf

def writeBlock (d : Sectors) (lba : Nat) (b : Buf) : Sectors := Function.update d lba b

/-! ## Format and mount -/

def totalSectors : Nat := 204800
def sectorSize : Nat := 512
def formatReserved : Nat := 32
def formatSecPerClus : Nat := 8
def formatTotalClusters : Nat := (totalSectors - formatReserved) / formatSecPerClus
def formatFatSz : Nat := (formatTotalClusters * 4 + (sectorSize - 1)) / sectorSize

/-- "FAT32   ". -/
def filSysType : List UInt8 := [70, 65, 84, 51, 50, 32, 32, 32]

/-- The boot sector `fat32_format` writes. -/
def bootBlock : Buf :=
  let b := Buf.zero.putBytes 3 [76, 73, 87, 85, 83, 79, 83, 32]
  let b := ((b.set 0 0xEB).set 1 0x58).set 2 0x90
  let b := b.putU16 11 (UInt16.ofNat sectorSize)
  let b := b.set 13 (UInt8.ofNat formatSecPerClus)
  let b := b.putU16 14 (UInt16.ofNat formatReserved)
  let b := b.set 16 2
  let b := b.set 21 0xF8
  let b := b.putU32 32 (UInt32.ofNat totalSectors)
  let b := b.putU32 36 (UInt32.ofNat formatFatSz)
  let b := b.putU32 44 2
  let b := b.putU16 48 1
  let b := b.putU16 50 6
  let b := b.set 64 0x80
  let b := b.set 66 0x29
  let b := b.putU32 67 0xDEADC0DE
  let b := b.putBytes 71 [76, 73, 87, 85, 83, 79, 83, 72, 68, 32, 32]
  let b := b.putBytes 82 filSysType
  b.putU16 510 0xAA55

def fsInfoBlock : Buf :=
  let b := Buf.zero.putU32 0 0x41615252
  let b := b.putU32 484 0x61417272
  let b := b.putU32 488 (UInt32.ofNat (formatTotalClusters - 1))
  let b := b.putU32 492 3
  b.putU32 508 0xAA550000

/-- The first sector of an empty FAT. -/
def firstFatBlock : Buf := ((Buf.zero.putU32 0 0x0FFFFFF8).putU32 4 0xFFFFFFFF).putU32 8 0x0FFFFFFF

def fat32Format (d : Sectors) : Sectors :=
  let d := (List.range 33).foldl (fun d i => writeBlock d i Buf.zero) d
  let d := writeBlock (writeBlock d 0 bootBlock) 6 bootBlock
  let d := writeBlock (writeBlock d 1 fsInfoBlock) 7 fsInfoBlock
  let d := writeBlock (writeBlock d formatReserved firstFatBlock) (formatReserved + formatFatSz) firstFatBlock
  let d := (List.range' 1 (formatFatSz - 1)).foldl (fun d i =>
    writeBlock (writeBlock d (formatReserved + i) Buf.zero) (formatReserved + formatFatSz + i) Buf.zero) d
  let rootDirLba := formatReserved + 2 * formatFatSz + (2 - 2) * formatSecPerClus
  (List.range formatSecPerClus).foldl (fun d i => writeBlock d (rootDirLba + i) Buf.zero) d

/-- The statics of `fat32.c`. -/
structure Statics where
  bytsPerSec : Nat
  secPerClus : Nat
  numFATs : Nat
  fatSz32 : Nat
  fatBeginLba : Nat
  clusterBeginLba : Nat
  rootDirFirstCluster : Nat
  mounted : Bool
  /-- `file_system_read_blocks` is set. -/
  readBlocks : Bool

/-- `fat32_mount`: whether a root node is returned, and the statics. -/
def fat32Mount (g : Statics) (d : Sectors) (partitionLbaStart : Nat) : Bool × Statics :=
  let b := d partitionLbaStart
  let g := { g with bytsPerSec := (b.u16 11).toNat, secPerClus := (b 13).toNat, numFATs := (b 16).toNat,
                    fatSz32 := (b.u32 36).toNat }
  if b.bytes 82 8 ≠ filSysType then (false, g)
  else
    let fatBegin := (partitionLbaStart + (b.u16 14).toNat) % 2 ^ 32
    (true, { g with fatBeginLba := fatBegin
                    clusterBeginLba := (fatBegin + g.numFATs * g.fatSz32) % 2 ^ 32
                    rootDirFirstCluster := (b.u32 44).toNat
                    mounted := true })

/-! ## The FAT -/

/-- Marks the end of a chain when at least this. -/
def eocMin : Nat := 0x0FFFFFF8

/-- The mark the driver itself writes. -/
def eocMark : Nat := 0x0FFFFFFF

/-- `current >= 2 && current < 0x0FFFFFF8`. -/
def InData (c : Nat) : Prop := 2 ≤ c ∧ c < eocMin

instance (c : Nat) : Decidable (InData c) := inferInstanceAs (Decidable (_ ∧ _))

def fatSector (g : Statics) (cluster : Nat) : Nat :=
  (g.fatBeginLba + cluster * 4 % 2 ^ 32 / g.bytsPerSec) % 2 ^ 32

/-- The byte offset of `fat_buffer[fat_offset / 4]`. -/
def fatOffset (g : Statics) (cluster : Nat) : Nat := cluster * 4 % 2 ^ 32 % g.bytsPerSec / 4 * 4

def fat32NextCluster (g : Statics) (d : Sectors) (cluster : Nat) : Nat :=
  ((d (fatSector g cluster)).u32 (fatOffset g cluster)).toNat % 2 ^ 28

/-- `fat32_find_free_cluster`; 0 when the FAT is full. -/
def fat32FindFreeCluster (g : Statics) (d : Sectors) : Nat :=
  let entriesPerSector := g.bytsPerSec / 4
  ((List.range g.fatSz32).findSome? fun s =>
    ((List.range entriesPerSector).find? fun i =>
      ((d ((g.fatBeginLba + s) % 2 ^ 32)).u32 (4 * i)).toNat % 2 ^ 28 = 0).map fun i =>
        s * entriesPerSector + i).getD 0

/-- `fat32_write_fat_entry`: the sector is read from the first FAT and written
to all of them. -/
def fat32WriteFatEntry (g : Statics) (d : Sectors) (cluster value : Nat) : Sectors :=
  let b := (d (fatSector g cluster)).putU32 (fatOffset g cluster) (UInt32.ofNat value)
  (List.range g.numFATs).foldl
    (fun d i => writeBlock d ((fatSector g cluster + i * g.fatSz32) % 2 ^ 32) b) d

def fat32FreeClusterChain (g : Statics) : Nat → Sectors → Nat → Option Sectors
  | 0, _, _ => none
  | fuel + 1, d, current =>
    if InData current then
      let next := fat32NextCluster g d current
      let d := fat32WriteFatEntry g d current 0
      if next = current then some d else fat32FreeClusterChain g fuel d next
    else some d

/-! ## Clusters -/

def fat32ClusterSizeBytes (g : Statics) : Nat := g.secPerClus * g.bytsPerSec

/-- `cluster_begin_lba + (cluster - 2) * BPB_SecPerClus`. -/
def clusterLba (g : Statics) (cluster : Nat) : Nat :=
  (g.clusterBeginLba + (cluster + 2 ^ 32 - 2) % 2 ^ 32 * g.secPerClus) % 2 ^ 32

/-- `fat32_read_directory_cluster` into a buffer of one cluster. -/
def fat32ReadDirectoryCluster (g : Statics) (d : Sectors) (cluster : Nat) : Buf := fun i =>
  if i < fat32ClusterSizeBytes g then d ((clusterLba g cluster + i / g.bytsPerSec) % 2 ^ 32) (i % g.bytsPerSec)
  else 0

def fat32WriteDirectoryCluster (g : Statics) (d : Sectors) (cluster : Nat) (buffer : Buf) : Sectors :=
  (List.range g.secPerClus).foldl
    (fun d i => writeBlock d ((clusterLba g cluster + i) % 2 ^ 32) fun j => buffer (i * g.bytsPerSec + j)) d

def fat32ZeroCluster (g : Statics) (d : Sectors) (cluster : Nat) : Sectors :=
  fat32WriteDirectoryCluster g d cluster Buf.zero

/-- The loop of `fat32_allocate_cluster_chain`; 0 when the FAT is full. -/
def allocLoop (fuel : Nat) (g : Statics) : Nat → Nat → Nat → Sectors → Option (Nat × Sectors)
  | 0, first, _, d => some (first, d)
  | n + 1, first, previous, d =>
    let cluster := fat32FindFreeCluster g d
    if cluster = 0 then
      if 2 ≤ first then (fat32FreeClusterChain g fuel d first).map fun d => (0, d) else some (0, d)
    else
      let d := fat32WriteFatEntry g d cluster eocMark
      let d := fat32ZeroCluster g d cluster
      if 2 ≤ previous then allocLoop fuel g n first cluster (fat32WriteFatEntry g d previous cluster)
      else allocLoop fuel g n cluster cluster d

def fat32AllocateClusterChain (fuel : Nat) (g : Statics) (d : Sectors) (needed : Nat) : Option (Nat × Sectors) :=
  allocLoop fuel g (if needed = 0 then 1 else needed) 0 0 d

/-- The loop of `fat32_write_cluster_chain`: the bytes written. -/
def writeChainLoop (g : Statics) (buffer : Buf) (size : Nat) : Nat → Nat → Nat → Sectors → Option (Nat × Sectors)
  | 0, _, _, _ => none
  | fuel + 1, current, written, d =>
    if InData current ∧ written < size then
      let chunk := min (size - written) (fat32ClusterSizeBytes g)
      let d := fat32WriteDirectoryCluster g d current (Buf.zero.copy 0 (fun i => buffer (written + i)) chunk)
      writeChainLoop g buffer size fuel (fat32NextCluster g d current) (written + chunk) d
    else some (written, d)

def fat32WriteClusterChain (fuel : Nat) (g : Statics) (d : Sectors) (startCluster : Nat) (buffer : Buf)
    (size : Nat) : Option (Nat × Sectors) :=
  if startCluster < 2 then some (0, d) else writeChainLoop g buffer size fuel startCluster 0 d

/-! ## Reading a file -/

/-- The cluster that holds the offset `index` clusters on, or `none` past the end. -/
def skipClusters (g : Statics) (d : Sectors) : Nat → Nat → Option Nat
  | 0, current => some current
  | index + 1, current =>
    let next := fat32NextCluster g d current
    if eocMin ≤ next then none else skipClusters g d index next

/-- The loop that reads one cluster at a time. -/
def readClusters (g : Statics) (d : Sectors) :
    Nat → Nat → Nat → Nat → Nat → Buf → Option (Nat × Buf)
  | 0, _, _, _, _, _ => none
  | fuel + 1, current, offsetInCluster, todo, got, buffer =>
    if 0 < todo ∧ current < eocMin then
      let cluster := fat32ReadDirectoryCluster g d current
      let n := min (fat32ClusterSizeBytes g - offsetInCluster) todo
      readClusters g d fuel (fat32NextCluster g d current) 0 (todo - n) (got + n)
        (buffer.copy got (fun i => cluster (offsetInCluster + i)) n)
    else some (got, buffer)

/-- The FAT sector the batched reader holds, if it has read one. -/
abbrev FatCache := Option (Nat × Buf)

def FatCache.load (cache : FatCache) (d : Sectors) (sec : Nat) : Nat × Buf :=
  match cache with
  | some (sec', b) => if sec = sec' then (sec', b) else (sec, d sec)
  | none => (sec, d sec)

/-- The inner loop of the batched reader: the clusters of a contiguous run, the
cluster after it, and the cached FAT sector. -/
def readRun (g : Statics) (d : Sectors) : Nat → Nat → Nat → FatCache → Option (Nat × Nat × FatCache)
  | 0, _, _, _ => none
  | fuel + 1, current, run, cache =>
    let cache := cache.load d (fatSector g current)
    let next := (cache.2.u32 (fatOffset g current)).toNat % 2 ^ 28
    if next = current + 1 ∧ next < eocMin then readRun g d fuel next (run + 1) (some cache)
    else some (run, next, some cache)

/-- The loop that reads contiguous runs with `file_system_read_blocks`. Whole
sectors arrive in the buffer. -/
def readRuns (g : Statics) (d : Sectors) : Nat → Nat → Nat → Nat → FatCache → Buf → Option (Nat × Buf)
  | 0, _, _, _, _, _ => none
  | fuel + 1, current, todo, got, cache, buffer =>
    if 0 < todo ∧ current < eocMin then
      (readRun g d fuel current 1 cache).bind fun (run, next, cache) =>
        let take := min (run * g.secPerClus * g.bytsPerSec % 2 ^ 32) todo
        let takeSectors := (take + g.bytsPerSec - 1) % 2 ^ 32 / g.bytsPerSec
        let run := fun i => d ((clusterLba g current + i / g.bytsPerSec) % 2 ^ 32) (i % g.bytsPerSec)
        readRuns g d fuel next (todo - take) (got + take) cache
          (buffer.copy got run (takeSectors * g.bytsPerSec))
    else some (got, buffer)

/-- `fat32_read` on a file node: the number of bytes read and the buffer. -/
def fat32Read (fuel : Nat) (g : Statics) (d : Sectors) (inode offset size : Nat) (buffer : Buf) :
    Option (Nat × Buf) :=
  match skipClusters g d (offset / fat32ClusterSizeBytes g) inode with
  | none => some (0, buffer)
  | some current =>
    if g.readBlocks ∧ offset % fat32ClusterSizeBytes g = 0 then readRuns g d fuel current size 0 none buffer
    else readClusters g d fuel current (offset % fat32ClusterSizeBytes g) size 0 buffer

/-! ## Names -/

def upper (ch : UInt8) : UInt8 := if 97 ≤ ch ∧ ch ≤ 122 then ch - 32 else ch

/-- Filled up with spaces, or cut off, to `n` bytes. -/
def padName (n : Nat) (name : List UInt8) : List UInt8 := (name ++ List.replicate n 32).take n

/-- `fat32_make_dos_name`: eight bytes before the first dot and three after it. -/
def fat32MakeDosName (name : List UInt8) : List UInt8 :=
  padName 8 ((name.takeWhile (· ≠ 46)).map upper) ++ padName 3 (((name.dropWhile (· ≠ 46)).drop 1).map upper)

def isNameChar (ch : UInt8) : Bool :=
  (97 ≤ ch ∧ ch ≤ 122) ∨ (65 ≤ ch ∧ ch ≤ 90) ∨ (48 ≤ ch ∧ ch ≤ 57) ∨ ch = 95 ∨ ch = 45

/-- The loop of `fat32_is_valid_name` and the test after it. -/
def validLoop (len : Nat) : List UInt8 → Nat → Nat → Nat → Nat → Bool → Bool
  | [], _, _, partLen, extLen, _ => !(partLen = 0 ∨ 8 < partLen ∨ 3 < extLen)
  | ch :: rest, i, dots, partLen, extLen, inExt =>
    if ch = 47 ∨ ch = 92 then false
    else if ch = 46 then
      if 1 < dots + 1 ∨ i = 0 ∨ i + 1 = len then false
      else validLoop len rest (i + 1) (dots + 1) partLen extLen true
    else if isNameChar ch then
      if inExt then validLoop len rest (i + 1) dots partLen (extLen + 1) inExt
      else validLoop len rest (i + 1) dots (partLen + 1) extLen inExt
    else false

def fat32IsValidName (name : List UInt8) : Bool :=
  if name = [] ∨ 12 < name.length then false else validLoop name.length name 0 0 0 0 false

/-- `fat32_path_parent` with room for 128 and 32 bytes: the parent and the leaf. -/
def fat32PathParent (path : List UInt8) : List UInt8 × List UInt8 :=
  if path = [] then ([], [])
  else
    match path.reverse.idxOf? 47 with
    | none => ([47], path.take 31)
    | some k =>
      let lastSep := path.length - 1 - k
      if lastSep = 0 then ([47], path.tail.take 31)
      else
        let lastSep := min lastSep 127
        (path.take lastSep, (path.drop (lastSep + 1)).take 31)

/-! ## Directory entries -/

/-- The 32 bytes of one entry. -/
def direntAt (buffer : Buf) (i : Nat) : Buf := fun j => if j < 32 then buffer (32 * i + j) else 0

def dirName (e : Buf) : List UInt8 := e.bytes 0 11
def dirAttr (e : Buf) : UInt8 := e 11

def fat32EntryStartCluster (e : Buf) : Nat := (e.u16 20).toNat * 65536 + (e.u16 26).toNat

def fat32SetEntryStartCluster (e : Buf) (cluster : Nat) : Buf :=
  (e.putU16 20 (UInt16.ofNat (cluster / 65536))).putU16 26 (UInt16.ofNat cluster)

def direntIsLong (e : Buf) : Bool := dirAttr e = 0x0F

/-- `DIR_Name[0] == 0xE5 || DIR_Attr == 0x0F || (DIR_Attr & 0x08)`: entries every
scan passes over. -/
def direntSkipped (e : Buf) : Bool := e 0 = 0xE5 ∨ dirAttr e = 0x0F ∨ dirAttr e &&& 0x08 ≠ 0

def fat32Utf16ToUtf8 (code : Nat) (out : List UInt8) (cap : Nat) : List UInt8 :=
  if code = 0 ∨ code = 0xFFFF then out
  else if code < 0x80 then if out.length < cap then out ++ [UInt8.ofNat code] else out
  else if code < 0x800 then
    if out.length + 1 < cap then
      out ++ [UInt8.ofNat (0xC0 ||| code >>> 6), UInt8.ofNat (0x80 ||| code &&& 0x3F)]
    else out
  else if out.length + 2 < cap then
    out ++ [UInt8.ofNat (0xE0 ||| code >>> 12), UInt8.ofNat (0x80 ||| (code >>> 6) &&& 0x3F),
      UInt8.ofNat (0x80 ||| code &&& 0x3F)]
  else out

/-- The part of a long name that one entry holds, up to a 0 or 0xFFFF. -/
def longNamePart (e : Buf) (out : List UInt8) : List UInt8 :=
  ([1, 3, 5, 7, 9, 14, 16, 18, 20, 22, 24, 28, 30].takeWhile fun o =>
    (e.u16 o).toNat ≠ 0 ∧ (e.u16 o).toNat ≠ 0xFFFF).foldl
      (fun out o => fat32Utf16ToUtf8 (e.u16 o).toNat out 767) out

/-- The first of the long-name entries right before an index. -/
def longNameStart (buffer : Buf) : Nat → Nat
  | 0 => 0
  | n + 1 => if direntIsLong (direntAt buffer n) then longNameStart buffer n else n + 1

def fat32GetLongName (buffer : Buf) (directorySize entryIndex outSize : Nat) : Option (List UInt8) :=
  if outSize = 0 ∨ entryIndex = 0 then none
  else if directorySize / 32 ≤ entryIndex then none
  else
    let start := longNameStart buffer entryIndex
    if start = entryIndex then none
    else
      let out := (List.range' start (entryIndex - start)).reverse.foldl
        (fun out i => longNamePart (direntAt buffer i) out) []
      if out = [] then none else some (out.take (outSize - 1))

def fat32AsciiIequals (a b : List UInt8) : Bool := a.map upper = b.map upper

/-- `fat32_entry_name_to_string` with enough room, up to its first NUL. -/
def fat32EntryNameToString (e : Buf) : List UInt8 :=
  let base := (e.bytes 0 8).takeWhile (· ≠ 32)
  let ext := e.bytes 8 3
  (if ext.any (· ≠ 32) then base ++ 46 :: ext.takeWhile (· ≠ 32) else base).takeWhile (· ≠ 0)

/-! ## Directories -/

structure Lookup where
  entryCluster : Nat
  entryIndex : Nat
  entry : Buf

/-- How the scan of one directory cluster ends. -/
inductive ScanResult where
  | stop
  | hit (index : Nat)
  | more

/-- Whether the entry at `i` has the name looked for. -/
def direntMatches (buffer : Buf) (clusterSize : Nat) (name dosName : List UInt8) (i : Nat) : Bool :=
  dirName (direntAt buffer i) == dosName ||
    match fat32GetLongName buffer clusterSize i 255 with
    | some long => fat32AsciiIequals long name
    | none => false

/-- The inner loop of `fat32_find_entry_in_dir`, over the indices that are left. -/
def scanCluster (buffer : Buf) (clusterSize : Nat) (name dosName : List UInt8) : List Nat → ScanResult
  | [] => .more
  | i :: rest =>
    if direntAt buffer i 0 = 0 then .stop
    else if direntSkipped (direntAt buffer i) then scanCluster buffer clusterSize name dosName rest
    else if direntMatches buffer clusterSize name dosName i then .hit i
    else scanCluster buffer clusterSize name dosName rest

def findEntryLoop (g : Statics) (d : Sectors) (name : List UInt8) : Nat → Nat → Option (Option Lookup)
  | 0, _ => none
  | fuel + 1, current =>
    if InData current then
      let buffer := fat32ReadDirectoryCluster g d current
      let size := fat32ClusterSizeBytes g
      match scanCluster buffer size name (fat32MakeDosName name) (List.range (size / 32)) with
      | .stop => some none
      | .hit i => some (some ⟨current, i, direntAt buffer i⟩)
      | .more => findEntryLoop g d name fuel (fat32NextCluster g d current)
    else some none

/-- `fat32_find_entry_in_dir`: `none` for 0. -/
def fat32FindEntryInDir (fuel : Nat) (g : Statics) (d : Sectors) (dirCluster : Nat) (name : List UInt8) :
    Option (Option Lookup) := findEntryLoop g d name fuel dirCluster

/-- The components of a path in `fat32_resolve_directory`. The test
`!status <= 0` of the source holds for every status but 0, so a component that
is found ends the walk, and one that is not leaves an entry of zeros. -/
def resolveParts (fuel : Nat) (g : Statics) (d : Sectors) : Nat → List (List UInt8) → Option (Option Nat)
  | current, [] => some (some current)
  | current, part :: rest =>
    if 32 ≤ part.length then some none
    else (fat32FindEntryInDir fuel g d current part).bind fun found =>
      if found.isSome then some none
      else
        let entry := Buf.zero
        if dirAttr entry &&& 0x10 = 0 then some none
        else if fat32EntryStartCluster entry < 2 then some none
        else resolveParts fuel g d (fat32EntryStartCluster entry) rest

def fat32ResolveDirectory (fuel : Nat) (g : Statics) (d : Sectors) (path : List UInt8) : Option (Option Nat) :=
  if !g.mounted ∨ path = [] then some none
  else if path = [47] then some (some g.rootDirFirstCluster)
  else resolveParts fuel g d g.rootDirFirstCluster ((splitSlash path).filter (· ≠ []))

/-- `parent[0] ? parent : "/"`. -/
def parentOrRoot (parent : List UInt8) : List UInt8 := if parent = [] then [47] else parent

/-- `fat32_resolve_path`, with the directory; `none` for 0 and -1, which no
caller tells apart. -/
def fat32ResolvePath (fuel : Nat) (g : Statics) (d : Sectors) (path : CStr) : Option (Option (Nat × Lookup)) :=
  if path.bytes = [] ∨ path.bytes = [47] then some none
  else
    let (parent, leaf) := fat32PathParent path.bytes
    if leaf = [] then some none
    else (fat32ResolveDirectory fuel g d (parentOrRoot parent)).bind fun dir =>
      match dir with
      | none => some none
      | some cluster => (fat32FindEntryInDir fuel g d cluster leaf).map fun found => found.map fun l => (cluster, l)

/-- `DIR_Name[0] == 0 || DIR_Name[0] == 0xE5`. -/
def direntFree (e : Buf) : Bool := e 0 = 0 ∨ e 0 = 0xE5

/-- `fat32_find_free_dir_slot`: the slot, or `none` for -1. -/
def fat32FindFreeDirSlot (g : Statics) : Nat → Sectors → Nat → Option (Option (Nat × Nat) × Sectors)
  | 0, _, _ => none
  | fuel + 1, d, current =>
    if InData current then
      let buffer := fat32ReadDirectoryCluster g d current
      match (List.range (fat32ClusterSizeBytes g / 32)).find? fun i => direntFree (direntAt buffer i) with
      | some i => some (some (current, i), d)
      | none =>
        if eocMin ≤ fat32NextCluster g d current then
          let newCluster := fat32FindFreeCluster g d
          if newCluster = 0 then some (none, d)
          else
            let d := fat32WriteFatEntry g d current newCluster
            let d := fat32WriteFatEntry g d newCluster eocMark
            some (some (newCluster, 0), fat32ZeroCluster g d newCluster)
        else fat32FindFreeDirSlot g fuel d (fat32NextCluster g d current)
    else some (none, d)

def fat32WriteDirectoryEntry (g : Statics) (d : Sectors) (dirCluster entryIndex : Nat) (entry : Buf) :
    Int × Sectors :=
  if dirCluster < 2 then (-1, d)
  else (0, fat32WriteDirectoryCluster g d dirCluster
    ((fat32ReadDirectoryCluster g d dirCluster).copy (32 * entryIndex) entry 32))

def fat32MarkDirectoryEntryDeleted (g : Statics) (d : Sectors) (dirCluster entryIndex : Nat) : Int × Sectors :=
  if dirCluster < 2 then (-1, d)
  else (0, fat32WriteDirectoryCluster g d dirCluster
    ((fat32ReadDirectoryCluster g d dirCluster).set (32 * entryIndex) 0xE5))

/-- The clusters `fat32_load_directory` goes through. -/
def chainClusters (g : Statics) (d : Sectors) : Nat → Nat → Option (List Nat)
  | 0, _ => none
  | fuel + 1, current =>
    if InData current then (chainClusters g d fuel (fat32NextCluster g d current)).map (current :: ·)
    else some []

/-- `fat32_load_directory`: the buffer and its size. -/
def fat32LoadDirectory (fuel : Nat) (g : Statics) (d : Sectors) (startCluster : Nat) :
    Option (Option (Buf × Nat)) :=
  if !g.mounted ∨ startCluster < 2 then some none
  else (chainClusters g d fuel startCluster).map fun clusters =>
    let size := fat32ClusterSizeBytes g
    some (fun i => match clusters[i / size]? with
      | some c => fat32ReadDirectoryCluster g d c (i % size)
      | none => 0, clusters.length * size)

/-- The loop of `fat32_is_directory_empty`. -/
def emptyScan (buffer : Buf) : List Nat → Bool
  | [] => true
  | i :: rest =>
    if direntAt buffer i 0 = 0 then true
    else if direntSkipped (direntAt buffer i) then emptyScan buffer rest
    else
      let name := fat32EntryNameToString (direntAt buffer i)
      if name ≠ [46] ∧ name ≠ [46, 46] then false else emptyScan buffer rest

def fat32IsDirectoryEmpty (fuel : Nat) (g : Statics) (d : Sectors) (dirCluster : Nat) : Option Bool :=
  (fat32LoadDirectory fuel g d dirCluster).map fun loaded =>
    match loaded with
    | none => false
    | some (buffer, size) => emptyScan buffer (List.range (size / 32))

/-- The entry `fat32_create_dir_entry` writes. -/
def newDirent (name : List UInt8) (attr : UInt8) (startCluster : Nat) : Buf :=
  fat32SetEntryStartCluster ((Buf.zero.putBytes 0 (fat32MakeDosName name)).set 11 attr) startCluster

def fat32CreateDirEntry (fuel : Nat) (g : Statics) (d : Sectors) (parentCluster : Nat) (name : List UInt8)
    (attr : UInt8) (startCluster : Nat) : Option (Int × Sectors) :=
  if !fat32IsValidName name then some (-1, d)
  else (fat32FindEntryInDir fuel g d parentCluster name).bind fun existing =>
    if existing.isSome then some (-1, d)
    else (fat32FindFreeDirSlot g fuel d parentCluster).map fun (slot, d) =>
      match slot with
      | none => (-1, d)
      | some (cluster, index) => fat32WriteDirectoryEntry g d cluster index (newDirent name attr startCluster)

/-! ## Path operations -/

/-- `fat32_read_file_path`: the `file_size` bytes handed out, or `none` for NULL. -/
def fat32ReadFilePath (fuel : Nat) (g : Statics) (d : Sectors) (path : CStr) : Option (Option (List UInt8)) :=
  if !g.mounted then some none
  else (fat32ResolvePath fuel g d path).bind fun found =>
    match found with
    | none => some none
    | some (_, lookup) =>
      if dirAttr lookup.entry &&& 0x10 ≠ 0 then some none
      else
        let fileSize := (lookup.entry.u32 28).toNat
        let startCluster := fat32EntryStartCluster lookup.entry
        if 0 < fileSize ∧ 2 ≤ startCluster then
          (fat32Read fuel g d startCluster 0 fileSize Buf.zero).map fun (_, buffer) =>
            some (buffer.bytes 0 fileSize)
        else some (some (Buf.zero.bytes 0 fileSize))

def fat32CreateFilePath (fuel : Nat) (g : Statics) (d : Sectors) (path : CStr) : Option (Int × Sectors) :=
  if !g.mounted ∨ path.bytes = [47] then some (-1, d)
  else
    let (parent, leaf) := fat32PathParent path.bytes
    if !fat32IsValidName leaf then some (-1, d)
    else (fat32ResolveDirectory fuel g d (parentOrRoot parent)).bind fun dir =>
      match dir with
      | none => some (-1, d)
      | some parentCluster =>
        (fat32AllocateClusterChain fuel g d 1).bind fun (fileCluster, d) =>
          if fileCluster = 0 then some (-1, d)
          else (fat32CreateDirEntry fuel g d parentCluster leaf 0x20 fileCluster).bind fun (ret, d) =>
            if ret ≠ 0 then (fat32FreeClusterChain g fuel d fileCluster).map fun d => (-1, d)
            else some (0, d)

/-- `fat32_write_file_path` once the entry is known. -/
def writeFound (fuel : Nat) (g : Statics) (d : Sectors) (buffer : Buf) (size : UInt32) (lookup : Lookup) :
    Option (UInt32 × Sectors) :=
  if dirAttr lookup.entry &&& 0x10 ≠ 0 then some (0, d)
  else
    let neededClusters := (size.toNat + fat32ClusterSizeBytes g - 1) % 2 ^ 32 / fat32ClusterSizeBytes g
    (fat32AllocateClusterChain fuel g d (if neededClusters = 0 then 1 else neededClusters)).bind
      fun (newStartCluster, d) =>
      if newStartCluster = 0 then some (0, d)
      else
        (if 0 < size.toNat then fat32WriteClusterChain fuel g d newStartCluster buffer size.toNat
          else some (size.toNat, d)).bind fun (written, d) =>
        if written ≠ size.toNat then (fat32FreeClusterChain g fuel d newStartCluster).map fun d => (0, d)
        else
          let oldStartCluster := fat32EntryStartCluster lookup.entry
          (if 2 ≤ oldStartCluster then fat32FreeClusterChain g fuel d oldStartCluster else some d).bind fun d =>
          let entry := (fat32SetEntryStartCluster lookup.entry newStartCluster).putU32 28 size
          let (ret, d) := fat32WriteDirectoryEntry g d lookup.entryCluster lookup.entryIndex entry
          if ret ≠ 0 then (fat32FreeClusterChain g fuel d newStartCluster).map fun d => (0, d)
          else some (size, d)

def fat32WriteFilePath (fuel : Nat) (g : Statics) (d : Sectors) (path : CStr) (buffer : Buf) (size : UInt32) :
    Option (UInt32 × Sectors) :=
  if !g.mounted then some (0, d)
  else (fat32ResolvePath fuel g d path).bind fun found =>
    match found with
    | some (_, lookup) => writeFound fuel g d buffer size lookup
    | none =>
      (fat32CreateFilePath fuel g d path).bind fun (ret, d) =>
        if ret ≠ 0 then some (0, d)
        else (fat32ResolvePath fuel g d path).bind fun found =>
          match found with
          | none => some (0, d)
          | some (_, lookup) => writeFound fuel g d buffer size lookup

def fat32DeletePath (fuel : Nat) (g : Statics) (d : Sectors) (path : CStr) : Option (Int × Sectors) :=
  if !g.mounted ∨ path.bytes = [47] then some (-1, d)
  else (fat32ResolvePath fuel g d path).bind fun found =>
    match found with
    | none => some (-1, d)
    | some (_, lookup) =>
      let startCluster := fat32EntryStartCluster lookup.entry
      (if dirAttr lookup.entry &&& 0x10 ≠ 0 then fat32IsDirectoryEmpty fuel g d startCluster
        else some true).bind fun empty =>
      if !empty then some (-1, d)
      else
        (if 2 ≤ startCluster then fat32FreeClusterChain g fuel d startCluster else some d).map fun d =>
          fat32MarkDirectoryEntryDeleted g d lookup.entryCluster lookup.entryIndex

def fat32RenamePath (fuel : Nat) (g : Statics) (d : Sectors) (oldPath newPath : CStr) : Option (Int × Sectors) :=
  if !g.mounted ∨ oldPath.bytes = [47] ∨ newPath.bytes = [47] then some (-1, d)
  else
    let oldParent := (fat32PathParent oldPath.bytes).1
    let (newParent, newLeaf) := fat32PathParent newPath.bytes
    if parentOrRoot oldParent ≠ parentOrRoot newParent then some (-1, d)
    else if !fat32IsValidName newLeaf then some (-1, d)
    else (fat32ResolvePath fuel g d oldPath).bind fun found =>
      match found with
      | none => some (-1, d)
      | some (dirCluster, _) =>
        (fat32FindEntryInDir fuel g d dirCluster newLeaf).bind fun existing =>
          if existing.isSome then some (-1, d)
          else (fat32ResolvePath fuel g d oldPath).map fun found =>
            match found with
            | none => (-1, d)
            | some (_, lookup) => fat32WriteDirectoryEntry g d lookup.entryCluster lookup.entryIndex
                (lookup.entry.putBytes 0 (fat32MakeDosName newLeaf))

/-- The "." and ".." entries of a new directory. -/
def newDirectoryCluster (newCluster parentCluster : Nat) : Buf :=
  let dot := fat32SetEntryStartCluster
    ((Buf.zero.putBytes 0 (46 :: List.replicate 10 32)).set 11 0x10) newCluster
  let dotDot := fat32SetEntryStartCluster
    ((Buf.zero.putBytes 0 (46 :: 46 :: List.replicate 9 32)).set 11 0x10) parentCluster
  (Buf.zero.copy 0 dot 32).copy 32 dotDot 32

def fat32CreateDir (fuel : Nat) (g : Statics) (d : Sectors) (path : CStr) : Option (Int × Sectors) :=
  if !g.mounted ∨ path.bytes = [47] then some (-1, d)
  else
    let (parent, leaf) := fat32PathParent path.bytes
    if !fat32IsValidName leaf then some (-1, d)
    else (fat32ResolveDirectory fuel g d (parentOrRoot parent)).bind fun dir =>
      match dir with
      | none => some (-1, d)
      | some parentCluster =>
        (fat32FindEntryInDir fuel g d parentCluster leaf).bind fun existing =>
          if existing.isSome then some (-1, d)
          else (fat32AllocateClusterChain fuel g d 1).bind fun (newCluster, d) =>
            if newCluster = 0 then some (-1, d)
            else
              let d := fat32WriteDirectoryCluster g d newCluster (newDirectoryCluster newCluster parentCluster)
              (fat32CreateDirEntry fuel g d parentCluster leaf 0x10 newCluster).bind fun (ret, d) =>
                if ret ≠ 0 then (fat32FreeClusterChain g fuel d newCluster).map fun d => (-1, d)
                else some (0, d)

/-! ## Nodes -/

/-- The fields of `fs_node_t` that `fat32_finddir` fills. -/
structure FatNode where
  name : List UInt8
  isDir : Bool
  inode : Nat
  length : Nat
deriving DecidableEq

/-- The loop of `fat32_readdir`, over the indices that are left. -/
def readdirScan (buffer : Buf) (size index : Nat) : List Nat → Nat → Option (List UInt8 × Nat)
  | [], _ => none
  | i :: rest, current =>
    if direntAt buffer i 0 = 0 then none
    else if direntSkipped (direntAt buffer i) then readdirScan buffer size index rest current
    else if current = index then
      some ((fat32GetLongName buffer size i 128).getD (fat32EntryNameToString (direntAt buffer i)),
        fat32EntryStartCluster (direntAt buffer i))
    else readdirScan buffer size index rest (current + 1)

/-- `fat32_readdir`: name and `ino`, or `none` for NULL. -/
def fat32Readdir (fuel : Nat) (g : Statics) (d : Sectors) (node : FatNode) (index : Nat) :
    Option (Option (List UInt8 × Nat)) :=
  if !g.mounted ∨ !node.isDir then some none
  else (fat32LoadDirectory fuel g d node.inode).map fun loaded =>
    match loaded with
    | none => none
    | some (buffer, size) => readdirScan buffer size index (List.range (size / 32)) 0

def foundNode (name : List UInt8) (l : Lookup) : FatNode :=
  ⟨name, dirAttr l.entry &&& 0x10 ≠ 0, fat32EntryStartCluster l.entry, (l.entry.u32 28).toNat⟩

def fat32Finddir (fuel : Nat) (g : Statics) (d : Sectors) (node : FatNode) (name : List UInt8) :
    Option (Option FatNode) :=
  (fat32FindEntryInDir fuel g d node.inode name).map fun found => found.map (foundNode name)

end LiwusOS.Fat
