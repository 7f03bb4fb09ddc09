import LiwusOS.Fs.Journal

/-! # What the file system code sees of a volume

Directory and file code touches the blocks from the root block up and the
allocation bits. `Volume.store` is that view; `Volume.geo` collects the statics
that only `sdfs_format` and `sdfs_mount` change. Each operation of the layers
below is described here once, as what it does to the two. Bitmap flushes and
journal traffic land below the root block, so they do not show. -/

namespace LiwusOS.Fs
open LiwusOS.Lib Function Option

variable {b c : Nat} {s : Volume}

/-! ## Blocks and bits -/

theorem lba_inj (hb : b < 2 ^ 29) (hc : c < 2 ^ 29) (h : lba b = lba c) : b = c := by
  simp only [lba, sdfsSectorsPerBlock] at h
  omega

@[simp] theorem read_write_self (s : Volume) (b : Nat) (buf : Block) :
    sdfsReadBlock (sdfsWriteBlock s b buf) b = buf := by
  simp [sdfsReadBlock, sdfsWriteBlock]

theorem read_write_ne (s : Volume) (buf : Block) (hb : b < 2 ^ 29) (hc : c < 2 ^ 29) (h : c ≠ b) :
    sdfsReadBlock (sdfsWriteBlock s b buf) c = sdfsReadBlock s c := by
  have hl : lba c ≠ lba b := fun he => h (lba_inj hc hb he)
  simp [sdfsReadBlock, sdfsWriteBlock, update_of_ne hl]

theorem toBitVec_bitMask (b : Nat) : (bitMask b).toBitVec = BitVec.twoPow 8 (b % 8) := by
  have h : b % 8 < 8 := Nat.mod_lt _ (by decide)
  unfold bitMask
  generalize b % 8 = k at h
  interval_cases k <;> rfl

theorem and_bitMask (x : UInt8) (b : Nat) : (x &&& bitMask b != 0) = x.toBitVec.getLsbD (b % 8) := by
  have h : b % 8 < 8 := Nat.mod_lt _ (by decide)
  have he : (x &&& bitMask b = 0) ↔ (x.toBitVec &&& BitVec.twoPow 8 (b % 8) = 0#8) := by
    rw [← UInt8.toBitVec_inj, UInt8.toBitVec_and, toBitVec_bitMask]; rfl
  rw [BitVec.and_twoPow] at he
  cases hx : x.toBitVec.getLsbD (b % 8) with
  | false => simp [he, hx]
  | true =>
    have hne : ¬ (x &&& bitMask b = 0) := by
      rw [he, hx, if_pos rfl]
      intro h0
      have hbit := congrArg (fun v => BitVec.getLsbD v (b % 8)) h0
      simp [h] at hbit
    simpa using hne

theorem getLsbD_or_bitMask (x : UInt8) (b c : Nat) :
    (x ||| bitMask b).toBitVec.getLsbD (c % 8) =
      (x.toBitVec.getLsbD (c % 8) || decide (c % 8 = b % 8)) := by
  have hb : b % 8 < 8 := Nat.mod_lt _ (by decide)
  rw [UInt8.toBitVec_or, toBitVec_bitMask, BitVec.getLsbD_or, BitVec.getLsbD_twoPow]
  simp [hb, eq_comm]

theorem getLsbD_andNot_bitMask (x : UInt8) (b c : Nat) :
    (x &&& ~~~bitMask b).toBitVec.getLsbD (c % 8) =
      (x.toBitVec.getLsbD (c % 8) && !decide (c % 8 = b % 8)) := by
  have hb : b % 8 < 8 := Nat.mod_lt _ (by decide)
  have hc : c % 8 < 8 := Nat.mod_lt _ (by decide)
  rw [UInt8.toBitVec_and, UInt8.toBitVec_not, toBitVec_bitMask, BitVec.getLsbD_and,
    BitVec.getLsbD_not, BitVec.getLsbD_twoPow]
  simp [hb, hc, eq_comm]

/-- `sdfs_bitmap_set` changes one bit. -/
theorem test_set (s : Volume) (v : Bool) (hc : s.bitmapCache.isSome) (hb : b < s.bitmapBytes * 8) (c : Nat) :
    sdfsBitmapTest (sdfsBitmapSet s b v) c = if c = b then v else sdfsBitmapTest s c := by
  obtain ⟨cache, hcache⟩ := isSome_iff_exists.mp hc
  have hbyte : ¬ b / 8 ≥ s.bitmapBytes := by omega
  by_cases hcb : c / 8 = b / 8
  · -- the same byte: the masks decide
    have hmod : c % 8 = b % 8 ↔ c = b := by omega
    cases v <;>
      simp only [sdfsBitmapSet, sdfsBitmapTest, hcache, if_neg hbyte, hcb, Buf.set_self,
        and_bitMask, getLsbD_or_bitMask, getLsbD_andNot_bitMask, hmod, if_true, Bool.false_eq_true,
        if_false] <;>
      split <;> simp_all
  · have hne : c ≠ b := fun h => hcb (by rw [h])
    cases v <;>
      simp [sdfsBitmapSet, sdfsBitmapTest, hcache, if_neg hbyte, Buf.set_ne _ _ hcb, hne]

/-! ## Geometry -/

/-- The statics that stay fixed while a volume is mounted. -/
structure Geometry where
  mounted : Bool
  totalBlocks : Nat
  bitmapBlock : Nat
  bitmapBlocks : Nat
  rootBlock : Nat
  bitmapBytes : Nat
  cached : Bool
  jStart : Nat
  jMaxEntries : Nat
  jReady : Bool
  headerLoaded : Bool
  timerTicks : UInt32

def Volume.geo (s : Volume) : Geometry where
  mounted := s.mounted
  totalBlocks := s.totalBlocks
  bitmapBlock := s.bitmapBlock
  bitmapBlocks := s.bitmapBlocks
  rootBlock := s.rootBlock
  bitmapBytes := s.bitmapBytes
  cached := s.bitmapCache.isSome
  jStart := s.jStart
  jMaxEntries := s.jMaxEntries
  jReady := s.jReady
  headerLoaded := s.jHeader.isSome
  timerTicks := s.timerTicks

theorem total_of_geo {t : Volume} (hg : t.geo = s.geo) : t.totalBlocks = s.totalBlocks :=
  congrArg Geometry.totalBlocks hg

theorem root_of_geo {t : Volume} (hg : t.geo = s.geo) : t.rootBlock = s.rootBlock := congrArg Geometry.rootBlock hg

/-- The regions of a formatted volume: superblock, bitmap, journal and root
block follow one another, and the bitmap covers every block. -/
structure Geometry.Valid (g : Geometry) : Prop where
  cached : g.cached = true
  bitmapPos : 0 < g.bitmapBlock
  bitmapEnd : g.bitmapBlock + g.bitmapBlocks ≤ g.rootBlock
  journal : g.headerLoaded = true → 0 < g.jMaxEntries ∧
    g.bitmapBlock + g.bitmapBlocks ≤ g.jStart ∧ g.jStart + 2 * g.jMaxEntries < g.rootBlock
  root : g.rootBlock < g.totalBlocks
  total : g.totalBlocks ≤ sdfsMaxBlocks
  bytes : g.bitmapBytes = g.bitmapBlocks * sdfsBlockSize
  bits : g.totalBlocks ≤ g.bitmapBytes * 8

@[simp] theorem geo_write (s : Volume) (b : Nat) (buf : Block) :
    (sdfsWriteBlock s b buf).geo = s.geo := rfl

@[simp] theorem geo_set (s : Volume) (b : Nat) (v : Bool) : (sdfsBitmapSet s b v).geo = s.geo := by
  unfold sdfsBitmapSet
  split
  · rfl
  · rename_i cache hcache
    dsimp only
    split
    · rfl
    · split <;> simp [Volume.geo, hcache]

theorem saveBitmapBlocks_frame (cache : Buf) (s : Volume) (n : Nat) :
    ∃ disk past, saveBitmapBlocks cache s n = { s with disk := disk, past := past } := by
  induction n with
  | zero => exact ⟨s.disk, s.past, rfl⟩
  | succ n ih =>
    obtain ⟨disk, past, h⟩ := ih
    rw [saveBitmapBlocks, h]
    exact ⟨_, _, rfl⟩

@[simp] theorem geo_save (s : Volume) : (sdfsSaveBitmap s).geo = s.geo := by
  unfold sdfsSaveBitmap
  split
  · rfl
  · obtain ⟨disk, past, h⟩ := saveBitmapBlocks_frame _ s s.bitmapBlocks
    rw [h]
    rfl

@[simp] theorem geo_touch (s : Volume) : (sdfsBitmapTouch s).geo = s.geo := by
  unfold sdfsBitmapTouch
  dsimp only
  split
  · rw [geo_save]; rfl
  · rfl

@[simp] theorem geo_free (s : Volume) (b : Nat) : (sdfsFreeBlock s b).geo = s.geo := by
  unfold sdfsFreeBlock
  split <;> simp

@[simp] theorem geo_allocRaw (s : Volume) : (sdfsAllocBlockRaw s).2.geo = s.geo := by
  unfold sdfsAllocBlockRaw
  split <;> simp

@[simp] theorem geo_alloc (s : Volume) : (sdfsAllocBlock s).2.geo = s.geo := by
  unfold sdfsAllocBlock
  dsimp only
  split <;> simp [sdfsZeroBlock]

theorem geo_saveHeader (h : Block) (hs : s.jHeader.isSome) : (journalSaveHeader s h).geo = s.geo := by
  simp [journalSaveHeader, Volume.geo, sdfsWriteBlock, hs]

@[simp] theorem geo_journalWrite (s : Volume) (b : Nat) (buf : Block) :
    (sdfsJournalWriteBlock s b buf).2.geo = s.geo := by
  unfold sdfsJournalWriteBlock
  split
  · rfl
  · rename_i h hh
    have hs : s.jHeader.isSome := by simp [hh]
    split
    · rfl
    · rw [geo_saveHeader (s := journalPutEntry s _ _ _) _ hs]
      rfl

@[simp] theorem geo_clean (s : Volume) : (sdfsJournalClean s).geo = s.geo := by
  unfold sdfsJournalClean
  split
  · rfl
  · rename_i h hh
    exact geo_saveHeader _ (by simp [hh])

@[simp] theorem geo_metadataWrite (s : Volume) (b : Nat) (buf : Block) : (sdfsMetadataWrite s b buf).geo = s.geo := by
  simp [sdfsMetadataWrite]

/-! ## Store -/

/-- The blocks from the root block up, and the allocation bits. -/
@[ext] structure Store where
  data : Nat → Block
  used : Nat → Bool

namespace Store

def write (σ : Store) (b : Nat) (buf : Block) : Store :=
  { σ with data := update σ.data b buf }

def mark (σ : Store) (b : Nat) (v : Bool) : Store :=
  { σ with used := update σ.used b v }

@[simp] theorem write_used (σ : Store) (b : Nat) (buf : Block) : (σ.write b buf).used = σ.used := rfl

@[simp] theorem mark_data (σ : Store) (b : Nat) (v : Bool) : (σ.mark b v).data = σ.data := rfl

@[simp] theorem write_data_self (σ : Store) (b : Nat) (buf : Block) : (σ.write b buf).data b = buf := by
  simp [write]

theorem write_data_ne (σ : Store) (buf : Block) (h : c ≠ b) : (σ.write b buf).data c = σ.data c := by
  simp [write, update_of_ne h]

@[simp] theorem mark_used_self (σ : Store) (b : Nat) (v : Bool) : (σ.mark b v).used b = v := by
  simp [mark]

theorem mark_used_ne (σ : Store) (v : Bool) (h : c ≠ b) : (σ.mark b v).used c = σ.used c := by
  simp [mark, update_of_ne h]

end Store

def Volume.store (s : Volume) : Store where
  data b := if s.rootBlock ≤ b ∧ b < s.totalBlocks then sdfsReadBlock s b else Buf.zero
  used b := sdfsBitmapTest s b

/-- A mounted volume whose reserved blocks are all marked. -/
structure Layout (s : Volume) : Prop where
  valid : s.geo.Valid
  reserved : ∀ b ≤ s.rootBlock, s.store.used b = true

theorem Geometry.Valid.lt_two_pow (h : s.geo.Valid) (hb : b < s.totalBlocks) : b < 2 ^ 29 := by
  have h1 : s.totalBlocks ≤ sdfsMaxBlocks := h.total
  simp only [sdfsMaxBlocks] at h1
  omega

theorem store_data (h1 : s.rootBlock ≤ b) (h2 : b < s.totalBlocks) : s.store.data b = sdfsReadBlock s b := by
  simp [Volume.store, h1, h2]

section
variable (hv : s.geo.Valid)
include hv

theorem data_write (buf : Block) (hb : b < s.totalBlocks) (c : Nat) : (sdfsWriteBlock s b buf).store.data c =
    if c = b ∧ s.rootBlock ≤ c then buf else s.store.data c := by
  by_cases hc : s.rootBlock ≤ c ∧ c < s.totalBlocks
  · rw [store_data (s := sdfsWriteBlock s b buf) hc.1 hc.2, store_data hc.1 hc.2]
    by_cases hcb : c = b
    · subst hcb
      rw [if_pos ⟨rfl, hc.1⟩, read_write_self]
    · rw [if_neg fun h => hcb h.1, read_write_ne s buf (hv.lt_two_pow hb) (hv.lt_two_pow hc.2) hcb]
  · have hc' : ¬((sdfsWriteBlock s b buf).rootBlock ≤ c ∧
      c < (sdfsWriteBlock s b buf).totalBlocks) := hc
    rw [if_neg (by rintro ⟨rfl, h⟩; exact hc ⟨h, hb⟩)]
    simp [Volume.store, hc, hc']

theorem store_write (buf : Block) (h1 : s.rootBlock ≤ b) (h2 : b < s.totalBlocks) :
    (sdfsWriteBlock s b buf).store = s.store.write b buf := by
  refine Store.ext (funext fun c => ?_) rfl
  rw [data_write hv buf h2]
  by_cases hcb : c = b
  · rw [if_pos ⟨hcb, hcb ▸ h1⟩, hcb, Store.write_data_self]
  · rw [if_neg fun h => hcb h.1, Store.write_data_ne _ _ hcb]

/-- A write below the root block does not show in the store. -/
theorem store_write_below (buf : Block) (h : b < s.rootBlock) : (sdfsWriteBlock s b buf).store = s.store := by
  have hr : s.rootBlock < s.totalBlocks := hv.root
  refine Store.ext (funext fun c => ?_) rfl
  rw [data_write hv buf (by omega), if_neg (by omega)]

theorem store_set (v : Bool) (hb : b < s.totalBlocks) : (sdfsBitmapSet s b v).store = s.store.mark b v := by
  have hcached : s.bitmapCache.isSome := hv.cached
  have hbits : s.totalBlocks ≤ s.bitmapBytes * 8 := hv.bits
  have hset := test_set s v hcached (b := b) (by omega)
  obtain ⟨cache, hcache⟩ := isSome_iff_exists.mp hcached
  apply Store.ext
  · have hbyte : ¬ b / 8 ≥ s.bitmapBytes := by omega
    funext c
    cases v <;> simp [sdfsBitmapSet, hcache, hbyte, Volume.store, sdfsReadBlock]
  · funext c
    show sdfsBitmapTest (sdfsBitmapSet s b v) c = (s.store.mark b v).used c
    rw [hset]
    by_cases hc : c = b
    · subst hc; simp
    · rw [if_neg hc, Store.mark_used_ne _ _ hc]; rfl

theorem store_saveBitmapBlocks (cache : Buf) {n : Nat} (hn : n ≤ s.bitmapBlocks) :
    (saveBitmapBlocks cache s n).store = s.store := by
  have hend : s.bitmapBlock + s.bitmapBlocks ≤ s.rootBlock := hv.bitmapEnd
  induction n with
  | zero => rfl
  | succ n ih =>
    obtain ⟨disk, past, h⟩ := saveBitmapBlocks_frame cache s n
    have hg : (saveBitmapBlocks cache s n).geo = s.geo := by rw [h]; rfl
    have hroot : (saveBitmapBlocks cache s n).rootBlock = s.rootBlock := by rw [h]
    rw [saveBitmapBlocks, store_write_below (hg ▸ hv) _ (by rw [hroot]; omega), ih (by omega)]

theorem store_save : (sdfsSaveBitmap s).store = s.store := by
  unfold sdfsSaveBitmap
  split
  · rfl
  · exact store_saveBitmapBlocks hv _ le_rfl

theorem store_touch : (sdfsBitmapTouch s).store = s.store := by
  unfold sdfsBitmapTouch
  dsimp only
  split
  · rw [store_save (by exact hv)]; rfl
  · rfl

end

/-! ## Allocation -/

/-- The first free block of a store, if any of its `total` blocks is free. -/
def Store.free? (σ : Store) (total : Nat) : Option Nat := firstFree σ.used total 0

theorem allocRaw_none (h : s.store.free? s.totalBlocks = none) : sdfsAllocBlockRaw s = (0, s) := by
  have h' : firstFree (sdfsBitmapTest s) s.totalBlocks 0 = none := h
  simp [sdfsAllocBlockRaw, h']

theorem allocRaw_some (hl : Layout s) (h : s.store.free? s.totalBlocks = some b) :
    (sdfsAllocBlockRaw s).1 = b ∧ (sdfsAllocBlockRaw s).2.store = s.store.mark b true := by
  have h' : firstFree (sdfsBitmapTest s) s.totalBlocks 0 = some b := h
  obtain ⟨hb, -⟩ := firstFree_eq_some.mp h'
  simp only [sdfsAllocBlockRaw, h', true_and]
  rw [store_touch (by rw [geo_set]; exact hl.valid), store_set hl.valid _ (by omega)]

/-- A free block lies above the root block. -/
theorem Layout.free?_some (hl : Layout s) (h : s.store.free? s.totalBlocks = some b) :
    s.rootBlock < b ∧ b < s.totalBlocks ∧ s.store.used b = false := by
  obtain ⟨hb, hu, -⟩ := firstFree_eq_some.mp h
  refine ⟨?_, by omega, hu⟩
  by_contra hle
  rw [hl.reserved b (by omega)] at hu
  cases hu

theorem alloc_none (h : s.store.free? s.totalBlocks = none) : sdfsAllocBlock s = (0, s) := by
  simp [sdfsAllocBlock, allocRaw_none h]

theorem Layout.of_geo {t : Volume} (hl : Layout s) (hg : t.geo = s.geo)
    (hu : ∀ b ≤ s.rootBlock, t.store.used b = true) : Layout t := by
  have hroot := root_of_geo hg
  exact ⟨hg ▸ hl.valid, fun b hb => hu b (hroot ▸ hb)⟩

theorem alloc_some (hl : Layout s) (h : s.store.free? s.totalBlocks = some b) :
    (sdfsAllocBlock s).1 = b ∧
      (sdfsAllocBlock s).2.store = (s.store.mark b true).write b Buf.zero := by
  obtain ⟨h1, h2⟩ := allocRaw_some hl h
  obtain ⟨hlo, hhi, _⟩ := hl.free?_some h
  have hb : ¬ b = 0 := by omega
  have hg := geo_allocRaw s
  have hroot := root_of_geo hg
  have htot := total_of_geo hg
  simp only [sdfsAllocBlock, h1, if_neg hb, true_and, sdfsZeroBlock]
  rw [store_write (hg ▸ hl.valid) _ (by omega) (by omega), h2]

theorem store_free (hv : s.geo.Valid) (h0 : b ≠ 0) (hb : b < s.totalBlocks) :
    (sdfsFreeBlock s b).store = s.store.mark b false := by
  have hn : ¬(b = 0 ∨ b ≥ s.totalBlocks) := by omega
  simp only [sdfsFreeBlock, if_neg hn]
  rw [store_touch (by rw [geo_set]; exact hv), store_set hv _ hb]

/-! ## Metadata writes -/

theorem store_saveHeader (hv : s.geo.Valid) (hj : s.jStart < s.rootBlock) (h : Block) (hs : s.jHeader.isSome) :
    (journalSaveHeader s h).store = s.store := by
  unfold journalSaveHeader
  have hg : ({ s with jHeader := some (JHeader.setCrc h (crc32Calc h 4 (sdfsBlockSize - 4))) } :
      Volume).geo = s.geo := by simp [Volume.geo, hs]
  exact store_write_below (s := { s with jHeader := some _ }) (hg ▸ hv) _ hj

theorem store_clean (hv : s.geo.Valid) : (sdfsJournalClean s).store = s.store := by
  unfold sdfsJournalClean
  split
  · rfl
  · rename_i h hh
    have hs : s.jHeader.isSome := by simp [hh]
    obtain ⟨_, _, hj⟩ := hv.journal hs
    exact store_saveHeader hv (by change s.jStart + 2 * s.jMaxEntries < s.rootBlock at hj; omega) _ hs

theorem journalSlot_lt (h : Block) (hm : 0 < s.jMaxEntries) : journalSlot s h < s.jMaxEntries := by
  unfold journalSlot
  split <;> omega

theorem store_putEntry (hv : s.geo.Valid) (hs : s.jHeader.isSome) {idx : Nat} (hi : idx < s.jMaxEntries)
    (hdr data : Block) : (journalPutEntry s idx hdr data).store = s.store := by
  obtain ⟨_, _, hj⟩ := hv.journal hs
  change s.jStart + 2 * s.jMaxEntries < s.rootBlock at hj
  unfold journalPutEntry
  rw [store_write_below (s := sdfsWriteBlock s _ hdr) hv _
      (by unfold journalEntryData journalEntryHdr; change _ < s.rootBlock; omega),
    store_write_below hv _ (by unfold journalEntryHdr; omega)]

theorem store_journalWrite (hv : s.geo.Valid) (b : Nat) (buf : Block) :
    (sdfsJournalWriteBlock s b buf).2.store = s.store := by
  unfold sdfsJournalWriteBlock
  split
  · rfl
  · rename_i h hh
    have hs : s.jHeader.isSome := by simp [hh]
    obtain ⟨hm, _, hj⟩ := hv.journal hs
    change s.jStart + 2 * s.jMaxEntries < s.rootBlock at hj
    split
    · rfl
    · dsimp only
      rw [store_saveHeader (s := journalPutEntry s _ _ _) hv
        (by change s.jStart < s.rootBlock; omega) _ hs, store_putEntry hv hs (journalSlot_lt h hm)]

theorem store_metadataWrite (hv : s.geo.Valid) (buf : Block) (h1 : s.rootBlock ≤ b) (h2 : b < s.totalBlocks) :
    (sdfsMetadataWrite s b buf).store = s.store.write b buf := by
  have hg := geo_journalWrite s b buf
  have hroot := root_of_geo hg
  have htot := total_of_geo hg
  unfold sdfsMetadataWrite
  dsimp only
  rw [store_clean (by rw [geo_write, hg]; exact hv),
    store_write (hg ▸ hv) _ (by omega) (by omega), store_journalWrite hv]

end LiwusOS.Fs
