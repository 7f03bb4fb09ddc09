import LiwusOS.Fs.FileChain
import LiwusOS.Fs.Mount

/-! # Allocation on a mounted volume

`sdfs_mount` takes the layout from the superblock. Whether the allocator keeps off the
blocks that have a use depends on the bitmap it loads. -/

namespace LiwusOS.Fs
open LiwusOS.Lib List

/-- The fields of a superblock that say where things are. -/
structure DiskLayout where
  totalBlocks : Nat
  bitmapBlock : Nat
  bitmapBlocks : Nat
  journalStart : Nat
  journalBlocks : Nat
  rootBlock : Nat

/-- The blocks of the file system itself. There is a journal where `sdfs_mount` announces one. -/
def DiskLayout.Reserved (l : DiskLayout) (b : Nat) : Prop :=
  b = 0 ∨ (∃ i < l.bitmapBlocks, b = (l.bitmapBlock + i) % 2 ^ 32) ∨
    (0 < l.journalStart ∧ 2 ≤ l.journalBlocks ∧ ∃ i < l.journalBlocks, b = (l.journalStart + i) % 2 ^ 32) ∨
    b = l.rootBlock

instance (l : DiskLayout) (b : Nat) : Decidable (l.Reserved b) := by
  unfold DiskLayout.Reserved
  infer_instance

def Volume.layout (s : Volume) : DiskLayout :=
  ⟨s.totalBlocks, s.bitmapBlock, s.bitmapBlocks, s.journalStart, s.journalBlocks, s.rootBlock⟩

abbrev Reserved (s : Volume) (b : Nat) : Prop := s.layout.Reserved b

/-- The answers to `n` calls of `sdfs_alloc_block_raw`, and the volume after them. -/
def allocRun (s : Volume) : Nat → List Nat × Volume
  | 0 => ([], s)
  | n + 1 =>
    ((allocRun s n).1 ++ [(sdfsAllocBlockRaw (allocRun s n).2).1], (sdfsAllocBlockRaw (allocRun s n).2).2)

/-- Up to the first 0 the answers are distinct blocks of the volume without another use,
and 0 is answered when all blocks are taken. -/
def AllocsFresh (s : Volume) : Prop :=
  ∀ n, 0 ∉ (allocRun s n).1 → (allocRun s n).1.Nodup ∧
    (∀ b ∈ (allocRun s n).1, b < s.totalBlocks ∧ ¬ Reserved s b) ∧
    ((sdfsAllocBlockRaw (allocRun s n).2).1 = 0 →
      ∀ b < s.totalBlocks, sdfsBitmapTest (allocRun s n).2 b = true)

/-- The bitmap covers the volume, and the blocks of the file system are marked in it. -/
structure BitmapUsable (s : Volume) : Prop where
  covers : s.totalBlocks ≤ s.bitmapBytes * 8
  marked : ∀ b < s.totalBlocks, Reserved s b → sdfsBitmapTest s b = true

/-! ## The condition on the disk -/

def layoutV2 (sb : Block) : DiskLayout where
  totalBlocks := (sb.u32 16).toNat
  bitmapBlock := (sb.u32 20).toNat
  bitmapBlocks := (sb.u32 24).toNat
  journalStart := (sb.u32 28).toNat
  journalBlocks := (sb.u32 32).toNat
  rootBlock := (sb.u32 36).toNat

/-- A V1 superblock has no journal. -/
def layoutV1 (sb : Block) : DiskLayout where
  totalBlocks := (sb.u32 12).toNat
  bitmapBlock := (sb.u32 16).toNat
  bitmapBlocks := (sb.u32 20).toNat
  journalStart := 0
  journalBlocks := 0
  rootBlock := (sb.u32 24).toNat

/-- Bit `b` of the bitmap that starts at a block. -/
def bitOnDisk (d : Disk) (bitmapBlock b : Nat) : Bool :=
  d (lba (bitmapBlock + b / 8 / sdfsBlockSize)) (b / 8 % sdfsBlockSize) &&& bitMask b != 0

structure LayoutUsable (d : Disk) (l : DiskLayout) : Prop where
  covers : l.totalBlocks ≤ l.bitmapBlocks * sdfsBlockSize % 2 ^ 32 * 8
  marked : ∀ b < l.totalBlocks, l.Reserved b → bitOnDisk d l.bitmapBlock b = true

/-- What the superblock and the bitmap must say. A V2 superblock has been written back,
with one more mount, before the bitmap is read. -/
def DiskUsable (d : Disk) : Prop :=
  let sb := d (lba 0)
  (sb.bytes 0 8 = sdfsMagicV2 → LayoutUsable (Function.update d (lba 0) (remountedSuperblock sb)) (layoutV2 sb)) ∧
    (sb.bytes 0 8 = sdfsMagicV1 → LayoutUsable d (layoutV1 sb))

/-- A replay changes the disk and the header in memory. -/
theorem replay_rest (s : Volume) :
    ∃ d p h, (sdfsJournalReplay s).2 = { s with disk := d, past := p, jHeader := h } := by
  have hslots : ∀ (s : Volume) n, ∃ d p, (replaySlots s n).2 = { s with disk := d, past := p } := by
    intro s n
    induction n with
    | zero => exact ⟨_, _, rfl⟩
    | succ n ih =>
      obtain ⟨d, p, h⟩ := ih
      rw [replaySlots]
      dsimp only
      rw [h, replaySlot]
      split
      · exact ⟨_, _, rfl⟩
      · exact ⟨_, _, rfl⟩
  rw [sdfsJournalReplay]
  dsimp only
  split
  · exact ⟨_, _, _, rfl⟩
  · split
    · exact ⟨_, _, _, rfl⟩
    · split
      · exact ⟨_, _, _, rfl⟩
      · obtain ⟨d, p, h⟩ := hslots (journalLoadHeader s) (journalLoadHeader s).jMaxEntries
        rw [h]
        exact ⟨_, _, _, rfl⟩

/-- The end of a mount loads the bitmap that lies on the disk. -/
theorem mountTail_usable (s : Volume) : BitmapUsable (mountTail s).2 ↔ LayoutUsable s.disk s.layout := by
  have htest : ∀ b < s.totalBlocks, s.totalBlocks ≤ s.bitmapBlocks * sdfsBlockSize % 2 ^ 32 * 8 →
      sdfsBitmapTest (sdfsLoadBitmap s) b = bitOnDisk s.disk s.bitmapBlock b := by
    intro b hb hcovers
    have hbyte : ¬ b / 8 ≥ s.bitmapBlocks * sdfsBlockSize % 2 ^ 32 := by omega
    exact if_neg hbyte
  have hload : BitmapUsable (sdfsLoadBitmap s) ↔ LayoutUsable s.disk s.layout :=
    ⟨fun h => ⟨h.covers, fun b hb hr => (htest b hb h.covers).symm.trans (h.marked b hb hr)⟩,
      fun h => ⟨h.covers, fun b hb hr => (htest b hb h.covers).trans (h.marked b hb hr)⟩⟩
  rw [← hload, mountTail]
  dsimp only
  split
  · obtain ⟨d, p, h, heq⟩ := replay_rest (sdfsJournalInit (sdfsLoadBitmap s) (sdfsLoadBitmap s).journalStart
      (sdfsLoadBitmap s).journalBlocks)
    rw [heq]
    exact ⟨fun h => ⟨h.covers, h.marked⟩, fun h => ⟨h.covers, h.marked⟩⟩
  · exact ⟨fun h => ⟨h.covers, h.marked⟩, fun h => ⟨h.covers, h.marked⟩⟩

theorem mount_usable {s : Volume} (h : (sdfsMount s).1.isSome = true) :
    BitmapUsable (sdfsMount s).2 ↔ DiskUsable s.disk := by
  have hmagic : sdfsMagicV2 ≠ sdfsMagicV1 := by decide
  rw [sdfsMount] at h ⊢
  dsimp only at h ⊢
  unfold DiskUsable
  dsimp only
  split at h
  · rename_i hv2
    rw [if_pos hv2]
    split at h
    · cases h
    · rename_i hgeometry
      rw [if_neg hgeometry, mountTail_usable]
      refine ⟨fun hu => ⟨fun _ => hu, fun hv1 => absurd (hv2.symm.trans hv1) hmagic⟩, fun hu => hu.1 hv2⟩
  · rename_i hv2
    rw [if_neg hv2]
    split at h
    · rename_i hv1
      rw [if_pos hv1, mountTail_usable]
      exact ⟨fun hu => ⟨fun hv2' => absurd hv2' hv2, fun _ => hu⟩, fun hu => hu.2 hv1⟩
    · cases h

/-! ## One call -/

theorem test_save (s : Volume) (b : Nat) : sdfsBitmapTest (sdfsSaveBitmap s) b = sdfsBitmapTest s b := by
  unfold sdfsSaveBitmap
  split
  · rfl
  · obtain ⟨disk, past, h⟩ := saveBitmapBlocks_frame _ s s.bitmapBlocks
    rw [h]
    rfl

theorem test_touch (s : Volume) (b : Nat) : sdfsBitmapTest (sdfsBitmapTouch s) b = sdfsBitmapTest s b := by
  unfold sdfsBitmapTouch
  dsimp only
  split
  · rw [test_save]
    rfl
  · rfl

theorem test_false_of_ge {s : Volume} {b : Nat} (h : s.bitmapBytes * 8 ≤ b) : sdfsBitmapTest s b = false := by
  unfold sdfsBitmapTest
  split
  · rfl
  · exact if_pos (by omega)

/-- A call finds the volume full, or takes a free block, which is marked afterwards if
the bitmap has a bit for it. -/
theorem allocRaw_cases (s : Volume) :
    ((∀ b < s.totalBlocks, sdfsBitmapTest s b = true) ∧ sdfsAllocBlockRaw s = (0, s)) ∨
    ∃ b < s.totalBlocks, sdfsBitmapTest s b = false ∧ (sdfsAllocBlockRaw s).1 = b ∧
      (∀ c, sdfsBitmapTest (sdfsAllocBlockRaw s).2 c = true → sdfsBitmapTest s c = true ∨ c = b) ∧
      (s.bitmapCache.isSome → b < s.bitmapBytes * 8 → ∀ c, sdfsBitmapTest s c = true ∨ c = b →
        sdfsBitmapTest (sdfsAllocBlockRaw s).2 c = true) := by
  rw [sdfsAllocBlockRaw]
  cases hb : firstFree (sdfsBitmapTest s) s.totalBlocks 0 with
  | none => exact .inl ⟨firstFree_eq_none.mp hb, rfl⟩
  | some b =>
    obtain ⟨hlt, hfree, -⟩ := firstFree_eq_some.mp hb
    have hset : s.bitmapCache.isSome → b < s.bitmapBytes * 8 → ∀ c,
        sdfsBitmapTest (sdfsBitmapSet s b true) c = true ↔ sdfsBitmapTest s c = true ∨ c = b := by
      intro hc hbit c
      rw [test_set s true hc hbit]
      split
      · exact iff_of_true rfl (.inr ‹_›)
      · exact (or_iff_left ‹_›).symm
    refine .inr ⟨b, hlt, hfree, rfl, fun c hc => ?_, fun hcache hbit c hc => ?_⟩
    · rw [test_touch] at hc
      by_cases hwrite : s.bitmapCache.isSome ∧ b < s.bitmapBytes * 8
      · exact (hset hwrite.1 hwrite.2 c).mp hc
      · -- nothing was marked
        left
        cases hcache : s.bitmapCache with
        | none => simpa only [sdfsBitmapSet, hcache] using hc
        | some cache =>
          have hbyte : b / 8 ≥ s.bitmapBytes := by
            rw [hcache] at hwrite
            have hge : ¬ b < s.bitmapBytes * 8 := fun h => hwrite ⟨rfl, h⟩
            omega
          simpa only [sdfsBitmapSet, hcache, if_pos hbyte] using hc
    · rw [test_touch]
      exact (hset hcache hbit c).mpr hc

/-! ## Runs of calls -/

/-- What any run keeps. -/
structure Allocating (s t : Volume) (l : List Nat) : Prop where
  geo : t.geo = s.geo
  taken : ∀ c, sdfsBitmapTest t c = true → sdfsBitmapTest s c = true ∨ c ∈ l

theorem allocRun_allocating (s : Volume) (n : Nat) : Allocating s (allocRun s n).2 (allocRun s n).1 := by
  induction n with
  | zero => exact ⟨rfl, fun _ => .inl⟩
  | succ n ih =>
    refine ⟨(geo_allocRaw _).trans ih.geo, fun c hc => ?_⟩
    rcases allocRaw_cases (allocRun s n).2 with ⟨-, hfull⟩ | ⟨b, -, -, hb, hmark, -⟩
    · rw [allocRun, hfull] at hc
      exact (ih.taken c hc).imp_right (mem_append_left _)
    · rcases hmark c hc with h | rfl
      · exact (ih.taken c h).imp_right (mem_append_left _)
      · exact .inr (mem_append_right _ (mem_singleton.mpr hb.symm))

theorem length_allocRun (s : Volume) (n : Nat) : (allocRun s n).1.length = n := by
  induction n with
  | zero => rfl
  | succ n ih => rw [allocRun, length_append, ih, length_singleton]

/-- Fresh answers come to an end. -/
theorem AllocsFresh.ends {s : Volume} (h : AllocsFresh s) :
    ∃ n, 0 ∉ (allocRun s n).1 ∧ (sdfsAllocBlockRaw (allocRun s n).2).1 = 0 := by
  by_contra hno
  have hall : ∀ n, 0 ∉ (allocRun s n).1 := by
    intro n
    induction n with
    | zero => exact not_mem_nil
    | succ n ih =>
      intro hm
      rcases mem_append.mp hm with hm | hm
      · exact ih hm
      · exact hno ⟨n, ih, (mem_singleton.mp hm).symm⟩
  -- more distinct blocks than the volume has
  obtain ⟨hnd, hlt, -⟩ := h (s.totalBlocks + 1) (hall _)
  have hle := (subperm_of_subset hnd fun b hb => mem_range.mpr (hlt b hb).1).length_le
  rw [length_allocRun, length_range] at hle
  omega

theorem AllocsFresh.usable {s : Volume} (h : AllocsFresh s) : BitmapUsable s := by
  obtain ⟨n, hn, hzero⟩ := h.ends
  obtain ⟨-, hfresh, hfull⟩ := h n hn
  have hrun := allocRun_allocating s n
  refine ⟨?_, fun b hb hres => ?_⟩
  · -- a block without a bit would never be taken
    by_contra hlt
    have hlast := hfull hzero (s.totalBlocks - 1) (by omega)
    rw [test_false_of_ge] at hlast
    · cases hlast
    · rw [show (allocRun s n).2.bitmapBytes = s.bitmapBytes from congrArg Geometry.bitmapBytes hrun.geo]
      omega
  · rcases hrun.taken b (hfull hzero b hb) with ht | hm
    · exact ht
    · exact absurd hres (hfresh b hm).2

/-- On a usable bitmap a run marks what it hands out. -/
theorem BitmapUsable.run {s : Volume} (h : BitmapUsable s) {n : Nat} (hn : 0 ∉ (allocRun s n).1) :
    (allocRun s n).1.Nodup ∧ (∀ b ∈ (allocRun s n).1, b < s.totalBlocks ∧ sdfsBitmapTest s b = false) ∧
      ∀ c, sdfsBitmapTest s c = true ∨ c ∈ (allocRun s n).1 → sdfsBitmapTest (allocRun s n).2 c = true := by
  induction n with
  | zero => exact ⟨nodup_nil, nofun, fun c hc => hc.resolve_right not_mem_nil⟩
  | succ n ih =>
    rw [allocRun, mem_append, not_or, mem_singleton] at hn
    obtain ⟨hnd, hfresh, htest⟩ := ih hn.1
    have hgeo := (allocRun_allocating s n).geo
    have htotal := total_of_geo hgeo
    have hbytes : (allocRun s n).2.bitmapBytes = s.bitmapBytes := congrArg Geometry.bitmapBytes hgeo
    rcases allocRaw_cases (allocRun s n).2 with ⟨-, hfull⟩ | ⟨b, hlt, hfree, hb, -, hmark⟩
    · rw [hfull] at hn
      exact absurd rfl hn.2
    rw [htotal] at hlt
    have hcovers := h.covers
    have hcache : (allocRun s n).2.bitmapCache.isSome := by
      by_contra hnone
      have hzero := htest 0 (.inl (h.marked 0 (Nat.zero_lt_of_lt hlt) (.inl rfl)))
      rw [sdfsBitmapTest, Option.not_isSome_iff_eq_none.mp hnone] at hzero
      cases hzero
    have hunused : ¬ (sdfsBitmapTest s b = true ∨ b ∈ (allocRun s n).1) := by
      intro hused
      rw [htest b hused] at hfree
      cases hfree
    rw [not_or, Bool.not_eq_true] at hunused
    rw [allocRun]
    dsimp only
    rw [hb]
    refine ⟨nodup_append.mpr ⟨hnd, nodup_singleton b, ?_⟩, fun c hc => ?_, fun c hc => ?_⟩
    · intro a ha c hc hac
      rw [mem_singleton.mp hc] at hac
      exact hunused.2 (hac ▸ ha)
    · rcases mem_append.mp hc with hc | hc
      · exact hfresh c hc
      · rw [mem_singleton.mp hc]
        exact ⟨hlt, hunused.1⟩
    · refine hmark hcache (by omega) c ?_
      rw [mem_append, mem_singleton, ← or_assoc] at hc
      exact hc.imp_left (htest c)

theorem BitmapUsable.allocsFresh {s : Volume} (h : BitmapUsable s) : AllocsFresh s := by
  intro n hn
  obtain ⟨hnd, hfresh, htest⟩ := h.run hn
  have htotal := total_of_geo (allocRun_allocating s n).geo
  refine ⟨hnd, fun b hb => ⟨(hfresh b hb).1, fun hres => ?_⟩, fun hzero => ?_⟩
  · have hused := h.marked b (hfresh b hb).1 hres
    rw [(hfresh b hb).2] at hused
    cases hused
  · rcases allocRaw_cases (allocRun s n).2 with ⟨hfull, -⟩ | ⟨b, hlt, hfree, hb, -⟩
    · exact fun b hb => hfull b (htotal ▸ hb)
    · -- block 0 is in use from the start
      obtain rfl : b = 0 := hb.symm.trans hzero
      rw [htest 0 (.inl (h.marked 0 (htotal ▸ hlt) (.inl rfl)))] at hfree
      cases hfree

/-- After a mount the allocator hands out fresh blocks until the volume is full exactly
when the loaded bitmap covers the volume and has the file system's own blocks marked:
where the mount succeeds, when the disk has such a bitmap. -/
theorem allocs_fresh_iff_usable (s : Volume) : (AllocsFresh (sdfsMount s).2 ↔ BitmapUsable (sdfsMount s).2) ∧
    ((sdfsMount s).1.isSome = true → (AllocsFresh (sdfsMount s).2 ↔ DiskUsable s.disk)) := by
  have hiff : AllocsFresh (sdfsMount s).2 ↔ BitmapUsable (sdfsMount s).2 :=
    ⟨AllocsFresh.usable, BitmapUsable.allocsFresh⟩
  exact ⟨hiff, fun hmounted => hiff.trans (mount_usable hmounted)⟩

/-- A disk of 21 blocks after `sdfs_format`. -/
def formattedDisk : Disk := (sdfsFormat (Volume.boot fun _ => Buf.zero) 168).disk

theorem allocs_fresh_formatted : (sdfsMount (Volume.boot formattedDisk)).1.isSome = true ∧ DiskUsable formattedDisk ∧
    AllocsFresh (sdfsMount (Volume.boot formattedDisk)).2 := by
  have hmounted : (sdfsMount (Volume.boot formattedDisk)).1.isSome = true := by decide +kernel
  have husable : DiskUsable formattedDisk := by
    refine ⟨fun _ => ⟨by decide +kernel, by decide +kernel⟩, fun hv1 => absurd hv1 (by decide +kernel)⟩
  exact ⟨hmounted, husable, ((allocs_fresh_iff_usable _).2 hmounted).mpr husable⟩

/-! ## A superblock that is accepted -/

/-- A volume of 100 blocks with a journal and an empty root at block 18, of which only
block 0 is marked. -/
def unmarkedDisk : Disk := fun l =>
  if l = lba 0 then superblockOf { Volume.boot (fun _ => Buf.zero) with
    totalBlocks := 100, bitmapBlock := 1, bitmapBlocks := 1, journalStart := 2, journalBlocks := 16, rootBlock := 18 }
  else if l = lba 1 then Buf.zero.set 0 1
  else Buf.zero

/-- It is mounted, and the first block handed out is the bitmap. -/
theorem bitmap_handed_out : (sdfsMount (Volume.boot unmarkedDisk)).1.isSome = true ∧
    (sdfsAllocBlockRaw (sdfsMount (Volume.boot unmarkedDisk)).2).1 = 1 ∧
    Reserved (sdfsMount (Volume.boot unmarkedDisk)).2 1 ∧ ¬ AllocsFresh (sdfsMount (Volume.boot unmarkedDisk)).2 := by
  have hfirst : (sdfsAllocBlockRaw (sdfsMount (Volume.boot unmarkedDisk)).2).1 = 1 := by decide +kernel
  have hblocks : (sdfsMount (Volume.boot unmarkedDisk)).2.bitmapBlocks = 1 ∧
      (sdfsMount (Volume.boot unmarkedDisk)).2.bitmapBlock = 1 := by decide +kernel
  have hres : Reserved (sdfsMount (Volume.boot unmarkedDisk)).2 1 :=
    .inr (.inl ⟨0, Nat.lt_of_lt_of_eq (by decide) hblocks.1.symm, congrArg (fun b => (b + 0) % 2 ^ 32) hblocks.2.symm⟩)
  refine ⟨by decide +kernel, hfirst, hres, fun h => ?_⟩
  have hrun : (allocRun (sdfsMount (Volume.boot unmarkedDisk)).2 1).1 = [1] := by
    rw [← hfirst]
    rfl
  obtain ⟨-, hfresh, -⟩ := h 1 (by rw [hrun]; decide)
  exact (hfresh 1 (by rw [hrun]; exact mem_singleton_self 1)).2 hres

end LiwusOS.Fs
