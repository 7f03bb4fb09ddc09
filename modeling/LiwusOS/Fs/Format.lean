import LiwusOS.Fs.NodeOps
import LiwusOS.Fs.Mount

/-! # The freshly formatted volume

`sdfs_format` followed by `sdfs_mount` leaves a consistent volume whose tree is
an empty root directory, on any disk. -/

namespace LiwusOS.Fs
open LiwusOS.Lib Function

/-! ## The saved bitmap -/

/-- After `n` rounds the first `n` bitmap blocks hold the cache. -/
theorem read_saveBitmapBlocks (cache : Buf) (s : Volume) {n k : Nat} (hk : k < n) (hn : s.bitmapBlock + n < 2 ^ 29) :
    sdfsReadBlock (saveBitmapBlocks cache s n) (s.bitmapBlock + k) =
      fun i => cache (k * sdfsBlockSize + i) := by
  induction n with
  | zero => omega
  | succ n ih =>
    rw [saveBitmapBlocks]
    by_cases hkn : k = n
    · subst hkn
      rw [read_write_self]
    · rw [read_write_ne _ _ (by omega) (by omega) (by omega)]
      exact ih (by omega) (by omega)

theorem read_saveBitmapBlocks_outside (cache : Buf) (s : Volume) {n b : Nat}
    (hn : s.bitmapBlock + n < 2 ^ 29) (hb : b < 2 ^ 29) (ho : b < s.bitmapBlock ∨ s.bitmapBlock + n ≤ b) :
    sdfsReadBlock (saveBitmapBlocks cache s n) b = sdfsReadBlock s b := by
  induction n with
  | zero => rfl
  | succ n ih =>
    rw [saveBitmapBlocks, read_write_ne _ _ (by omega) hb (by omega)]
    exact ih (by omega) (by omega)

/-- A loaded bitmap reads the blocks the cache was saved to. -/
theorem bitmapOfDisk_eq {disk : Disk} {cache : Buf} {start n : Nat}
    (h : ∀ k < n, disk (lba (start + k)) = fun i => cache (k * sdfsBlockSize + i)) {i : Nat}
    (hi : i < n * sdfsBlockSize) : bitmapOfDisk disk start i = cache i := by
  have hk : i / sdfsBlockSize < n := by
    unfold sdfsBlockSize at hi ⊢
    omega
  rw [bitmapOfDisk, h _ hk]
  exact congrArg cache (Nat.div_add_mod' i sdfsBlockSize)

/-- The bitmap loop of `sdfs_format` on a cleared bitmap. -/
theorem markReserved_eq {s : Volume} (hc : s.bitmapCache = some Buf.zero) {n : Nat}
    (hn : n ≤ s.bitmapBytes * 8) : ∃ cache, markReserved s n = { s with bitmapCache := some cache } ∧
      ∀ b, sdfsBitmapTest { s with bitmapCache := some cache } b = decide (b < n) := by
  induction n with
  | zero =>
    refine ⟨Buf.zero, by rw [markReserved, ← hc], fun b => ?_⟩
    have hz : (Buf.zero (b / 8) &&& bitMask b != 0) = false := by
      rw [and_bitMask]
      exact BitVec.getLsbD_zero
    simp only [sdfsBitmapTest, hz, ite_self]
    exact (decide_eq_false (Nat.not_lt_zero b)).symm
  | succ n ih =>
    obtain ⟨cache, heq, htest⟩ := ih (by omega)
    have hbyte : ¬ n / 8 ≥ s.bitmapBytes := by omega
    have hset : sdfsBitmapSet { s with bitmapCache := some cache } n true =
        { s with bitmapCache := some (cache.set (n / 8) (cache (n / 8) ||| bitMask n)) } := by
      simp only [sdfsBitmapSet, if_neg hbyte, if_true]
    refine ⟨_, by rw [markReserved, heq, hset], fun b => ?_⟩
    rw [← hset, test_set _ true rfl (by show n < s.bitmapBytes * 8; omega), htest]
    by_cases hb : b = n
    · simp [hb]
    · rw [if_neg hb]
      exact decide_eq_decide.mpr (by omega)

/-! ## Geometry -/

theorem formatBlocks_bounds (disk : Disk) (identify : Nat) :
    10 ≤ formatBlocks disk identify ∧ formatBlocks disk identify ≤ sdfsMaxBlocks := by
  have hclamp : ∀ t, 10 ≤ (if (if t < 10 then 25600 else t) > sdfsMaxBlocks then sdfsMaxBlocks
      else if t < 10 then 25600 else t) ∧ (if (if t < 10 then 25600 else t) > sdfsMaxBlocks
      then sdfsMaxBlocks else if t < 10 then 25600 else t) ≤ sdfsMaxBlocks := by
    intro t
    unfold sdfsMaxBlocks
    by_cases ht : t < 10
    · rw [if_pos ht]
      split <;> omega
    · rw [if_neg ht]
      split <;> omega
  exact hclamp _

/-- The layout `sdfs_format` chooses. -/
structure FormatLayout (s : Volume) : Prop where
  bitmapBlock : s.bitmapBlock = 1
  bitmapBlocks : 1 ≤ s.bitmapBlocks
  bitmapSmall : s.bitmapBlocks ≤ 128
  journalStart : s.journalStart = 1 + s.bitmapBlocks
  journalBlocks : s.journalBlocks = 16
  rootBlock : s.rootBlock = 1 + s.bitmapBlocks + 16
  root : s.rootBlock < s.totalBlocks
  total : s.totalBlocks ≤ sdfsMaxBlocks
  ten : 10 ≤ s.totalBlocks
  bits : s.totalBlocks ≤ s.bitmapBlocks * sdfsBlockSize * 8
  bytes : s.bitmapBytes = s.bitmapBlocks * sdfsBlockSize

theorem formatGeometry_layout (s : Volume) {total : Nat} (h1 : 10 ≤ total) (h2 : total ≤ sdfsMaxBlocks) :
    FormatLayout (formatGeometry s total) := by
  set g := formatGeometry s total
  have hb : g.bitmapBlocks =
      if ((total + 7) / 8 + 4096 - 1) / 4096 < 1 then 1 else ((total + 7) / 8 + 4096 - 1) / 4096 := rfl
  obtain ⟨hb1, hb2, hb3⟩ : 1 ≤ g.bitmapBlocks ∧ total ≤ g.bitmapBlocks * sdfsBlockSize * 8 ∧
      g.bitmapBlocks ≤ 128 := by
    rw [hb]
    unfold sdfsMaxBlocks at h2
    unfold sdfsBlockSize
    split <;> omega
  have hroot : g.rootBlock = 1 + g.bitmapBlocks + 16 := rfl
  have htotal : g.totalBlocks = if g.rootBlock + 1 ≥ total then g.rootBlock + 3 else total := rfl
  rw [hroot] at htotal
  have hbounds : ∀ b, 1 ≤ b → total ≤ b * sdfsBlockSize * 8 → b ≤ 128 → ∀ n,
      n = (if 1 + b + 16 + 1 ≥ total then 1 + b + 16 + 3 else total) →
      1 + b + 16 < n ∧ n ≤ sdfsMaxBlocks ∧ 10 ≤ n ∧ n ≤ b * sdfsBlockSize * 8 := by
    intro b hb1 hb2 hb3 n hn
    unfold sdfsBlockSize at hb2 ⊢
    unfold sdfsMaxBlocks at h2 ⊢
    split at hn <;> omega
  obtain ⟨h3, h4, h5, h6⟩ := hbounds _ hb1 hb2 hb3 _ htotal
  exact ⟨rfl, hb1, hb3, rfl, rfl, hroot, hroot ▸ h3, h4, h5, h6, rfl⟩

/-! ## The superblock -/

theorem superblockOf_magic (s : Volume) : (superblockOf s).bytes 0 8 = sdfsMagicV2 := by
  unfold superblockOf
  dsimp only
  repeat rw [Buf.bytes_putU32_ne _ _ (by decide)]
  exact Buf.bytes_putBytes _ 0 sdfsMagicV2

theorem superblockOf_fields (s : Volume) :
    (superblockOf s).u32 16 = UInt32.ofNat s.totalBlocks ∧
    (superblockOf s).u32 20 = UInt32.ofNat s.bitmapBlock ∧
    (superblockOf s).u32 24 = UInt32.ofNat s.bitmapBlocks ∧
    (superblockOf s).u32 28 = UInt32.ofNat s.journalStart ∧
    (superblockOf s).u32 32 = UInt32.ofNat s.journalBlocks ∧
    (superblockOf s).u32 36 = UInt32.ofNat s.rootBlock := by
  unfold superblockOf
  dsimp only
  refine ⟨?_, ?_, ?_, ?_, ?_, ?_⟩ <;>
    repeat first
      | rw [Buf.u32_putU32]
      | rw [Buf.u32_putU32_ne _ _ (by decide)]

/-! ## Format -/

/-- What `sdfs_format` leaves: the superblock tells the layout, `cache` is the
saved bitmap with the reserved blocks marked, and the root block is zero. -/
structure Formatted (s : Volume) (cache : Buf) : Prop where
  layout : FormatLayout s
  super : ∃ g : Volume, sdfsReadBlock s 0 = superblockOf g ∧ g.totalBlocks = s.totalBlocks ∧
    g.bitmapBlock = s.bitmapBlock ∧ g.bitmapBlocks = s.bitmapBlocks ∧ g.journalStart = s.journalStart ∧
    g.journalBlocks = s.journalBlocks ∧ g.rootBlock = s.rootBlock
  bitmap : ∀ k < s.bitmapBlocks, sdfsReadBlock s (s.bitmapBlock + k) = fun i => cache (k * sdfsBlockSize + i)
  bits : ∀ b, b / 8 < s.bitmapBytes → (cache (b / 8) &&& bitMask b != 0) = decide (b < s.rootBlock + 1)
  root : sdfsReadBlock s s.rootBlock = Buf.zero
  header : s.jHeader = none

theorem FormatLayout.small {s : Volume} (h : FormatLayout s) : s.rootBlock < 2 ^ 29 := by
  have h1 := h.root
  have h2 := h.total
  unfold sdfsMaxBlocks at h2
  omega

theorem sdfsFormat_formatted (disk : Disk) (identify : Nat) :
    ∃ cache, Formatted (sdfsFormat (Volume.boot disk) identify) cache := by
  obtain ⟨h1, h2⟩ := formatBlocks_bounds disk identify
  have hl := formatGeometry_layout (Volume.boot disk) h1 h2
  rw [sdfsFormat]
  dsimp only
  have hheader : (formatGeometry (Volume.boot disk) (formatBlocks disk identify)).jHeader = none := rfl
  have hdisk : (Volume.boot disk).disk = disk := rfl
  rw [hdisk]
  generalize formatGeometry (Volume.boot disk) (formatBlocks disk identify) = g at hl hheader
  set a2 : Volume := { sdfsWriteBlock g 0 (superblockOf g) with bitmapCache := some Buf.zero }
  have hroot := hl.small
  have hend := hl.rootBlock
  have hstart := hl.bitmapBlock
  have hbits := hl.bits
  have hbytes := hl.bytes
  have htot := hl.root
  obtain ⟨cache, hmark, htest⟩ := markReserved_eq (s := a2) rfl
    (show g.rootBlock + 1 ≤ g.bitmapBytes * 8 by rw [hbytes]; omega)
  have hsave : sdfsSaveBitmap (markReserved a2 (g.rootBlock + 1)) =
      { saveBitmapBlocks cache { a2 with bitmapCache := some cache } g.bitmapBlocks with bitmapDirtyOps := 0 } := by
    rw [hmark]
    rfl
  refine ⟨cache, ?_⟩
  show Formatted { sdfsZeroBlock (sdfsSaveBitmap (markReserved a2 (g.rootBlock + 1)))
    (sdfsSaveBitmap (markReserved a2 (g.rootBlock + 1))).rootBlock with bitmapCache := none } cache
  obtain ⟨disk', past', hframe⟩ := saveBitmapBlocks_frame cache { a2 with bitmapCache := some cache } g.bitmapBlocks
  rw [hsave, hframe]
  -- reads of the volume before the root block is cleared
  have hsuper : disk' (lba 0) = superblockOf g := by
    have h := read_saveBitmapBlocks_outside cache { a2 with bitmapCache := some cache } (n := g.bitmapBlocks)
      (b := 0) (by show g.bitmapBlock + _ < _; omega) (by omega) (by show 0 < g.bitmapBlock ∨ _; omega)
    rw [hframe] at h
    exact h.trans (read_write_self g 0 (superblockOf g))
  have hbitmap : ∀ k < g.bitmapBlocks, disk' (lba (g.bitmapBlock + k)) =
      fun i => cache (k * sdfsBlockSize + i) := by
    intro k hk
    have h := read_saveBitmapBlocks cache { a2 with bitmapCache := some cache } hk
      (by show g.bitmapBlock + _ < _; omega)
    rw [hframe] at h
    exact h
  -- clearing the root block leaves the blocks below it
  have hbelow : ∀ b < g.rootBlock, update disk' (lba g.rootBlock) Buf.zero (lba b) = disk' (lba b) :=
    fun b hb => update_of_ne (fun heq => by
      have := lba_inj (by omega) (by omega) heq
      omega) _ _
  refine ⟨⟨hstart, hl.bitmapBlocks, hl.bitmapSmall, hl.journalStart, hl.journalBlocks, hl.rootBlock, hl.root,
    hl.total, hl.ten,
    hl.bits, hl.bytes⟩, ⟨g, ?_, rfl, rfl, rfl, rfl, rfl, rfl⟩, fun k hk => ?_, fun b hb => ?_, ?_, hheader⟩
  · exact (hbelow 0 (by omega)).trans hsuper
  · have hk' : k < g.bitmapBlocks := hk
    exact (hbelow (g.bitmapBlock + k) (by omega)).trans (hbitmap k hk')
  · have h := htest b
    have hb' : ¬ b / 8 ≥ a2.bitmapBytes := Nat.not_le_of_lt hb
    simp only [sdfsBitmapTest, if_neg hb'] at h
    exact h
  · exact update_self _ _ _

/-! ## Mount -/

/-- The tree of an empty volume. -/
def emptyTree (root : Nat) : Tree := fun b => if b = root then some (.dir [(root, [])]) else none

theorem emptyTree_some {root b : Nat} {o : Obj} (h : emptyTree root b = some o) :
    b = root ∧ o = .dir [(root, [])] := by
  unfold emptyTree at h
  split at h
  · rename_i hb
    exact ⟨hb, (Option.some.inj h).symm⟩
  · cases h

theorem emptyTree_consistent {s : Volume} (hl : Layout s) (hroot : sdfsReadBlock s s.rootBlock = Buf.zero) :
    Consistent s (emptyTree s.rootBlock) none := by
  have ho : s.Owns s.rootBlock := ⟨le_rfl, hl.valid.root⟩
  have hdata : s.store.data s.rootBlock = Buf.zero := ho.read.symm.trans hroot
  have hpos := hl.pos
  have hat : DirAt s.store s.rootBlock [(s.rootBlock, [])] := by
    refine .cons (by omega) (hdata ▸ dirBlock_zero) ⟨?_, nofun, nofun⟩ fun hne => absurd rfl hne
    show s.store.next s.rootBlock = 0
    rw [Store.next, hdata]
    rfl
  have hnorec : ∀ l, ¬ Tree.Record (emptyTree s.rootBlock) l := by
    rintro l ⟨b, dir, hb, hm⟩
    obtain ⟨-, heq⟩ := emptyTree_some hb
    cases heq
    cases hm
  refine ⟨hl, ⟨fun {b o} hb => ?_, fun {b o} hb c hc => ?_, fun {b b' o o'} hb hb' => ?_⟩,
    ⟨⟨_, if_pos rfl⟩, fun hr => absurd hr (hnorec _), fun hr => absurd hr (hnorec _), fun hr => absurd hr (hnorec _)⟩⟩
  · obtain ⟨rfl, rfl⟩ := emptyTree_some hb
    exact ⟨hat, by simp⟩
  · obtain ⟨rfl, rfl⟩ := emptyTree_some hb
    cases List.mem_singleton.mp hc
    exact ⟨ho, hl.reserved _ le_rfl⟩
  · obtain ⟨rfl, -⟩ := emptyTree_some hb
    obtain ⟨rfl, -⟩ := emptyTree_some hb'
    exact fun _ _ => rfl

theorem mountGeometry_super {s g : Volume} (hl : FormatLayout s) (htot : g.totalBlocks = s.totalBlocks)
    (hb : g.bitmapBlock = s.bitmapBlock) (hbs : g.bitmapBlocks = s.bitmapBlocks)
    (hj : g.journalStart = s.journalStart) (hjs : g.journalBlocks = s.journalBlocks)
    (hr : g.rootBlock = s.rootBlock) : mountGeometry s (superblockOf g) = s := by
  have h1 := hl.root
  have h2 := hl.total
  have h3 := hl.rootBlock
  have h4 := hl.bitmapBlock
  have h5 := hl.journalStart
  have h6 := hl.journalBlocks
  unfold sdfsMaxBlocks at h2
  have hval : ∀ n, n < 2 ^ 32 → (UInt32.ofNat n).toNat = n := fun n hn => by
    rw [UInt32.toNat_ofNat', Nat.mod_eq_of_lt hn]
  obtain ⟨f1, f2, f3, f4, f5, f6⟩ := superblockOf_fields g
  rw [mountGeometry, f1, f2, f3, f4, f5, f6, htot, hb, hbs, hj, hjs, hr, hval _ (by omega), hval _ (by omega),
    hval _ (by omega), hval _ (by omega), hval _ (by omega), hval _ (by omega)]

/-- `sdfs_mount` on a formatted volume. -/
theorem mount_formatted {s : Volume} {cache : Buf} (h : Formatted s cache) :
    Consistent (sdfsMount s).2 (emptyTree s.rootBlock) none ∧ (sdfsMount s).2.rootBlock = s.rootBlock ∧
      ∀ b, sdfsBitmapTest (sdfsMount s).2 b = decide (b < s.rootBlock + 1) := by
  have hl := h.layout
  obtain ⟨g, hsb, htot, hb, hbs, hj, hjs, hr⟩ := h.super
  have h1 := hl.root
  have h2 := hl.total
  have h3 := hl.rootBlock
  have h4 := hl.bitmapBlock
  have h5 := hl.journalStart
  have h6 := hl.journalBlocks
  have h7 := hl.ten
  have h8 := hl.bitmapBlocks
  have hgeo := mountGeometry_super hl htot hb hbs hj hjs hr
  have hchecks : ¬ (s.totalBlocks < 10 ∨ s.totalBlocks > sdfsMaxBlocks ∨ s.bitmapBlocks = 0 ∨
      s.rootBlock ≥ s.totalBlocks ∨ (s.bitmapBlock + s.bitmapBlocks) % 2 ^ 32 > s.totalBlocks) := by
    unfold sdfsMaxBlocks at h2 ⊢
    omega
  have hmount : sdfsMount s = mountTail (sdfsWriteBlock s 0 (remountedSuperblock (superblockOf g))) := by
    rw [sdfsMount]
    simp only [hsb, superblockOf_magic, hgeo, if_pos, if_neg hchecks]
  rw [hmount]
  generalize remountedSuperblock (superblockOf g) = sb
  -- reads behind the superblock are those of the formatted volume
  have hread : ∀ b, 0 < b → b < 2 ^ 29 → (sdfsWriteBlock s 0 sb).disk (lba b) = sdfsReadBlock s b :=
    fun b h0 hb => read_write_ne s sb (by omega) hb (by omega)
  set m := sdfsWriteBlock s 0 sb
  set j := sdfsJournalInit (sdfsLoadBitmap m) s.journalStart s.journalBlocks
  have htail : mountTail m = (some (rootNode j), { j with mounted := true }) := by
    have hcond : s.journalStart > 0 ∧ s.journalBlocks ≥ 2 := by omega
    have hnone : j.jHeader = none := h.header
    have hreplay : (sdfsJournalReplay j).2 = j := by
      rw [sdfsJournalReplay, hnone]
      rfl
    rw [mountTail, if_pos (show (sdfsLoadBitmap m).journalStart > 0 ∧ (sdfsLoadBitmap m).journalBlocks ≥ 2 from hcond)]
    exact congrArg (fun x => (some (rootNode x), { x with mounted := true })) hreplay
  rw [htail]
  dsimp only
  have hbytes : s.bitmapBlocks * sdfsBlockSize % 2 ^ 32 = s.bitmapBlocks * sdfsBlockSize := by
    have := hl.bitmapSmall
    unfold sdfsBlockSize
    omega
  set f : Volume := { j with mounted := true }
  have htest : ∀ b, sdfsBitmapTest f b = decide (b < s.rootBlock + 1) := by
    intro b
    have hbits := hl.bits
    show (if b / 8 ≥ s.bitmapBlocks * sdfsBlockSize % 2 ^ 32 then false
      else bitmapOfDisk m.disk s.bitmapBlock (b / 8) &&& bitMask b != 0) = _
    rw [hbytes, ← hl.bytes]
    by_cases hbyte : b / 8 < s.bitmapBytes
    · have hcache : bitmapOfDisk m.disk s.bitmapBlock (b / 8) = cache (b / 8) :=
        bitmapOfDisk_eq (fun k hk => (hread _ (by omega) (by unfold sdfsMaxBlocks at h2; omega)).trans
          (h.bitmap k hk)) (hl.bytes ▸ hbyte)
      rw [if_neg (not_le.mpr hbyte), hcache, h.bits b hbyte]
    · rw [if_pos (Nat.le_of_not_lt hbyte)]
      refine (decide_eq_false ?_).symm
      rw [hl.bytes] at hbyte
      omega
  have hlayout : Layout f := by
    refine ⟨⟨rfl, ?_, ?_, fun hh => ?_, h1, h2, ?_, ?_⟩, fun b hb => ?_⟩
    · show 0 < s.bitmapBlock
      omega
    · show s.bitmapBlock + s.bitmapBlocks ≤ s.rootBlock
      omega
    · have : f.jHeader = none := h.header
      have hh' : f.jHeader.isSome = true := hh
      rw [this] at hh'
      cases hh'
    · exact hbytes
    · show s.totalBlocks ≤ s.bitmapBlocks * sdfsBlockSize % 2 ^ 32 * 8
      rw [hbytes]
      exact hl.bits
    · exact (htest b).trans (decide_eq_true (Nat.lt_succ_of_le hb))
  refine ⟨emptyTree_consistent hlayout ?_, rfl, htest⟩
  exact (hread s.rootBlock (by omega) hl.small).trans h.root

/-- `sdfs_format` and `sdfs_mount` after boot. -/
def freshVolume (disk : Disk) (identify : Nat) : Volume :=
  (sdfsMount (sdfsFormat (Volume.boot disk) identify)).2

theorem freshVolume_consistent (disk : Disk) (identify : Nat) :
    Consistent (freshVolume disk identify) (emptyTree (freshVolume disk identify).rootBlock) none := by
  obtain ⟨cache, h⟩ := sdfsFormat_formatted disk identify
  obtain ⟨hc, hroot, -⟩ := mount_formatted h
  rw [freshVolume, hroot]
  exact hc

/-- The blocks up to the root block are the only ones in use. -/
theorem freshVolume_used (disk : Disk) (identify b : Nat) : (freshVolume disk identify).store.used b =
    decide (b < (freshVolume disk identify).rootBlock + 1) := by
  obtain ⟨cache, h⟩ := sdfsFormat_formatted disk identify
  obtain ⟨-, hroot, htest⟩ := mount_formatted h
  rw [freshVolume, hroot]
  exact htest b

end LiwusOS.Fs
