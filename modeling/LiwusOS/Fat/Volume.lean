import LiwusOS.Fat.FileOps

/-! # The volume over whole runs

`VolumeOk`: the two FATs are identical, the chains of the root and of the live
root entries are disjoint and end in a mark, and an entry of the FAT is in use
exactly when its cluster lies on one of them. Formatting gives such a volume,
and every sequence of calls leads from one to another. -/

namespace LiwusOS.Fat
open LiwusOS.Lib LiwusOS.Fs List Function
open Relation (ReflTransGen)

/-! ## What the volume should be -/

/-- An entry of the first FAT, all 32 bits. -/
def fatEntry (g : Statics) (d : Sectors) (n : Nat) : Nat := ((d (fatSector g n)).u32 (fatOffset g n)).toNat

/-- Following the FAT from `a` meets exactly these clusters, then an end-of-chain mark. -/
def ChainFrom (g : Statics) (d : Sectors) : Nat → List Nat → Prop
  | a, [] => eocMin ≤ a
  | a, b :: l => a = b ∧ InData b ∧ ChainFrom g d (fat32NextCluster g d b) l

/-- The entries in use among the slots of a directory, up to the first slot that was never used. -/
def liveEntries (g : Statics) (d : Sectors) (dir : List Nat) : List Lookup :=
  ((slots (fat32ReadDirectoryCluster g d) dir).takeWhile fun s => s.entry 0 ≠ 0).filter fun s =>
    !direntSkipped s.entry

/-- The chains from `starts` share no cluster, and they are all that is in use. -/
structure ChainsOk (g : Statics) (d : Sectors) (chain : Nat → List Nat) (starts : List Nat) : Prop where
  ends : ∀ a ∈ starts, chain a ≠ [] ∧ ChainFrom g d a (chain a)
  acyclic : ∀ a ∈ starts, (chain a).Nodup
  disjoint : starts.Pairwise fun a b => (chain a).Disjoint (chain b)
  used : ∀ n, 2 ≤ n → n < g.fatSz32 * g.bytsPerSec / 4 → (fatEntry g d n ≠ 0 ↔ ∃ a ∈ starts, n ∈ chain a)

structure VolumeOk (g : Statics) (d : Sectors) : Prop where
  mirrored : ∀ i < g.fatSz32, ∀ j < g.bytsPerSec,
    d (g.fatBeginLba + g.fatSz32 + i) j = d (g.fatBeginLba + i) j
  chains : ∃ chain, ChainsOk g d chain (g.rootDirFirstCluster ::
    (liveEntries g d (chain g.rootDirFirstCluster)).map Lookup.start)

/-! ## Calls -/

inductive FatOp
  | createFile (path : CStr)
  | writeFile (path : CStr) (buffer : Buf) (size : UInt32)
  | delete (path : CStr)
  | rename (oldPath newPath : CStr)
  | createDir (path : CStr)

def FatOp.exec (fuel : Nat) (g : Statics) (d : Sectors) : FatOp → Option Sectors
  | .createFile path => (fat32CreateFilePath fuel g d path).map Prod.snd
  | .writeFile path buffer size => (fat32WriteFilePath fuel g d path buffer size).map Prod.snd
  | .delete path => (fat32DeletePath fuel g d path).map Prod.snd
  | .rename oldPath newPath => (fat32RenamePath fuel g d oldPath newPath).map Prod.snd
  | .createDir path => (fat32CreateDir fuel g d path).map Prod.snd

def FatStep (g : Statics) (d d' : Sectors) : Prop := ∃ (op : FatOp) (fuel : Nat), op.exec fuel g d = some d'

/-- A disk formatted and mounted, then any calls. -/
def Reached (g : Statics) (d : Sectors) : Prop :=
  ∃ g₀ d₀, fat32Mount g₀ (fat32Format d₀) 0 = (true, g) ∧ ReflTransGen (FatStep g) (fat32Format d₀) d

section

variable {f : Bool} {g : Statics} {d d' : Sectors} {c : Nat → List Nat}

/-! ## Format and mount -/

/-- The sectors both FATs lose their old contents in. -/
theorem foldl_clearFats (k : Nat) (d : Sectors) (a : Nat) :
    (List.range' 1 k).foldl (fun d i =>
      writeBlock (writeBlock d (formatReserved + i) Buf.zero) (formatReserved + 200 + i) Buf.zero) d a =
      if 33 ≤ a ∧ a < 33 + k ∨ 233 ≤ a ∧ a < 233 + k then Buf.zero else d a := by
  induction k with
  | zero =>
    rw [if_neg (by omega)]
    rfl
  | succ k ih =>
    rw [range'_1_concat, foldl_append, foldl_cons, foldl_nil, writeBlock, writeBlock,
      update_apply, update_apply, ih]
    have h1 : formatReserved + 200 + (1 + k) = 233 + k := by
      rw [formatReserved]
      omega
    have h2 : formatReserved + (1 + k) = 33 + k := by
      rw [formatReserved]
      omega
    rw [h1, h2, ← ite_or, ← ite_or]
    refine if_congr ?_ rfl rfl
    omega

/-- The sectors of the new volume the driver reads. -/
theorem format_sector (d : Sectors) {a : Nat} (ha : a = 0 ∨ 32 ≤ a ∧ a < 440) :
    fat32Format d a = if a = 0 then bootBlock else if a = 32 ∨ a = 232 then firstFatBlock else Buf.zero := by
  have hformat : fat32Format d = (List.range 8).foldl (fun d i => writeBlock d (432 + i) Buf.zero)
      ((List.range' 1 199).foldl (fun d i =>
        writeBlock (writeBlock d (formatReserved + i) Buf.zero) (formatReserved + 200 + i) Buf.zero)
      (writeBlock (writeBlock (writeBlock (writeBlock (writeBlock (writeBlock
        ((List.range 33).foldl (fun d i => writeBlock d i Buf.zero) d) 0 bootBlock) 6 bootBlock) 1 fsInfoBlock)
        7 fsInfoBlock) 32 firstFatBlock) 232 firstFatBlock)) := rfl
  rw [hformat, foldl_writeBlock 432 _ (fun _ => Buf.zero) 8 fun i _ => rfl, foldl_clearFats]
  simp only [writeBlock, update_apply]
  rcases ha with rfl | ha
  · rfl
  · have h0 : a ≠ 0 := by omega
    have h1 : a ≠ 1 := by omega
    have h6 : a ≠ 6 := by omega
    have h7 : a ≠ 7 := by omega
    simp only [h0, h1, h6, h7, if_false]
    by_cases hfirst : a = 32 ∨ a = 232
    · rw [if_neg (by omega), if_neg (by omega), if_pos hfirst]
      rcases hfirst with rfl | rfl <;> rfl
    · rw [if_neg hfirst]
      by_cases hroot : 432 ≤ a ∧ a < 432 + 8
      · exact if_pos hroot
      · rw [if_neg hroot, if_pos (by omega)]

theorem format_mount (g : Statics) (d : Sectors) : fat32Mount g (fat32Format d) 0 = (true, std g.readBlocks) := by
  have hboot : fat32Format d 0 = bootBlock := format_sector d (.inl rfl)
  have hfields : ((bootBlock.u16 11).toNat, (bootBlock 13).toNat, (bootBlock.u16 14).toNat) = (512, 8, 32) ∧
      ((bootBlock 16).toNat, (bootBlock.u32 36).toNat, (bootBlock.u32 44).toNat) = (2, 200, 2) ∧
      bootBlock.bytes 82 8 = filSysType := by decide +kernel
  simp only [Prod.mk.injEq] at hfields
  obtain ⟨⟨h11, h13, h14⟩, ⟨h16, h36, h44⟩, htype⟩ := hfields
  have hfat : (0 + 32) % 2 ^ 32 = 32 := by decide
  have hdata : (32 + 2 * 200) % 2 ^ 32 = 432 := by decide
  rw [fat32Mount, hboot, h11, h13, h14, h16, h36, h44, if_neg (not_not.mpr htype), hfat]
  dsimp only
  rw [hdata, std]

/-- The FATs of a new volume: the first two entries are reserved, the root has one cluster. -/
theorem format_raw (d : Sectors) {n : Nat} (hn : n < fatEntries) : rawEntry (fat32Format d) n =
    if n = 0 then 0x0FFFFFF8 else if n = 1 then 0xFFFFFFFF else if n = 2 then eocMark else 0 := by
  have hn' : n < 25600 := hn
  have hfirst : ∀ m : Fin 128, (firstFatBlock.u32 (4 * m)).toNat =
      if m.val = 0 then 0x0FFFFFF8 else if m.val = 1 then 0xFFFFFFFF else if m.val = 2 then eocMark else 0 := by
    decide +kernel
  rw [rawEntry, format_sector d (.inr (by omega)), if_neg (by omega)]
  by_cases hlow : n < 128
  · rw [Nat.div_eq_of_lt hlow, Nat.mod_eq_of_lt hlow, if_pos (.inl rfl)]
    exact hfirst ⟨n, hlow⟩
  · rw [if_neg (by omega), if_neg (by omega), if_neg (by omega), if_neg (by omega)]
    rfl

/-- The chains of a new volume. -/
def formatted : Nat → List Nat := update (fun _ => []) 2 [2]

theorem mem_formatted {a n : Nat} : n ∈ formatted a ↔ a = 2 ∧ n = 2 := by
  rw [formatted, update_apply]
  split
  · simp_all
  · simp_all

theorem format_cells (d : Sectors) : Cells (fat32Format d) formatted := by
  refine ⟨⟨fun {a} ha => ?_, fun hn hn' => ?_, fun hn => ?_, fun {n} h1 h2 => ?_⟩, fun i hi j _ => ?_, ?_, ?_⟩
  · obtain ⟨n, hn⟩ := exists_mem_of_ne_nil _ ha
    obtain ⟨rfl, -⟩ := mem_formatted.mp hn
    exact ⟨rfl, by decide, format_raw d (by decide)⟩
  · rw [(mem_formatted.mp hn).1, (mem_formatted.mp hn').1]
  · rw [(mem_formatted.mp hn).2]
    decide
  · rw [format_raw d h2, if_neg (by omega), if_neg (by omega)]
    simp only [mem_formatted, exists_eq_left]
    split
    · exact iff_of_true (by decide) ‹_›
    · exact iff_of_false (by decide) ‹_›
  · have hfat : ∀ k, k = 32 ∨ k = 232 → fat32Format d (k + i) = if i = 0 then firstFatBlock else Buf.zero := by
      intro k hk
      rw [format_sector d (.inr (by omega)), if_neg (by omega)]
      exact if_congr (by omega) rfl rfl
    rw [hfat 232 (.inr rfl), hfat 32 (.inl rfl)]
  · rw [format_raw d (by decide)]
    decide
  · rw [format_raw d (by decide)]
    decide

theorem format_inv (f : Bool) (d : Sectors) : Inv f (fat32Format d) formatted [] := by
  have hzero : ∀ s ∈ rootSlots f (fat32Format d) formatted, s.entry = Buf.zero := by
    intro s hs
    obtain ⟨hn, -, hentry⟩ := rootSlot_mem hs
    have hread : fat32ReadDirectoryCluster (std f) (fat32Format d) 2 = Buf.zero := by
      funext i
      rw [read_std (by decide) (by decide)]
      split
      · rw [format_sector d (.inr (by omega)), if_neg (by omega), if_neg (by omega)]
        rfl
      · rfl
    rw [hentry, (mem_formatted.mp hn).2, hread, direntAt_zero]
  have hdead : ∀ s ∈ rootSlots f (fat32Format d) formatted, ¬ s.Live := fun s hs hl => hl.1 (by rw [hzero s hs]; rfl)
  refine ⟨format_cells d, by decide, fun s hs => ?_, ?_, fun s hs hl => absurd hl (hdead s hs),
    fun s hs _ _ hl => absurd hl (hdead s hs), fun a ha => ?_⟩
  · rw [hzero s hs]
    exact .inl rfl
  · refine pairwise_of_forall_mem_list fun x _ y hy _ => ?_
    rw [hzero y hy]
    rfl
  · obtain ⟨n, hn⟩ := exists_mem_of_ne_nil _ ha
    exact .inl (mem_formatted.mp hn).1

/-! ## Runs -/

/-- Every call ends, with a volume of the same kind. -/
theorem Inv.exec (h : Inv f d c []) (op : FatOp) : ∃ d' c', Settles (op.exec · (std f) d) d' ∧ Inv f d' c' [] := by
  cases op with
  | createFile path =>
    obtain ⟨ret, d', c', hset, hinv, -⟩ := h.createFile path
    exact ⟨d', c', hset.map _, hinv⟩
  | writeFile path buffer size =>
    obtain ⟨ret, d', c', hset, hinv, -⟩ := h.writeFile path buffer size
    exact ⟨d', c', hset.map _, hinv⟩
  | delete path =>
    obtain ⟨ret, d', c', hset, hinv⟩ := h.deletePath path
    exact ⟨d', c', hset.map _, hinv⟩
  | rename oldPath newPath =>
    obtain ⟨ret, d', c', hset, hinv⟩ := h.renamePath oldPath newPath
    exact ⟨d', c', hset.map _, hinv⟩
  | createDir path =>
    obtain ⟨ret, d', c', hset, hinv⟩ := h.createDir path
    exact ⟨d', c', hset.map _, hinv⟩

theorem Inv.step (h : Inv f d c []) (hstep : FatStep (std f) d d') : ∃ c', Inv f d' c' [] := by
  obtain ⟨op, fuel, hop⟩ := hstep
  obtain ⟨d'', c', hset, hinv⟩ := h.exec op
  cases hset.only fuel d' hop
  exact ⟨c', hinv⟩

theorem Reached.inv (h : Reached g d) : ∃ f c, g = std f ∧ Inv f d c [] := by
  obtain ⟨g₀, d₀, hmount, hrun⟩ := h
  rw [format_mount, Prod.mk.injEq] at hmount
  obtain ⟨-, rfl⟩ := hmount
  refine ⟨g₀.readBlocks, ?_⟩
  induction hrun with
  | refl => exact ⟨formatted, rfl, format_inv _ d₀⟩
  | tail _ hstep ih =>
    obtain ⟨c, -, hinv⟩ := ih
    obtain ⟨c', hinv'⟩ := hinv.step hstep
    exact ⟨c', rfl, hinv'⟩

/-! ## The volume -/

theorem chainFrom_of_chain {a : Nat} {l : List Nat} (h : Chain (fat32NextCluster g d) eocMark a l)
    (hl : ∀ n ∈ l, InData n) : ChainFrom g d a l := by
  induction l generalizing a with
  | nil =>
    cases show a = eocMark from h
    show eocMin ≤ eocMark
    decide
  | cons b l ih =>
    obtain ⟨rfl, -, htail⟩ := h
    exact ⟨rfl, hl a (.head _), ih htail fun n hn => hl n (.tail _ hn)⟩

/-- Nothing in use lies behind the first slot that was never used. -/
theorem Inv.mem_liveEntries (h : Inv f d c []) {s : Lookup} :
    s ∈ liveEntries (std f) d (c 2) ↔ s ∈ rootSlots f d c ∧ s.Live := by
  have hsplit : ∀ {S : List Lookup}, S.Pairwise (fun s s' => s.entry 0 = 0 → s'.entry 0 = 0) →
      (s ∈ S.takeWhile (fun s => s.entry 0 ≠ 0) ↔ s ∈ S ∧ s.entry 0 ≠ 0) := by
    intro S
    induction S with
    | nil => simp
    | cons x S ih =>
      intro hS
      obtain ⟨hx, hS⟩ := pairwise_cons.mp hS
      by_cases h0 : x.entry 0 = 0
      · rw [takeWhile_cons_of_neg (by simpa using h0)]
        refine iff_of_false not_mem_nil ?_
        rintro ⟨hs, hs0⟩
        rcases mem_cons.mp hs with rfl | hs
        · exact hs0 h0
        · exact hs0 (hx s hs h0)
      · rw [takeWhile_cons_of_pos (by simpa using h0), mem_cons, ih hS, mem_cons]
        constructor
        · rintro (rfl | ⟨hs, hs0⟩)
          · exact ⟨.inl rfl, h0⟩
          · exact ⟨.inr hs, hs0⟩
        · rintro ⟨rfl | hs, hs0⟩
          · exact .inl rfl
          · exact .inr ⟨hs, hs0⟩
  rw [liveEntries, mem_filter, ← rootSlots, hsplit h.ok.tail, and_assoc]
  refine and_congr_right fun hs => ?_
  rw [(h.ok.attrs s hs).skipped, Lookup.Live]
  simp

theorem Inv.volumeOk (h : Inv f d c []) : VolumeOk (std f) d := by
  have hlive : ∀ {a}, a ∈ 2 :: (liveEntries (std f) d (c 2)).map Lookup.start ↔ c a ≠ [] := by
    intro a
    simp only [mem_cons, mem_map, h.mem_liveEntries]
    constructor
    · rintro (rfl | ⟨s, ⟨hs, hl⟩, rfl⟩)
      · exact h.root
      · exact (h.ok.owned s hs hl).1
    · intro ha
      rcases h.ok.covers a ha with rfl | ⟨s, hs, hl, rfl⟩ | hE
      · exact .inl rfl
      · exact .inr ⟨s, ⟨hs, hl⟩, rfl⟩
      · cases hE
  refine ⟨h.cells.mirrored, c, fun a ha => ?_, fun a ha => ?_, ?_, fun n h1 h2 => ?_⟩
  · have hne := hlive.mp ha
    exact ⟨hne, chainFrom_of_chain (h.cells.chain hne) fun n hn => (h.cells.inData hn).2.2⟩
  · exact (h.cells.parts.chain (hlive.mp ha)).nodup
  · -- two starts differ, so no cluster is on both chains
    have hne : (2 :: (liveEntries (std f) d (c 2)).map Lookup.start).Pairwise (· ≠ ·) := by
      have hnodup : (liveEntries (std f) d (c 2)).Nodup :=
        ((List.Nodup.of_map _ (slots_nodup h.nodup)).sublist (takeWhile_sublist _)).filter _
      refine pairwise_cons.mpr ⟨fun a ha heq => ?_, pairwise_map.mpr ?_⟩
      · obtain ⟨s, hs, rfl⟩ := mem_map.mp ha
        obtain ⟨hs, hl⟩ := h.mem_liveEntries.mp hs
        exact (h.ok.owned s hs hl).2.1 heq.symm
      · refine hnodup.imp_of_mem fun {s t} hs ht hst heq => hst ?_
        obtain ⟨hs, hls⟩ := h.mem_liveEntries.mp hs
        obtain ⟨ht, hlt⟩ := h.mem_liveEntries.mp ht
        exact h.ok.distinct s hs t ht hls hlt heq
    exact hne.imp fun hab n hn hn' => hab (h.cells.parts.disjoint hn hn')
  · have hn : n < fatEntries := by
      have h200 : n < 200 * 512 / 4 := h2
      show n < 25600
      omega
    have hentry : fatEntry (std f) d n = rawEntry d n := by rw [fatEntry, fatSector_std hn, fatOffset_std hn, rawEntry]
    rw [hentry, h.cells.parts.used h1 hn]
    constructor
    · rintro ⟨a, ha⟩
      exact ⟨a, hlive.mpr (ne_nil_of_mem ha), ha⟩
    · rintro ⟨a, -, ha⟩
      exact ⟨a, ha⟩

/-- Whatever was called on a formatted volume: the volume is consistent, and every further call ends. -/
theorem reached_volumeOk (h : Reached g d) :
    VolumeOk g d ∧ ∀ op : FatOp, ∃ d', Settles (fun fuel => op.exec fuel g d) d' := by
  obtain ⟨f, c, rfl, hinv⟩ := h.inv
  refine ⟨hinv.volumeOk, fun op => ?_⟩
  obtain ⟨d', -, hset, -⟩ := hinv.exec op
  exact ⟨d', hset⟩

/-- "A". -/
def fileA : CStr := ⟨[65], by decide +kernel⟩

/-- "A" created on a formatted disk. -/
theorem createdFile_volumeOk : ∃ d, (fat32CreateFilePath 5 (std false) (fat32Format fun _ => Buf.zero)
    fileA) = some (0, d) ∧ VolumeOk (std false) d := by
  have hret : (fat32CreateFilePath 5 (std false) (fat32Format fun _ => Buf.zero) fileA).map
      Prod.fst = some 0 := by decide +kernel
  obtain ⟨⟨ret, d⟩, hrun, rfl⟩ := Option.map_eq_some_iff.mp hret
  refine ⟨d, hrun, (reached_volumeOk ⟨⟨0, 0, 0, 0, 0, 0, 0, false, false⟩, fun _ => Buf.zero,
    format_mount _ _, .single ⟨.createFile fileA, 5, ?_⟩⟩).1⟩
  rw [FatOp.exec, hrun]
  rfl

end

end LiwusOS.Fat
