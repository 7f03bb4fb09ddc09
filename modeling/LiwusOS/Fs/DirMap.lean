import LiwusOS.Fs.Directory

/-! # Directories as finite maps

Runs of successful `sdfs_dir_add_entry` and `sdfs_dir_remove_entry` calls on one
directory. As long as each removal hits the last record of its block,
`sdfs_dir_find_entry` is lookup in the map the calls describe. A removal further
in front leaves a tombstone that the scanners step over by two bytes, into the
deleted name, and the records behind it are lost. -/

namespace LiwusOS.Fs
open LiwusOS.Lib Function List

variable {dir : Dir} {name : List UInt8} {d : Nat} {s s' : Volume}

inductive DirOp where
  | add (e : Entry)
  | remove (name : List UInt8)

abbrev NameMap := List UInt8 → Option Entry

/-- The map after an operation. -/
def DirOp.apply (m : NameMap) : DirOp → NameMap
  | .add e => update m e.name (some e)
  | .remove name => update m name none

def dirMap (ops : List DirOp) : NameMap := ops.foldl DirOp.apply fun _ => none

/-- A successful call on the directory at `d`: a name that is absent is added,
or `sdfs_dir_remove_entry` returns 0. -/
inductive DirStep (d : Nat) (s s' : Volume) : DirOp → Prop
  | add {e : Entry} : e.Ok → (∃ fuel, sdfsDirFindEntry s e.name fuel d = some none) →
      (∃ fuel, sdfsDirAddEntry e fuel s d = some (0, s')) → DirStep d s s' (.add e)
  | remove {name : List UInt8} : (∀ c ∈ name, c ≠ 0) →
      (∃ fuel, sdfsDirRemoveEntry name fuel s d = some (0, s')) → DirStep d s s' (.remove name)

/-- A removal hits the last record of its block. -/
def RemovesLast (d : Nat) (s : Volume) : DirOp → Prop
  | .add _ => True
  | .remove name => ∀ fuel l, sdfsDirFindEntry s name fuel d = some (some l) →
      IsLastRecord (sdfsReadBlock s l.block) l.blockOffset

inductive DirRun (d : Nat) (s : Volume) : List DirOp → Volume → Prop
  | nil : DirRun d s [] s
  | snoc {ops : List DirOp} {op : DirOp} {t u : Volume} : DirRun d s ops t → RemovesLast d t op →
      DirStep d t u op → DirRun d s (ops ++ [op]) u

/-- An empty directory: one block, marked used, without records or successor. -/
structure EmptyDir (s : Volume) (d : Nat) : Prop where
  layout : Layout s
  owned : s.Owns d
  used : s.store.used d = true
  next : blockNext (sdfsReadBlock s d) = 0
  count : dirEntryCount (sdfsReadBlock s d) = 0

/-- The directory at `d` holds the map `m`. -/
structure HoldsMap (s : Volume) (d : Nat) (m : NameMap) (dir : Dir) : Prop where
  layout : Layout s
  at' : DirAt s.store d dir
  nonempty : dir ≠ []
  owned : ∀ p ∈ dir, s.Owns p.1
  used : ∀ p ∈ dir, s.store.used p.1 = true
  names : ((dirEntries dir).map Entry.name).Nodup
  lookup : ∀ name, (dirEntries dir).find? (fun e => e.name = name) = m name

/-! ## Lists of entries -/

section Lists

variable {l1 l2 : List Entry} {e : Entry}

/-- One entry more does not show under other names. -/
theorem find?_middle (hn : name ≠ e.name) :
    (l1 ++ e :: l2).find? (fun x => x.name = name) = (l1 ++ l2).find? fun x => x.name = name := by
  rw [find?_append, find?_append, find?_cons]
  simp [Ne.symm hn]

theorem find?_insert (hnew : ∀ x ∈ l1 ++ l2, x.name ≠ e.name) (name : List UInt8) :
    (l1 ++ e :: l2).find? (fun x => x.name = name) =
      update (fun n => (l1 ++ l2).find? fun x => x.name = n) e.name (some e) name := by
  by_cases hn : name = e.name
  · subst hn
    rw [update_self, find?_append, find?_eq_none.mpr]
    · simp
    · intro x hx
      simpa using hnew x (mem_append_left _ hx)
  · rw [update_of_ne hn, find?_middle hn]

theorem find?_erase (hnd : ((l1 ++ e :: l2).map Entry.name).Nodup) (name : List UInt8) :
    (l1 ++ l2).find? (fun x => x.name = name) =
      update (fun n => (l1 ++ e :: l2).find? fun x => x.name = n) e.name none name := by
  by_cases hn : name = e.name
  · subst hn
    rw [update_self, find?_eq_none]
    intro x hx
    rw [map_append, map_cons, nodup_middle, nodup_cons, ← map_append] at hnd
    have hne : x.name ≠ e.name := fun heq => hnd.1 (heq ▸ mem_map_of_mem hx)
    simpa using hne
  · rw [update_of_ne hn, find?_middle hn]

end Lists

theorem dirFind_entry (name : List UInt8) (dir : Dir) :
    (dirFind name dir).map Located.entry = (dirEntries dir).find? fun e => e.name = name := by
  rw [dirFind, dirEntries, find?_map]
  rfl

/-! ## The two operations on entry lists -/

variable {e : Entry} {m : NameMap}

/-- Adding puts one entry somewhere among the others. -/
theorem Adds.entries {total : Nat} {σ τ : Store} {dir' : Dir} (h : Adds e total σ τ dir dir' 0) :
    ∃ l1 l2, dirEntries dir = l1 ++ l2 ∧ dirEntries dir' = l1 ++ e :: l2 := by
  cases h with
  | room hins _ _ =>
    obtain ⟨pre, b, rs, post, rfl, rfl⟩ := dirInsert_split hins
    refine ⟨dirEntries pre ++ liveEntries rs, dirEntries post, ?_, ?_⟩
    · rw [dirEntries_append, dirEntries_cons, append_assoc]
    · rw [dirEntries_append, dirEntries_cons, liveEntries_append, append_assoc, append_assoc]
      rfl
  | grow _ _ _ _ =>
    refine ⟨dirEntries dir, [], (append_nil _).symm, ?_⟩
    rw [dirEntries_append, dirEntries_cons]
    rfl

/-- Deleting takes one entry out and leaves the others in order. -/
theorem Unlinks.entries {dir' : Dir} {l : Located} (h : Unlinks dir dir' l) :
    ∃ l1 l2, dirEntries dir = l1 ++ l.entry :: l2 ∧ dirEntries dir' = l1 ++ l2 := by
  obtain ⟨pre, post, rs, rfl, rfl, -⟩ := h.split
  refine ⟨dirEntries pre ++ liveEntries rs, dirEntries post, ?_, ?_⟩
  · rw [dirEntries_append, dirEntries_cons, liveEntries_append, append_assoc, append_assoc]
    rfl
  · rw [dirEntries_append, dirEntries_cons, liveEntries_append, append_assoc, append_assoc]
    rfl

/-! ## Runs -/

theorem HoldsMap.find (h : HoldsMap s d m dir) (hn : ∀ c ∈ name, c ≠ 0) :
    Settles (fun fuel => (sdfsDirFindEntry s name fuel d).map (Option.map Located.entry)) (m name) := by
  rw [← h.lookup name, ← dirFind_entry]
  exact (find_settles hn h.at' h.owned).map _

theorem holdsMap_empty (h : EmptyDir s d) : HoldsMap s d (fun _ => none) [(d, [])] := by
  have hdata := h.owned.read.symm
  have hpos : 0 < s.rootBlock := by
    have h1 : 0 < s.bitmapBlock := h.layout.valid.bitmapPos
    have h2 : s.bitmapBlock + s.bitmapBlocks ≤ s.rootBlock := h.layout.valid.bitmapEnd
    omega
  have hd := h.owned.1
  refine ⟨h.layout, DirAt.cons (by omega) ⟨?_, trivial, Nat.zero_le _⟩ ⟨?_, by simp, by simp⟩
    (fun hh => absurd rfl hh), cons_ne_nil _ _, ?_, ?_, nodup_nil, fun _ => rfl⟩
  · rw [hdata, h.count]
    rfl
  · show s.store.next d = 0
    rw [Store.next, hdata, h.next]
  · intro p hp
    rw [mem_singleton.mp hp]
    exact h.owned
  · intro p hp
    rw [mem_singleton.mp hp]
    exact h.used

theorem holdsMap_add (h : HoldsMap s d m dir) (he : e.Ok) (habsent : m e.name = none)
    (hrun : ∃ fuel, sdfsDirAddEntry e fuel s d = some (0, s')) :
    ∃ dir', HoldsMap s' d (DirOp.apply m (.add e)) dir' := by
  obtain ⟨fuel, hfuel⟩ := hrun
  obtain ⟨r, t, dir', hs, hg, hat, hadds⟩ := add_settles he h.layout h.at' h.nonempty h.owned h.used
  cases hs.only fuel _ hfuel
  obtain ⟨l1, l2, hdir, hdir'⟩ := hadds.entries
  have hgrow : ∀ b, s.store.used b = true → s'.store.used b = true := by
    intro b hb
    rcases hadds.blocks with ⟨-, hu⟩ | ⟨nb, -, -, hu⟩
    · rwa [hu]
    · rw [hu]
      by_cases hbn : b = nb
      · rw [hbn, update_self]
      · rwa [update_of_ne hbn]
  -- every block of the new directory is owned and marked
  have hblocks : ∀ b ∈ dir'.map Prod.fst, s.Owns b ∧ s'.store.used b = true := by
    have hold : ∀ b ∈ dir.map Prod.fst, s.Owns b ∧ s'.store.used b = true := by
      intro b hb
      obtain ⟨p, hp, rfl⟩ := mem_map.mp hb
      exact ⟨h.owned p hp, hgrow _ (h.used p hp)⟩
    intro b hb
    rcases hadds.blocks with ⟨hm, -⟩ | ⟨nb, hfree, hm, hu⟩
    · exact hold b (hm ▸ hb)
    · rw [hm] at hb
      obtain ⟨h1, h2, -⟩ := h.layout.free?_some hfree
      rcases mem_append.mp hb with hb | hb
      · exact hold b hb
      · cases mem_singleton.mp hb
        exact ⟨⟨by omega, h2⟩, by rw [hu, update_self]⟩
  have hnew : ∀ x ∈ l1 ++ l2, x.name ≠ e.name := by
    rw [← h.lookup, hdir, find?_eq_none] at habsent
    simpa using habsent
  refine ⟨dir', h.layout.of_geo hg fun b hb => hgrow b (h.layout.reserved b hb), hat, ?_, ?_, ?_, ?_, ?_⟩
  · rintro rfl
    simp [dirEntries, dirRecords] at hdir'
  · exact fun p hp => (owns_of_geo hg).mpr (hblocks _ (mem_map_of_mem hp)).1
  · exact fun p hp => (hblocks _ (mem_map_of_mem hp)).2
  · have hnd := h.names
    rw [hdir, map_append] at hnd
    rw [hdir', map_append, map_cons, nodup_middle, nodup_cons, ← map_append]
    refine ⟨fun hmem => ?_, by rw [map_append]; exact hnd⟩
    obtain ⟨x, hx, hxe⟩ := mem_map.mp hmem
    exact hnew x hx hxe
  · intro name
    rw [hdir', find?_insert hnew, DirOp.apply]
    congr 1
    funext n
    rw [← hdir, h.lookup]

theorem holdsMap_remove (h : HoldsMap s d m dir) (hn : ∀ c ∈ name, c ≠ 0)
    (hlast : RemovesLast d s (.remove name)) (hrun : ∃ fuel, sdfsDirRemoveEntry name fuel s d = some (0, s')) :
    ∃ dir', HoldsMap s' d (DirOp.apply m (.remove name)) dir' := by
  obtain ⟨fuel, hfuel⟩ := hrun
  have hs := (remove_settles hn h.at' h.owned).only fuel _ hfuel
  obtain ⟨N, hN⟩ := (find_settles hn h.at' h.owned).enough
  cases hf : dirFind name dir with
  | none =>
    rw [hf] at hs
    cases hs
  | some l =>
    rw [hf] at hs
    cases hs
    obtain ⟨hmem, rfl⟩ := dirFind_mem hf
    have hl := hlast N l (by rw [hN N (Nat.le_refl N), hf])
    obtain ⟨dir', hun, hat, hstore⟩ := unlink_last h.layout h.at' h.owned hmem hl
    have hg : (unlinked s l).geo = s.geo := geo_metadataWrite _ _ _
    have hu : (unlinked s l).store.used = s.store.used := by rw [hstore, Store.write_used]
    obtain ⟨l1, l2, hdir, hdir'⟩ := hun.entries
    have hnames := h.names
    rw [hdir] at hnames
    have hold : ∀ p ∈ dir', ∃ q ∈ dir, q.1 = p.1 := by
      intro p hp
      have hpm := mem_map_of_mem (f := Prod.fst) hp
      rw [hun.blocks] at hpm
      exact mem_map.mp hpm
    refine ⟨dir', h.layout.of_geo hg fun b hb => ?_, hat, ?_, ?_, ?_, ?_, ?_⟩
    · rw [hu]
      exact h.layout.reserved b hb
    · rintro rfl
      exact h.nonempty (map_eq_nil_iff.mp hun.blocks.symm)
    · intro p hp
      obtain ⟨q, hq, heq⟩ := hold p hp
      exact (owns_of_geo hg).mpr (heq ▸ h.owned q hq)
    · intro p hp
      obtain ⟨q, hq, heq⟩ := hold p hp
      rw [hu, ← heq]
      exact h.used q hq
    · rw [hdir', map_append]
      rw [map_append, map_cons, nodup_middle, nodup_cons] at hnames
      exact hnames.2
    · intro name
      rw [hdir', find?_erase hnames, DirOp.apply]
      congr 1
      funext n
      rw [← hdir, h.lookup]

theorem dirRun_holdsMap (h : EmptyDir s d) {ops : List DirOp} (hrun : DirRun d s ops s') :
    ∃ dir, HoldsMap s' d (dirMap ops) dir := by
  induction hrun with
  | nil => exact ⟨_, holdsMap_empty h⟩
  | snoc _ hlast hstep ih =>
    obtain ⟨dir, hm⟩ := ih
    rw [dirMap, foldl_append, foldl_cons, foldl_nil]
    cases hstep with
    | add he habsent hr =>
      obtain ⟨fuel, hfuel⟩ := habsent
      refine holdsMap_add hm he ?_ hr
      exact ((hm.find he.noNul).only fuel none (by rw [hfuel]; rfl)).symm
    | remove hn hr => exact holdsMap_remove hm hn hlast hr

/-- **A directory is a finite map** along every run whose removals hit the last
record of a block: looking a name up gives what the run last did with it. -/
theorem dir_lookup_of_removesLast {s s' : Volume} {d : Nat} (h : EmptyDir s d) {ops : List DirOp}
    (hrun : DirRun d s ops s') {name : List UInt8} (hn : ∀ c ∈ name, c ≠ 0) :
    Settles (fun fuel => (sdfsDirFindEntry s' name fuel d).map (Option.map Located.entry))
      (dirMap ops name) := by
  obtain ⟨dir, hm⟩ := dirRun_holdsMap h hrun
  exact hm.find hn

/-! ## Two entries in a fresh directory -/

/-- A mounted volume of 64 blocks with an empty root directory at block 18 and
nothing else allocated. -/
def smallVolume : Volume :=
  { Volume.boot (fun _ => Buf.zero) with
    mounted := true
    totalBlocks := 64
    bitmapBlock := 1
    bitmapBlocks := 1
    rootBlock := 18
    bitmapCache := some fun i => if i < 2 then 0xFF else if i = 2 then 0x07 else 0
    bitmapBytes := 4096 }

theorem smallVolume_empty : EmptyDir smallVolume 18 := by
  refine ⟨⟨⟨rfl, by decide, by decide, (fun h => by cases h), by decide, by decide, rfl,
    by decide⟩, ?_⟩,
    ⟨by decide, by decide⟩, by decide, rfl, rfl⟩
  show ∀ b ≤ 18, sdfsBitmapTest smallVolume b = true
  decide

/-- An empty file; its start block is of no interest here. -/
def plainFile (name : List UInt8) : Entry := ⟨sdfsTypeFile, name, 0, 0, 0, 0, 0, 0, 0⟩

/-- The file `ab`. -/
def fileAb : Entry := plainFile [97, 98]
/-- The file `c`. -/
def fileC : Entry := plainFile [99]

theorem fileAb_ok : fileAb.Ok := ⟨rfl, by decide, by decide, by decide +kernel⟩
theorem fileC_ok : fileC.Ok := ⟨rfl, by decide, by decide, by decide +kernel⟩

/-- `ab` is added and removed again: it is the last record when it goes. -/
theorem dir_lookup_smallVolume : ∃ s', DirRun 18 smallVolume [.add fileAb, .remove [97, 98]] s' ∧
    Settles (fun fuel => (sdfsDirFindEntry s' [97, 98] fuel 18).map (Option.map Located.entry)) none := by
  obtain ⟨⟨r, s1⟩, hadd, ⟨r', s'⟩, hremove, hr, hr', habsent, x, hx, l, rfl, hlast⟩ :
      ∃ p ∈ sdfsDirAddEntry fileAb 2 smallVolume 18, ∃ q ∈ sdfsDirRemoveEntry [97, 98] 2 p.2 18, p.1 = 0 ∧ q.1 = 0 ∧
        sdfsDirFindEntry smallVolume [97, 98] 2 18 = some none ∧
        ∃ x ∈ sdfsDirFindEntry p.2 [97, 98] 2 18, ∃ l ∈ x, IsLastRecord (sdfsReadBlock p.2 l.block) l.blockOffset := by
    decide +kernel
  cases hr
  cases hr'
  have hn : ∀ c ∈ ([97, 98] : List UInt8), c ≠ 0 := by decide +kernel
  have hrun : DirRun 18 smallVolume [.add fileAb] s1 := .snoc .nil trivial (.add fileAb_ok ⟨2, habsent⟩ ⟨2, hadd⟩)
  obtain ⟨dir, hm⟩ := dirRun_holdsMap smallVolume_empty hrun
  have hfind := find_settles hn hm.at' hm.owned
  have hrun' : DirRun 18 smallVolume [.add fileAb, .remove [97, 98]] s' := by
    refine .snoc hrun (fun fuel l' hl' => ?_) (.remove hn ⟨2, hremove⟩)
    cases (hfind.only fuel _ hl').trans (hfind.only 2 _ hx).symm
    exact hlast
  exact ⟨s', hrun', dir_lookup_of_removesLast smallVolume_empty hrun' hn⟩

/-- Removing `ab` hides `c`: the scan goes on inside the name `ab`. -/
theorem remove_hides_sibling : ∃ s1 s2 s3, DirStep 18 smallVolume s1 (.add fileAb) ∧
    DirStep 18 s1 s2 (.add fileC) ∧ DirStep 18 s2 s3 (.remove [97, 98]) ∧
    dirMap [.add fileAb, .add fileC, .remove [97, 98]] [99] = some fileC ∧
    Settles (fun fuel => sdfsDirFindEntry s3 [99] fuel 18) none := by
  obtain ⟨⟨r, s1⟩, hadd, ⟨r', s2⟩, hadd', ⟨r'', s3⟩, hremove, ⟨hr, hr', hr''⟩, habsent, habsent', hcount, hscan,
    hnext⟩ :
      ∃ p ∈ sdfsDirAddEntry fileAb 2 smallVolume 18, ∃ p' ∈ sdfsDirAddEntry fileC 2 p.2 18,
      ∃ q ∈ sdfsDirRemoveEntry [97, 98] 2 p'.2 18, (p.1 = 0 ∧ p'.1 = 0 ∧ q.1 = 0) ∧
        sdfsDirFindEntry smallVolume [97, 98] 2 18 = some none ∧ sdfsDirFindEntry p.2 [99] 2 18 = some none ∧
        dirEntryCount (sdfsReadBlock q.2 18) = 2 ∧
        scanFind (sdfsReadBlock q.2 18) [99] 2 dirDataStart dirDataSize = none ∧
        blockNext (sdfsReadBlock q.2 18) = 0 := by
    decide +kernel
  cases hr
  cases hr'
  cases hr''
  refine ⟨s1, s2, s3, .add fileAb_ok ⟨2, habsent⟩ ⟨2, hadd⟩, .add fileC_ok ⟨2, habsent'⟩ ⟨2, hadd'⟩,
    .remove (by decide +kernel) ⟨2, hremove⟩, by decide, ?_⟩
  have hstop : Settles (fun fuel => sdfsDirFindEntry s3 [99] fuel 0) none :=
    .succ rfl (fun n => if_pos rfl) (.const none)
  refine .succ rfl (fun n => ?_) hstop
  rw [sdfsDirFindEntry, if_neg (by decide)]
  dsimp only
  rw [hcount, if_neg (by decide), hscan, hnext]

end LiwusOS.Fs
