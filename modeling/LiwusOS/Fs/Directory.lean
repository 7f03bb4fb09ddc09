import LiwusOS.Fs.DirBlock
import LiwusOS.Fs.Store
import LiwusOS.Lib.Chain

/-! # Directories as chains of record lists

A directory is the list of its blocks with their records. Every block but the
last one has records (an empty block ends the walks of the source even when it
has a successor). Over such a directory each walk of `sdfs.c` settles, and what
it returns or changes is stated here on the list. -/

namespace LiwusOS.Fs
open LiwusOS.Lib List Function Store

variable {e : Entry} {rs : List Rec} {name : List UInt8} {l : Located} {b : Nat} {s : Volume}

abbrev Dir := List (Nat × List Rec)

/-- `next_block` as the store has it. -/
def Store.next (σ : Store) (b : Nat) : Nat := blockNext (σ.data b)

structure DirAt (σ : Store) (d : Nat) (dir : Dir) : Prop where
  chain : Chain σ.next 0 d (dir.map Prod.fst)
  blocks : ∀ p ∈ dir, DirBlock (σ.data p.1) p.2
  tails : ∀ p ∈ dir.dropLast, p.2 ≠ []

/-- The blocks the file system code may touch. -/
def Volume.Owns (s : Volume) (b : Nat) : Prop := s.rootBlock ≤ b ∧ b < s.totalBlocks

theorem Volume.Owns.read (ho : s.Owns b) : sdfsReadBlock s b = s.store.data b := (store_data ho.1 ho.2).symm

theorem owns_of_geo {s' : Volume} (hg : s'.geo = s.geo) : s'.Owns b ↔ s.Owns b := by
  have hroot := root_of_geo hg
  have htot := total_of_geo hg
  rw [Volume.Owns, Volume.Owns, hroot, htot]

/-- The live entries of a directory with their positions, in scan order. -/
def dirRecords : Dir → List Located
  | [] => []
  | (b, rs) :: dir => (recsAt dirDataStart rs).map (fun x => ⟨x.1, b, x.2⟩) ++ dirRecords dir

def dirEntries (dir : Dir) : List Entry := (dirRecords dir).map Located.entry

def dirFind (name : List UInt8) (dir : Dir) : Option Located :=
  (dirRecords dir).find? fun l => l.entry.name = name

namespace DirAt

variable {σ τ : Store} {d : Nat} {dir : Dir} {p : Nat × List Rec}

theorem head (h : DirAt σ d (p :: dir)) : d = p.1 ∧ p.1 ≠ 0 := ⟨h.chain.1, h.chain.2.1⟩

theorem tail (h : DirAt σ d (p :: dir)) : DirAt σ (σ.next p.1) dir := by
  refine ⟨h.chain.tail, fun q hq => h.blocks q (.tail _ hq), fun q hq => ?_⟩
  cases dir with
  | nil => cases hq
  | cons r dir => exact h.tails q (.tail _ hq)

/-- Only the last block may be empty. -/
theorem eq_nil_of_empty (h : DirAt σ d (p :: dir)) (he : p.2 = []) : dir = [] := by
  cases dir with
  | nil => rfl
  | cons r dir => exact absurd he (h.tails p (.head _))

theorem nodup (h : DirAt σ d dir) : (dir.map Prod.fst).Nodup := h.chain.nodup

theorem head_notMem (h : DirAt σ d (p :: dir)) : p.1 ∉ dir.map Prod.fst :=
  (nodup_cons.mp h.nodup).1

/-- A directory looks at its own blocks only. -/
theorem congr (h : DirAt σ d dir) (he : ∀ b ∈ dir.map Prod.fst, τ.data b = σ.data b) : DirAt τ d dir := by
  refine ⟨h.chain.congr fun b hb => by rw [Store.next, Store.next, he b hb], fun p hp => ?_, h.tails⟩
  rw [he p.1 (mem_map_of_mem hp)]
  exact h.blocks p hp

/-- Putting a block in front. -/
theorem cons (hb : b ≠ 0) (hblock : DirBlock (σ.data b) rs) (h : DirAt σ (σ.next b) dir)
    (hne : dir ≠ [] → rs ≠ []) : DirAt σ b ((b, rs) :: dir) := by
  refine ⟨⟨rfl, hb, h.chain⟩, ?_, ?_⟩
  · intro q hq
    rcases mem_cons.mp hq with rfl | hq
    · exact hblock
    · exact h.blocks q hq
  · intro q hq
    cases dir with
    | nil => cases hq
    | cons r dir =>
      rcases mem_cons.mp hq with rfl | hq
      · exact hne (cons_ne_nil _ _)
      · exact h.tails q hq

end DirAt

variable {dir dir' : Dir} {d : Nat}

/-- The rule for walks: block 0 and an empty block end them, and from any other block
they go on. -/
theorem DirAt.walk {motive : Nat → Dir → Prop} (nil : motive 0 [])
    (empty : ∀ d, d ≠ 0 → dirEntryCount (sdfsReadBlock s d) = 0 → motive d [(d, [])])
    (block : ∀ d rs dir, d ≠ 0 → dirEntryCount (sdfsReadBlock s d) ≠ 0 → DirBlock (sdfsReadBlock s d) rs →
      motive (sdfsGetNextBlock s d) dir → motive d ((d, rs) :: dir))
    (h : DirAt s.store d dir) (hr : ∀ p ∈ dir, s.Owns p.1) : motive d dir := by
  induction dir generalizing d with
  | nil =>
    have hd : d = 0 := h.chain
    subst hd
    exact nil
  | cons p dir ih =>
    obtain ⟨b, rs⟩ := p
    obtain ⟨rfl, hd⟩ := h.head
    have hown := hr _ (.head _)
    have hbuf := hown.read.symm
    have hblock := h.blocks _ (.head _)
    have hrest := ih h.tail fun q hq => hr q (.tail _ hq)
    have hempty := h.eq_nil_of_empty
    rw [hbuf] at hblock
    rw [Store.next, hbuf] at hrest
    cases rs with
    | nil =>
      rw [hempty rfl]
      exact empty d hd hblock.count
    | cons r rs => exact block d _ dir hd (by rw [hblock.count]; exact Nat.succ_ne_zero _) hblock hrest

/-! ## Walks that only read -/

theorem find_map_located (name : List UInt8) (b : Nat) (l : List (Entry × Nat)) :
    (l.map fun x => (⟨x.1, b, x.2⟩ : Located)).find? (fun x => x.entry.name = name) =
      (l.find? fun x => x.1.name = name).map fun x => ⟨x.1, b, x.2⟩ := by
  rw [find?_map]
  rfl

theorem dirFind_cons (name : List UInt8) (b : Nat) (rs : List Rec) (dir : Dir) :
    dirFind name ((b, rs) :: dir) =
      match (recsAt dirDataStart rs).find? (fun x => x.1.name = name) with
      | some x => some ⟨x.1, b, x.2⟩
      | none => dirFind name dir := by
  rw [dirFind, dirRecords, find?_append, find_map_located]
  cases (recsAt dirDataStart rs).find? fun x => x.1.name = name <;> rfl

theorem find_settles (hn : ∀ c ∈ name, c ≠ 0) (h : DirAt s.store d dir)
    (hr : ∀ p ∈ dir, s.Owns p.1) : Settles (sdfsDirFindEntry s name · d) (dirFind name dir) := by
  refine DirAt.walk (motive := fun d dir => Settles (sdfsDirFindEntry s name · d) (dirFind name dir))
    (.succ rfl (fun n => if_pos rfl) (.const none)) (fun d hd hcount => ?_)
    (fun d rs dir hd hcount hblock ih => ?_) h hr
  · refine .succ rfl (fun n => ?_) (.const none)
    rw [sdfsDirFindEntry, if_neg hd]
    exact if_pos hcount
  · have hscan := scanFind_recs hn hblock.recs hblock.fits
    rw [← hblock.count] at hscan
    rw [dirFind_cons]
    cases hf : (recsAt dirDataStart rs).find? fun x => x.1.name = name with
    | some x =>
      refine .succ rfl (fun n => ?_) (.const _)
      rw [sdfsDirFindEntry, if_neg hd]
      dsimp only
      rw [if_neg hcount, hscan, hf]
    | none =>
      refine .succ rfl (fun n => ?_) ih
      rw [sdfsDirFindEntry, if_neg hd]
      dsimp only
      rw [if_neg hcount, hscan, hf]
      rfl

theorem index_settles (index : Nat) (h : DirAt s.store d dir) (hr : ∀ p ∈ dir, s.Owns p.1) :
    Settles (sdfsDirFindByIndex s · d index) ((dirRecords dir)[index]?) := by
  refine DirAt.walk (motive := fun d dir => ∀ index, Settles (sdfsDirFindByIndex s · d index)
      ((dirRecords dir)[index]?))
    (fun _ => .succ rfl (fun n => if_pos rfl) (.const none)) (fun d hd hcount index => ?_)
    (fun d rs dir hd hcount hblock ih index => ?_) h hr index
  · refine .succ rfl (fun n => ?_) (.const none)
    rw [sdfsDirFindByIndex, if_neg hd]
    exact if_pos hcount
  · have hscan := scanIndex_recs index hblock.recs hblock.fits
    rw [← hblock.count] at hscan
    have hlen : ((recsAt dirDataStart rs).map fun x => (⟨x.1, d, x.2⟩ : Located)).length =
        (recsAt dirDataStart rs).length := length_map _
    rw [dirRecords, getElem?_append, hlen, getElem?_map]
    cases hx : (recsAt dirDataStart rs)[index]? with
    | some x =>
      rw [if_pos (List.getElem?_eq_some_iff.mp hx).1]
      refine .succ rfl (fun n => ?_) (.const _)
      rw [sdfsDirFindByIndex, if_neg hd]
      dsimp only
      rw [if_neg hcount, hscan, hx]
      rfl
    | none =>
      rw [if_neg (not_lt.mpr (List.getElem?_eq_none_iff.mp hx))]
      refine .succ rfl (fun n => ?_) (ih (index - (recsAt dirDataStart rs).length))
      rw [sdfsDirFindByIndex, if_neg hd]
      dsimp only
      rw [if_neg hcount, hscan, hx]
      rfl

theorem dirEntries_cons (b : Nat) (rs : List Rec) (dir : Dir) :
    dirEntries ((b, rs) :: dir) = liveEntries rs ++ dirEntries dir := by
  rw [dirEntries, dirRecords, map_append, map_map, ← recsAt_entries dirDataStart]
  rfl

theorem dirEntries_append (dir dir' : Dir) : dirEntries (dir ++ dir') = dirEntries dir ++ dirEntries dir' := by
  induction dir with
  | nil => rfl
  | cons p dir ih => rw [cons_append, dirEntries_cons, dirEntries_cons, ih, append_assoc]

theorem count_settles (h : DirAt s.store d dir) (hr : ∀ p ∈ dir, s.Owns p.1)
    (htype : ∀ e ∈ dirEntries dir, e.type = sdfsTypeFile ∨ e.type = sdfsTypeDir) :
    Settles (sdfsDirCountEntries s · d) (dirEntries dir).length := by
  refine DirAt.walk (motive := fun d dir => (∀ e ∈ dirEntries dir, e.type = sdfsTypeFile ∨ e.type = sdfsTypeDir) →
      Settles (sdfsDirCountEntries s · d) (dirEntries dir).length)
    (fun _ => .succ rfl (fun n => if_pos rfl) (.const 0)) (fun d hd hcount _ => ?_)
    (fun d rs dir hd hcount hblock ih htype => ?_) h hr htype
  · refine .succ rfl (fun n => ?_) (.const 0)
    rw [sdfsDirCountEntries, if_neg hd]
    exact if_pos hcount
  · rw [dirEntries_cons] at htype ⊢
    have hscan := scanCount_recs hblock.recs hblock.fits fun e he => htype e (mem_append_left _ he)
    rw [← hblock.count] at hscan
    rw [length_append]
    refine .succ rfl (fun n => ?_)
      ((ih fun e he => htype e (mem_append_right _ he)).map ((liveEntries rs).length + ·))
    rw [sdfsDirCountEntries, if_neg hd]
    dsimp only
    rw [if_neg hcount, hscan]
    rfl

/-! ## Removing -/

theorem dirFind_mem (h : dirFind name dir = some l) : l ∈ dirRecords dir ∧ l.entry.name = name := by
  have hp := find?_some h
  exact ⟨mem_of_find?_eq_some h, by simpa using hp⟩

theorem mem_dirRecords : l ∈ dirRecords dir ↔
    ∃ rs, (l.block, rs) ∈ dir ∧ (l.entry, l.blockOffset) ∈ recsAt dirDataStart rs := by
  induction dir with
  | nil => simp [dirRecords]
  | cons p dir ih =>
    obtain ⟨b, rs⟩ := p
    rw [dirRecords, mem_append, ih]
    constructor
    · rintro (hm | ⟨rs', hm, hx⟩)
      · obtain ⟨x, hx, rfl⟩ := mem_map.mp hm
        exact ⟨rs, .head _, hx⟩
      · exact ⟨rs', .tail _ hm, hx⟩
    · rintro ⟨rs', hm, hx⟩
      rcases mem_cons.mp hm with heq | hm
      · cases heq
        exact .inl (mem_map.mpr ⟨_, hx, rfl⟩)
      · exact .inr ⟨rs', hm, hx⟩

/-- The volume after the type byte of a record has been overwritten. -/
def unlinked (s : Volume) (l : Located) : Volume :=
  sdfsMetadataWrite s l.block ((sdfsReadBlock s l.block).set l.blockOffset sdfsTypeDel)

/-- `sdfs_dir_remove_entry` marks the record that `sdfs_dir_find_entry` finds. -/
theorem remove_eq_find (name : List UInt8) (fuel : Nat) (s : Volume) (d : Nat) :
    sdfsDirRemoveEntry name fuel s d = (sdfsDirFindEntry s name fuel d).map fun
      | some l => (0, unlinked s l)
      | none => (-1, s) := by
  fun_induction sdfsDirFindEntry s name fuel d with
  | case1 => rfl
  | case2 n => exact if_pos rfl
  | case3 n d hd buf hcount =>
    rw [sdfsDirRemoveEntry, if_neg hd]
    exact if_pos hcount
  | case4 n d hd buf hcount e pos hscan =>
    rw [sdfsDirRemoveEntry, if_neg hd]
    dsimp only
    rw [if_neg hcount, hscan]
    rfl
  | case5 n d hd buf hcount hscan ih =>
    rw [sdfsDirRemoveEntry, if_neg hd]
    dsimp only
    rw [if_neg hcount, hscan]
    exact ih

theorem remove_settles (hn : ∀ c ∈ name, c ≠ 0) (h : DirAt s.store d dir) (hr : ∀ p ∈ dir, s.Owns p.1) :
    Settles (sdfsDirRemoveEntry name · s d)
      (match dirFind name dir with
        | some l => (0, unlinked s l)
        | none => (-1, s)) :=
  .congr (remove_eq_find name · s d) ((find_settles hn h hr).map _)

/-- Replacing the records of one block. -/
theorem DirAt.replace {σ : Store} {pre post : Dir} {rs' : List Rec} {buf : Block}
    (h : DirAt σ d (pre ++ (b, rs) :: post)) (hblock : DirBlock buf rs') (hnext : blockNext buf = σ.next b)
    (hne : rs' ≠ []) : DirAt (σ.write b buf) d (pre ++ (b, rs') :: post) := by
  have hmap : ∀ q : List Rec, (pre ++ (b, q) :: post).map Prod.fst =
      pre.map Prod.fst ++ b :: post.map Prod.fst := fun q => by simp
  have hnd := h.nodup
  rw [hmap, nodup_append] at hnd
  obtain ⟨-, hnd2, hdisj⟩ := hnd
  have hb1 : ∀ q ∈ pre, q.1 ≠ b := fun q hq =>
    hdisj q.1 (mem_map_of_mem hq) b (.head _)
  have hb2 : ∀ q ∈ post, q.1 ≠ b := fun q hq heq =>
    (nodup_cons.mp hnd2).1 (heq ▸ mem_map_of_mem hq)
  refine ⟨?_, ?_, ?_⟩
  · have hchain := h.chain
    rw [hmap] at hchain ⊢
    refine hchain.congr fun c _ => ?_
    by_cases hc : c = b
    · subst hc
      rw [Store.next, write_data_self, hnext]
    · rw [Store.next, write_data_ne _ _ hc, Store.next]
  · intro q hq
    rcases mem_append.mp hq with hq' | hq'
    · rw [write_data_ne _ _ (hb1 q hq')]
      exact h.blocks q (mem_append_left _ hq')
    · rcases mem_cons.mp hq' with rfl | hq'
      · rw [write_data_self]
        exact hblock
      · rw [write_data_ne _ _ (hb2 q hq')]
        exact h.blocks q (mem_append_right _ (.tail _ hq'))
  · intro q hq
    have hold := h.tails
    rw [dropLast_append_of_ne_nil (cons_ne_nil _ _)] at hq hold
    rcases mem_append.mp hq with hq | hq
    · exact hold q (mem_append_left _ hq)
    · cases post with
      | nil => cases hq
      | cons r post =>
        rcases mem_cons.mp hq with rfl | hq
        · exact hne
        · exact hold q (mem_append_right _ (.tail _ hq))

/-- The directory before and after its record `l`, the last one of its block,
is deleted. -/
structure Unlinks (dir dir' : Dir) (l : Located) : Prop where
  split : ∃ pre post rs, dir = pre ++ (l.block, rs ++ [.live l.entry]) :: post ∧
    dir' = pre ++ (l.block, rs ++ [.dead]) :: post ∧ l.blockOffset = dirDataStart + recsSize rs

theorem Unlinks.blocks (h : Unlinks dir dir' l) : dir'.map Prod.fst = dir.map Prod.fst := by
  obtain ⟨pre, post, rs, rfl, rfl, -⟩ := h.split
  simp

theorem unlink_last (hl : Layout s) (h : DirAt s.store d dir) (hr : ∀ p ∈ dir, s.Owns p.1)
    (hm : l ∈ dirRecords dir) (hlast : IsLastRecord (sdfsReadBlock s l.block) l.blockOffset) :
    ∃ dir', Unlinks dir dir' l ∧ DirAt (unlinked s l).store d dir' ∧
      (unlinked s l).store = s.store.write l.block
        ((s.store.data l.block).set l.blockOffset sdfsTypeDel) := by
  obtain ⟨rs, hp, hx⟩ := mem_dirRecords.mp hm
  have hown := hr _ hp
  have hbuf := hown.read
  have hblock := h.blocks _ hp
  rw [hbuf] at hlast
  obtain ⟨rs0, rfl, hpos⟩ := hblock.last_record hx hlast
  obtain ⟨pre, post, rfl⟩ := append_of_mem hp
  obtain ⟨hdel, hnext⟩ := hblock.deleteLast
  have hstore : (unlinked s l).store = s.store.write l.block
      ((s.store.data l.block).set l.blockOffset sdfsTypeDel) := by
    rw [unlinked, store_metadataWrite hl.valid _ hown.1 hown.2, hbuf]
  refine ⟨_, ⟨pre, post, rs0, rfl, rfl, hpos⟩, ?_, hstore⟩
  rw [hstore, hpos]
  exact h.replace hdel hnext (by simp)

/-! ## Adding -/

theorem Entry.Ok.size_le (h : e.Ok) : e.size ≤ 281 := by
  have := h.short
  unfold Entry.size
  omega

/-- The directory with `e` added to the first block that has room, if one has. -/
def dirInsert (e : Entry) : Dir → Option Dir
  | [] => none
  | (b, rs) :: dir =>
    if recsSize rs + e.size ≤ dirDataSize then some ((b, rs ++ [.live e]) :: dir)
    else (dirInsert e dir).map ((b, rs) :: ·)

theorem dirInsert_split (h : dirInsert e dir = some dir') :
    ∃ pre b rs post, dir = pre ++ (b, rs) :: post ∧ dir' = pre ++ (b, rs ++ [.live e]) :: post := by
  induction dir generalizing dir' with
  | nil => cases h
  | cons p dir ih =>
    obtain ⟨b, rs⟩ := p
    rw [dirInsert] at h
    split at h
    · cases h
      exact ⟨[], b, rs, dir, rfl, rfl⟩
    · obtain ⟨dir'', hd, rfl⟩ := Option.map_eq_some_iff.mp h
      obtain ⟨pre, b', rs', post, rfl, rfl⟩ := ih hd
      exact ⟨(b, rs) :: pre, b', rs', post, rfl, rfl⟩

/-- What `sdfs_dir_add_entry` does to a directory. -/
inductive Adds (e : Entry) (total : Nat) (σ τ : Store) (dir : Dir) : Dir → Int → Prop
  /-- Some block has room. -/
  | room {dir' : Dir} : dirInsert e dir = some dir' → τ.used = σ.used →
      (∀ c ∉ dir.map Prod.fst, τ.data c = σ.data c) → Adds e total σ τ dir dir' 0
  /-- No block has room and block `nb` is free. -/
  | grow {nb : Nat} : dirInsert e dir = none → σ.free? total = some nb →
      τ.used = update σ.used nb true →
      (∀ c ∉ dir.map Prod.fst, c ≠ nb → τ.data c = σ.data c) →
      Adds e total σ τ dir (dir ++ [(nb, [.live e])]) 0
  /-- No block has room and none is free. -/
  | full : dirInsert e dir = none → σ.free? total = none → τ = σ → Adds e total σ τ dir dir (-1)

theorem Adds.blocks {total : Nat} {σ τ : Store} (h : Adds e total σ τ dir dir' 0) :
    dir'.map Prod.fst = dir.map Prod.fst ∧ τ.used = σ.used ∨
      ∃ nb, σ.free? total = some nb ∧ dir'.map Prod.fst = dir.map Prod.fst ++ [nb] ∧
        τ.used = update σ.used nb true := by
  cases h with
  | room hins hused _ =>
    obtain ⟨pre, b, rs, post, rfl, rfl⟩ := dirInsert_split hins
    exact .inl ⟨by simp, hused⟩
  | grow _ hfree hused _ => exact .inr ⟨_, hfree, by simp, hused⟩

/-- One round of `sdfs_dir_add_entry` at a block with records `rs`. -/
theorem addEntry_round {cur : Nat} (hblock : DirBlock (sdfsReadBlock s cur) rs) (fuel : Nat) :
    sdfsDirAddEntry e (fuel + 1) s cur =
      if recsSize rs + e.size ≤ dirDataSize then
        some (0, sdfsMetadataWrite s cur (appendRec (sdfsReadBlock s cur) rs e))
      else if blockNext (sdfsReadBlock s cur) = 0 then
        let (newBlock, s') := sdfsAllocBlock s
        if newBlock = 0 then some (-1, s')
        else sdfsDirAddEntry e fuel
          (sdfsMetadataWrite s' cur (setBlockNext (sdfsReadBlock s cur) newBlock))
          (blockNext (setBlockNext (sdfsReadBlock s cur) newBlock))
      else sdfsDirAddEntry e fuel s (blockNext (sdfsReadBlock s cur)) := by
  have hfits := hblock.fits
  have hscan := scanAdd_recs e.name.length hblock.recs hblock.fits
  rw [← hblock.count] at hscan
  rw [sdfsDirAddEntry]
  dsimp only
  rw [hscan, hblock.count]
  by_cases hroom : recsSize rs + e.size ≤ dirDataSize
  · have h1 : dirDataSize - recsSize rs ≥ e.size := by omega
    rw [if_pos hroom]
    dsimp only
    rw [if_pos h1, sdfsEntrySerialize, if_neg (not_lt.mpr h1)]
    rfl
  · have h1 : ¬ dirDataSize - recsSize rs ≥ e.size := by omega
    rw [if_neg hroom]
    dsimp only
    rw [if_neg h1]

/-- The walk has reached a block with room. -/
theorem add_room (he : e.Ok) (hl : Layout s) (h : DirAt s.store d ((d, rs) :: dir))
    (ho : s.Owns d) (hroom : recsSize rs + e.size ≤ dirDataSize) :
    ∃ s', Settles (sdfsDirAddEntry e · s d) (0, s') ∧ s'.geo = s.geo ∧
      s'.store = s.store.write d (appendRec (s.store.data d) rs e) ∧
      DirAt s'.store d ((d, rs ++ [.live e]) :: dir) := by
  have hbuf := ho.read
  have hblock := h.blocks _ (.head _)
  obtain ⟨happ, hnext⟩ := hblock.append he hroom
  have hstore := store_metadataWrite hl.valid (appendRec (s.store.data d) rs e) ho.1 ho.2
  refine ⟨_, .succ rfl (fun n => ?_) (.const _), geo_metadataWrite _ _ _, hstore, ?_⟩
  · rw [addEntry_round (hbuf ▸ hblock), if_pos hroom, hbuf]
  · rw [hstore]
    have h' : DirAt s.store d ([] ++ (d, rs) :: dir) := h
    exact h'.replace happ hnext (by simp)

/-- The walk has reached a last block without room, and block `nb` is free. -/
theorem add_grow (he : e.Ok) (hl : Layout s) {nb : Nat} (h : DirAt s.store d [(d, rs)]) (ho : s.Owns d)
    (hu : s.store.used d = true) (hroom : ¬ recsSize rs + e.size ≤ dirDataSize)
    (hfree : s.store.free? s.totalBlocks = some nb) :
    ∃ s', Settles (sdfsDirAddEntry e · s d) (0, s') ∧ s'.geo = s.geo ∧
      s'.store.used = update s.store.used nb true ∧
      (∀ c, c ≠ d → c ≠ nb → s'.store.data c = s.store.data c) ∧
      DirAt s'.store d [(d, rs), (nb, [.live e])] := by
  have hsize := he.size_le
  have hbuf := ho.read
  have hblock := h.blocks _ (.head _)
  obtain ⟨hlo, hhi, hunused⟩ := hl.free?_some hfree
  have hdnb : d ≠ nb := by
    rintro rfl
    rw [hu] at hunused
    cases hunused
  obtain ⟨halloc, hstore1⟩ := alloc_some hl hfree
  have hg1 := geo_alloc s
  set s1 := (sdfsAllocBlock s).2
  have hv1 : s1.geo.Valid := hg1 ▸ hl.valid
  have hroot1 := root_of_geo hg1
  have htot1 := total_of_geo hg1
  have hnb32 : nb < 2 ^ 32 := by
    have := hl.valid.lt_two_pow hhi
    omega
  -- the old last block gets its link
  set buf := setBlockNext (s.store.data d) nb with hbufdef
  have hstore2 := store_metadataWrite hv1 buf (b := d) (by rw [hroot1]; exact ho.1)
    (by rw [htot1]; exact ho.2)
  have hg2 := geo_metadataWrite s1 d buf
  set s2 := sdfsMetadataWrite s1 d buf
  have hnbdata : s2.store.data nb = Buf.zero := by
    rw [hstore2, write_data_ne _ _ hdnb.symm, hstore1, write_data_self]
  have hl2 : Layout s2 := by
    refine hl.of_geo (hg2.trans hg1) fun c hc => ?_
    rw [hstore2, write_used, hstore1, write_used]
    by_cases hcn : c = nb
    · rw [hcn, mark_used_self]
    · rw [mark_used_ne _ _ hcn]
      exact hl.reserved c hc
  have hroot2 := root_of_geo (hg2.trans hg1)
  have htot2 := total_of_geo (hg2.trans hg1)
  have ho2 : s2.Owns nb := ⟨by omega, by omega⟩
  have hnb : DirAt s2.store nb [(nb, [])] := by
    refine DirAt.cons (by omega) ?_ ⟨?_, by simp, by simp⟩ (fun hh => absurd rfl hh)
    · rw [hnbdata]
      exact dirBlock_zero
    · show s2.store.next nb = 0
      rw [Store.next, hnbdata]
      rfl
  obtain ⟨s', hs', hg', hstore', hdir'⟩ := add_room he hl2 hnb ho2
    (by rw [recsSize_nil]; unfold dirDataSize; omega)
  have hround : ∀ n, sdfsDirAddEntry e (n + 1) s d = sdfsDirAddEntry e n s2 nb := by
    intro n
    have hnext0 : blockNext (s.store.data d) = 0 := h.tail.chain
    rw [addEntry_round (hbuf ▸ hblock), if_neg hroom, hbuf, if_pos hnext0]
    dsimp only
    rw [halloc, if_neg (by omega), ← hbufdef, blockNext_setBlockNext _ hnb32]
  have hd' : s'.store.data d = buf := by
    rw [hstore', write_data_ne _ _ hdnb, hstore2, write_data_self]
  refine ⟨s', .succ rfl hround hs', hg'.trans (hg2.trans hg1), ?_, ?_, ?_⟩
  · rw [hstore', write_used, hstore2, write_used, hstore1]
    rfl
  · intro c hcd hcn
    rw [hstore', write_data_ne _ _ hcn, hstore2, write_data_ne _ _ hcd, hstore1,
      write_data_ne _ _ hcn]
    rfl
  · refine DirAt.cons h.head.2 ?_ ?_ (fun _ => ?_)
    · rw [hd']
      exact hblock.setBlockNext nb
    · rw [Store.next, hd', blockNext_setBlockNext _ hnb32]
      exact hdir'
    · rintro rfl
      rw [recsSize_nil] at hroom
      unfold dirDataSize at hroom
      omega

theorem add_settles (he : e.Ok) (hl : Layout s) (h : DirAt s.store d dir) (hne : dir ≠ [])
    (hr : ∀ p ∈ dir, s.Owns p.1) (hu : ∀ p ∈ dir, s.store.used p.1 = true) :
    ∃ r s' dir', Settles (sdfsDirAddEntry e · s d) (r, s') ∧ s'.geo = s.geo ∧
      DirAt s'.store d dir' ∧ Adds e s.totalBlocks s.store s'.store dir dir' r := by
  induction dir generalizing d with
  | nil => exact absurd rfl hne
  | cons p dir ih =>
    obtain ⟨b, rs⟩ := p
    obtain ⟨rfl, hd⟩ := h.head
    have ho : s.Owns d := hr _ (.head _)
    have hbuf := ho.read
    have hblock := h.blocks _ (.head _)
    by_cases hroom : recsSize rs + e.size ≤ dirDataSize
    · obtain ⟨s', hs', hg', hstore', hdir'⟩ := add_room he hl h ho hroom
      refine ⟨0, s', _, hs', hg', hdir', .room (by rw [dirInsert, if_pos hroom]) ?_ fun c hc => ?_⟩
      · rw [hstore', write_used]
      · rw [hstore', write_data_ne]
        exact fun heq => hc (heq ▸ (.head _))
    · cases dir with
      | nil =>
        have hins : dirInsert e [(d, rs)] = none := by rw [dirInsert, if_neg hroom]; rfl
        cases hfree : s.store.free? s.totalBlocks with
        | none =>
          refine ⟨-1, s, _, .succ rfl (fun n => ?_) (.const _), rfl, h,
            .full hins hfree rfl⟩
          have hnext0 : blockNext (s.store.data d) = 0 := h.tail.chain
          rw [addEntry_round (hbuf ▸ hblock), if_neg hroom, hbuf, if_pos hnext0, alloc_none hfree]
          rfl
        | some nb =>
          obtain ⟨s', hs', hg', hused, hdata, hdir'⟩ :=
            add_grow he hl h ho (hu _ (.head _)) hroom hfree
          exact ⟨0, s', _, hs', hg', hdir', .grow hins hfree hused fun c hc =>
            hdata c fun heq => hc (heq ▸ (.head _))⟩
      | cons q dir =>
        -- the walk goes on at the next block
        have hnext : blockNext (s.store.data d) = q.1 := h.tail.head.1
        have htail : DirAt s.store q.1 (q :: dir) := hnext ▸ h.tail
        obtain ⟨r, s', dir', hs, hg, hdir, hadds⟩ := ih htail (cons_ne_nil _ _)
          (fun p hp => hr p (.tail _ hp)) (fun p hp => hu p (.tail _ hp))
        have hnot : d ∉ (q :: dir).map Prod.fst := h.head_notMem
        have hround : ∀ n, sdfsDirAddEntry e (n + 1) s d = sdfsDirAddEntry e n s q.1 := fun n => by
          rw [addEntry_round (hbuf ▸ hblock), if_neg hroom, hbuf, hnext, if_neg htail.head.2]
        have hfront : s'.store.data d = s.store.data d := by
          cases hadds with
          | room _ _ hdata => exact hdata d hnot
          | grow _ hfree _ hdata =>
            refine hdata d hnot fun heq => ?_
            have hfr := (hl.free?_some hfree).2.2
            rw [← heq, hu _ (.head _)] at hfr
            cases hfr
          | full _ _ heq => rw [heq]
        have hdir' : DirAt s'.store d ((d, rs) :: dir') := by
          refine DirAt.cons hd ?_ ?_ (fun _ => h.tails _ (.head _))
          · rw [hfront]
            exact hblock
          · rw [Store.next, hfront, hnext]
            exact hdir
        refine ⟨r, s', (d, rs) :: dir', .succ rfl hround hs, hg, hdir', ?_⟩
        have hins : dirInsert e ((d, rs) :: q :: dir) = (dirInsert e (q :: dir)).map ((d, rs) :: ·) := by
          rw [dirInsert, if_neg hroom]
        have hmem : ∀ {c}, c ∉ ((d, rs) :: q :: dir).map Prod.fst → c ∉ (q :: dir).map Prod.fst :=
          fun hc hc' => hc (.tail _ hc')
        cases hadds with
        | room hi hused hdata =>
          exact .room (by rw [hins, hi]; rfl) hused fun c hc => hdata c (hmem hc)
        | grow hi hfree hused hdata =>
          exact .grow (by rw [hins, hi]; rfl) hfree hused fun c hc => hdata c (hmem hc)
        | full hi hfree heq => exact .full (by rw [hins, hi]; rfl) hfree heq

end LiwusOS.Fs
