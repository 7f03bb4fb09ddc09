import LiwusOS.Fat.LongNames

/-! # Listing and look-up

`fat32_readdir` names an entry by all of its long-name slots, up to 127 bytes;
`fat32_find_entry_in_dir` returns the first entry that it takes for a name. -/

namespace LiwusOS.Fat
open LiwusOS.Lib List Option

/-! ## Live entries -/

section Live
variable {before rest S : List Lookup} {x y : List Lookup × Lookup}

theorem mem_liveSlots (h : x ∈ liveSlots before rest) :
    ∃ p, rest[p]? = some x.2 ∧ x.1 = (rest.take p).reverse ++ before := by
  induction rest generalizing before with
  | nil => cases h
  | cons s rest ih =>
    have hlater : x ∈ liveSlots (s :: before) rest →
        ∃ p, (s :: rest)[p]? = some x.2 ∧ x.1 = ((s :: rest).take p).reverse ++ before := by
      intro hx
      obtain ⟨p, hp, hb⟩ := ih hx
      refine ⟨p + 1, hp, ?_⟩
      rw [hb, take_succ_cons, reverse_cons, append_assoc]
      rfl
    rw [liveSlots] at h
    split at h
    · cases h
    · split at h
      · exact hlater h
      · rcases mem_cons.mp h with rfl | h
        · exact ⟨0, rfl, rfl⟩
        · exact hlater h

/-- Later entries have more slots before them. -/
theorem liveSlots_pairwise (before rest : List Lookup) :
    (liveSlots before rest).Pairwise fun x y => x.1.length < y.1.length := by
  induction rest generalizing before with
  | nil => exact .nil
  | cons s rest ih =>
    rw [liveSlots]
    split
    · exact .nil
    · split
      · exact ih _
      · refine .cons (fun y hy => ?_) (ih _)
        obtain ⟨p, -, hb⟩ := mem_liveSlots hy
        rw [hb, length_append, length_cons]
        exact Nat.lt_of_lt_of_le (Nat.lt_succ_self _) (Nat.le_add_left _ _)

theorem liveSlots_nodup (before rest : List Lookup) : (liveSlots before rest).Nodup :=
  (liveSlots_pairwise before rest).imp fun h heq => absurd (heq ▸ h) (Nat.lt_irrefl _)

variable {m : Nat} {b : Nat → Buf} {l : List Nat}

/-- An entry is known by its slot. -/
theorem liveSlots_inj (hl : l.Nodup) (hx : x ∈ liveSlots [] (dirSlots m b l))
    (hy : y ∈ liveSlots [] (dirSlots m b l)) (h : x.2 = y.2) : x = y := by
  obtain ⟨p, hp, hxb⟩ := mem_liveSlots hx
  obtain ⟨q, hq, hyb⟩ := mem_liveSlots hy
  rw [← h] at hq
  rw [dirSlots_inj hl hp hq] at hxb
  exact Prod.ext (hxb.trans hyb.symm) h

/-- When the look-up of a name returns the entry `x`. -/
theorem findLive_iff (hl : l.Nodup) {i : Nat} (hx : (liveSlots [] (dirSlots m b l))[i]? = some x)
    (name : List UInt8) :
    findLive name [] (dirSlots m b l) = some x.2 ↔
      TakenFor name x ∧ ∀ y ∈ (liveSlots [] (dirSlots m b l)).take i, ¬ TakenFor name y := by
  obtain ⟨hi, hxi⟩ := List.getElem?_eq_some_iff.mp hx
  constructor
  · intro h
    obtain ⟨y, hy, heq⟩ := map_eq_some_iff.mp h
    obtain rfl := liveSlots_inj hl (mem_of_find?_eq_some hy) (mem_of_getElem? hx) heq
    obtain ⟨hty, as, bs, hsplit, has⟩ := find?_eq_some_iff_append.mp hy
    refine ⟨of_decide_eq_true hty, fun z hz => ?_⟩
    -- `y` occurs once, so what comes before it is `as`
    have hat : (liveSlots [] (dirSlots m b l))[as.length]? = some y := by
      rw [hsplit, getElem?_append_right le_rfl, Nat.sub_self]
      rfl
    have hlen := (getElem?_inj hi (liveSlots_nodup _ _)).mp (hx.trans hat.symm)
    rw [hsplit, hlen, take_left] at hz
    have hnot := has z hz
    rwa [Bool.not_eq_true', decide_eq_false_iff_not] at hnot
  · intro ⟨ht, hbefore⟩
    have hfind : (liveSlots [] (dirSlots m b l)).find? (fun x => TakenFor name x) = some x := by
      refine find?_eq_some_iff_append.mpr ⟨decide_eq_true ht, (liveSlots [] (dirSlots m b l)).take i,
        (liveSlots [] (dirSlots m b l)).drop (i + 1), ?_, fun z hz => ?_⟩
      · rw [← hxi, getElem_cons_drop hi, take_append_drop]
      · rw [Bool.not_eq_true', decide_eq_false_iff_not]
        exact hbefore z hz
    rw [findLive, hfind, map_some]

end Live

/-! ## Agreement -/

/-- When every listed name leads back to its entry. -/
theorem listed_resolves_iff {g : Statics} {d : Sectors} {node : FatNode} {m : Nat} {l : List Nat}
    (h : DirChain g d node.inode l) (hm : fat32ClusterSizeBytes g = 32 * m) (hmount : g.mounted = true)
    (hdir : node.isDir = true) :
    (∀ i name ino, Settles (fun fuel => fat32Readdir fuel g d node i) (some (name, ino)) →
      ∃ x, (liveSlots [] (dirSlots m (fat32ReadDirectoryCluster g d) l))[i]? = some x ∧
        Settles (fun fuel => fat32FindEntryInDir fuel g d node.inode name) (some x.2) ∧
        Settles (fun fuel => fat32Finddir fuel g d node name) (some (foundNode name x.2))) ↔
    ∀ i x, (liveSlots [] (dirSlots m (fat32ReadDirectoryCluster g d) l))[i]? = some x →
      TakenFor (listedName x) x ∧
      ∀ y ∈ (liveSlots [] (dirSlots m (fat32ReadDirectoryCluster g d) l)).take i, ¬ TakenFor (listedName x) y := by
  have hfind := fun name => findEntry_live h hm name []
  constructor
  · intro hall i x hx
    have hlist := readdir_live h hm hmount hdir i
    rw [hx, map_some] at hlist
    obtain ⟨x', hx', hres, -⟩ := hall i _ _ hlist
    rw [hx] at hx'
    cases hx'
    exact (findLive_iff h.nodup hx _).mp ((hfind _).unique hres)
  · intro hall i name ino hlist
    obtain ⟨x, hx, heq⟩ := map_eq_some_iff.mp ((readdir_live h hm hmount hdir i).unique hlist)
    cases heq
    have hres := hfind (listedName x)
    rw [(findLive_iff h.nodup hx _).mpr (hall i x hx)] at hres
    exact ⟨x, hx, hres, hres.map _⟩

/-! ## Two directories

Sectors of one cluster each: the FAT in sector 1, cluster 2 in sector 2. -/

def smallVolume : Statics := ⟨512, 1, 1, 1, 1, 2, 2, true, false⟩

def smallDirectory : FatNode := ⟨[], true, 2, 0⟩

/-- A short entry of a file with the start cluster 5 and 7 bytes. -/
def shortSlot (name : List UInt8) : Buf :=
  ((Buf.zero.putBytes 0 name).set 11 0x20).putU16 26 5 |>.putU32 28 7

/-- The long name "notes.text" for the short name "NOTES~1.TEX". -/
def notesSlot : Buf :=
  let b := ((Buf.zero.set 0 0x41).set 11 0x0F).set 13 247
  let b := (((b.putU16 1 110).putU16 3 111).putU16 5 116).putU16 7 101 |>.putU16 9 115
  let b := (((b.putU16 14 46).putU16 16 116).putU16 18 101).putU16 20 120 |>.putU16 22 116
  (b.putU16 28 0xFFFF).putU16 30 0xFFFF

def notesName : List UInt8 := [110, 111, 116, 101, 115, 46, 116, 101, 120, 116]

/-- The directory with the file "A". -/
def oneFileDisk : Sectors := fun lba =>
  if lba = 1 then Buf.zero.putU32 8 0x0FFFFFFF
  else if lba = 2 then Buf.zero.copy 0 (shortSlot [65, 32, 32, 32, 32, 32, 32, 32, 32, 32, 32]) 32
  else Buf.zero

/-- A directory of two clusters. The long name is in the last slot of the first
one, after 15 deleted entries, and the entry in the first slot of the second. -/
def splitNameDisk : Sectors := fun lba =>
  if lba = 1 then (Buf.zero.putU32 8 3).putU32 12 0x0FFFFFFF
  else if lba = 2 then Buf.copy (fun i => if i % 32 = 0 then 0xE5 else 0) 480 notesSlot 32
  else if lba = 3 then Buf.zero.copy 0 (shortSlot [78, 79, 84, 69, 83, 126, 49, 32, 84, 69, 88]) 32
  else Buf.zero

theorem oneFile_resolved : DirChain smallVolume oneFileDisk 2 [2] ∧
    Settles (fun fuel => fat32Readdir fuel smallVolume oneFileDisk smallDirectory 0) (some ([65], 5)) ∧
    ∃ x, (liveSlots [] (dirSlots 16 (fat32ReadDirectoryCluster smallVolume oneFileDisk) [2]))[0]? = some x ∧
      Settles (fun fuel => fat32FindEntryInDir fuel smallVolume oneFileDisk 2 [65]) (some x.2) ∧
      Settles (fun fuel => fat32Finddir fuel smallVolume oneFileDisk smallDirectory [65])
        (some (foundNode [65] x.2)) := by
  have hchain : DirChain smallVolume oneFileDisk smallDirectory.inode [2] := dirChain_of (n := 2) (by decide +kernel)
  have hlist := readdir_live hchain (m := 16) (by decide) rfl rfl 0
  have hname : ((liveSlots [] (dirSlots 16 (fat32ReadDirectoryCluster smallVolume oneFileDisk) [2]))[0]?.map fun x =>
      (listedName x, fat32EntryStartCluster x.2.entry)) = some ([65], 5) := by decide +kernel
  rw [hname] at hlist
  refine ⟨hchain, hlist, (listed_resolves_iff hchain (m := 16) (by decide) rfl rfl).mpr ?_ 0 [65] 5 hlist⟩
  intro i x hx
  have hone : (liveSlots [] (dirSlots 16 (fat32ReadDirectoryCluster smallVolume oneFileDisk) [2])).length = 1 := by
    decide +kernel
  have htaken : ((liveSlots [] (dirSlots 16 (fat32ReadDirectoryCluster smallVolume oneFileDisk) [2])).all
      fun x => TakenFor (listedName x) x) = true := by decide +kernel
  obtain rfl : i = 0 := by
    obtain ⟨hi, -⟩ := List.getElem?_eq_some_iff.mp hx
    rw [hone] at hi
    exact Nat.lt_one_iff.mp hi
  have hself := all_eq_true.mp htaken x (mem_of_getElem? hx)
  exact ⟨of_decide_eq_true hself, fun y hy => absurd hy not_mem_nil⟩

/-- The entry is listed under its long name, and there is no such name. -/
theorem splitName_lost : DirChain smallVolume splitNameDisk 2 [2, 3] ∧
    Settles (fun fuel => fat32Readdir fuel smallVolume splitNameDisk smallDirectory 0) (some (notesName, 5)) ∧
    Settles (fun fuel => fat32Finddir fuel smallVolume splitNameDisk smallDirectory notesName) none := by
  have hchain : DirChain smallVolume splitNameDisk smallDirectory.inode [2, 3] :=
    dirChain_of (n := 3) (by decide +kernel)
  have hlist := readdir_live hchain (m := 16) (by decide) rfl rfl 0
  have hname : ((liveSlots [] (dirSlots 16 (fat32ReadDirectoryCluster smallVolume splitNameDisk) [2, 3]))[0]?.map
      fun x => (listedName x, fat32EntryStartCluster x.2.entry)) = some (notesName, 5) := by decide +kernel
  have hfind := findEntry_live hchain (m := 16) (by decide) notesName []
  have hnone : findLive notesName []
      (dirSlots 16 (fat32ReadDirectoryCluster smallVolume splitNameDisk) [2, 3]) = none :=
    isNone_iff_eq_none.mp (by decide +kernel)
  rw [hname] at hlist
  rw [hnone] at hfind
  exact ⟨hchain, hlist, hfind.map _⟩

end LiwusOS.Fat
