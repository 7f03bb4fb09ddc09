import LiwusOS.Fs.Format

/-! # No cross-linked or dangling blocks

Runs of SDFS operations on a freshly formatted volume. As long as every
overwrite fits and every record removed is the last one of its block, each block
on the chain of a listed entry is marked used, lies above the root block and
belongs to that entry alone. `sdfs_write_file` frees the old chain before it
knows that the new one fits, and when it does not fit the entry is left pointing
at free blocks. -/

namespace LiwusOS.Fs
open LiwusOS.Lib Relation Option

/-! ## Operations -/

inductive FsOp where
  | createFile (path : CStr)
  | createDir (path : CStr)
  | writeFile (junk : Entry) (path : CStr) (buffer : Buf) (size : UInt32)
  | delete (path : CStr)
  | rename (oldPath newPath : CStr)
  | setPermissions (path : CStr) (perm : UInt16)
  | vfsCreate (dir : Node) (name : CStr)
  | write (node : Node) (offset size : UInt32) (buffer : Buf)
  | truncate (node : Node)
  | tick (now : UInt32)

/-- One operation with a bound on its loops; results of no interest here. -/
def FsOp.exec (fuel : Nat) (s : Volume) : FsOp → Option Volume
  | .createFile path => (sdfsCreateFile fuel s path).map Prod.snd
  | .createDir path => (sdfsCreateDir fuel s path).map Prod.snd
  | .writeFile junk path buffer size => (sdfsWriteFile fuel junk s path buffer size).map Prod.snd
  | .delete path => (sdfsDelete fuel s path).map Prod.snd
  | .rename oldPath newPath => (sdfsRename fuel s oldPath newPath).map Prod.snd
  | .setPermissions path perm => (sdfsSetPermissions fuel s path perm).map Prod.snd
  | .vfsCreate dir name => (sdfsVfsCreate fuel s dir name.bytes).map Prod.snd
  | .write node offset size buffer => (sdfsWrite fuel s node offset size buffer).map fun r => r.2.2
  | .truncate node => (sdfsTruncate fuel s node).map Prod.snd
  | .tick now => some { s with timerTicks := now }

/-- `op` returns and leaves `s'`. -/
def FsOp.Run (op : FsOp) (s s' : Volume) : Prop := ∃ fuel, op.exec fuel s = some s'

/-! ## The property -/

/-- `l` is a record of the directory at `d`, as `sdfs_readdir` lists it. -/
def Lists (s : Volume) (d : Nat) (l : Located) : Prop :=
  ∃ fuel index, sdfsDirFindByIndex s fuel d index = some (some l)

/-- The directories below the root. -/
inductive DirReach (s : Volume) : Nat → Prop
  | root : DirReach s s.rootBlock
  | entry {d : Nat} {l : Located} : DirReach s d → Lists s d l → l.entry.type = sdfsTypeDir →
      DirReach s l.entry.start

/-- An entry reachable from the root. -/
def Listed (s : Volume) (l : Located) : Prop := ∃ d, DirReach s d ∧ Lists s d l

/-- `b` lies on the next-pointer chain of `l`. -/
def InChain (s : Volume) (l : Located) (b : Nat) : Prop := OnChain (sdfsGetNextBlock s) 0 l.entry.start b

structure NoCrossLinks (s : Volume) : Prop where
  used : ∀ l b, Listed s l → InChain s l b → sdfsBitmapTest s b = true
  above : ∀ l b, Listed s l → InChain s l b → s.rootBlock < b
  unique : ∀ l l' b, Listed s l → Listed s l' → InChain s l b → InChain s l' b → l = l'

variable {b d : Nat} {l : Located}

theorem ObjAt.chain {σ : Store} {o : Obj} (h : ObjAt σ b o) : Chain σ.next 0 b o.blocks := by
  cases o with
  | file c => exact h.1
  | dir dir => exact h.1.chain

section

variable {s : Volume} {v : Tree}

theorem Rep.lists (h : Rep s v) {dir : Dir} (hv : v d = some (.dir dir)) : Lists s d l ↔ l ∈ dirRecords dir := by
  have hsettle := fun i => index_settles i (h.dirAt hv).1 (h.dirAt hv).2.2.1
  constructor
  · rintro ⟨fuel, index, hr⟩
    exact List.mem_of_getElem? ((hsettle index).only fuel _ hr).symm
  · intro hm
    obtain ⟨index, hi⟩ := List.mem_iff_getElem?.mp hm
    obtain ⟨N, hN⟩ := (hsettle index).enough
    exact ⟨N, index, by rw [hN N (Nat.le_refl N), hi]⟩

section
variable (h : Consistent s v none)
include h

theorem DirReach.dir (hd : DirReach s d) : ∃ dir, v d = some (.dir dir) := by
  induction hd with
  | root => exact h.linked.rootDir
  | entry hd hl ht ih =>
    obtain ⟨dir, hv⟩ := ih
    exact h.linked.dirTarget nofun ⟨_, dir, hv, (h.rep.lists hv).mp hl⟩ ht

theorem Listed.record (hl : Listed s l) : v.Record l := by
  obtain ⟨d, hd, hl⟩ := hl
  obtain ⟨dir, hv⟩ := hd.dir h
  exact ⟨d, dir, hv, (h.rep.lists hv).mp hl⟩

/-- The chain of a record is its object's list of blocks. -/
theorem Consistent.inChain (hl : v.Record l) : InChain s l b ↔ ∃ o, v l.entry.start = some o ∧ b ∈ o.blocks := by
  obtain ⟨o, ho⟩ := ne_none_iff_exists'.mp (h.named hl)
  have hchain : Chain (sdfsGetNextBlock s) 0 l.entry.start o.blocks :=
    (h.rep.shape ho).chain.congr fun x hx => next_eq (h.rep.owned ho x hx).1
  rw [InChain, hchain.onChain_iff]
  constructor
  · exact fun hb => ⟨o, ho, hb⟩
  · rintro ⟨o', ho', hb⟩
    rw [ho] at ho'
    cases ho'
    exact hb

theorem Consistent.noCrossLinks : NoCrossLinks s := by
  refine ⟨fun l b hl hb => ?_, fun l b hl hb => ?_, fun l l' b hl hl' hb hb' => ?_⟩
  · obtain ⟨o, ho, hb⟩ := (h.inChain (hl.record h)).mp hb
    exact (h.rep.owned ho b hb).2
  · obtain ⟨o, ho, hb⟩ := (h.inChain (hl.record h)).mp hb
    have hge := (h.rep.owned ho b hb).1.1
    -- the root block belongs to the root directory
    obtain ⟨dir, hdir⟩ := h.linked.rootDir
    refine Nat.lt_of_le_of_ne hge fun heq => ?_
    have hroot := h.rep.disjoint ho hdir hb (heq ▸ (h.rep.shape hdir).start_mem)
    exact h.linked.rootFree (hl.record h) nofun hroot
  · obtain ⟨o, ho, hb⟩ := (h.inChain (hl.record h)).mp hb
    obtain ⟨o', ho', hb'⟩ := (h.inChain (hl'.record h)).mp hb'
    exact h.linked.unique (hl.record h) (hl'.record h) nofun nofun (h.rep.disjoint ho ho' hb hb')

end

end

/-! ## The condition -/

/-- Clear bits among the volume's blocks. -/
def freeBlocks (s : Volume) : Nat := ((List.range s.totalBlocks).filter fun b => !sdfsBitmapTest s b).length

/-- The record a path leads to, if any, is the last one of its directory block. -/
def LastRecordAt (s : Volume) (path : CStr) : Prop :=
  ∀ fuel l, sdfsResolveFull fuel s path = some (.found l) →
    IsLastRecord (sdfsReadBlock s l.block) l.blockOffset

/-- A call of `sdfs_write_file` that cannot go wrong half-way. -/
structure WriteSafe (s : Volume) (junk : Entry) (path : CStr) (size : UInt32) : Prop where
  /-- Without a parent directory the uninitialised entry must not look like a file. -/
  noParent : ∀ fuel, sdfsResolveFull fuel s path = some .noParent → junk.type ≠ sdfsTypeFile
  /-- A new file fits, or nothing can be allocated at all. -/
  absent : ∀ fuel, sdfsResolveFull fuel s path = some .absent →
    blocksNeeded size.toNat ≤ freeBlocks s ∨ freeBlocks s = 0
  /-- A replaced file fits once its old chain is freed. -/
  found : ∀ fuel l, sdfsResolveFull fuel s path = some (.found l) → l.entry.type = sdfsTypeFile →
    IsLastRecord (sdfsReadBlock s l.block) l.blockOffset ∧
    ∃ c, Chain (sdfsGetNextBlock s) 0 l.entry.start c ∧ blocksNeeded size.toNat ≤ freeBlocks s + c.length

/-- The node's record is still listed where the node remembers it. -/
def NodeCurrent (s : Volume) (node : Node) : Prop :=
  ∃ l, Listed s l ∧ l.entry.type = sdfsTypeFile ∧ node.Caches l

def FsOp.Safe (s : Volume) : FsOp → Prop
  | .createFile _ => True
  | .createDir _ => True
  | .writeFile junk path _ size => WriteSafe s junk path size
  | .delete path => LastRecordAt s path
  | .rename oldPath _ => LastRecordAt s oldPath
  | .setPermissions path _ => LastRecordAt s path
  | .vfsCreate dir name => dir.isDir = true →
      DirReach s dir.inode ∧ 1 ≤ name.bytes.length ∧ name.bytes.length ≤ 255
  | .write node _ _ _ => node.isDir = false → NodeCurrent s node
  | .truncate node => node.isDir = false → NodeCurrent s node
  | .tick _ => True

def SafeStep (s s' : Volume) : Prop := ∃ op : FsOp, op.Safe s ∧ op.Run s s'

/-! ## Steps -/

section

variable {s : Volume} {v : Tree}

variable {path : CStr} {node : Node}

theorem Entered.full {name : List UInt8} {dir : Dir}
    (h : Entered s v path d name dir l) : treeFull v s.rootBlock path = .found l := by
  simp only [treeFull, h.parent, h.isDir, h.found]

/-- What a source-level condition on the resolved path says about the tree. -/
theorem full_enough (h : Consistent s v none) (path : CStr) :
    ∃ fuel, sdfsResolveFull fuel s path = some (treeFull v s.rootBlock path) := by
  obtain ⟨N, hN⟩ := (full_settles h path).enough
  exact ⟨N, hN N (Nat.le_refl N)⟩

theorem LastRecordAt.lastAt (h : Consistent s v none) (hl : LastRecordAt s path) : LastAt s v path := by
  intro d name dir l he
  obtain ⟨fuel, hfuel⟩ := full_enough h path
  exact hl fuel l (he.full ▸ hfuel)

/-- The chain the code walks is the file's. -/
theorem Consistent.chain_eq (h : Consistent s v none) {c c' : List Nat}
    (hc : v b = some (.file c)) (hc' : Chain (sdfsGetNextBlock s) 0 b c') : c' = c :=
  hc'.unique ((h.rep.shape hc).1.congr fun x hx => next_eq (h.rep.owned hc x hx).1)

theorem sdfsWriteFile_eq (fuel : Nat) (junk : Entry) (s : Volume) (path : CStr) (buffer : Buf) (size : UInt32)
    (hm : s.mounted = true) : sdfsWriteFile fuel junk s path buffer size =
      (sdfsResolveFull fuel s path).bind fun r =>
        match r with
        | .absent => writeBody fuel s path none buffer size
        | .noParent => sdfsWriteFile.overwrite fuel path buffer size s junk
        | .found l => sdfsWriteFile.overwrite fuel path buffer size s l.entry := by
  rw [sdfsWriteFile]
  exact if_neg (by simp [hm])

/-- An entry that is no file is not overwritten. -/
theorem overwrite_refused {e : Entry} (ht : e.type ≠ sdfsTypeFile) (path : CStr) (buffer : Buf) (size : UInt32) :
    Settles (sdfsWriteFile.overwrite · path buffer size s e) (0, s) :=
  Settles.congr (fun n => by rw [sdfsWriteFile_overwrite, if_pos ht]) (Settles.const _)

theorem writeFile_settles (h : Consistent s v none) {junk : Entry} (buffer : Buf) {size : UInt32}
    (hsafe : WriteSafe s junk path size) :
    ∃ r s' v', Settles (sdfsWriteFile · junk s path buffer size) (r, s') ∧
      Becomes s v s' v' ∧ Edit v v' := by
  by_cases hm : s.mounted = true
  · simp only [sdfsWriteFile_eq _ junk s path buffer size hm]
    have hfull := full_settles h path
    obtain ⟨fuel, hfuel⟩ := full_enough h path
    rcases treeFull_cases h path with ⟨hr, -⟩ | ⟨d, name, dir, hp, hv, hn, ⟨hr, hd⟩ | ⟨l, hr, hd⟩⟩
    · rw [hr] at hfull hfuel
      exact ⟨0, s, v, hfull.bind (overwrite_refused (hsafe.noParent fuel hfuel) path buffer size), h.becomes,
        .same⟩
    · rw [hr] at hfull hfuel
      rcases hsafe.absent fuel hfuel with hk | hk
      · rcases writeBody_absent h hp hv buffer hk with ⟨s', v', hset, hw⟩ | ⟨s', hset, hbec, -⟩
        · obtain ⟨e, c, -, -, -, -, -, hat⟩ := hw
          exact ⟨size, s', v', hfull.bind hset, hat.toBecomes, .attach hat.toAttach⟩
        · exact ⟨0, s', v, hfull.bind hset, hbec, .same⟩
      · exact ⟨0, s, v, hfull.bind (writeBody_full h hp none buffer size (List.length_eq_zero_iff.mp hk)),
          h.becomes, .same⟩
    · rw [hr] at hfull hfuel
      by_cases ht : l.entry.type = sdfsTypeFile
      · obtain ⟨hlast, c', hc', hk⟩ := hsafe.found fuel l hfuel ht
        obtain ⟨c, hc⟩ := h.file ⟨d, dir, hv, (dirFind_mem hd).1⟩ ht
        rw [h.chain_eq hc hc'] at hk
        rcases overwrite_settles h hp hv hd ht hc hlast buffer hk with
          ⟨s', v1, v', e, c', hset, hd, ha, hbec⟩ | ⟨s', v', -, -, hset, hd, hbec, -⟩
        · exact ⟨size, s', v', hfull.bind hset, hbec, .replace hd ha⟩
        · exact ⟨0, s', v', hfull.bind hset, hbec, .detach hd⟩
      · exact ⟨0, s, v, hfull.bind (overwrite_refused ht path buffer size), h.becomes, .same⟩
  · refine ⟨0, s, v, Settles.congr (fun n => ?_) (Settles.const _), h.becomes, .same⟩
    rw [sdfsWriteFile, if_pos (by simpa using hm)]

theorem Consistent.tick (h : Consistent s v none) (now : UInt32) : Consistent { s with timerTicks := now } v none :=
  ⟨⟨⟨h.layout.valid.cached, h.layout.valid.bitmapPos, h.layout.valid.bitmapEnd, h.layout.valid.journal,
    h.layout.valid.root, h.layout.valid.total, h.layout.valid.bytes, h.layout.valid.bits⟩, h.layout.reserved⟩,
    ⟨h.rep.shape, h.rep.owned, h.rep.disjoint⟩, h.linked⟩

theorem NodeCurrent.record (h : Consistent s v none) (hn : NodeCurrent s node) :
    ∃ d dir l, v d = some (.dir dir) ∧ l ∈ dirRecords dir ∧ l.entry.type = sdfsTypeFile ∧ node.Caches l := by
  obtain ⟨l, hl, ht, hc⟩ := hn
  obtain ⟨d, dir, hv, hm⟩ := hl.record h
  exact ⟨d, dir, l, hv, hm, ht, hc⟩

theorem write_keeps (h : Consistent s v none) (hn : node.isDir = false → NodeCurrent s node)
    (offset size : UInt32) (buffer : Buf) :
    ∃ n node' s', Settles (sdfsWrite · s node offset size buffer) (n, node', s') ∧ Keeps s s' := by
  by_cases hdir : node.isDir = true
  · exact ⟨0, node, s, .pos hdir (Settles.const _), h.keeps⟩
  have hfile : node.isDir = false := by simpa using hdir
  by_cases hoff : offset > node.length
  · refine ⟨0, node, s, Settles.congr (fun n => ?_) (Settles.const _), h.keeps⟩
    rw [sdfsWrite, if_neg hdir, if_pos hoff]
  · obtain ⟨d, dir, l, hv, hm, ht, hc⟩ := (hn hfile).record h
    obtain ⟨c, hfc⟩ := h.file ⟨d, dir, hv, hm⟩ ht
    obtain ⟨n, s', v', e, c', hset, hstep, -⟩ := write_step h hv hm hc hfc hoff size buffer
    exact ⟨n, _, s', hset, hstep.geo, v', hstep.consistent⟩

theorem truncate_keeps (h : Consistent s v none) (hn : node.isDir = false → NodeCurrent s node) :
    ∃ r s', Settles (sdfsTruncate · s node) (r, s') ∧ Keeps s s' := by
  by_cases hdir : node.isDir = true
  · exact ⟨node, s, .pos hdir (Settles.const _), h.keeps⟩
  · obtain ⟨d, dir, l, hv, hm, ht, hc⟩ := (hn (by simpa using hdir)).record h
    obtain ⟨s', v', e, hset, hstep, -⟩ := truncate_step h hv hm ht hc
    exact ⟨_, s', hset, hstep.geo, v', hstep.consistent⟩

/-- Every safe operation returns and keeps the volume consistent. -/
theorem FsOp.Safe.settles {op : FsOp} (hsafe : op.Safe s) (h : Consistent s v none) :
    ∃ s', Settles (op.exec · s) s' ∧ ∃ v', Consistent s' v' none := by
  cases op with
  | createFile path =>
    obtain ⟨r, t, v', hset, hbec, -⟩ := createPath_settles h path (.inl rfl) sdfsDefaultPerm
    exact ⟨t, hset.map _, v', hbec.consistent⟩
  | createDir path =>
    obtain ⟨r, t, v', hset, hbec, -⟩ :=
      createPath_settles h path (.inr rfl) (sdfsDefaultPerm ||| sdfsPermExec)
    exact ⟨t, hset.map _, v', hbec.consistent⟩
  | writeFile junk path buffer size =>
    obtain ⟨r, t, v', hset, hbec, -⟩ := writeFile_settles h buffer hsafe
    exact ⟨t, hset.map _, v', hbec.consistent⟩
  | delete path =>
    rcases delete_settles h path (LastRecordAt.lastAt h hsafe) with
      hset | ⟨d, name, dir, l, t, v', -, hset, hdet⟩
    · exact ⟨s, hset.map _, v, h⟩
    · exact ⟨t, hset.map _, v', hdet.consistent⟩
  | rename oldPath newPath =>
    obtain ⟨r, t, hset, hk⟩ := rename_keeps h oldPath newPath (LastRecordAt.lastAt h hsafe)
    exact ⟨t, hset.map _, hk.consistent⟩
  | setPermissions path perm =>
    obtain ⟨r, t, hset, hk⟩ := setPermissions_keeps h path perm (LastRecordAt.lastAt h hsafe)
    exact ⟨t, hset.map _, hk.consistent⟩
  | vfsCreate dir name =>
    obtain ⟨r, t, hset, hk⟩ := vfsCreate_keeps h fun hd =>
      ⟨(hsafe hd).1.dir h, (hsafe hd).2.1, (hsafe hd).2.2, name.noNul⟩
    exact ⟨t, hset.map _, hk.consistent⟩
  | write node offset size buffer =>
    obtain ⟨n, node', t, hset, hk⟩ := write_keeps h hsafe offset size buffer
    exact ⟨t, hset.map _, hk.consistent⟩
  | truncate node =>
    obtain ⟨r, t, hset, hk⟩ := truncate_keeps h hsafe
    exact ⟨t, hset.map _, hk.consistent⟩
  | tick now => exact ⟨_, .const _, v, h.tick now⟩

theorem Consistent.run {op : FsOp} {s' : Volume} {fuel : Nat} (h : Consistent s v none)
    (hrun : op.exec fuel s = some s') (hsafe : op.Safe s) : ∃ v', Consistent s' v' none := by
  obtain ⟨t, hset, hcons⟩ := hsafe.settles h
  cases hset.only fuel s' hrun
  exact hcons

end

/-- Every state of a run of safe operations is consistent. -/
theorem safeRun_consistent {disk : Disk} {identify : Nat} {s : Volume}
    (h : ReflTransGen SafeStep (freshVolume disk identify) s) : ∃ v, Consistent s v none := by
  induction h with
  | refl => exact ⟨_, freshVolume_consistent disk identify⟩
  | tail _ hstep ih =>
    obtain ⟨v, hv⟩ := ih
    obtain ⟨op, hsafe, fuel, hrun⟩ := hstep
    exact hv.run hrun hsafe

/-- In every run of safe operations from `sdfs_format` and `sdfs_mount` no block
is cross-linked or dangling. -/
theorem noCrossLinks_of_safe {disk : Disk} {identify : Nat} {s : Volume}
    (h : ReflTransGen SafeStep (freshVolume disk identify) s) : NoCrossLinks s := by
  obtain ⟨v, hv⟩ := safeRun_consistent h
  exact hv.noCrossLinks

/-- The path "/a". -/
def pathA : CStr := ⟨[47, 97], by decide +kernel⟩

/-- A disk of 21 blocks: the root directory is block 18, blocks 19 and 20 are free. -/
def tinyVolume : Volume := freshVolume (fun _ => Buf.zero) 168

/-- The path "/b". -/
def pathB : CStr := ⟨[47, 98], by decide +kernel⟩

/-- The stack garbage `sdfs_write_file` does not look at in the runs below. -/
def noEntry : Entry := ⟨0, [], 0, 0, 0, 0, 0, 0, 0⟩

/-- One answer of the resolver is its only one. -/
theorem Consistent.resolves_of_some {s : Volume} {v : Tree} {path : CStr} {fuel : Nat} (h : Consistent s v none)
    {r : Resolved} (hr : sdfsResolveFull fuel s path = some r) : Settles (sdfsResolveFull · s path) r := by
  have hset := full_settles h path
  rwa [← hset.only fuel r hr] at hset

def Resolved.foundWith (p : Located → Bool) : Resolved → Bool
  | .found l => p l
  | _ => false

/-- The path leads to the last record of its block, one with `p`. -/
theorem Consistent.lastRecord {s : Volume} {v : Tree} {path : CStr} {p : Located → Bool} (h : Consistent s v none)
    (hx : ∃ x ∈ sdfsResolveFull 8 s path,
      x.foundWith (fun l => IsLastRecord (sdfsReadBlock s l.block) l.blockOffset && p l) = true) :
    ∃ l, Settles (sdfsResolveFull · s path) (.found l) ∧
      IsLastRecord (sdfsReadBlock s l.block) l.blockOffset ∧ p l = true := by
  obtain ⟨x, hx, hfound⟩ := hx
  cases x with
  | noParent => cases hfound
  | absent => cases hfound
  | found l =>
    rw [Resolved.foundWith, Bool.and_eq_true, decide_eq_true_eq] at hfound
    exact ⟨l, h.resolves_of_some hx, hfound⟩

/-- Volumes on which "/a" is created, overwritten with 100 bytes, "/b" created as a
directory and deleted again. -/
structure TinyRun (s1 s2 s3 s : Volume) : Prop where
  create : (FsOp.createFile pathA).Run tinyVolume s1
  writeSafe : WriteSafe s1 noEntry pathA 100
  write : (FsOp.writeFile noEntry pathA Buf.zero 100).Run s1 s2
  createDir : (FsOp.createDir pathB).Run s2 s3
  record : ∃ l, Settles (sdfsResolveFull · s3 pathB) (.found l) ∧
    IsLastRecord (sdfsReadBlock s3 l.block) l.blockOffset ∧ l.entry.type = sdfsTypeDir ∧
      sdfsGetNextBlock s3 l.entry.start = 0
  delete : (FsOp.delete pathB).Run s3 s
  listed : ∃ l, Listed s l ∧ l.entry.name = [97]

theorem TinyRun.lastRecordAt {s1 s2 s3 s : Volume} (h : TinyRun s1 s2 s3 s) : LastRecordAt s3 pathB := by
  obtain ⟨l, hset, hlast, -⟩ := h.record
  intro fuel l' hl'
  cases hset.only fuel _ hl'
  exact hlast

set_option synthInstance.maxSize 400 in
theorem exists_tinyRun : ∃ s1 s2 s3 s, TinyRun s1 s2 s3 s := by
  obtain ⟨s1, hs1, s2, hs2, s3, hs3, s, hs4, hfree, ha, hb, hroot, found, hfound, l, rfl, hname⟩ :
      ∃ s1 ∈ FsOp.exec 8 tinyVolume (.createFile pathA),
      ∃ s2 ∈ FsOp.exec 8 s1 (.writeFile noEntry pathA Buf.zero 100), ∃ s3 ∈ FsOp.exec 8 s2 (.createDir pathB),
      ∃ s ∈ FsOp.exec 8 s3 (.delete pathB), 1 ≤ freeBlocks s1 ∧
        (∃ x ∈ sdfsResolveFull 8 s1 pathA,
          x.foundWith (fun l => IsLastRecord (sdfsReadBlock s1 l.block) l.blockOffset &&
          (l.entry.start ≠ 0 && sdfsGetNextBlock s1 l.entry.start = 0)) = true) ∧
        (∃ x ∈ sdfsResolveFull 8 s3 pathB,
          x.foundWith (fun l => IsLastRecord (sdfsReadBlock s3 l.block) l.blockOffset &&
          (l.entry.type = sdfsTypeDir && sdfsGetNextBlock s3 l.entry.start = 0)) = true) ∧
        s.rootBlock = 18 ∧ ∃ found ∈ sdfsDirFindByIndex s 2 18 0, ∃ l ∈ found, l.entry.name = [97] := by decide +kernel
  obtain ⟨v1, h1⟩ := (freshVolume_consistent (fun _ => Buf.zero) 168).run hs1 trivial
  obtain ⟨l1, hset1, hlast1, hp1⟩ := h1.lastRecord ha
  rw [Bool.and_eq_true, decide_eq_true_eq, decide_eq_true_eq] at hp1
  have hwrite : WriteSafe s1 noEntry pathA 100 := by
    refine ⟨fun fuel hr => ?_, fun fuel hr => ?_, fun fuel l hr _ => ?_⟩
    · cases hset1.only fuel _ hr
    · cases hset1.only fuel _ hr
    · cases hset1.only fuel _ hr
      exact ⟨hlast1, [l1.entry.start], ⟨rfl, hp1⟩, show 1 ≤ freeBlocks s1 + 1 by omega⟩
  obtain ⟨v2, h2⟩ := h1.run hs2 hwrite
  obtain ⟨v3, h3⟩ := h2.run hs3 trivial
  obtain ⟨l3, hset3, hlast3, hp3⟩ := h3.lastRecord hb
  rw [Bool.and_eq_true, decide_eq_true_eq, decide_eq_true_eq] at hp3
  exact ⟨s1, s2, s3, s, ⟨8, hs1⟩, hwrite, ⟨8, hs2⟩, ⟨8, hs3⟩, ⟨l3, hset3, hlast3, hp3⟩, ⟨8, hs4⟩,
    l, ⟨s.rootBlock, .root, 2, 0, hroot ▸ hfound⟩, hname⟩

theorem TinyRun.steps {s1 s2 s3 s : Volume} (h : TinyRun s1 s2 s3 s) : ReflTransGen SafeStep tinyVolume s3 :=
  .tail (.tail (.single ⟨.createFile pathA, trivial, h.create⟩)
    ⟨.writeFile noEntry pathA Buf.zero 100, h.writeSafe, h.write⟩) ⟨.createDir pathB, trivial, h.createDir⟩

theorem noCrossLinks_tinyVolume : ∃ s1 s2 s3 s, TinyRun s1 s2 s3 s ∧ ReflTransGen SafeStep tinyVolume s ∧
    NoCrossLinks s := by
  obtain ⟨s1, s2, s3, s, h⟩ := exists_tinyRun
  have hrun : ReflTransGen SafeStep tinyVolume s := h.steps.tail ⟨.delete pathB, h.lastRecordAt, h.delete⟩
  exact ⟨s1, s2, s3, s, h, hrun, noCrossLinks_of_safe hrun⟩

/-- **No operation hangs.** On every volume that safe operations have reached,
the loops of every further safe operation end, and no block is cross-linked then. -/
theorem safe_returns {disk : Disk} {identify : Nat} {s : Volume}
    (h : ReflTransGen SafeStep (freshVolume disk identify) s) {op : FsOp} (hsafe : op.Safe s) :
    ∃ s', Settles (op.exec · s) s' ∧ NoCrossLinks s' := by
  obtain ⟨v, hv⟩ := safeRun_consistent h
  obtain ⟨s', hset, v', hv'⟩ := hsafe.settles hv
  exact ⟨s', hset, hv'.noCrossLinks⟩

theorem safe_returns_tinyVolume : ∃ s1 s2 s3 s s', TinyRun s1 s2 s3 s ∧
    Settles (FsOp.exec · s3 (.delete pathB)) s' ∧ NoCrossLinks s' := by
  obtain ⟨s1, s2, s3, s, h⟩ := exists_tinyRun
  have hsafe : (FsOp.delete pathB).Safe s3 := h.lastRecordAt
  obtain ⟨s', hreturns⟩ := safe_returns h.steps hsafe
  exact ⟨s1, s2, s3, s, s', h, hreturns⟩

/-- "/a" written with one byte, then with 8185, which take three blocks: the
overwrite fails, and the entry's start block 19 is marked free. -/
theorem overwrite_leaves_dangling : ¬ ∀ disk identify s,
    ReflTransGen (fun s s' => ∃ op : FsOp, op.Run s s') (freshVolume disk identify) s →
      NoCrossLinks s := by
  intro hall
  obtain ⟨s1, hs1, s, hs2, hroot, hfree, found, hfound, l, rfl, hstart⟩ :
      ∃ s1 ∈ FsOp.exec 8 tinyVolume (.writeFile noEntry pathA Buf.zero 1),
      ∃ s ∈ FsOp.exec 8 s1 (.writeFile noEntry pathA Buf.zero 8185), s.rootBlock = 18 ∧ sdfsBitmapTest s 19 = false ∧
        ∃ found ∈ sdfsDirFindByIndex s 2 18 0, ∃ l ∈ found, l.entry.start = 19 := by decide +kernel
  have hlinks := hall _ 168 s (.tail (.single ⟨_, 8, hs1⟩) ⟨_, 8, hs2⟩)
  have hlisted : Listed s l := ⟨s.rootBlock, .root, 2, 0, hroot ▸ hfound⟩
  have hin : InChain s l 19 := hstart ▸ OnChain.head (by rw [hstart]; decide)
  rw [hlinks.used l 19 hlisted hin] at hfree
  cases hfree

end LiwusOS.Fs
