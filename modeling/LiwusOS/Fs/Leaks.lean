import LiwusOS.Fs.Rename

/-! # Leaked blocks

The converse of the no-cross-link invariant: every block in use lies on the chain
of an entry below the root, or of the root directory itself. It survives every
operation that keeps the volume consistent, but for one: `sdfs_delete` gives back
only the first block of a directory, and an empty directory that once grew keeps
its further blocks. -/

namespace LiwusOS.Fs
open LiwusOS.Lib Function Relation Option

/-- Every block in use above the root block is on the chain of a listed entry or
of the root directory. -/
def NoLeaks (s : Volume) : Prop :=
  ∀ b, s.rootBlock < b → sdfsBitmapTest s b = true →
    (∃ l, Listed s l ∧ InChain s l b) ∨ OnChain (sdfsGetNextBlock s) 0 s.rootBlock b

/-- The operations that create, write and delete by path, and the clock. -/
def FsOp.ByPath : FsOp → Prop
  | .createFile _ => True
  | .createDir _ => True
  | .writeFile _ _ _ _ => True
  | .delete _ => True
  | .tick _ => True
  | _ => False

/-- If the path leads to an empty directory, it has one block. -/
def OneBlockAt (s : Volume) (path : CStr) : Prop :=
  ∀ fuel l, sdfsResolveFull fuel s path = some (.found l) → l.entry.type = sdfsTypeDir →
    (∃ n, sdfsDirCountEntries s n l.entry.start = some 0) → sdfsGetNextBlock s l.entry.start = 0

def FsOp.FreesAll (s : Volume) : FsOp → Prop
  | .delete path => OneBlockAt s path
  | _ => True

def TidyStep (s s' : Volume) : Prop := ∃ op : FsOp, op.ByPath ∧ op.Safe s ∧ op.FreesAll s ∧ op.Run s s'

/-! ## The invariant -/

/-- A consistent volume in which nothing is lost. -/
structure Tidy (s : Volume) (v : Tree) : Prop where
  consistent : Consistent s v none
  covered : Covered s v
  whole : v.Whole s.rootBlock

section

variable {s s' : Volume} {v : Tree}

variable {d : Nat} {dir : Dir} {v' : Tree} {l : Located}

theorem Tree.Reach.dirReach (h : Consistent s v none) (hd : v.Reach s.rootBlock d) :
    ∀ dir, v d = some (.dir dir) → DirReach s d := by
  induction hd with
  | root => exact fun _ _ => .root
  | @entry d0 dir0 l _ hv0 hl ih =>
    intro dir hv
    have hlists : Lists s d0 l := (h.rep.lists hv0).mpr hl
    rcases h.linked.target ⟨d0, dir0, hv0, hl⟩ nofun with ⟨-, c, hc⟩ | ⟨ht, -⟩
    · rw [hv] at hc
      cases hc
    · exact (ih dir0 hv0).entry hlists ht

/-- The chain of the root directory is its list of blocks. -/
theorem Consistent.rootChain (h : Consistent s v none) (hv : v s.rootBlock = some (.dir dir))
    {b : Nat} : OnChain (sdfsGetNextBlock s) 0 s.rootBlock b ↔ b ∈ (Obj.dir dir).blocks := by
  have hchain : Chain (sdfsGetNextBlock s) 0 s.rootBlock (Obj.dir dir).blocks :=
    (h.rep.shape hv).chain.congr fun x hx => next_eq (h.rep.owned hv x hx).1
  exact hchain.onChain_iff

theorem Tidy.noLeaks (h : Tidy s v) : NoLeaks s := by
  intro b hb hused
  obtain ⟨a, o, ha, hm⟩ := h.covered b (hb.le) hused
  cases h.whole a o ha with
  | root =>
    obtain ⟨dir, hdir⟩ := h.consistent.linked.rootDir
    rw [hdir] at ha
    cases ha
    exact .inr ((h.consistent.rootChain hdir).mpr hm)
  | @entry d dir l hd hv hl =>
    have hlists : Lists s d l := (h.consistent.rep.lists hv).mpr hl
    exact .inl ⟨l, ⟨d, hd.dirReach h.consistent dir hv, hlists⟩,
      (h.consistent.inChain ⟨d, dir, hv, hl⟩).mpr ⟨o, ha, hm⟩⟩

theorem Tidy.becomes (h : Tidy s v) (hb : Becomes s v s' v') (he : Edit v v') : Tidy s' v' := by
  have hroot := root_of_geo hb.geo
  exact ⟨hb.consistent, hb.covered h.covered, hroot ▸ he.whole h.whole⟩

/-- A directory of one block. -/
theorem Consistent.dir_one_iff (h : Consistent s v none) {b : Nat} (hv : v b = some (.dir dir)) :
    sdfsGetNextBlock s b = 0 ↔ (Obj.dir dir).blocks = [b] := by
  have hchain := (h.rep.shape hv).chain
  rw [next_eq (h.rep.start_owned hv).1]
  cases hblocks : (Obj.dir dir).blocks with
  | nil =>
    have hm := (h.rep.shape hv).start_mem
    rw [hblocks] at hm
    cases hm
  | cons x rest =>
    rw [hblocks] at hchain
    obtain ⟨rfl, h0, htail⟩ := hchain
    constructor
    · intro hnext
      cases rest with
      | nil => rfl
      | cons y rest =>
        rw [hnext] at htail
        exact absurd htail.1.symm htail.2.1
    · intro hone
      cases (List.cons.inj hone).2
      exact htail

/-- What the condition on a deleted directory says about the tree. -/
theorem oneBlockAt_iff (h : Consistent s v none) {path : CStr} {name : List UInt8}
    (he : Entered s v path d name dir l) (hleaf : ∀ dir, v l.entry.start = some (.dir dir) → dirRecords dir = []) :
    OneBlockAt s path ↔
      ∀ dir, v l.entry.start = some (.dir dir) → (Obj.dir dir).blocks = [l.entry.start] := by
  have hfull := full_settles h path
  rw [he.full] at hfull
  constructor
  · intro hone dir2 hdir2
    rw [← h.dir_one_iff hdir2]
    have ht : l.entry.type = sdfsTypeDir := by
      rcases h.linked.target he.record (by simp) with ⟨-, c, hc⟩ | ⟨ht, -⟩
      · rw [hdir2] at hc
        cases hc
      · exact ht
    have hempty : dirEntries dir2 = [] := by rw [dirEntries, hleaf dir2 hdir2]; rfl
    have hcount := count_settles (h.rep.dirAt hdir2).1 (h.rep.dirAt hdir2).2.2.1
      (fun e (hm : e ∈ dirEntries dir2) => by rw [hempty] at hm; cases hm)
    rw [hempty] at hcount
    obtain ⟨N, hN⟩ := hfull.enough
    obtain ⟨M, hM⟩ := hcount.enough
    exact hone N l (hN N (Nat.le_refl N)) ht ⟨M, hM M (Nat.le_refl M)⟩
  · intro hone fuel l' hl' ht _
    cases hfull.only fuel _ hl'
    obtain ⟨dir2, hdir2⟩ := h.linked.dirTarget (by simp) he.record ht
    exact (h.dir_one_iff hdir2).mpr (hone dir2 hdir2)

/-- A deleted object whose blocks are not all given back is lost. -/
theorem Detached.leaks (h : Detached s v s' v' d l)
    (hc : Consistent s v none) (hl : v.Record l) {o : Obj} (ho : v l.entry.start = some o) {x : Nat}
    (hx : x ∈ o.blocks) (hkept : x ∉ o.freed l.entry.start) : ¬ NoLeaks s' := by
  intro hno
  have hroot := root_of_geo h.geo
  have hused : s'.store.used x = true := (h.used o ho x).mpr ⟨(hc.rep.owned ho x hx).2, hkept⟩
  -- no object that is left has the block
  have hgone : ∀ a o', v' a = some o' → x ∉ o'.blocks := by
    intro a o' ha hm
    obtain ⟨dir, dir', hv, -, hun, htree⟩ := h.tree
    rw [htree] at ha
    by_cases had : a = d
    · subst had
      rw [update_self] at ha
      cases ha
      have hm' : x ∈ (Obj.dir dir).blocks := show x ∈ dir.map Prod.fst from hun.blocks ▸ hm
      have heq := hc.rep.disjoint hv ho hm' hx
      have hmem := hun.mem
      rw [h.leaf dir (heq ▸ hv)] at hmem
      cases hmem
    · rw [update_of_ne had] at ha
      by_cases hal : a = l.entry.start
      · rw [hal, update_self] at ha
        cases ha
      · rw [update_of_ne hal] at ha
        exact hal (hc.rep.disjoint ha ho hm hx)
  have habove : s'.rootBlock < x := by
    rw [hroot]
    refine Nat.lt_of_le_of_ne (hc.rep.owned ho x hx).1.1 fun heq => ?_
    obtain ⟨dir, hdir⟩ := hc.linked.rootDir
    exact hc.linked.rootFree hl nofun
      (hc.rep.disjoint ho hdir hx (heq ▸ (hc.rep.shape hdir).start_mem))
  rcases hno x habove hused with ⟨l', hl', hin⟩ | hin
  · obtain ⟨o', ho', hm⟩ := (h.consistent.inChain (hl'.record h.consistent)).mp hin
    exact hgone _ o' ho' hm
  · obtain ⟨dir, hdir⟩ := h.consistent.linked.rootDir
    exact hgone _ _ hdir ((h.consistent.rootChain hdir).mp hin)

/-- `sdfs_delete` gives back everything exactly when the object is a file or a
directory of one block. -/
theorem Tidy.deleted (h : Tidy s v) {path : CStr} {name : List UInt8} (he : Entered s v path d name dir l)
    (hdet : Detached s v s' v' d l) :
    (OneBlockAt s path → Tidy s' v') ∧ (NoLeaks s' → OneBlockAt s path) := by
  have hc := h.consistent
  obtain ⟨o, ho⟩ := ne_none_iff_exists'.mp (hc.named he.record)
  have hroot := root_of_geo hdet.geo
  rw [oneBlockAt_iff hc he hdet.leaf]
  constructor
  · intro hone
    have hfreed : ∀ x ∈ o.blocks, x ∈ o.freed l.entry.start := by
      cases o with
      | file c => exact fun x hx => hx
      | dir dir2 =>
        rw [hone dir2 ho]
        exact fun x hx => hx
    exact ⟨hdet.consistent, hdet.covered ho hfreed h.covered, hroot ▸ hdet.toDetach.whole h.whole⟩
  · intro hno dir2 hdir2
    -- every block of the directory is its first one
    have hall : ∀ x ∈ (Obj.dir dir2).blocks, x = l.entry.start := by
      intro x hx
      by_contra hne
      exact hdet.leaks hc he.record hdir2 hx (fun hm => hne (List.mem_singleton.mp hm)) hno
    have hnd : ((Obj.dir dir2).blocks).Nodup := (hc.rep.dirAt hdir2).1.nodup
    cases hblocks : (Obj.dir dir2).blocks with
    | nil =>
      have hm := (hc.rep.shape hdir2).start_mem
      rw [hblocks] at hm
      cases hm
    | cons x rest =>
      rw [hblocks] at hall hnd
      cases rest with
      | nil => rw [hall x (.head _)]
      | cons y rest =>
        have hxy : x = y := (hall x (by simp)).trans (hall y (by simp)).symm
        exact absurd (List.mem_cons.mpr (.inl hxy)) (List.nodup_cons.mp hnd).1

end

/-! ## Runs -/

theorem Tidy.step {s s' : Volume} {v : Tree} (h : Tidy s v) (hstep : TidyStep s s') : ∃ v', Tidy s' v' := by
  obtain ⟨op, hpath, hsafe, hfrees, fuel, hrun⟩ := hstep
  cases op with
  | createFile path =>
    obtain ⟨r, t, v', hset, hbec, hedit⟩ := createPath_settles h.consistent path (.inl rfl) sdfsDefaultPerm
    cases hset.map_only _ hrun
    exact ⟨v', h.becomes hbec hedit⟩
  | createDir path =>
    obtain ⟨r, t, v', hset, hbec, hedit⟩ :=
      createPath_settles h.consistent path (.inr rfl) (sdfsDefaultPerm ||| sdfsPermExec)
    cases hset.map_only _ hrun
    exact ⟨v', h.becomes hbec hedit⟩
  | writeFile junk path buffer size =>
    obtain ⟨r, t, v', hset, hbec, hedit⟩ := writeFile_settles h.consistent buffer hsafe
    cases hset.map_only _ hrun
    exact ⟨v', h.becomes hbec hedit⟩
  | delete path =>
    rcases delete_settles h.consistent path (LastRecordAt.lastAt h.consistent hsafe) with
      hset | ⟨d, name, dir, l, t, v', he, hset, hdet⟩
    · cases hset.map_only _ hrun
      exact ⟨v, h⟩
    · cases hset.map_only _ hrun
      exact ⟨v', (h.deleted he hdet).1 hfrees⟩
  | tick now =>
    cases hrun
    exact ⟨v, h.consistent.tick now, h.covered, h.whole⟩
  | _ => exact hpath.elim

theorem freshVolume_tidy (disk : Disk) (identify : Nat) :
    Tidy (freshVolume disk identify) (emptyTree (freshVolume disk identify).rootBlock) := by
  refine ⟨freshVolume_consistent disk identify, fun x hx hu => ?_, fun a o ha => ?_⟩
  · rw [freshVolume_used, decide_eq_true_eq] at hu
    have hroot : x = (freshVolume disk identify).rootBlock := by omega
    exact ⟨_, _, if_pos rfl, List.mem_singleton.mpr hroot⟩
  · obtain ⟨rfl, -⟩ := emptyTree_some ha
    exact .root

theorem tidyRun_tidy {disk : Disk} {identify : Nat} {s : Volume}
    (h : ReflTransGen TidyStep (freshVolume disk identify) s) : ∃ v, Tidy s v := by
  induction h with
  | refl => exact ⟨_, freshVolume_tidy disk identify⟩
  | tail _ hstep ih =>
    obtain ⟨v, hv⟩ := ih
    exact hv.step hstep

/-- In every run of safe operations that deletes no directory of several blocks
nothing leaks. In a state of such a run a deletion leaks exactly when it deletes
such a directory. -/
theorem noLeaks_of_tidy {disk : Disk} {identify : Nat} {s : Volume}
    (h : ReflTransGen TidyStep (freshVolume disk identify) s) :
    NoLeaks s ∧ ∀ path s', LastRecordAt s path → (∃ fuel, sdfsDelete fuel s path = some (0, s')) →
      (NoLeaks s' ↔ OneBlockAt s path) := by
  obtain ⟨v, hv⟩ := tidyRun_tidy h
  refine ⟨hv.noLeaks, fun path s' hlast ⟨fuel, hrun⟩ => ?_⟩
  rcases delete_settles hv.consistent path (LastRecordAt.lastAt hv.consistent hlast) with
    hset | ⟨d, name, dir, l, t, v', he, hset, hdet⟩
  · cases hset.only fuel _ hrun
  · cases hset.only fuel _ hrun
    obtain ⟨htidy, hone⟩ := hv.deleted he hdet
    exact ⟨hone, fun h => (htidy h).noLeaks⟩

/-- A file is overwritten, and an empty directory is deleted. -/
theorem noLeaks_tinyVolume : ∃ s1 s2 s3 s, TinyRun s1 s2 s3 s ∧ ReflTransGen TidyStep tinyVolume s ∧ NoLeaks s := by
  obtain ⟨s1, s2, s3, s, h⟩ := exists_tinyRun
  have hone : OneBlockAt s3 pathB := by
    obtain ⟨l, hset, -, -, hnext⟩ := h.record
    intro fuel l' hl' _ _
    cases hset.only fuel _ hl'
    exact hnext
  have hrun : ReflTransGen TidyStep tinyVolume s :=
    .tail (.tail (.tail (.single ⟨.createFile pathA, trivial, trivial, trivial, h.create⟩)
      ⟨.writeFile noEntry pathA Buf.zero 100, trivial, h.writeSafe, trivial, h.write⟩)
      ⟨.createDir pathB, trivial, trivial, trivial, h.createDir⟩)
      ⟨.delete pathB, trivial, h.lastRecordAt, hone, h.delete⟩
  exact ⟨s1, s2, s3, s, h, hrun, (noLeaks_of_tidy hrun).1⟩

/-- What a listing finds in a block: the type and the start block. -/
def Deser.named : Deser → Option (UInt8 × Nat)
  | .entry e _ => some (e.type, e.start)
  | _ => none

/-- "/a" and "/b" created and "/a" deleted. Of the root block's two records the
first is a tombstone, and the second is read from inside the deleted one: it has
no type, and its start block 788 is the end of a chain. Block 20, of "/b", is in use. -/
theorem hiddenRun_eval : ∃ s1 ∈ FsOp.exec 8 tinyVolume (.createFile pathA),
    ∃ s2 ∈ FsOp.exec 8 s1 (.createFile pathB), ∃ s ∈ FsOp.exec 8 s2 (.delete pathA),
      s.rootBlock = 18 ∧ sdfsBitmapTest s 20 = true ∧ sdfsGetNextBlock s 788 = 0 ∧
      dirEntryCount (sdfsReadBlock s 18) = 2 ∧ blockNext (sdfsReadBlock s 18) = 0 ∧
      isTombstone (sdfsReadBlock s 18 6) = true ∧
      (sdfsEntryDeserialize (sdfsReadBlock s 18) 8 4088).named = some (97, 788) := by decide +kernel

/-- What the listing of a block with a tombstone and one record shows. -/
theorem scanIndex_tombstone_entry {buf : Block} {e : Entry} {size : Nat} (hdead : isTombstone (buf 6) = true)
    (hlive : sdfsEntryDeserialize buf 8 4088 = .entry e size) (index : Nat) :
    scanIndex buf 2 6 4090 index = if index = 0 then .inl (e, 8) else .inr (index - 1) := by
  have hfirst : sdfsEntryDeserialize buf 6 4090 = .tombstone := by
    rw [sdfsEntryDeserialize, if_neg (by decide), if_pos hdead]
  rw [scanIndex, if_neg (by decide), hfirst]
  dsimp only
  rw [scanIndex, if_neg (by decide), hlive]
  cases index with
  | zero => rfl
  | succ index => rfl

/-- Deleting "/a" hides "/b", and its block is lost. -/
theorem delete_leaks : ¬ ∀ disk identify s,
    ReflTransGen (fun s s' => ∃ op : FsOp, op.ByPath ∧ op.Run s s') (freshVolume disk identify) s →
      NoLeaks s := by
  intro hall
  obtain ⟨s1, hs1, s2, hs2, s, hs3, hroot, hused, hnext, hcount, hlast, hdead, hnamed⟩ := hiddenRun_eval
  have hno := hall _ 168 s (.tail (.tail (.single ⟨.createFile pathA, trivial, 8, hs1⟩)
    ⟨.createFile pathB, trivial, 8, hs2⟩) ⟨.delete pathA, trivial, 8, hs3⟩)
  obtain ⟨e, size, hentry, htype, hstart⟩ : ∃ e size,
      sdfsEntryDeserialize (sdfsReadBlock s 18) 8 4088 = .entry e size ∧ e.type = 97 ∧ e.start = 788 := by
    cases hd : sdfsEntryDeserialize (sdfsReadBlock s 18) 8 4088 with
    | entry e size =>
      rw [hd] at hnamed
      exact ⟨e, size, rfl, Prod.mk.inj (some.inj hnamed)⟩
    | _ =>
      rw [hd] at hnamed
      cases hnamed
  -- the root directory lists one record
  have hlists : ∀ l, Lists s 18 l → l.entry = e := by
    rintro l ⟨fuel, index, hl⟩
    cases fuel with
    | zero => cases hl
    | succ fuel =>
      rw [sdfsDirFindByIndex, if_neg (by decide)] at hl
      dsimp only at hl
      rw [hcount, if_neg (by decide)] at hl
      have hscan := scanIndex_tombstone_entry hdead hentry index
      rw [show dirDataStart = 6 from rfl, show dirDataSize = 4090 from rfl, hscan] at hl
      split at hl
      · rename_i h0
        split at h0
        · cases h0
          cases hl
          rfl
        · cases h0
      · rw [hlast] at hl
        cases fuel with
        | zero => cases hl
        | succ fuel =>
          rw [sdfsDirFindByIndex, if_pos rfl] at hl
          cases hl
  have hreach : ∀ d, DirReach s d → d = 18 := by
    intro d hd
    induction hd with
    | root => exact hroot
    | entry _ hl ht ih =>
      rw [ih] at hl
      rw [hlists _ hl, htype] at ht
      exact absurd ht (by decide)
  rcases hno 20 (by rw [hroot]; decide) hused with ⟨l, ⟨d, hd, hl⟩, hin⟩ | hin
  · rw [hreach d hd] at hl
    rw [InChain, hlists l hl, hstart] at hin
    have hchain : Chain (sdfsGetNextBlock s) 0 788 [788] := ⟨rfl, by decide, hnext⟩
    have hmem := (hchain.onChain_iff).mp hin
    exact absurd hmem (by decide)
  · have hchain : Chain (sdfsGetNextBlock s) 0 18 [18] := ⟨rfl, by decide, hlast⟩
    rw [hroot] at hin
    have hmem := (hchain.onChain_iff).mp hin
    exact absurd hmem (by decide)

end LiwusOS.Fs
