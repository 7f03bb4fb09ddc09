import LiwusOS.Fs.Consistency
import LiwusOS.Fs.DirMap
import LiwusOS.Lib.Walk

/-! # Renaming

A successful `sdfs_rename` takes one record out of a directory and puts one for
the same object into another. When the old record is the last one of its block
and the only one of its name, and the new path does not lead through the old
one, the object moves and everything else stays where it was. The source does
not look for the last case: a directory renamed to a path below itself is cut
off from the root. -/

namespace LiwusOS.Fs
open LiwusOS.Lib Function List LiwusOS.Fs.Tree Option

variable {path : CStr} {dir dir' : Dir} {e : Entry} {name : List UInt8} {b fuel : Nat}

/-! ## Statement -/

/-- The names that resolving a path looks up, one after another. -/
def pathNames (path : CStr) : List (List UInt8) :=
  parentComponents path.bytes ++ [(pathLeaf path.bytes).take 255]

/-- The entry a path resolves to, if it does. -/
def Resolved.found? : Resolved → Option Entry
  | .found l => some l.entry
  | _ => none

structure SameObject (e e' : Entry) : Prop where
  start : e'.startBlock = e.startBlock
  size : e'.fileSize = e.fileSize
  type : e'.type = e.type

/-- From `s` to `s'` the object at the old path has moved to the new one, and
nothing else has changed its path. -/
structure MovesOnly (s s' : Volume) (oldPath newPath : CStr) : Prop where
  moved : ∀ l, Settles (sdfsResolveFull · s oldPath) (.found l) →
    ∃ l', Settles (sdfsResolveFull · s' newPath) (.found l') ∧ SameObject l.entry l'.entry
  gone : oldPath ≠ newPath → ∀ l, ¬ Settles (sdfsResolveFull · s' oldPath) (.found l)
  reachable : ∀ l, Listed s l → ∃ l', Listed s' l' ∧ SameObject l.entry l'.entry
  others : ∀ path, ¬ pathNames oldPath <+: pathNames path → ¬ pathNames newPath <+: pathNames path →
    ∀ r, Settles (sdfsResolveFull · s path) r →
      ∃ r', Settles (sdfsResolveFull · s' path) r' ∧ r'.found? = r.found?

/-- The directory of a path has no two records of the path's last name. -/
def OnlyNamed (s : Volume) (path : CStr) : Prop :=
  ∀ d name, Settles (sdfsResolveParent · s path) (some (d, name)) →
    ∀ l l', Lists s d l → Lists s d l' → l.entry.name = name → l'.entry.name = name → l = l'

/-! ## The tree as a graph -/

def Tree.dirOf (v : Tree) (b : Nat) : Dir :=
  match v b with
  | some (.dir dir) => dir
  | _ => []

/-- The entry of a name in the directory at `b`. -/
def Tree.look (v : Tree) (b : Nat) (name : List UInt8) : Option Entry :=
  (dirEntries (v.dirOf b)).find? fun e => e.name = name

/-- The edges by name. -/
def Tree.nameEdge (v : Tree) (b : Nat) (name : List UInt8) : Option Nat := (v.look b name).map Entry.start

/-- The edges by record. -/
def Tree.recordEdge (v : Tree) (b : Nat) (l : Located) : Option Nat :=
  if l ∈ dirRecords (v.dirOf b) then some l.entry.start else none

variable {v : Tree} {s : Volume} {l : Located}

theorem Tree.dirOf_dir (hv : v b = some (.dir dir)) : v.dirOf b = dir := by
  rw [Tree.dirOf, hv]

theorem Tree.dir_of_record (h : l ∈ dirRecords (v.dirOf b)) : v b = some (.dir (v.dirOf b)) := by
  unfold Tree.dirOf at h ⊢
  cases hv : v b with
  | none =>
    rw [hv] at h
    cases h
  | some o =>
    cases o with
    | file c =>
      rw [hv] at h
      cases h
    | dir dir => rfl

theorem Tree.dirOf_update (v : Tree) (d : Nat) (dir : Dir) (b : Nat) :
    Tree.dirOf (update v d (some (.dir dir))) b = if b = d then dir else v.dirOf b := by
  unfold Tree.dirOf
  by_cases hb : b = d
  · rw [hb, update_self, if_pos rfl]
  · rw [update_of_ne hb, if_neg hb]

theorem Tree.recordEdge_some {c : Nat} :
    v.recordEdge b l = some c ↔ l ∈ dirRecords (v.dirOf b) ∧ l.entry.start = c := by
  rw [Tree.recordEdge]
  split
  · rename_i hm
    exact ⟨fun h => ⟨hm, some.inj h⟩, fun h => congrArg some h.2⟩
  · rename_i hm
    exact ⟨nofun, fun h => absurd h.1 hm⟩

theorem Tree.look_some (h : v.look b name = some e) : ∃ l ∈ dirRecords (v.dirOf b), l.entry = e ∧ e.name = name := by
  have hname : e.name = name := by simpa using find?_some h
  obtain ⟨l, hl, heq⟩ := mem_map.mp (mem_of_find?_eq_some h)
  exact ⟨l, hl, heq, hname⟩

theorem Tree.look_none : v.look b name = none ↔ ∀ l ∈ dirRecords (v.dirOf b), l.entry.name ≠ name := by
  simp [Tree.look, dirEntries]

theorem Tree.nameEdge_some {c : Nat} (h : v.nameEdge b name = some c) :
    ∃ l, v.recordEdge b l = some c ∧ l.entry.name = name := by
  obtain ⟨e, he, rfl⟩ := map_eq_some_iff.mp h
  obtain ⟨l, hl, rfl, hname⟩ := look_some he
  exact ⟨l, recordEdge_some.mpr ⟨hl, rfl⟩, hname⟩

section

variable {s s' : Volume} {v v' : Tree}

theorem Tree.record_of_mem (h : l ∈ dirRecords (v.dirOf b)) : v.Record l :=
  ⟨b, v.dirOf b, dir_of_record h, h⟩

theorem Consistent.rooted_record (h : Consistent s v none) : Rooted v.recordEdge s.rootBlock := by
  refine ⟨fun {b b' l l' c} hl hl' => ?_, fun {b l} hl => ?_⟩
  · obtain ⟨hm, hc⟩ := recordEdge_some.mp hl
    obtain ⟨hm', hc'⟩ := recordEdge_some.mp hl'
    have heq : l = l' := h.linked.unique (record_of_mem hm) (record_of_mem hm') nofun nofun
      (hc.trans hc'.symm)
    subst heq
    exact ⟨h.rep.record_dir (dir_of_record hm) (dir_of_record hm') (dirRecords_block hm) hm', rfl⟩
  · obtain ⟨hm, hc⟩ := recordEdge_some.mp hl
    exact h.linked.rootFree (record_of_mem hm) nofun hc

theorem Consistent.rooted_name (h : Consistent s v none) : Rooted v.nameEdge s.rootBlock := by
  refine ⟨fun {b b' k k' c} hk hk' => ?_, fun {b k} hk => ?_⟩
  · obtain ⟨l, hl, rfl⟩ := nameEdge_some hk
    obtain ⟨l', hl', rfl⟩ := nameEdge_some hk'
    obtain ⟨rfl, rfl⟩ := h.rooted_record.unique hl hl'
    exact ⟨rfl, rfl⟩
  · obtain ⟨l, hl, -⟩ := nameEdge_some hk
    exact h.rooted_record.root hl

/-- A walk by names follows records of these names. -/
theorem Tree.walk_records {cur : Nat} {names : List (List UInt8)} (h : walk v.nameEdge cur names = some b) :
    ∃ ls : List Located, walk v.recordEdge cur ls = some b ∧ ls.map (fun l => l.entry.name) = names := by
  induction names generalizing cur with
  | nil => exact ⟨[], h, rfl⟩
  | cons name names ih =>
    obtain ⟨c, hc, hrest⟩ := bind_eq_some_iff.mp h
    obtain ⟨l, hl, hname⟩ := nameEdge_some hc
    obtain ⟨ls, hls, hnames⟩ := ih hrest
    refine ⟨l :: ls, ?_, by rw [map_cons, hname, hnames]⟩
    rw [walk, hl]
    exact hls

variable {d : Nat}

section
variable (h : Consistent s v none)
include h

/-- The walk of the resolver is the walk by names that ends in a directory. -/
theorem treeWalk_some {names : List (List UInt8)} {cur : Nat}
    (hcur : ∃ dir, v cur = some (.dir dir)) : treeWalk v cur names = some b ↔
      walk v.nameEdge cur names = some b ∧ ∃ dir, v b = some (.dir dir) := by
  induction names generalizing cur with
  | nil =>
    refine ⟨fun heq => ?_, fun heq => heq.1⟩
    cases heq
    exact ⟨rfl, hcur⟩
  | cons name names ih =>
    obtain ⟨dir, hcur⟩ := hcur
    have hlook : v.look cur name = (dirFind name dir).map Located.entry := by
      rw [dirFind_entry, Tree.look, dirOf_dir hcur]
    rw [treeWalk, walk, Tree.nameEdge, hcur, hlook]
    dsimp only
    cases hfind : dirFind name dir with
    | none => simp
    | some l =>
      have hrec : v.Record l := ⟨cur, dir, hcur, (dirFind_mem hfind).1⟩
      dsimp only [map_some, bind_some]
      rcases h.linked.target hrec (by simp) with ⟨ht, c, hc⟩ | ⟨ht, hdir⟩
      · -- nothing lies below a file, and a file is no directory
        rw [if_pos (by rw [ht]; decide)]
        refine iff_of_false (by simp) ?_
        rintro ⟨hwalk, dir', hb⟩
        cases names with
        | nil =>
          cases hwalk
          rw [hc] at hb
          cases hb
        | cons name' names =>
          obtain ⟨c', hc', -⟩ := bind_eq_some_iff.mp hwalk
          obtain ⟨l', hl', -⟩ := nameEdge_some hc'
          have hd := dir_of_record (recordEdge_some.mp hl').1
          rw [hc] at hd
          cases hd
      · rw [if_neg (not_not_intro ht)]
        exact ih hdir

/-- The checks `sdfs_resolve_parent` makes on the text of a path. -/
structure PathOk (path : CStr) : Prop where
  absolute : ¬ (path.bytes.head? ≠ some slash ∨ path.bytes.length < 2)
  short : ¬ path.bytes.length ≥ 511
  leaf : pathLeaf path.bytes ≠ []

theorem treeParent_walk :
    treeParent v s.rootBlock path = some (d, name) ↔ PathOk path ∧
      walk v.nameEdge s.rootBlock (parentComponents path.bytes) = some d ∧
      (∃ dir, v d = some (.dir dir)) ∧ (pathLeaf path.bytes).take 255 = name := by
  unfold treeParent
  split
  · rename_i hbad
    exact ⟨nofun, fun hok => absurd hbad hok.1.absolute⟩
  · split
    · rename_i hbad
      exact ⟨nofun, fun hok => absurd hbad hok.1.short⟩
    · split
      · rename_i hbad
        exact ⟨nofun, fun hok => absurd hbad hok.1.leaf⟩
      · rename_i h1 h2 h3
        simp only [map_eq_some_iff, Prod.mk.injEq, treeWalk_some h h.linked.rootDir]
        constructor
        · rintro ⟨b, ⟨hwalk, hdir⟩, rfl, hname⟩
          exact ⟨⟨h1, h2, h3⟩, hwalk, hdir, hname⟩
        · rintro ⟨-, hwalk, hdir, hname⟩
          exact ⟨d, ⟨hwalk, hdir⟩, rfl, hname⟩

/-- What a path resolves to, in terms of the walk by names. -/
theorem treeFull_entry :
    (treeFull v s.rootBlock path).found? = some e ↔ PathOk path ∧
      ∃ d, walk v.nameEdge s.rootBlock (parentComponents path.bytes) = some d ∧
        v.look d ((pathLeaf path.bytes).take 255) = some e := by
  have hlook : ∀ {d name dir}, v d = some (.dir dir) →
      v.look d name = (dirFind name dir).map Located.entry := fun {d name dir} hd => by
    rw [dirFind_entry, Tree.look, dirOf_dir hd]
  constructor
  · intro he
    rcases treeFull_cases h path with ⟨hr, -⟩ | ⟨d, name, dir, hp, hd, -, ⟨hr, -⟩ | ⟨l, hr, hf⟩⟩
    · rw [hr] at he
      cases he
    · rw [hr] at he
      cases he
    · rw [hr] at he
      obtain ⟨hok, hwalk, -, rfl⟩ := (treeParent_walk h).mp hp
      refine ⟨hok, d, hwalk, ?_⟩
      rw [hlook hd, hf]
      exact he
  · rintro ⟨hok, d, hwalk, he⟩
    obtain ⟨l, hl, -, -⟩ := look_some he
    have hd := dir_of_record hl
    have hp := (treeParent_walk h).mpr ⟨hok, hwalk, ⟨_, hd⟩, rfl⟩
    rw [hlook hd] at he
    obtain ⟨l', hl', rfl⟩ := map_eq_some_iff.mp he
    simp only [treeFull, hp, hd, hl', Resolved.found?]

theorem Consistent.resolves_iff :
    (treeFull v s.rootBlock path).found? = some e ↔
      ∃ l, l.entry = e ∧ Settles (sdfsResolveFull · s path) (.found l) := by
  have hset := full_settles h path
  constructor
  · intro he
    cases hr : treeFull v s.rootBlock path with
    | noParent =>
      rw [hr] at he
      cases he
    | absent =>
      rw [hr] at he
      cases he
    | found l =>
      rw [hr] at he hset
      exact ⟨l, some.inj he, hset⟩
  · rintro ⟨l, rfl, hl⟩
    rw [hset.unique hl]
    rfl

/-- What is listed below the root is what walks by records reach. -/
theorem Consistent.listed_iff :
    Listed s l ↔ ∃ ls b, walk v.recordEdge s.rootBlock ls = some b ∧ l ∈ dirRecords (v.dirOf b) := by
  have hlists : ∀ {d l}, (∃ dir, v d = some (.dir dir)) → (Lists s d l ↔ l ∈ dirRecords (v.dirOf d)) := by
    rintro d l ⟨dir, hd⟩
    rw [h.rep.lists hd, dirOf_dir hd]
  have hwalk : ∀ {d}, DirReach s d → ∃ ls, walk v.recordEdge s.rootBlock ls = some d := by
    intro d hd
    induction hd with
    | root => exact ⟨[], rfl⟩
    | @entry d l hd hl ht ih =>
      obtain ⟨ls, hls⟩ := ih
      have hm := (hlists (hd.dir h)).mp hl
      exact ⟨ls ++ [l], walk_snoc_some.mpr ⟨d, hls, recordEdge_some.mpr ⟨hm, rfl⟩⟩⟩
  have hreach : ∀ {ls b}, walk v.recordEdge s.rootBlock ls = some b → (∃ dir, v b = some (.dir dir)) →
      DirReach s b := by
    intro ls
    induction ls using List.reverseRecOn with
    | nil =>
      intro b hb _
      cases hb
      exact .root
    | append_singleton ls l ih =>
      rintro b hb ⟨dir, hdir⟩
      obtain ⟨x, hx, hl⟩ := walk_snoc_some.mp hb
      obtain ⟨hm, rfl⟩ := recordEdge_some.mp hl
      have hd : ∃ dir, v x = some (.dir dir) := ⟨_, dir_of_record hm⟩
      refine .entry (ih hx hd) ((hlists hd).mpr hm) ?_
      rcases h.linked.target (record_of_mem hm) nofun with ⟨-, c, hc⟩ | ⟨ht, -⟩
      · rw [hc] at hdir
        cases hdir
      · exact ht
  constructor
  · rintro ⟨d, hd, hl⟩
    obtain ⟨ls, hls⟩ := hwalk hd
    exact ⟨ls, d, hls, (hlists (hd.dir h)).mp hl⟩
  · rintro ⟨ls, b, hls, hm⟩
    have hd : ∃ dir, v b = some (.dir dir) := ⟨_, dir_of_record hm⟩
    exact ⟨b, hreach hls hd, (hlists hd).mpr hm⟩

end

/-! ## The moved record -/

/-- A directory in which only one name has changed. -/
theorem Tree.look_update (hv : v d = some (.dir dir))
    (hsame : ∀ k, k ≠ name → (dirEntries dir').find? (fun e => e.name = k) =
      (dirEntries dir).find? fun e => e.name = k) {k : List UInt8} (h : (b, k) ≠ (d, name)) :
    Tree.look (update v d (some (.dir dir'))) b k = v.look b k := by
  rw [Tree.look, Tree.look, dirOf_update]
  by_cases hb : b = d
  · subst hb
    rw [if_pos rfl, dirOf_dir hv]
    exact hsame k fun hk => h (by rw [hk])
  · rw [if_neg hb]

/-- A directory in which only one record has changed. -/
theorem Tree.recordEdge_update (hv : v d = some (.dir dir))
    (hsame : ∀ x, x ≠ l → (x ∈ dirRecords dir' ↔ x ∈ dirRecords dir)) {x : Located} (h : (b, x) ≠ (d, l)) :
    Tree.recordEdge (update v d (some (.dir dir'))) b x = v.recordEdge b x := by
  rw [Tree.recordEdge, Tree.recordEdge, dirOf_update]
  by_cases hb : b = d
  · subst hb
    rw [if_pos rfl, dirOf_dir hv]
    exact if_congr (hsame x fun hx => h (by rw [hx])) rfl rfl
  · rw [if_neg hb]

theorem Unlinks.find? (h : Unlinks dir dir' l) (k : List UInt8) (hk : k ≠ l.entry.name) :
    (dirEntries dir').find? (fun e => e.name = k) =
      (dirEntries dir).find? fun e => e.name = k := by
  obtain ⟨l1, l2, hdir, hdir'⟩ := h.entries
  rw [hdir, hdir', find?_middle hk]

theorem Adds.find? {total : Nat} {σ τ : Store} (h : Adds e total σ τ dir dir' 0) (k : List UInt8) (hk : k ≠ e.name) :
    (dirEntries dir').find? (fun e => e.name = k) = (dirEntries dir).find? fun e => e.name = k := by
  obtain ⟨l1, l2, hdir, hdir'⟩ := h.entries
  rw [hdir, hdir', find?_middle hk]

/-- A record moved, as the look-ups see it. -/
structure Moved (v v' : Tree) (d : Nat) (l : Located) (d' : Nat) (l' : Located) : Prop where
  look : ∀ b k, (b, k) ≠ (d, l.entry.name) → (b, k) ≠ (d', l'.entry.name) → v'.look b k = v.look b k
  records : ∀ b x, (b, x) ≠ (d, l) → (b, x) ≠ (d', l') → v'.recordEdge b x = v.recordEdge b x
  new : v'.look d' l'.entry.name = some l'.entry
  newRecord : l' ∈ dirRecords (v'.dirOf d')
  fresh : v.recordEdge d' l' = none
  old : v'.look d l.entry.name = none ↔ ∀ x ∈ dirRecords (v.dirOf d), x.entry.name = l.entry.name → x = l

theorem Moves.moved (h : Consistent s v none) {d' : Nat} (hm : Moves v d dir l d' e v')
    (hd : v d = some (.dir dir)) (hl : l ∈ dirRecords dir) (hfree : v.look d' e.name = none) :
    ∃ l', l'.entry = e ∧ Moved v v' d l d' l' := by
  have hnd : (dir.map Prod.fst).Nodup := (h.rep.dirAt hd).1.nodup
  have hfree' := look_none.mp hfree
  have hne : (d, l.entry.name) ≠ (d', e.name) := by
    intro heq
    obtain ⟨hdd, hname⟩ := Prod.mk.inj heq
    refine hfree' l ?_ hname
    rw [← hdd, dirOf_dir hd]
    exact hl
  cases hm with
  | @mk dir1 dir' dir2 _ _ _ hun hd' hadds =>
    obtain ⟨l', rfl, hrec⟩ := hadds.records
    have hlook1 := fun b k => look_update hd hun.find? (b := b) (k := k)
    have hlook2 := fun b k => look_update hd' hadds.find? (b := b) (k := k)
    have hfree1 : Tree.look (update v d (some (.dir dir1))) d' l'.entry.name = none := by
      rw [hlook1 d' l'.entry.name hne.symm]
      exact hfree
    refine ⟨l', rfl, fun b k h1 h2 => ?_, fun b x h1 h2 => ?_, ?_, ?_, ?_, ?_⟩
    · rw [hlook2 b k h2, hlook1 b k h1]
    · have hsame2 : ∀ x, x ≠ l' → (x ∈ dirRecords dir2 ↔ x ∈ dirRecords dir') := fun x hx => by
        rw [hrec x, or_iff_left hx]
      have hsame1 : ∀ x, x ≠ l → (x ∈ dirRecords dir1 ↔ x ∈ dirRecords dir) := fun x hx => by
        rw [hun.records hnd x, and_iff_left hx]
      rw [recordEdge_update hd' hsame2 h2, recordEdge_update hd hsame1 h1]
    · -- the name was free, so the new entry is the first of its name
      obtain ⟨l1, l2, hdir', hdir2⟩ := hadds.entries
      have hnew : ∀ x ∈ l1 ++ l2, x.name ≠ l'.entry.name := by
        intro x hx
        rw [Tree.look, dirOf_dir hd', hdir'] at hfree1
        simpa using find?_eq_none.mp hfree1 x hx
      rw [Tree.look, dirOf_update, if_pos rfl, hdir2, find?_insert hnew, update_self]
    · rw [dirOf_update, if_pos rfl]
      exact (hrec l').mpr (.inr rfl)
    · exact if_neg fun hmem => hfree' l' hmem rfl
    · rw [hlook2 d l.entry.name hne, look_none, dirOf_update, if_pos rfl, dirOf_dir hd]
      simp only [hun.records hnd]
      constructor
      · intro hall x hx hname
        by_contra hxl
        exact hall x ⟨hx, hxl⟩ hname
      · rintro hall x ⟨hx, hxl⟩ hname
        exact hxl (hall x hx hname)

/-- The edges off the two names are the same. -/
theorem Moved.nameEdge {d' : Nat} {l' : Located} (hm : Moved v v' d l d' l') (b : Nat) (k : List UInt8)
    (h1 : (b, k) ≠ (d, l.entry.name)) (h2 : (b, k) ≠ (d', l'.entry.name)) : v'.nameEdge b k = v.nameEdge b k := by
  rw [Tree.nameEdge, Tree.nameEdge, hm.look b k h1 h2]

/-! ## The rename -/

/-- A move of the record at one path to another path, with the walks that lead
to the two directories. -/
structure Relocated (s s' : Volume) (v v' : Tree) (oldPath newPath : CStr) (d : Nat) (l : Located) (d' : Nat)
    (l' : Located) : Prop where
  before : Consistent s v none
  after : Consistent s' v' none
  root : s'.rootBlock = s.rootBlock
  oldOk : PathOk oldPath
  newOk : PathOk newPath
  source : walk v.nameEdge s.rootBlock (parentComponents oldPath.bytes) = some d
  target : walk v.nameEdge s.rootBlock (parentComponents newPath.bytes) = some d'
  oldName : (pathLeaf oldPath.bytes).take 255 = l.entry.name
  newName : (pathLeaf newPath.bytes).take 255 = l'.entry.name
  found : v.look d l.entry.name = some l.entry
  record : l ∈ dirRecords (v.dirOf d)
  free : v.look d' l'.entry.name = none
  same : SameObject l.entry l'.entry
  moved : Moved v v' d l d' l'

theorem rename_relocates (h : Consistent s v none) {oldPath newPath : CStr} (hlast : LastRecordAt s oldPath)
    (hrun : ∃ fuel, sdfsRename fuel s oldPath newPath = some (0, s')) :
    ∃ v' d l d' l', Relocated s s' v v' oldPath newPath d l d' l' := by
  obtain ⟨fuel, hrun⟩ := hrun
  rw [sdfsRename_eq] at hrun
  split at hrun
  · cases hrun
  rcases withEntry_settles h oldPath (renameFound · s newPath) with
    hfail | ⟨d, name, dir, l, he, hn, hact⟩
  · cases hfail.only fuel _ hrun
  obtain ⟨r, t, hset, hcase⟩ :=
    renameFound_settles h newPath he hn (LastRecordAt.lastAt h hlast d name dir l he)
  cases (hact _ hset).only fuel _ hrun
  rcases hcase with ⟨hr, -⟩ | ⟨v', d', name', hren⟩
  · cases hr
  obtain ⟨hoOk, hoWalk, -, hoName⟩ := (treeParent_walk h).mp he.parent
  obtain ⟨hnOk, hnWalk, ⟨dir', hdir'⟩, hnName⟩ := (treeParent_walk h).mp hren.parent
  obtain ⟨hmem, hname⟩ := dirFind_mem he.found
  have hfree : v.look d' name' = none := by
    rw [Tree.look, dirOf_dir hdir', ← dirFind_entry, hren.free dir' hdir']
    rfl
  have hfound : v.look d name = some l.entry := by
    rw [Tree.look, dirOf_dir he.isDir, ← dirFind_entry, he.found]
    rfl
  obtain ⟨l', hl', hmoved⟩ := hren.moves.moved h he.isDir hmem hfree
  have hname' : l'.entry.name = name' := by rw [hl']
  refine ⟨v', d, l, d', l', h, hren.consistent, root_of_geo hren.geo, hoOk, hnOk, hoWalk, hnWalk,
    hoName.trans hname.symm, hnName.trans hname'.symm, hname ▸ hfound, ?_, hname' ▸ hfree, ?_, hmoved⟩
  · rw [dirOf_dir he.isDir]
    exact hmem
  · exact ⟨by rw [hl'], by rw [hl'], by rw [hl']⟩

namespace Relocated

variable {oldPath newPath : CStr} {d d' : Nat} {l l' : Located}
  (h : Relocated s s' v v' oldPath newPath d l d' l')
include h

theorem oldNames :
    pathNames oldPath = parentComponents oldPath.bytes ++ [l.entry.name] := by rw [pathNames, h.oldName]

theorem newNames :
    pathNames newPath = parentComponents newPath.bytes ++ [l'.entry.name] := by rw [pathNames, h.newName]

theorem freeEdge : v.nameEdge d' l'.entry.name = none := by
  rw [Tree.nameEdge, h.free]
  rfl

/-- The old directory is still where it was. -/
theorem source_after : walk v'.nameEdge s'.rootBlock (parentComponents oldPath.bytes) = some d := by
  rw [h.root]
  exact h.before.rooted_name.walk_source h.source h.moved.nameEdge h.target h.freeEdge

/-- The new directory is where it was, unless it lies below what is moved. -/
theorem target_after (hout : ¬ pathNames oldPath <+: parentComponents newPath.bytes) :
    walk v'.nameEdge s'.rootBlock (parentComponents newPath.bytes) = some d' := by
  rw [h.oldNames] at hout
  rw [h.root]
  exact h.before.rooted_name.walk_target h.source h.moved.nameEdge h.target hout

theorem paths_ne : oldPath ≠ newPath := by
  intro heq
  have hd : some d = some d' := by rw [← h.source, ← h.target, heq]
  have hname : l.entry.name = l'.entry.name := by rw [← h.oldName, ← h.newName, heq]
  have hfree := h.free
  rw [← some.inj hd, ← hname, h.found] at hfree
  cases hfree

/-- The old path resolves to whatever else has its name. -/
theorem resolves_old : (treeFull v' s'.rootBlock oldPath).found? = some e ↔ v'.look d l.entry.name = some e := by
  rw [treeFull_entry h.after, h.source_after, h.oldName]
  constructor
  · rintro ⟨-, x, hx, he⟩
    cases hx
    exact he
  · exact fun he => ⟨h.oldOk, d, rfl, he⟩

theorem old_gone_iff :
    (∀ x, ¬ Settles (sdfsResolveFull · s' oldPath) (.found x)) ↔
      v'.look d l.entry.name = none := by
  rw [eq_none_iff_forall_ne_some]
  constructor
  · intro hall e he
    obtain ⟨x, -, hx⟩ := h.after.resolves_iff.mp (h.resolves_old.mpr he)
    exact hall x hx
  · intro hall x hx
    exact hall x.entry (h.resolves_old.mp (h.after.resolves_iff.mpr ⟨x, rfl, hx⟩))

theorem onlyNamed_iff : OnlyNamed s oldPath ↔ v'.look d l.entry.name = none := by
  have hdir := dir_of_record h.record
  have hlists : ∀ x, Lists s d x ↔ x ∈ dirRecords (v.dirOf d) := fun x => h.before.rep.lists hdir
  have hp := (treeParent_walk h.before).mpr ⟨h.oldOk, h.source, ⟨_, hdir⟩, h.oldName⟩
  have hparent := parent_settles h.before nofun oldPath
  rw [hp] at hparent
  rw [h.moved.old]
  constructor
  · intro honly x hx hname
    exact honly d _ hparent x l ((hlists x).mpr hx) ((hlists l).mpr h.record) hname rfl
  · intro hall b name hb x y hx hy hxn hyn
    cases hparent.unique hb
    rw [hall x ((hlists x).mp hx) hxn, hall y ((hlists y).mp hy) hyn]

/-- The new path leads to the object, unless it went through the old one. -/
theorem moves_iff (hgone : v'.look d l.entry.name = none) :
    (∀ x, Settles (sdfsResolveFull · s oldPath) (.found x) →
      ∃ x', Settles (sdfsResolveFull · s' newPath) (.found x') ∧ SameObject x.entry x'.entry) ↔
      ¬ pathNames oldPath <+: parentComponents newPath.bytes := by
  have hold : (treeFull v s.rootBlock oldPath).found? = some l.entry :=
    (treeFull_entry h.before).mpr ⟨h.oldOk, d, h.source, by rw [h.oldName, h.found]⟩
  constructor
  · rintro hmoved ⟨rest, hrest⟩
    obtain ⟨x, -, hx⟩ := h.before.resolves_iff.mp hold
    obtain ⟨x', hx', -⟩ := hmoved x hx
    obtain ⟨-, b, hb, -⟩ := (treeFull_entry h.after).mp (h.after.resolves_iff.mpr ⟨x', rfl, hx'⟩)
    -- the walk to the new directory stops at the removed name
    rw [← hrest, h.oldNames, walk_append, walk_snoc, h.source_after, bind_some, Tree.nameEdge,
      hgone] at hb
    cases hb
  · intro hout x hx
    have hentry : l.entry = x.entry :=
      some.inj (hold.symm.trans (h.before.resolves_iff.mpr ⟨x, rfl, hx⟩))
    have hnew : (treeFull v' s'.rootBlock newPath).found? = some l'.entry :=
      (treeFull_entry h.after).mpr ⟨h.newOk, d', h.target_after hout, by rw [h.newName, h.moved.new]⟩
    obtain ⟨x', hx'entry, hx'⟩ := h.after.resolves_iff.mp hnew
    exact ⟨x', hx', by rw [← hentry, hx'entry]; exact h.same⟩

theorem others (hold : ¬ pathNames oldPath <+: pathNames path) (hnew : ¬ pathNames newPath <+: pathNames path) :
    (treeFull v' s'.rootBlock path).found? = (treeFull v s.rootBlock path).found? := by
  have hup : ∀ {p}, p <+: parentComponents path.bytes → p <+: pathNames path :=
    fun hp => hp.trans (prefix_append _ _)
  have hold' : ¬ parentComponents oldPath.bytes ++ [l.entry.name] <+: parentComponents path.bytes :=
    fun hp => hold (hup (h.oldNames ▸ hp))
  have hnew' : ¬ parentComponents newPath.bytes ++ [l'.entry.name] <+: parentComponents path.bytes :=
    fun hp => hnew (hup (h.newNames ▸ hp))
  have hwalk : walk v'.nameEdge s'.rootBlock (parentComponents path.bytes) =
      walk v.nameEdge s.rootBlock (parentComponents path.bytes) := by
    rw [h.root]
    exact h.before.rooted_name.walk_congr h.source h.moved.nameEdge h.target hold' hnew'
  ext e
  simp only [treeFull_entry h.after, treeFull_entry h.before, hwalk]
  refine and_congr_right fun _ => exists_congr fun b => and_congr_right fun hb => ?_
  rw [h.moved.look b _ ?_ ?_]
  · intro heq
    obtain ⟨rfl, hname⟩ := Prod.mk.inj heq
    refine hold ?_
    rw [h.oldNames, ← hname, h.before.rooted_name.walk_inj h.source hb]
    exact prefix_refl _
  · intro heq
    obtain ⟨rfl, hname⟩ := Prod.mk.inj heq
    refine hnew ?_
    rw [h.newNames, ← hname, h.before.rooted_name.walk_inj h.target hb]
    exact prefix_refl _

theorem reachable (hout : ¬ pathNames oldPath <+: parentComponents newPath.bytes) {x : Located} (hx : Listed s x) :
    ∃ x', Listed s' x' ∧ SameObject x.entry x'.entry := by
  obtain ⟨p, hp, hpn⟩ := walk_records h.source
  obtain ⟨p', hp', hpn'⟩ := walk_records h.target
  obtain ⟨q, b, hq, hm⟩ := h.before.listed_iff.mp hx
  have hrooted := h.before.rooted_record
  have hout' : ¬ p ++ [l] <+: p' := by
    intro hpre
    refine hout ?_
    rw [h.oldNames, ← hpn, ← hpn']
    simpa using hpre.map fun x : Located => x.entry.name
  have hnewEdge : v'.recordEdge d' l' = some l.entry.start :=
    recordEdge_some.mpr ⟨h.moved.newRecord, congrArg UInt32.toNat h.same.start⟩
  by_cases hxl : (b, x) = (d, l)
  · -- the moved object is listed in its new place
    obtain ⟨rfl, rfl⟩ := Prod.mk.inj hxl
    refine ⟨l', h.after.listed_iff.mpr ⟨p', d', ?_, h.moved.newRecord⟩, h.same⟩
    rw [h.root]
    exact hrooted.walk_target hp h.moved.records hp' hout'
  · obtain ⟨q', hq'⟩ := hrooted.reach_moved hp h.moved.records hp'
      (recordEdge_some.mpr ⟨h.record, rfl⟩) h.moved.fresh hnewEdge hout' hq
    have hfresh : (b, x) ≠ (d', l') := by
      intro heq
      obtain ⟨rfl, rfl⟩ := Prod.mk.inj heq
      have hf := h.moved.fresh
      rw [Tree.recordEdge, if_pos hm] at hf
      cases hf
    have hedge : v'.recordEdge b x = some x.entry.start := by
      rw [h.moved.records b x hxl hfresh]
      exact recordEdge_some.mpr ⟨hm, rfl⟩
    exact ⟨x, h.after.listed_iff.mpr ⟨q', b, by rw [h.root]; exact hq', (recordEdge_some.mp hedge).1⟩,
      rfl, rfl, rfl⟩

end Relocated

/-- When the old record is the last one of its block, a rename that returns 0
moves the object and nothing else exactly if the new path does not lead through
the old one and no second record has the old name. -/
theorem rename_movesOnly_iff (h : Consistent s v none) {oldPath newPath : CStr}
    (hlast : LastRecordAt s oldPath) (hrun : ∃ fuel, sdfsRename fuel s oldPath newPath = some (0, s')) :
    MovesOnly s s' oldPath newPath ↔
      ¬ pathNames oldPath <+: parentComponents newPath.bytes ∧ OnlyNamed s oldPath := by
  obtain ⟨v', d, l, d', l', hr⟩ := rename_relocates h hlast hrun
  constructor
  · intro hm
    have hgone := hr.old_gone_iff.mp (hm.gone hr.paths_ne)
    exact ⟨(hr.moves_iff hgone).mp hm.moved, hr.onlyNamed_iff.mpr hgone⟩
  · rintro ⟨hout, honly⟩
    have hgone := hr.onlyNamed_iff.mp honly
    refine ⟨(hr.moves_iff hgone).mpr hout, fun _ => hr.old_gone_iff.mpr hgone,
      fun x hx => hr.reachable hout hx, fun path hold hnew r hset => ?_⟩
    refine ⟨_, full_settles hr.after path, ?_⟩
    rw [hr.others hold hnew, (full_settles h path).unique hset]

end

/-- The path "/c". -/
def pathC : CStr := ⟨[47, 99], by decide +kernel⟩

set_option synthInstance.maxSize 400 in
/-- "/a" renamed to "/c" next to "/b". -/
theorem renamedFile_movesOnly : ∃ s1 s s', (FsOp.createFile pathB).Run tinyVolume s1 ∧
    (FsOp.createFile pathA).Run s1 s ∧ (∃ fuel, sdfsRename fuel s pathA pathC = some (0, s')) ∧
    MovesOnly s s' pathA pathC ∧ ∃ l, Listed s l ∧ l.entry.name = [98] := by
  obtain ⟨s1, hs1, s, hs, ⟨r, s'⟩, hr', hzero, hroot, hparent, x0, hx0, ⟨l0, rfl, hname0⟩, x2, hx2, hnone, ha⟩ :
      ∃ s1 ∈ FsOp.exec 8 tinyVolume (.createFile pathB), ∃ s ∈ FsOp.exec 8 s1 (.createFile pathA),
      ∃ r ∈ sdfsRename 8 s pathA pathC, r.1 = 0 ∧ s.rootBlock = 18 ∧
      sdfsResolveParent 8 s pathA = some (some (18, [97])) ∧
      ∃ x0 ∈ sdfsDirFindByIndex s 8 18 0, (∃ l0 ∈ x0, l0.entry.name = [98]) ∧
      ∃ x2 ∈ sdfsDirFindByIndex s 8 18 2, x2.isNone ∧
      ∃ x ∈ sdfsResolveFull 8 s pathA, x.foundWith (fun l => IsLastRecord (sdfsReadBlock s l.block) l.blockOffset &&
        true) = true := by decide +kernel
  cases hzero
  obtain ⟨v1, h1⟩ := (freshVolume_consistent (fun _ => Buf.zero) 168).run hs1 trivial
  obtain ⟨v, h⟩ := h1.run hs trivial
  obtain ⟨l, hl, hlast, -⟩ := h.lastRecord ha
  have hlastAt : LastRecordAt s pathA := by
    intro fuel l' hl'
    cases hl.only fuel _ hl'
    exact hlast
  -- only the second record of the root directory has the name
  have honly : OnlyNamed s pathA := by
    intro d name hp l l' hlists hlists' hname hname'
    cases hp.only 8 _ hparent
    obtain ⟨⟨dir, hdir⟩, -⟩ := treeParent_some h nofun ((parent_settles h nofun pathA).only 8 _ hparent).symm
    have hsettle := fun i => index_settles i (h.rep.dirAt hdir).1 (h.rep.dirAt hdir).2.2.1
    have hsecond : ∀ l, Lists s 18 l → l.entry.name = [97] → (dirRecords dir)[1]? = some l := by
      rintro l ⟨fuel, index, hl⟩ hname
      have hat := (hsettle index).only fuel _ hl
      obtain rfl | rfl | hge : index = 0 ∨ index = 1 ∨ 2 ≤ index := by omega
      · rw [← (hsettle 0).only 8 _ hx0] at hat
        cases hat
        rw [hname0] at hname
        cases hname
      · exact hat.symm
      · have hend := (hsettle 2).only 8 _ hx2
        rw [isNone_iff_eq_none.mp hnone] at hend
        have hlen := getElem?_eq_none_iff.mp hend.symm
        rw [getElem?_eq_none (by omega)] at hat
        cases hat
    exact some.inj ((hsecond l hlists hname).symm.trans (hsecond l' hlists' hname'))
  have hren : ∃ fuel, sdfsRename fuel s pathA pathC = some (0, s') := ⟨8, hr'⟩
  exact ⟨s1, s, s', ⟨8, hs1⟩, ⟨8, hs⟩, hren, (rename_movesOnly_iff h hlastAt hren).mpr ⟨by decide +kernel, honly⟩,
    l0, ⟨s.rootBlock, .root, 8, 0, hroot ▸ hx0⟩, hname0⟩

theorem pathAB_noNul : ∀ c ∈ [47, 97, 47, 98], c ≠ (0 : UInt8) := by decide +kernel

/-- The path "/a/b". -/
def pathAB : CStr := ⟨[47, 97, 47, 98], pathAB_noNul⟩

theorem found_of_isSome (h : Consistent s v none) (hx : ∃ x ∈ sdfsResolveFull fuel s path, x.found?.isSome) :
    ∃ l, Settles (sdfsResolveFull · s path) (.found l) := by
  obtain ⟨x, hx, hsome⟩ := hx
  cases x with
  | noParent => cases hsome
  | absent => cases hsome
  | found l => exact ⟨l, h.resolves_of_some hx⟩

theorem not_found_of_isNone (hx : ∃ x ∈ sdfsResolveFull fuel s path, x.found?.isNone) :
    ¬ Settles (sdfsResolveFull · s path) (.found l) := by
  intro hl
  obtain ⟨x, hx, hnone⟩ := hx
  rw [hl.only fuel x hx] at hnone
  cases hnone

/-- A directory renamed to a path below itself is lost, and so is a file whose
record lies behind the one that was moved. -/
theorem rename_loses :
    (∃ s s', (FsOp.createDir pathA).Run tinyVolume s ∧
      (∃ fuel, sdfsRename fuel s pathA pathAB = some (0, s')) ∧ ¬ MovesOnly s s' pathA pathAB) ∧
    ∃ s1 s s', (FsOp.createFile pathA).Run tinyVolume s1 ∧ (FsOp.createFile pathB).Run s1 s ∧
      (∃ fuel, sdfsRename fuel s pathA pathC = some (0, s')) ∧ ¬ MovesOnly s s' pathA pathC := by
  have h0 := freshVolume_consistent (fun _ => Buf.zero) 168
  constructor
  · obtain ⟨s, hs1, ⟨r, s'⟩, hr', hzero, hold, hnew⟩ : ∃ s ∈ FsOp.exec 8 tinyVolume (.createDir pathA),
        ∃ r ∈ sdfsRename 8 s pathA pathAB, r.1 = 0 ∧ (∃ x ∈ sdfsResolveFull 8 s pathA, x.found?.isSome) ∧
        ∃ x ∈ sdfsResolveFull 8 r.2 pathAB, x.found?.isNone := by decide +kernel
    cases hzero
    obtain ⟨v, h⟩ := h0.run hs1 trivial
    refine ⟨s, s', ⟨8, hs1⟩, ⟨8, hr'⟩, fun hm => ?_⟩
    obtain ⟨l, hl⟩ := found_of_isSome h hold
    obtain ⟨l', hl', -⟩ := hm.moved l hl
    exact not_found_of_isNone hnew hl'
  · obtain ⟨s1, ht1, s, ht, ⟨r, s'⟩, hr', hzero, hbefore, hafter⟩ :
        ∃ s1 ∈ FsOp.exec 8 tinyVolume (.createFile pathA), ∃ s ∈ FsOp.exec 8 s1 (.createFile pathB),
        ∃ r ∈ sdfsRename 8 s pathA pathC, r.1 = 0 ∧ (∃ x ∈ sdfsResolveFull 8 s pathB, x.found?.isSome) ∧
        ∃ x ∈ sdfsResolveFull 8 r.2 pathB, x.found?.isNone := by decide +kernel
    cases hzero
    obtain ⟨v1, h1⟩ := h0.run ht1 trivial
    obtain ⟨v, h⟩ := h1.run ht trivial
    refine ⟨s1, s, s', ⟨8, ht1⟩, ⟨8, ht⟩, ⟨8, hr'⟩, fun hm => ?_⟩
    obtain ⟨l, hl⟩ := found_of_isSome h hbefore
    obtain ⟨r', hset, hentry⟩ := hm.others pathB (by decide +kernel) (by decide +kernel) _ hl
    cases r' with
    | noParent => cases hentry
    | absent => cases hentry
    | found l' => exact not_found_of_isNone hafter hset

end LiwusOS.Fs
