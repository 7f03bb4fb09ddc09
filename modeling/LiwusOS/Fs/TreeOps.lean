import LiwusOS.Fs.TreeChange

/-! # Path operations on a consistent volume

Path resolution is a walk in the object tree, and each operation of `sdfs.c`
that changes the volume moves one consistent tree to another, provided the
record it removes is the last one of its block and a chain it lays out fits. -/

namespace LiwusOS.Fs
open LiwusOS.Lib Function List Option

variable {path : CStr} {dir : Dir} {e : Entry} {c : List Nat} {name : List UInt8} {l : Located} {b d : Nat}
  {type : UInt8}

/-! ## Resolution -/

/-- The names `sdfs_dir_add_entry` is called with. -/
structure NameOk (name : List UInt8) : Prop where
  nonempty : 1 ≤ name.length
  short : name.length ≤ 255
  noNul : ∀ c ∈ name, c ≠ 0

/-- `resolveWalk` on the tree. -/
def treeWalk (v : Tree) : Nat → List (List UInt8) → Option Nat
  | cur, [] => some cur
  | cur, comp :: rest =>
    match v cur with
    | some (.dir dir) =>
      match dirFind comp dir with
      | some l => if l.entry.type ≠ sdfsTypeDir then none else treeWalk v l.entry.start rest
      | none => none
    | _ => none

/-- `sdfsResolveParent` on the tree. -/
def treeParent (v : Tree) (root : Nat) (path : CStr) : Option (Nat × List UInt8) :=
  if path.bytes.head? ≠ some slash ∨ path.bytes.length < 2 then none
  else if path.bytes.length ≥ 511 then none
  else if pathLeaf path.bytes = [] then none
  else (treeWalk v root (parentComponents path.bytes)).map fun block =>
    (block, (pathLeaf path.bytes).take 255)

theorem pathLeaf_noNul (path : CStr) : ∀ c ∈ pathLeaf path.bytes, c ≠ 0 := by
  intro c hc
  unfold pathLeaf at hc
  cases hl : (splitSlash path.bytes).getLast? with
  | none =>
    rw [hl] at hc
    cases hc
  | some w =>
    rw [hl] at hc
    exact path.noNul c ((splitSlash_piece (mem_of_getLast? hl)).1.subset hc)

theorem parentComponents_noNul (path : CStr) : ∀ comp ∈ parentComponents path.bytes, ∀ c ∈ comp, c ≠ 0 := by
  intro comp hcomp c hc
  have hmem := mem_of_mem_dropLast (mem_of_mem_filter hcomp)
  exact path.noNul c ((splitSlash_piece hmem).1.subset hc)

/-- The tree's directories and the entries that lead to them. -/
theorem Linked.dirTarget {root : Nat} {v : Tree} {gone : Option Located} (h : Linked root v gone)
    (hgone : ∀ l, gone = some l → l.entry.type ≠ sdfsTypeDir) (hl : v.Record l)
    (ht : l.entry.type = sdfsTypeDir) : ∃ dir, v l.entry.start = some (.dir dir) := by
  rcases h.target hl fun hg => hgone l hg ht with ⟨hf, -⟩ | ⟨-, hdir⟩
  · rw [ht] at hf
    exact absurd hf (by decide)
  · exact hdir

section

variable {s s' : Volume} {v : Tree} {gone : Option Located}

theorem Rep.find (h : Rep s v) (hv : v d = some (.dir dir)) (hn : ∀ c ∈ name, c ≠ 0) :
    Settles (sdfsDirFindEntry s name · d) (dirFind name dir) :=
  find_settles hn (h.dirAt hv).1 (h.dirAt hv).2.2.1

theorem walk_settles (h : Consistent s v gone) (hgone : ∀ l, gone = some l → l.entry.type ≠ sdfsTypeDir)
    {comps : List (List UInt8)} (hn : ∀ comp ∈ comps, ∀ c ∈ comp, c ≠ 0) {cur : Nat}
    (hv : ∃ dir, v cur = some (.dir dir)) :
    Settles (resolveWalk · s cur comps) (treeWalk v cur comps) ∧
      ∀ b, treeWalk v cur comps = some b → ∃ dir, v b = some (.dir dir) := by
  induction comps generalizing cur with
  | nil =>
    refine ⟨.const _, fun b hb => ?_⟩
    cases hb
    exact hv
  | cons comp comps ih =>
    obtain ⟨dir, hv⟩ := hv
    have hfind := h.rep.find hv (hn comp (.head _))
    rw [treeWalk, hv]
    dsimp only
    cases hd : dirFind comp dir with
    | none =>
      rw [hd] at hfind
      exact ⟨hfind.bind (.const none), fun b hb => by cases hb⟩
    | some l =>
      rw [hd] at hfind
      dsimp only
      by_cases ht : l.entry.type = sdfsTypeDir
      · rw [if_neg (not_not_intro ht)]
        have hnext := ih (fun c hc => hn c (.tail _ hc))
          (h.linked.dirTarget hgone ⟨cur, dir, hv, (dirFind_mem hd).1⟩ ht)
        refine ⟨hfind.bind (.congr (fun n => ?_) hnext.1), hnext.2⟩
        exact if_neg (not_not_intro ht)
      · rw [if_pos ht]
        refine ⟨hfind.bind (.congr (fun n => ?_) (.const none)), fun b hb => by cases hb⟩
        exact if_pos ht

theorem parent_settles (h : Consistent s v gone) (hgone : ∀ l, gone = some l → l.entry.type ≠ sdfsTypeDir)
    (path : CStr) : Settles (sdfsResolveParent · s path) (treeParent v s.rootBlock path) := by
  unfold sdfsResolveParent treeParent
  split
  · exact .const none
  · split
    · exact .const none
    · split
      · exact .const none
      · exact (walk_settles h hgone (parentComponents_noNul path) h.linked.rootDir).1.map _

theorem treeParent_some (h : Consistent s v gone) (hgone : ∀ l, gone = some l → l.entry.type ≠ sdfsTypeDir)
    (hp : treeParent v s.rootBlock path = some (b, name)) : (∃ dir, v b = some (.dir dir)) ∧ NameOk name := by
  unfold treeParent at hp
  split at hp
  · cases hp
  · split at hp
    · cases hp
    · split at hp
      · cases hp
      · rename_i hleaf
        obtain ⟨block, hwalk, heq⟩ := map_eq_some_iff.mp hp
        cases heq
        refine ⟨(walk_settles h hgone (parentComponents_noNul path) h.linked.rootDir).2 b hwalk,
          ?_, length_take_le _ _, fun c hc => pathLeaf_noNul path c (mem_of_mem_take hc)⟩
        have := length_pos_of_ne_nil hleaf
        rw [length_take]
        omega

/-- `sdfsResolveFull` on the tree. -/
def treeFull (v : Tree) (root : Nat) (path : CStr) : Resolved :=
  match treeParent v root path with
  | none => .noParent
  | some (d, name) =>
    match v d with
    | some (.dir dir) =>
      match dirFind name dir with
      | none => .absent
      | some l => .found l
    | _ => .absent

/-- The parent of a path, with the look-up in the directory it is. -/
theorem parent_cases (h : Consistent s v none) (path : CStr) :
    (treeParent v s.rootBlock path = none ∧ Settles (sdfsResolveParent · s path) none) ∨
    ∃ d name dir, treeParent v s.rootBlock path = some (d, name) ∧ v d = some (.dir dir) ∧ NameOk name ∧
      Settles (sdfsResolveParent · s path) (some (d, name)) ∧
      Settles (sdfsDirFindEntry s name · d) (dirFind name dir) := by
  have hparent := parent_settles h nofun path
  cases hp : treeParent v s.rootBlock path with
  | none => exact .inl ⟨rfl, hp ▸ hparent⟩
  | some p =>
    obtain ⟨d, name⟩ := p
    obtain ⟨⟨dir, hv⟩, hn⟩ := treeParent_some h nofun hp
    exact .inr ⟨d, name, dir, rfl, hv, hn, hp ▸ hparent, h.rep.find hv hn.noNul⟩

theorem full_settles (h : Consistent s v none) (path : CStr) :
    Settles (sdfsResolveFull · s path) (treeFull v s.rootBlock path) := by
  unfold treeFull
  rcases parent_cases h path with ⟨hp, hparent⟩ | ⟨d, name, dir, hp, hv, -, hparent, hfind⟩ <;> rw [hp]
  · exact hparent.bind (.const _)
  · dsimp only
    rw [hv]
    exact hparent.bind (hfind.map fun found => match found with
      | none => Resolved.absent
      | some l => .found l)

/-- What a resolved path says about the tree. -/
theorem treeFull_cases (h : Consistent s v none) (path : CStr) :
    (treeFull v s.rootBlock path = .noParent ∧ treeParent v s.rootBlock path = none) ∨
    ∃ d name dir, treeParent v s.rootBlock path = some (d, name) ∧ v d = some (.dir dir) ∧ NameOk name ∧
      ((treeFull v s.rootBlock path = .absent ∧ dirFind name dir = none) ∨
        ∃ l, treeFull v s.rootBlock path = .found l ∧ dirFind name dir = some l) := by
  rcases parent_cases h path with ⟨hp, -⟩ | ⟨d, name, dir, hp, hv, hn, -, -⟩
  · exact .inl ⟨by simp only [treeFull, hp], hp⟩
  · refine .inr ⟨d, name, dir, hp, hv, hn, ?_⟩
    cases hd : dirFind name dir with
    | none => exact .inl ⟨by simp only [treeFull, hp, hv, hd], rfl⟩
    | some l => exact .inr ⟨l, by simp only [treeFull, hp, hv, hd], rfl⟩

/-- Only directories are walked through. -/
theorem treeParent_congr {v v' : Tree} (h : ∀ b dir, v' b = some (.dir dir) ↔ v b = some (.dir dir))
    (root : Nat) (path : CStr) : treeParent v' root path = treeParent v root path := by
  have hwalk : ∀ (comps : List (List UInt8)) (cur : Nat), treeWalk v' cur comps = treeWalk v cur comps := by
    intro comps
    induction comps with
    | nil => exact fun _ => rfl
    | cons comp comps ih =>
      intro cur
      rw [treeWalk, treeWalk]
      by_cases hd : ∃ dir, v cur = some (.dir dir)
      · obtain ⟨dir, hd⟩ := hd
        rw [hd, (h cur dir).mpr hd]
        simp only [ih]
      · have hnot : ∀ w : Tree, (∀ dir, w cur ≠ some (.dir dir)) → ∀ f : Dir → Option Nat,
            (match w cur with | some (.dir dir) => f dir | _ => none) = none := by
          intro w hw f
          cases hc : w cur with
          | none => rfl
          | some o =>
            cases o with
            | file c => rfl
            | dir dir => exact absurd hc (hw dir)
        rw [hnot v fun dir hv => hd ⟨dir, hv⟩, hnot v' fun dir hv => hd ⟨dir, (h cur dir).mp hv⟩]
  unfold treeParent
  rw [hwalk]

/-! ## Creating -/

theorem toNat_ofNat_block (hl : Layout s) (hb : b < s.totalBlocks) : (UInt32.ofNat b).toNat = b := by
  have := hl.valid.lt_two_pow hb
  rw [UInt32.toNat_ofNat']
  omega

/-- The types of objects. -/
def IsKind (type : UInt8) : Prop := type = sdfsTypeFile ∨ type = sdfsTypeDir

theorem IsKind.not_tombstone (h : IsKind type) : isTombstone type = false := by
  rcases h with rfl | rfl <;> rfl

theorem Tree.Target.isKind (h : v.Target e) : IsKind e.type := h.imp And.left And.left

theorem NameOk.entry (h : NameOk name) (he : e.name = name) (ht : IsKind e.type) : e.Ok := by
  subst he
  exact ⟨ht.not_tombstone, h.nonempty, h.short, h.noNul⟩

theorem Consistent.named (h : Consistent s v none) (hl : v.Record l) : v l.entry.start ≠ none := by
  rcases h.linked.target hl nofun with ⟨-, c, hc⟩ | ⟨-, dir, hdir⟩
  · exact fun hn => by rw [hc] at hn; cases hn
  · exact fun hn => by rw [hdir] at hn; cases hn

/-- No record names a free block. -/
theorem Consistent.unnamed (h : Consistent s v none) (hb : v b = none) (hl : v.Record l) :
    l.entry.start ≠ b := fun he => h.named hl (he ▸ hb)

theorem Tree.record_freshObj (h : Tree.Record (update v b (some (freshObj type b))) l) : v.Record l := by
  unfold freshObj at h
  split at h
  · rcases Tree.record_update h with hm | ⟨b', dir, -, hb', hm⟩
    · cases hm
    · exact ⟨b', dir, hb', hm⟩
  · exact Tree.record_of_update (fun dir h => by cases h) h

theorem target_freshObj (ht : IsKind e.type) : Tree.Target (update v e.start (some (freshObj e.type e.start))) e := by
  rcases ht with ht | ht
  · exact .inl ⟨ht, [e.start], by rw [update_self, freshObj, ht]; rfl⟩
  · exact .inr ⟨ht, [(e.start, [])], by rw [update_self, freshObj, if_pos ht]⟩

theorem freshObj_blocks (type : UInt8) (b : Nat) : (freshObj type b).blocks = [b] := by
  unfold freshObj
  split <;> rfl

/-- Allocation of a block and a record for it: the common part of the creating
operations. It fails when the directory and the volume are full. -/
theorem create_settles (h : Consistent s v none) {rest : List Nat} (hv : v d = some (.dir dir))
    (hf : s.store.frees s.totalBlocks = b :: rest) (he : e.Ok) (hkind : IsKind e.type)
    (hstart : e.startBlock = UInt32.ofNat b) :
    (∃ s' v', Settles (sdfsDirAddEntry e · (sdfsAllocBlock s).2 d) (0, s') ∧
      Attached s v s' v' d e (freshObj e.type e.start)) ∨
    ∃ s', Settles (sdfsDirAddEntry e · (sdfsAllocBlock s).2 d) (-1, s') ∧
      Becomes s v (sdfsFreeBlock s' b) v ∧ rest = [] := by
  obtain ⟨-, hstore, hlo, hhi, hfree⟩ := alloc_cons h.layout hf
  have hb : e.start = b := by rw [Entry.start, hstart, toNat_ofNat_block h.layout hhi]
  subst hb
  have hnone : v e.start = none := h.rep.none_of_free hfree
  have hd : d ≠ e.start := by
    rintro rfl
    rw [hnone] at hv
    cases hv
  have hg := geo_alloc s
  have hroot := root_of_geo hg
  have htot := total_of_geo hg
  have h1 := h.create hf e.type
  have hgr := grown_zeroed hf hlo hstore
  rw [← freshObj_blocks e.type] at hgr
  have hunnamed : ∀ l, Tree.Record (update v e.start (some (freshObj e.type e.start))) l →
      l.entry.start ≠ e.start := fun l hl => h.unnamed hnone (Tree.record_freshObj hl)
  rcases h1.add (by rw [update_of_ne hd]; exact hv) he (target_freshObj hkind) hunnamed
      (by omega) with ⟨s', dir', hset, hg', hadds, hcons⟩ | ⟨s', hset, hg', hstore', -, hfull⟩
  · exact .inl ⟨s', _, hset, Attached.of_grown h hv hnone hg hgr h1 hg' hadds hcons⟩
  · have hroot' := root_of_geo (hg'.trans hg)
    obtain ⟨hmark, hcons⟩ := (h1.of_store hg' hstore').freeStart (update_self _ _ _) (by omega)
      fun hl (_ : none ≠ some _) => hunnamed _ hl
    have hback : update (update v e.start (some (freshObj e.type e.start))) e.start none =
        v := by rw [update_idem, ← hnone, update_eq_self]
    have hgf := (geo_free s' e.start).trans hg'
    refine .inr ⟨s', hset, ⟨hgf.trans hg, hback ▸ hcons, fun hc => ?_⟩, ?_⟩
    · rw [← hback]
      exact (hc.grown hg hnone hgr rfl).freeStart hgf (update_self _ _ _) (freshObj_blocks _ _)
        (hmark.trans (by rw [hstore']))
    · have hrest : s.store.frees s.totalBlocks = [e.start] ++ [] := by
        rw [hgr.frees, freshObj_blocks, ← hfull, htot]
      rw [hf] at hrest
      exact (List.cons.inj hrest).2

theorem alloc_eq_nil (hf : s.store.frees s.totalBlocks = []) : sdfsAllocBlock s = (0, s) :=
  alloc_none (by rw [free?_eq_head, hf]; rfl)

theorem alloc_eq_cons (hl : Layout s) {rest : List Nat} (hf : s.store.frees s.totalBlocks = b :: rest) :
    sdfsAllocBlock s = (b, (sdfsAllocBlock s).2) ∧ b ≠ 0 := by
  obtain ⟨halloc, -, hlo, -, -⟩ := alloc_cons hl hf
  exact ⟨by rw [← halloc], by omega⟩

/-- What an operation leaves behind. -/
structure Keeps (s s' : Volume) : Prop where
  geo : s'.geo = s.geo
  consistent : ∃ v, Consistent s' v none

theorem Consistent.keeps (h : Consistent s v none) : Keeps s s := ⟨rfl, v, h⟩

theorem Becomes.keeps {v' : Tree} (h : Becomes s v s' v') : Keeps s s' := ⟨h.geo, v', h.consistent⟩

/-- An empty object of type `type` under a name that was not taken. -/
def CreatedIn (s : Volume) (v : Tree) (d : Nat) (name : List UInt8) (type : UInt8) (s' : Volume) (v' : Tree) :
    Prop :=
  ∃ e : Entry, e.name = name ∧ e.type = type ∧ e.fileSize = 0 ∧
    Attached s v s' v' d e (freshObj type e.start)

section
variable (h : Consistent s v none)
include h

/-- `createIn` fails on a name that is taken, and else when the directory and
the volume are full. -/
theorem createIn_settles (hv : v d = some (.dir dir)) (hn : NameOk name) (ht : IsKind type) (perm : UInt16) :
    ((∃ l, dirFind name dir = some l) ∧ Settles (createIn · s d name type perm) (-1, s)) ∨
    dirFind name dir = none ∧
      ((∃ s' v', Settles (createIn · s d name type perm) (0, s') ∧
        CreatedIn s v d name type s' v') ∨
      ∃ s', Settles (createIn · s d name type perm) (-1, s') ∧ Becomes s v s' v ∧
        (s.store.frees s.totalBlocks).length ≤ 1) := by
  have hfind := h.rep.find hv hn.noNul
  cases hd : dirFind name dir with
  | some l =>
    rw [hd] at hfind
    exact .inl ⟨⟨l, rfl⟩, hfind.bind (.const _)⟩
  | none =>
    rw [hd] at hfind
    refine .inr ⟨rfl, ?_⟩
    cases hf : s.store.frees s.totalBlocks with
    | nil =>
      refine .inr ⟨s, hfind.bind (.congr (fun n => ?_) (.const (-1, s))), h.becomes,
        Nat.zero_le _⟩
      rw [alloc_eq_nil hf]
      rfl
    | cons b rest =>
      obtain ⟨halloc, hb0⟩ := alloc_eq_cons h.layout hf
      have hok : (newEntry type name b (sdfsAllocBlock s).2.timerTicks perm).Ok := hn.entry rfl ht
      have hrun : ∀ r s', Settles (sdfsDirAddEntry (newEntry type name b
          (sdfsAllocBlock s).2.timerTicks perm) · (sdfsAllocBlock s).2 d) (r, s') →
          Settles (createIn · s d name type perm)
            (if r ≠ 0 then (-1, sdfsFreeBlock s' b) else (0, s')) := by
        intro r s' hset
        refine hfind.bind (.congr (fun n => ?_)
          (hset.map fun x => if x.1 ≠ 0 then (-1, sdfsFreeBlock x.2 b) else (0, x.2)))
        rw [halloc]
        exact if_neg hb0
      rcases create_settles h hv hf hok ht rfl with ⟨s', v', hset, hat⟩ | ⟨s', hset, hbec, hrest⟩
      · exact .inl ⟨s', v', hrun _ _ hset, _, rfl, rfl, rfl, hat⟩
      · exact .inr ⟨sdfsFreeBlock s' b, hrun _ _ hset, hbec, by rw [hrest]; exact Nat.le_refl 1⟩

theorem createPath_in (hm : s.mounted = true)
    (hp : treeParent v s.rootBlock path = some (d, name)) {perm : UInt16} {r : Int × Volume}
    (hr : Settles (createIn · s d name type perm) r) : Settles (createPath · s path type perm) r := by
  have hparent := parent_settles h nofun path
  rw [hp] at hparent
  refine .congr (fun n => if_neg ?_) (hparent.bind hr)
  rw [treeParent] at hp
  split at hp
  · cases hp
  · rename_i habs
    rw [not_or, not_not] at habs
    rintro (hnm | hhead | hroot)
    · rw [hm] at hnm
      cases hnm
    · exact hhead habs.1
    · rw [eq_of_beq hroot] at habs
      exact habs.2 (by decide)

/-- `createPath` fails without a parent directory, on a name that is taken, or
when the directory and the volume are full. -/
theorem createPath_settles (path : CStr) (ht : IsKind type) (perm : UInt16) :
    ∃ r s' v', Settles (createPath · s path type perm) (r, s') ∧ Becomes s v s' v' ∧
      Edit v v' := by
  by_cases hm : s.mounted = true
  · rcases parent_cases h path with ⟨-, hparent⟩ | ⟨d, name, dir, hp, hv, hn, -, -⟩
    · refine ⟨-1, s, v, ?_, h.becomes, .same⟩
      unfold createPath
      split
      · exact .const _
      · exact hparent.bind (.const _)
    · rcases createIn_settles h hv hn ht perm with
        ⟨-, hset⟩ | ⟨-, ⟨s', v', hset, hc⟩ | ⟨s', hset, hbec, -⟩⟩
      · exact ⟨-1, s, v, createPath_in h hm hp hset, h.becomes, .same⟩
      · obtain ⟨e, -, -, -, hat⟩ := hc
        exact ⟨0, s', v', createPath_in h hm hp hset, hat.toBecomes, .attach hat.toAttach⟩
      · exact ⟨-1, s', v, createPath_in h hm hp hset, hbec, .same⟩
  · refine ⟨-1, s, v, .congr (fun n => ?_) (.const _), h.becomes, .same⟩
    rw [createPath, if_pos (.inl (by simpa using hm))]

/-! ## Writing a file -/

/-- The end of `sdfs_write_file`: the record for the chain at `start`, or the
chain freed again when the directory cannot take it. -/
def recordChain (fuel : Nat) (s : Volume) (block : Nat) (e : Entry) (startBlock : Nat) (size : UInt32) :
    Option (UInt32 × Volume) :=
  (sdfsDirAddEntry e fuel s block).bind fun (ret, s) =>
    if ret ≠ 0 then (sdfsFreeChain fuel s startBlock).map fun s => (0, s) else some (size, s)

theorem recordChain_settles (hv : v d = some (.dir dir)) (he : e.Ok)
    (htype : e.type = sdfsTypeFile) (hc : v e.start = some (.file c))
    (hfresh : ∀ {l}, v.Record l → l.entry.start ≠ e.start) (size : UInt32) :
    (∃ s' dir', Settles (recordChain · s d e e.start size) (size, s') ∧ s'.geo = s.geo ∧
      Adds e s.totalBlocks s.store s'.store dir dir' 0 ∧
      Consistent s' (update v d (some (.dir dir'))) none) ∨
    ∃ s', Settles (recordChain · s d e e.start size) (0, s') ∧ s'.geo = s.geo ∧
      dirInsert e dir = none ∧ s.store.frees s.totalBlocks = [] ∧
      s'.store = s.store.markAll c false ∧ Consistent s' (update v e.start none) none := by
  have hroot : e.start ≠ s.rootBlock := by
    intro heq
    obtain ⟨dir0, hdir0⟩ := h.linked.rootDir
    rw [← heq, hc] at hdir0
    cases hdir0
  rcases h.add hv he (.inl ⟨htype, c, hc⟩) (fun _ => hfresh) hroot with
    ⟨s', dir', hset, hg, hadds, hcons⟩ | ⟨s1, hset, hg1, hstore1, hins, hfull⟩
  · exact .inl ⟨s', dir', hset.bind (.neg (not_not_intro rfl)
      (.const _)), hg, hadds, hcons⟩
  · have h1 := h.of_store hg1 hstore1
    obtain ⟨s', hfree, hg', hstore', hcons⟩ := h1.freeFile hc
      fun {l} hl (_ : none ≠ some l) => hfresh hl
    refine .inr ⟨s', hset.bind (.congr (fun n => ?_) (hfree.map _)), hg'.trans hg1, hins, hfull,
      by rw [hstore', hstore1], hcons⟩
    exact if_pos (by decide)

end

theorem sdfsWriteFile_overwrite (fuel : Nat) (s : Volume) (path : CStr) (buffer : Buf) (size : UInt32)
    (existing : Entry) : sdfsWriteFile.overwrite fuel path buffer size s existing =
      if existing.type ≠ sdfsTypeFile then some (0, s)
      else (sdfsFreeChain fuel s existing.startBlock.toNat).bind fun s =>
        writeBody fuel s path (some existing) buffer size := rfl

/-- The chain of a new file in the tree, not yet named by a record. -/
theorem newChain_settles (h : Consistent s v gone) (buffer : Buf) {size : Nat}
    (hk : blocksNeeded size ≤ (s.store.frees s.totalBlocks).length) :
    ∃ start c s', Settles (writeChain · s buffer size) (start, s') ∧ s'.geo = s.geo ∧
      v start = none ∧ start ≠ 0 ∧ start < s.totalBlocks ∧ c.length = blocksNeeded size ∧
      Grown s.totalBlocks start s.store [] s'.store c ∧ (∀ i < size, fileByte s'.store c i = buffer i) ∧
      Consistent s' (update v start (some (.file c))) gone := by
  obtain ⟨start, c, s', hset, hg, h0, hlen, hgr, hbytes⟩ := writeChain_settles h.layout buffer size hk
  have hne : c ≠ [] := by
    rintro rfl
    cases hlen
  have hstart : start ∈ c := by
    obtain ⟨x, c', rfl⟩ := exists_cons_of_ne_nil hne
    have hx : start = x := hgr.chain.1
    exact hx ▸ (.head _)
  obtain ⟨hlt, hfree⟩ := hgr.mem_frees start hstart
  have hnone := h.rep.none_of_free hfree
  exact ⟨start, c, s', hset, hg, hnone, h0, hlt, hlen, hgr, hbytes,
    h.grown hg (.inl ⟨rfl, hnone⟩) (by simpa using hne) hgr⟩

/-- With no free block `sdfs_write_file` of a new file gives up before it has
touched anything. -/
theorem writeBody_full (h : Consistent s v none) (hp : treeParent v s.rootBlock path = some (d, name))
    (existing : Option Entry) (buffer : Buf) (size : UInt32) (hf : s.store.frees s.totalBlocks = []) :
    Settles (writeBody · s path existing buffer size) (0, s) := by
  have hparent := parent_settles h nofun path
  rw [hp] at hparent
  exact hparent.bind ((writeChain_none hf buffer size.toNat).bind
    (.pos rfl (.const _)))

/-- A new file with the bytes of `buffer` under a name that was not taken. -/
def WrittenIn (s : Volume) (v : Tree) (d : Nat) (name : List UInt8) (buffer : Buf) (size : UInt32)
    (s' : Volume) (v' : Tree) : Prop :=
  ∃ (e : Entry) (c : List Nat), e.name = name ∧ e.type = sdfsTypeFile ∧ e.fileSize = size ∧
    c.length = blocksNeeded size.toNat ∧ (∀ i < size.toNat, fileByte s'.store c i = buffer i) ∧
    Attached s v s' v' d e (.file c)

/-- `sdfs_write_file` for a name that is not taken. -/
theorem writeBody_absent (h : Consistent s v none) (hp : treeParent v s.rootBlock path = some (d, name))
    (hv : v d = some (.dir dir)) (buffer : Buf) {size : UInt32}
    (hk : blocksNeeded size.toNat ≤ (s.store.frees s.totalBlocks).length) :
    (∃ s' v', Settles (writeBody · s path none buffer size) (size, s') ∧
      WrittenIn s v d name buffer size s' v') ∨
    ∃ s', Settles (writeBody · s path none buffer size) (0, s') ∧ Becomes s v s' v ∧
      s'.store.used = s.store.used ∧
      (∀ b, s.store.used b = true → s'.store.data b = s.store.data b) ∧
      (s.store.frees s.totalBlocks).length = blocksNeeded size.toNat := by
  obtain ⟨-, hn⟩ := treeParent_some h nofun hp
  have hparent := parent_settles h nofun path
  rw [hp] at hparent
  obtain ⟨start, c, s1, hchain, hg1, hnone, h0, hlt, hlen, hgr, hbytes, h1⟩ := newChain_settles h buffer hk
  set e := writtenEntry none name start size s1.timerTicks
  have hstart : e.start = start := toNat_ofNat_block h.layout hlt
  rw [← hstart] at hchain hnone h0 hlt hgr h1
  have hds : d ≠ e.start := by
    rintro rfl
    rw [hnone] at hv
    cases hv
  have hv1 : update v e.start (some (.file c)) d = some (.dir dir) := by
    rw [update_of_ne hds, hv]
  have hrun : ∀ r, Settles (recordChain · s1 d e e.start size) r →
      Settles (writeBody · s path none buffer size) r := fun r hr =>
    hparent.bind (hchain.bind (.neg h0 (by rw [hstart] at hr ⊢; exact hr)))
  have hfresh : ∀ {l}, Tree.Record (update v e.start (some (.file c))) l → l.entry.start ≠ e.start :=
    fun hl => h.unnamed hnone (Tree.record_of_update (fun dir h => by cases h) hl)
  rcases recordChain_settles h1 hv1 (hn.entry rfl (.inl rfl)) rfl (update_self _ _ _) hfresh size with
    ⟨s', dir', hset, hg, hadds, hcons⟩ | ⟨s', hset, hg, -, hfull, hstore, hcons⟩
  · refine .inl ⟨s', _, hrun _ hset, e, c, rfl, rfl, rfl, hlen, fun i hi => ?_,
      Attached.of_grown h hv hnone hg1 hgr h1 hg hadds hcons⟩
    rw [← hbytes i hi]
    exact fileByte_congr fun b hb _ _ =>
      congrFun (FilesKept.adds h1.rep hv1 hadds _ c (update_self _ _ _) b hb) _
  · have hback : update (update v e.start (some (.file c))) e.start none = v := by
      rw [update_idem, ← hnone, update_eq_self]
    refine .inr ⟨s', hrun _ hset, ⟨hg.trans hg1, hback ▸ hcons, fun hc => ?_⟩, ?_, fun b hb => ?_, ?_⟩
    · rw [← hback]
      exact (hc.grown hg1 hnone hgr rfl).freeFile hg (update_self _ _ _) hstore
    · -- the chain took free blocks and has given them back
      funext b
      rw [hstore]
      show (if b ∈ c then false else s1.store.used b) = s.store.used b
      split
      · rename_i hm
        exact (hgr.mem_frees b hm).2.symm
      · rename_i hm
        rw [hgr.used, decide_eq_false hm, Bool.or_false]
    · rw [hstore]
      refine hgr.data b fun hm => ?_
      rw [(hgr.mem_frees b hm).2] at hb
      cases hb
    · have htot := total_of_geo hg1
      rw [hgr.frees, ← htot, hfull, append_nil, hlen]

theorem Tree.erase_dir (hv : v b = some (.file c)) (x : Nat) (dir : Dir) :
    update v b none x = some (.dir dir) ↔ v x = some (.dir dir) := by
  by_cases hx : x = b
  · subst hx
    rw [update_self, hv]
    simp
  · rw [update_of_ne hx]

/-- Reading a block both states agree on. -/
theorem read_congr (hg : s'.geo = s.geo) (ho : s.Owns b) (hd : s'.store.data b = s.store.data b) :
    sdfsReadBlock s' b = sdfsReadBlock s b := by
  have ho' := (owns_of_geo hg).mpr ho
  rw [ho.read, ho'.read, hd]

/-- `sdfs_dir_remove_entry` for a record that is the last one of its block. -/
theorem Consistent.remove (h : Consistent s v gone) (hv : v d = some (.dir dir)) (hn : ∀ c ∈ name, c ≠ 0)
    (hl : dirFind name dir = some l) (hgone : ∀ l', gone = some l' → l' = l)
    (hlast : IsLastRecord (sdfsReadBlock s l.block) l.blockOffset) :
    Settles (sdfsDirRemoveEntry name · s d) (0, unlinked s l) ∧
      (unlinked s l).store.used = s.store.used ∧ ∃ dir', Unlinks dir dir' l ∧
      (∀ {l'}, Tree.Record (Function.update v d (some (.dir dir'))) l' → v.Record l' ∧ l' ≠ l) ∧
      Consistent (unlinked s l) (Function.update v d (some (.dir dir'))) none := by
  have hremove := remove_settles hn (h.rep.dirAt hv).1 (h.rep.dirAt hv).2.2.1
  rw [hl] at hremove
  obtain ⟨dir', hun, hstore, hrec, hcons⟩ := h.unlink hv (dirFind_mem hl).1 hgone hlast
  exact ⟨hremove, by rw [hstore]; rfl, dir', hun, hrec, hcons⟩

/-- The end of `sdfs_write_file` over a file: its record is replaced by one for
the chain at `startBlock`. -/
def replaceRecord (fuel : Nat) (s : Volume) (block : Nat) (name : List UInt8) (e : Entry) (startBlock : Nat)
    (size : UInt32) : Option (UInt32 × Volume) :=
  ((sdfsDirRemoveEntry name fuel s block).map Prod.snd).bind fun s =>
    recordChain fuel s block e startBlock size

/-- The old record is the last one of its block and names nothing any more, and
no record names the new chain yet. -/
theorem replaceRecord_settles (h : Consistent s v (some l)) (hv : v d = some (.dir dir)) (hn : NameOk name)
    (hl : dirFind name dir = some l) (hlast : IsLastRecord (sdfsReadBlock s l.block) l.blockOffset) (he : e.Ok)
    (htype : e.type = sdfsTypeFile) (hc : v e.start = some (.file c))
    (hfresh : ∀ {l'}, v.Record l' → l' ≠ l → l'.entry.start ≠ e.start) (size : UInt32) :
    ∃ dir', Unlinks dir dir' l ∧
      ((∃ s' dir'' τ, Settles (replaceRecord · s d name e e.start size) (size, s') ∧
        s'.geo = s.geo ∧ Adds e s.totalBlocks τ s'.store dir' dir'' 0 ∧
        Consistent s' (update v d (some (.dir dir''))) none ∧
        (Covered s v → Covered s' (update v d (some (.dir dir''))))) ∨
      ∃ s', Settles (replaceRecord · s d name e e.start size) (0, s') ∧ s'.geo = s.geo ∧
        dirInsert e dir' = none ∧ s.store.frees s.totalBlocks = [] ∧
        Consistent s' (update (update v d (some (.dir dir'))) e.start none) none ∧
        (Covered s v →
          Covered s' (update (update v d (some (.dir dir'))) e.start none))) := by
  obtain ⟨hremove, hused, dir', hun, hrec, h1⟩ := h.remove hv hn.noNul hl
    (fun l' heq => (some.inj heq).symm) hlast
  have hg1 : (unlinked s l).geo = s.geo := geo_metadataWrite _ _ _
  have htot := total_of_geo hg1
  have hcov : Covered s v → Covered (unlinked s l) (update v d (some (.dir dir'))) := fun hc =>
    hc.rewrite hg1 hused hv hun.blocks
  have hed : e.start ≠ d := fun heq => by
    rw [heq, hv] at hc
    cases hc
  have hc1 : update v d (some (.dir dir')) e.start = some (.file c) := by
    rw [update_of_ne hed, hc]
  have hrun : ∀ r, Settles (recordChain · (unlinked s l) d e e.start size) r →
      Settles (replaceRecord · s d name e e.start size) r := fun r hr =>
    (hremove.map Prod.snd).bind hr
  refine ⟨dir', hun, ?_⟩
  rcases recordChain_settles h1 (update_self _ _ _) he htype hc1
      (fun hl' => hfresh (hrec hl').1 (hrec hl').2) size with
    ⟨s', dir'', hset, hg, hadds, hcons⟩ | ⟨s', hset, hg, hins, hfull, hstore', hcons⟩
  · refine .inl ⟨s', dir'', (unlinked s l).store, hrun _ hset, hg.trans hg1, htot ▸ hadds, ?_, fun hc => ?_⟩
    · rw [update_idem] at hcons
      exact hcons
    · have := (hcov hc).adds hg (update_self _ _ _) hadds
      rwa [update_idem] at this
  · refine .inr ⟨s', hrun _ hset, hg.trans hg1, hins, ?_, hcons, fun hc => (hcov hc).freeFile hg hc1 hstore'⟩
    rw [← hfull, htot]
    exact (frees_congr fun b => congrFun hused b).symm

/-- `sdfs_write_file` over a file whose record is the last one of its block and
whose blocks, with the free ones, suffice. It returns 0 only when the directory
has no room for the new record and no block is left. -/
theorem overwrite_settles (h : Consistent s v none) (hp : treeParent v s.rootBlock path = some (d, name))
    (hv : v d = some (.dir dir)) (hl : dirFind name dir = some l) (htype : l.entry.type = sdfsTypeFile)
    (hc : v l.entry.start = some (.file c)) (hlast : IsLastRecord (sdfsReadBlock s l.block) l.blockOffset)
    (buffer : Buf) {size : UInt32} (hk : blocksNeeded size.toNat ≤ (s.store.frees s.totalBlocks).length + c.length) :
    (∃ s' v1 v' e c', Settles (sdfsWriteFile.overwrite · path buffer size s l.entry) (size, s') ∧
      Detach v d l v1 ∧ Attach v1 d e (.file c') v' ∧ Becomes s v s' v') ∨
    ∃ s' v' dir' e, Settles (sdfsWriteFile.overwrite · path buffer size s l.entry) (0, s') ∧
      Detach v d l v' ∧ Becomes s v s' v' ∧ Unlinks dir dir' l ∧ e.name = name ∧ dirInsert e dir' = none ∧
      blocksNeeded size.toNat = (s.store.frees s.totalBlocks).length + c.length := by
  obtain ⟨-, hn⟩ := treeParent_some h nofun hp
  obtain ⟨hm, hname⟩ := dirFind_mem hl
  have hrec : v.Record l := ⟨d, dir, hv, hm⟩
  have howns := (h.rep.owned hv l.block (dirRecords_block hm)).1
  have hnd := (h.rep.dirAt hv).1.nodup
  have hdb : d ≠ l.entry.start := by
    intro heq
    rw [← heq, hv] at hc
    cases hc
  -- the old chain is freed; from here on `l` names nothing
  obtain ⟨s1, hfree, hg1, hstore1, h1⟩ := h.freeFile hc fun {l'} hl' (hne : some l ≠ some l') heq =>
    hne (congrArg some (h.linked.unique hrec hl' nofun nofun heq.symm))
  have hgone : ∀ l', some l = some l' → l'.entry.type ≠ sdfsTypeDir := fun l' heq => by
    cases heq
    rw [htype]
    decide
  have hroot1 := root_of_geo hg1
  have htot1 := total_of_geo hg1
  have hparent := parent_settles h1 hgone path
  rw [treeParent_congr (Tree.erase_dir hc), hroot1, hp] at hparent
  set vfreed : Tree := update v l.entry.start none
  have hv1 : vfreed d = some (.dir dir) := (update_of_ne hdb _ _).trans hv
  -- the new chain
  obtain ⟨oc, -⟩ := h.rep.ownChain h.layout hc
  have hcount : (s1.store.frees s1.totalBlocks).length =
      (s.store.frees s.totalBlocks).length + c.length := by
    rw [hstore1, htot1]
    exact frees_markAll_length oc.chain.nodup (fun b hb => (oc.owned b hb).2) oc.used
  obtain ⟨start, c', s2, hchain, hg2, hnone, h0, hlt, hlen, hgr, -, h2⟩ :=
    newChain_settles h1 buffer (hk.trans_eq hcount.symm)
  set e := writtenEntry (some l.entry) name start size s2.timerTicks
  have hstart : e.start = start := toNat_ofNat_block h.layout (htot1 ▸ hlt)
  rw [← hstart] at hchain hnone h0 hgr h2
  have hds : d ≠ e.start := by
    intro heq
    rw [← heq, hv1] at hnone
    cases hnone
  set vnew : Tree := update vfreed e.start (some (.file c'))
  have hv2 : vnew d = some (.dir dir) := (update_of_ne hds _ _).trans hv1
  have hused1 : s1.store.used l.block = true := (h1.rep.owned hv1 _ (dirRecords_block hm)).2
  have hdata : s2.store.data l.block = s.store.data l.block := by
    rw [hgr.data, hstore1]
    · rfl
    · intro hmem
      rw [(hgr.mem_frees _ hmem).2] at hused1
      cases hused1
  have hfresh : ∀ {l'}, vnew.Record l' → l' ≠ l → l'.entry.start ≠ e.start := by
    intro l' hl' hne heq
    have hl1 := Tree.record_of_update (fun dir h => by cases h) hl'
    rcases h1.linked.target hl1 fun h' => hne (some.inj h').symm with ⟨-, x, hx⟩ | ⟨-, x, hx⟩ <;>
      (rw [heq, hnone] at hx; cases hx)
  have hrun : ∀ r, Settles (replaceRecord · s2 d name e e.start size) r →
      Settles (sdfsWriteFile.overwrite · path buffer size s l.entry) r := by
    intro r hr
    rw [hstart] at hr hchain h0
    have hbody : Settles (writeBody · s1 path (some l.entry) buffer size) r :=
      hparent.bind (hchain.bind (.neg h0 hr))
    refine .congr (fun n => ?_)
      (hfree.bind (g := fun n s => writeBody n s path (some l.entry) buffer size) hbody)
    rw [sdfsWriteFile_overwrite, if_neg (not_not_intro htype)]
    rfl
  have hcov : Covered s v → Covered s2 vnew := fun hcov =>
    (hcov.freeFile hg1 hc hstore1).grown hg2 hnone hgr rfl
  obtain ⟨dir', hun, hcases⟩ := replaceRecord_settles h2 hv2 hn hl
    (by rw [read_congr (hg2.trans hg1) howns hdata]; exact hlast) (hn.entry rfl (.inl rfl)) rfl
    (update_self _ _ _) hfresh size
  -- the old object and its record out of the tree
  set v1 : Tree := update vfreed d (some (.dir dir')) with hv1'
  have hdetach : Detach v d l v1 := by
    refine ⟨fun dir0 hdir0 => ?_, dir, dir', hv, hnd, hun, rfl⟩
    rw [hc] at hdir0
    cases hdir0
  have hnone1 : v1 e.start = none := by
    rw [hv1', update_of_ne hds.symm, hnone]
  have hswap : update v1 e.start (some (.file c')) = update vnew d (some (.dir dir')) := update_comm hds _ _ _
  rcases hcases with ⟨s', dir'', τ, hset, hg, hadds, hcons, hcov'⟩ | ⟨s', hset, hg, hins, hfull, hcons, hcov'⟩
  · have htree : update vnew d (some (.dir dir'')) =
        update (update v1 e.start (some (.file c'))) d (some (.dir dir'')) := by
      rw [hswap, update_idem]
    rw [htree] at hcons hcov'
    exact .inl ⟨s', v1, _, e, c', hrun _ hset, hdetach,
      ⟨hnone1, dir', dir'', _, _, _, update_self _ _ _, hadds, rfl⟩,
      hg.trans (hg2.trans hg1), hcons, fun hc => hcov' (hcov hc)⟩
  · have htree : update (update vnew d (some (.dir dir'))) e.start none = v1 := by
      rw [← hswap, update_idem, ← hnone1, update_eq_self]
    rw [htree] at hcons hcov'
    refine .inr ⟨s', v1, dir', e, hrun _ hset, hdetach,
      ⟨hg.trans (hg2.trans hg1), hcons, fun hc => hcov' (hcov hc)⟩, hun, rfl, hins, ?_⟩
    have htot2 := total_of_geo hg2
    rw [← hcount, hgr.frees, ← htot2, hfull, append_nil, hlen]

/-! ## Removing and moving records -/

theorem sdfsDelete_unlink (fuel : Nat) (s : Volume) (block : Nat) (name : List UInt8) :
    sdfsDelete.unlink fuel s block name =
      (sdfsDirRemoveEntry name fuel s block).map fun (_, s) => (0, s) := rfl

/-- What a path leads to in the tree: its parent directory and its record there. -/
structure Entered (s : Volume) (v : Tree) (path : CStr) (d : Nat) (name : List UInt8) (dir : Dir)
    (l : Located) : Prop where
  parent : treeParent v s.rootBlock path = some (d, name)
  isDir : v d = some (.dir dir)
  found : dirFind name dir = some l

/-- The look-up that `sdfs_delete`, `sdfs_rename` and `sdfs_set_permissions`
start with. -/
def withEntry (fuel : Nat) (s : Volume) (path : CStr)
    (act : Nat → List UInt8 → Located → Option (Int × Volume)) : Option (Int × Volume) :=
  (sdfsResolveParent fuel s path).bind fun parent =>
    match parent with
    | none => some (-1, s)
    | some (block, name) =>
      (sdfsDirFindEntry s name fuel block).bind fun found =>
        match found with
        | none => some (-1, s)
        | some l => act block name l

theorem withEntry_settles (h : Consistent s v none) (path : CStr)
    (act : Nat → Nat → List UInt8 → Located → Option (Int × Volume)) :
    Settles (fun fuel => withEntry fuel s path (act fuel)) (-1, s) ∨
    ∃ d name dir l, Entered s v path d name dir l ∧ NameOk name ∧
      ∀ r, Settles (act · d name l) r →
        Settles (fun fuel => withEntry fuel s path (act fuel)) r := by
  rcases parent_cases h path with ⟨-, hparent⟩ | ⟨d, name, dir, hp, hv, hn, hparent, hfind⟩
  · exact .inl (hparent.bind (.const _))
  · cases hl : dirFind name dir with
    | none =>
      rw [hl] at hfind
      exact .inl (hparent.bind (hfind.bind (.const _)))
    | some l =>
      rw [hl] at hfind
      exact .inr ⟨d, name, dir, l, ⟨hp, hv, hl⟩, hn, fun r hr => hparent.bind (hfind.bind hr)⟩

theorem Entered.record (h : Entered s v path d name dir l) :
    v.Record l := ⟨d, dir, h.isDir, (dirFind_mem h.found).1⟩

/-- The record a path leads to is the last one of its block. -/
def LastAt (s : Volume) (v : Tree) (path : CStr) : Prop :=
  ∀ d name dir l, Entered s v path d name dir l → IsLastRecord (sdfsReadBlock s l.block) l.blockOffset

/-- `sdfs_delete` once the record is found. -/
def deleteFound (fuel : Nat) (s : Volume) (block : Nat) (name : List UInt8) (l : Located) :
    Option (Int × Volume) :=
  if l.entry.type = sdfsTypeDir then
    (sdfsDirCountEntries s fuel l.entry.startBlock.toNat).bind fun n =>
      if n > 0 then some (-1, s)
      else sdfsDelete.unlink fuel (sdfsFreeBlock s l.entry.startBlock.toNat) block name
  else (sdfsFreeChain fuel s l.entry.startBlock.toNat).bind fun s => sdfsDelete.unlink fuel s block name

section
variable (h : Consistent s v none)
include h

/-- `sdfs_delete` refuses a directory with entries. -/
theorem deleteFound_settles (he : Entered s v path d name dir l) (hn : NameOk name)
    (hlast : IsLastRecord (sdfsReadBlock s l.block) l.blockOffset) :
    ((∃ dir2, v l.entry.start = some (.dir dir2) ∧ dirRecords dir2 ≠ []) ∧
      Settles (deleteFound · s d name l) (-1, s)) ∨
    ∃ s' v', Settles (deleteFound · s d name l) (0, s') ∧ Detached s v s' v' d l := by
  have hv := he.isDir
  have hrec := he.record
  have hm := (dirFind_mem he.found).1
  have hown := (h.rep.owned hv l.block (dirRecords_block hm)).1
  have hnd := (h.rep.dirAt hv).1.nodup
  have hother : ∀ {l'}, v.Record l' → some l ≠ some l' → l'.entry.start ≠ l.entry.start :=
    fun hl' hne heq => hne (congrArg some (h.linked.unique hrec hl' nofun nofun heq.symm))
  -- after the object is gone, its record goes
  have hfinish : ∀ (s1 : Volume) (o : Obj), s1.geo = s.geo → s1.store.data l.block = s.store.data l.block →
      (∀ dir, o = .dir dir → dirRecords dir = []) → v l.entry.start = some o →
      (∀ x, s1.store.used x = true ↔ s.store.used x = true ∧ x ∉ o.freed l.entry.start) →
      Consistent s1 (update v l.entry.start none) (some l) →
      ∃ s' v', Settles (sdfsDelete.unlink · s1 d name) (0, s') ∧ Detached s v s' v' d l := by
    intro s1 o hg1 hdata hleaf ho hused h1
    have hd : d ≠ l.entry.start := fun heq => by
      rw [← heq, hv] at ho
      cases ho
      rw [hleaf dir rfl] at hm
      cases hm
    have hv1 : update v l.entry.start none d = some (.dir dir) := by
      rw [update_of_ne hd]
      exact hv
    obtain ⟨hset, hused', dir', hun, -, hcons⟩ := h1.remove hv1 hn.noNul he.found
      (fun l' heq => (some.inj heq).symm) (by rw [read_congr hg1 hown hdata]; exact hlast)
    refine ⟨unlinked s1 l, _, .congr (fun n => sdfsDelete_unlink n s1 d name) (hset.map _),
      ⟨fun dir0 hdir0 => ?_, dir, dir', hv, hnd, hun, rfl⟩, (geo_metadataWrite _ _ _).trans hg1, hcons,
      fun o' ho' x => ?_⟩
    · rw [ho] at hdir0
      cases hdir0
      exact hleaf dir0 rfl
    · rw [ho] at ho'
      cases ho'
      rw [hused', hused]
  rcases h.linked.target hrec nofun with ⟨ht, c, hc⟩ | ⟨ht, dir2, hdir2⟩
  · obtain ⟨s1, hfree, hg1, hstore1, h1⟩ := h.freeFile hc hother
    have hused : ∀ x, s1.store.used x = true ↔ s.store.used x = true ∧ x ∉ c := fun x => by
      rw [hstore1]
      show (if x ∈ c then false else s.store.used x) = true ↔ _
      by_cases hx : x ∈ c <;> simp [hx]
    obtain ⟨s', v', hset, hdet⟩ := hfinish s1 (.file c) hg1 (by rw [hstore1]; rfl) nofun hc hused h1
    refine .inr ⟨s', v', .congr (fun n => ?_)
      (hfree.bind (g := fun n s => sdfsDelete.unlink n s d name) hset), hdet⟩
    exact if_neg (by rw [ht]; decide)
  · have htypes : ∀ e ∈ dirEntries dir2, IsKind e.type := fun e he => by
      obtain ⟨l', hl', rfl⟩ := mem_map.mp he
      exact (h.linked.target ⟨_, dir2, hdir2, hl'⟩ nofun).isKind
    have hcount := count_settles (h.rep.dirAt hdir2).1 (h.rep.dirAt hdir2).2.2.1 htypes
    have hlength : (dirEntries dir2).length = (dirRecords dir2).length := length_map _
    have hrun : ∀ r, Settles (fun n => if (dirEntries dir2).length > 0 then some ((-1 : Int), s) else
        sdfsDelete.unlink n (sdfsFreeBlock s l.entry.start) d name) r →
        Settles (deleteFound · s d name l) r := fun r hr =>
      .pos ht (hcount.bind (g := fun n k =>
        if k > 0 then some (-1, s) else sdfsDelete.unlink n (sdfsFreeBlock s l.entry.start) d name) hr)
    by_cases hempty : dirRecords dir2 = []
    · obtain ⟨hstore1, h1⟩ := h.freeStart hdir2 (h.linked.rootFree hrec nofun) hother
      have hused : ∀ x, (sdfsFreeBlock s l.entry.start).store.used x = true ↔
          s.store.used x = true ∧ x ∉ [l.entry.start] := fun x => by
        rw [hstore1, mem_singleton]
        by_cases hx : x = l.entry.start
        · simp [hx]
        · simp [hx, Store.mark_used_ne]
      obtain ⟨s', v', hset, hdet⟩ := hfinish _ (.dir dir2) (geo_free _ _) (by rw [hstore1]; rfl)
        (fun dir heq => by cases heq; exact hempty) hdir2 hused h1
      exact .inr ⟨s', v', hrun _ (.neg (by rw [hlength, hempty]; decide) hset), hdet⟩
    · refine .inl ⟨⟨dir2, hdir2, hempty⟩, hrun _ (.congr (fun n => if_pos ?_) (.const _))⟩
      rw [hlength]
      exact length_pos_of_ne_nil hempty

theorem delete_settles (path : CStr) (hlast : LastAt s v path) :
    Settles (sdfsDelete · s path) (-1, s) ∨
    ∃ d name dir l s' v', Entered s v path d name dir l ∧
      Settles (sdfsDelete · s path) (0, s') ∧ Detached s v s' v' d l := by
  simp only [sdfsDelete]
  split
  · exact .inl (.const _)
  · rcases withEntry_settles h path (deleteFound · s) with
      hfail | ⟨d, name, dir, l, he, hn, hrun⟩
    · exact .inl hfail
    · rcases deleteFound_settles h he hn (hlast d name dir l he) with ⟨-, hset⟩ | ⟨s', v', hset, hdet⟩
      · exact .inl (hrun _ hset)
      · exact .inr ⟨d, name, dir, l, s', v', he, hrun _ hset, hdet⟩

/-- A record removed and one for the same object added, in the same or another
directory. -/
theorem move_settles (he : Entered s v path d name dir l) (hn : NameOk name)
    (hlast : IsLastRecord (sdfsReadBlock s l.block) l.blockOffset) :
    Settles (sdfsDirRemoveEntry name · s d) (0, unlinked s l) ∧
    (unlinked s l).geo = s.geo ∧ ∃ (dir1 : Dir) (v1 : Tree), Unlinks dir dir1 l ∧
      v1 = update v d (some (.dir dir1)) ∧ Consistent (unlinked s l) v1 none ∧
      (∀ b, (∃ dir, v b = some (.dir dir)) → ∃ dir, v1 b = some (.dir dir)) ∧
      v1.Target l.entry ∧ (∀ l', v1.Record l' → l'.entry.start ≠ l.entry.start) ∧
      l.entry.start ≠ s.rootBlock := by
  obtain ⟨hset, -, dir', hun, hrec, hcons⟩ := h.remove he.isDir hn.noNul he.found nofun hlast
  refine ⟨hset, geo_metadataWrite _ _ _, dir', _, hun, rfl, hcons, fun b ⟨dirb, hb⟩ => ?_,
    (h.linked.target he.record nofun).put (sameKind_dir he.isDir dir'), fun l' hl' heq => ?_,
    h.linked.rootFree he.record nofun⟩
  · by_cases hbd : b = d
    · exact ⟨dir', by rw [hbd, update_self]⟩
    · exact ⟨dirb, by rw [update_of_ne hbd]; exact hb⟩
  · obtain ⟨h1, hne⟩ := hrec hl'
    exact hne (h.linked.unique h1 he.record nofun nofun heq)

/-- Adding back a record for an object that has none, whether it fits or not. -/
theorem readd_settles (hv : ∃ dir, v d = some (.dir dir)) (he : e.Ok)
    (ht : v.Target e) (hfresh : ∀ l, v.Record l → l.entry.start ≠ e.start) (hroot : e.start ≠ s.rootBlock) :
    ∃ s', s'.geo = s.geo ∧ ((Settles (sdfsDirAddEntry e · s d) (0, s') ∧
        ∃ (dir dir' : Dir) (v' : Tree), v d = some (.dir dir) ∧ Adds e s.totalBlocks s.store s'.store dir dir' 0 ∧
          v' = update v d (some (.dir dir')) ∧ Consistent s' v' none) ∨
      (Settles (sdfsDirAddEntry e · s d) (-1, s') ∧ Consistent s' v none)) := by
  obtain ⟨dir, hv⟩ := hv
  rcases h.add hv he ht hfresh hroot with ⟨s', dir', hset, hg, hadds, hcons⟩ | ⟨s', hset, hg, hstore, -, -⟩
  · exact ⟨s', hg, .inl ⟨hset, dir, dir', _, hv, hadds, rfl, hcons⟩⟩
  · exact ⟨s', hg, .inr ⟨hset, h.of_store hg hstore⟩⟩

theorem setPermissions_keeps (path : CStr) (perm : UInt16) (hlast : LastAt s v path) :
    ∃ r s', Settles (sdfsSetPermissions · s path perm) (r, s') ∧ Keeps s s' := by
  have heq : ∀ fuel, sdfsSetPermissions fuel s path perm = if !s.mounted then some (-1, s) else
      withEntry fuel s path fun block name l => (sdfsDirRemoveEntry name fuel s block).bind fun (_, s1) =>
        sdfsDirAddEntry { l.entry with permissions := perm, modifiedTime := s.timerTicks } fuel s1 block :=
    fun _ => rfl
  simp only [heq]
  split
  · exact ⟨-1, s, .const _, h.keeps⟩
  · rcases withEntry_settles h path _ with hfail | ⟨d, name, dir, l, he, hn, hrun⟩
    · exact ⟨-1, s, hfail, h.keeps⟩
    · obtain ⟨hset, hg, -, v1, -, -, hcons, hdirs, ht, hfresh, hroot⟩ :=
        move_settles h he hn (hlast d name dir l he)
      have hroot' := root_of_geo hg
      obtain ⟨s', hg', hadd⟩ := readd_settles hcons (hdirs d ⟨dir, he.isDir⟩)
        (e := { l.entry with permissions := perm, modifiedTime := s.timerTicks })
        (hn.entry (dirFind_mem he.found).2 ht.isKind) ht hfresh (hroot'.symm ▸ hroot)
      rcases hadd with ⟨hadd, -, -, v', -, -, -, hc⟩ | ⟨hadd, hc⟩
      · exact ⟨0, s', hrun _ (hset.bind hadd), hg'.trans hg, v', hc⟩
      · exact ⟨-1, s', hrun _ (hset.bind hadd), hg'.trans hg, v1, hc⟩

end

/-- `sdfs_rename` once the old record is found. -/
def renameFound (fuel : Nat) (s : Volume) (newPath : CStr) (oldBlock : Nat) (oldName : List UInt8)
    (l : Located) : Option (Int × Volume) :=
  (sdfsResolveParent fuel s newPath).bind fun newParent =>
  match newParent with
  | none => some (-1, s)
  | some (newBlock, newName) =>
  (sdfsDirFindEntry s newName fuel newBlock).bind fun clash =>
  if clash.isSome then some (-1, s) else
  (sdfsDirRemoveEntry oldName fuel s oldBlock).bind fun (_, s) =>
  (sdfsDirAddEntry { l.entry with name := newName, modifiedTime := s.timerTicks } fuel s newBlock).bind
    fun (ret, s) =>
  if ret ≠ 0 then
    (sdfsDirAddEntry { l.entry with name := oldName } fuel s oldBlock).map fun (_, s) => (-1, s)
  else some (0, s)

theorem sdfsRename_eq (fuel : Nat) (s : Volume) (oldPath newPath : CStr) :
    sdfsRename fuel s oldPath newPath =
      if !s.mounted ∨ pathIsRoot oldPath ∨ pathIsRoot newPath then some (-1, s)
      else withEntry fuel s oldPath (renameFound fuel s newPath) := rfl

/-- The tree after the record `l` has left the directory at `d` and one with
the entry `e` has come into the one at `d'`. -/
inductive Moves (v : Tree) (d : Nat) (dir : Dir) (l : Located) (d' : Nat) (e : Entry) : Tree → Prop
  | mk {dir1 dir' dir2 : Dir} {total : Nat} {σ τ : Store} : Unlinks dir dir1 l →
      update v d (some (.dir dir1)) d' = some (.dir dir') → Adds e total σ τ dir' dir2 0 →
      Moves v d dir l d' e (update (update v d (some (.dir dir1))) d' (some (.dir dir2)))

/-- A successful rename of the record `l` of the directory at `d`. -/
structure Renamed (s s' : Volume) (v v' : Tree) (newPath : CStr) (d : Nat) (dir : Dir) (l : Located)
    (d' : Nat) (name' : List UInt8) : Prop where
  parent : treeParent v s.rootBlock newPath = some (d', name')
  free : ∀ dir', v d' = some (.dir dir') → dirFind name' dir' = none
  geo : s'.geo = s.geo
  consistent : Consistent s' v' none
  moves : Moves v d dir l d' { l.entry with name := name', modifiedTime := (unlinked s l).timerTicks } v'

theorem renameFound_settles (h : Consistent s v none) {oldPath : CStr} (newPath : CStr)
    (he : Entered s v oldPath d name dir l) (hn : NameOk name)
    (hlast : IsLastRecord (sdfsReadBlock s l.block) l.blockOffset) :
    ∃ r s', Settles (renameFound · s newPath d name l) (r, s') ∧
      ((r = -1 ∧ Keeps s s') ∨ ∃ v' d' name', Renamed s s' v v' newPath d dir l d' name') := by
  rcases parent_cases h newPath with ⟨-, hparent⟩ | ⟨d', name', dir', hp, hv', hn', hparent, hclash⟩
  · exact ⟨-1, s, hparent.bind (.const _), .inl ⟨rfl, h.keeps⟩⟩
  · cases hl : dirFind name' dir' with
    | some l' =>
      rw [hl] at hclash
      exact ⟨-1, s, hparent.bind (hclash.bind (.const _)), .inl ⟨rfl, h.keeps⟩⟩
    | none =>
      rw [hl] at hclash
      obtain ⟨hset, hg, dir1, v1, hun, rfl, hcons, hdirs, ht, hfresh, hroot⟩ := move_settles h he hn hlast
      have hroot1 := root_of_geo hg
      obtain ⟨s2, hg2, hadd⟩ := readd_settles hcons (hdirs d' ⟨dir', hv'⟩)
        (e := { l.entry with name := name', modifiedTime := (unlinked s l).timerTicks })
        (hn'.entry rfl ht.isKind) ht hfresh (hroot1.symm ▸ hroot)
      rcases hadd with ⟨hadd, dirn, dir2, _, hdirn, hadds, rfl, hc⟩ | ⟨hadd, hc⟩
      · refine ⟨0, s2, hparent.bind (hclash.bind (hset.bind (hadd.bind (.congr (fun n => ?_)
          (.const _))))), .inr ⟨_, d', name', hp, fun dir2 hdir2 => ?_, hg2.trans hg, hc,
            .mk hun hdirn hadds⟩⟩
        · exact if_neg (not_not_intro rfl)
        · rw [hv'] at hdir2
          cases hdir2
          exact hl
      · -- the old record goes back, if it still fits
        have hroot2 := root_of_geo (hg2.trans hg)
        obtain ⟨s3, hg3, hback⟩ := readd_settles hc (hdirs d ⟨dir, he.isDir⟩)
          (e := { l.entry with name := name }) (hn.entry rfl ht.isKind) ht hfresh (hroot2.symm ▸ hroot)
        have hrun : ∀ r, Settles (fun fuel => sdfsDirAddEntry { l.entry with name := name } fuel s2 d)
            (r, s3) → Settles (renameFound · s newPath d name l) (-1, s3) := by
          intro r hr
          refine hparent.bind (hclash.bind (hset.bind (hadd.bind (.congr (fun n => ?_)
            (hr.map fun x => (-1, x.2))))))
          exact if_pos (by decide)
        rcases hback with ⟨hback, -, -, v3, -, -, -, hc3⟩ | ⟨hback, hc3⟩
        · exact ⟨-1, s3, hrun _ hback, .inl ⟨rfl, hg3.trans (hg2.trans hg), v3, hc3⟩⟩
        · exact ⟨-1, s3, hrun _ hback, .inl ⟨rfl, hg3.trans (hg2.trans hg), _, hc3⟩⟩

theorem rename_keeps (h : Consistent s v none) (oldPath newPath : CStr) (hlast : LastAt s v oldPath) :
    ∃ r s', Settles (sdfsRename · s oldPath newPath) (r, s') ∧ Keeps s s' := by
  simp only [sdfsRename_eq]
  split
  · exact ⟨-1, s, .const _, h.keeps⟩
  · rcases withEntry_settles h oldPath (renameFound · s newPath) with
      hfail | ⟨d, name, dir, l, he, hn, hrun⟩
    · exact ⟨-1, s, hfail, h.keeps⟩
    · obtain ⟨r, s', hset, ⟨-, hk⟩ | ⟨v', d', name', hren⟩⟩ :=
        renameFound_settles h newPath he hn (hlast d name dir l he)
      · exact ⟨r, s', hrun _ hset, hk⟩
      · exact ⟨r, s', hrun _ hset, hren.geo, v', hren.consistent⟩

/-! ## Node operations -/

theorem finddir_settles (h : Consistent s v gone) {node : Node} (hnode : node.isDir = true)
    (hv : v node.inode = some (.dir dir)) (hn : ∀ c ∈ name, c ≠ 0) :
    Settles (sdfsFinddir · s node name) ((dirFind name dir).map nodeOf) := by
  have hcond : ¬ (!node.isDir) = true := by simp [hnode]
  exact .neg hcond ((h.rep.find hv hn).map _)

/-- The node operation creates what `sdfs_create_file` creates. -/
theorem sdfsVfsCreate_eq (hshort : name.length ≤ 255) (fuel : Nat) (s : Volume) (node : Node) :
    sdfsVfsCreate fuel s node name = if !node.isDir then some (none, s) else
      (createIn fuel s node.inode name sdfsTypeFile sdfsDefaultPerm).bind fun (r, s) =>
        if r ≠ 0 then some (none, s) else (sdfsFinddir fuel s node name).map fun node => (node, s) := by
  rw [sdfsVfsCreate, createIn, take_of_length_le hshort, bind_assoc]
  congr 2
  funext found
  cases found with
  | some l => rfl
  | none =>
    dsimp only [Option.isSome]
    rw [if_neg Bool.false_ne_true, if_neg Bool.false_ne_true]
    split
    · rfl
    · rw [bind_map]
      congr 1
      funext r
      dsimp only [Function.comp]
      split <;> rfl

theorem vfsCreate_keeps (h : Consistent s v none) {node : Node}
    (hv : node.isDir = true → (∃ dir, v node.inode = some (.dir dir)) ∧ NameOk name) :
    ∃ r s', Settles (sdfsVfsCreate · s node name) (r, s') ∧ Keeps s s' := by
  by_cases hnode : node.isDir = true
  · obtain ⟨⟨dir, hv⟩, hn⟩ := hv hnode
    have hcond : ¬ (!node.isDir) = true := by simp [hnode]
    have hfail : (-1 : Int) ≠ 0 := by decide
    simp only [sdfsVfsCreate_eq hn.short]
    rcases createIn_settles h hv hn (.inl rfl) sdfsDefaultPerm with
      ⟨-, hset⟩ | ⟨-, ⟨s', v', hset, hc⟩ | ⟨s', hset, hbec, -⟩⟩
    · exact ⟨none, s, .neg hcond (hset.bind (.pos hfail (.const _))), h.keeps⟩
    · obtain ⟨e, -, -, -, hat⟩ := hc
      obtain ⟨dir', hdir'⟩ := hat.isDir
      have hfound := finddir_settles hat.consistent hnode hdir' hn.noNul
      exact ⟨_, s', .neg hcond (hset.bind (.neg (not_not_intro rfl) (hfound.map fun r => (r, s')))), hat.keeps⟩
    · exact ⟨none, s', .neg hcond (hset.bind (.pos hfail (.const _))), hbec.keeps⟩
  · refine ⟨none, s, .congr (fun _ => ?_) (.const _), h.keeps⟩
    exact if_pos (by simpa using hnode)

end

end LiwusOS.Fs
