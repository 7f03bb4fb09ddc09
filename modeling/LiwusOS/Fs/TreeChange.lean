import LiwusOS.Fs.Tree

/-! # What an operation does to the tree

Every operation that succeeds hangs an object with a record of its own into a
directory, takes one out, or does both. Beside the tree each change is followed
in the bitmap (no block in use is left without an object) and in the data of the
files (a file that stays keeps its bytes). -/

namespace LiwusOS.Fs
open LiwusOS.Lib Function

variable {dir dir' : Dir} {e : Entry} {l : Located} {b : Nat} {o : Obj}

/-! ## Blocks in use -/

/-- Every block in use from the root block on belongs to an object. -/
def Covered (s : Volume) (v : Tree) : Prop :=
  ∀ x, s.rootBlock ≤ x → s.store.used x = true → ∃ b o, v b = some o ∧ x ∈ o.blocks

/-- The blocks of files hold what they held. -/
def FilesKept (s s' : Volume) (v : Tree) : Prop :=
  ∀ a c, v a = some (.file c) → ∀ x ∈ c, s'.store.data x = s.store.data x

section

variable {s s' : Volume} {v : Tree}

section
variable (h : Covered s v)
include h

theorem Covered.put (hg : s'.geo = s.geo) {o : Option Obj} (hused : ∀ x, s'.store.used x = true →
      (s.store.used x = true ∧ x ∉ v.blocksAt b) ∨ ∃ o', o = some o' ∧ x ∈ o'.blocks) :
    Covered s' (update v b o) := by
  intro x hx hu
  have hroot := root_of_geo hg
  rcases hused x hu with ⟨hold, hnot⟩ | ⟨o', rfl, hm⟩
  · obtain ⟨a, o', ha, hm⟩ := h x (hroot ▸ hx) hold
    refine ⟨a, o', ?_, hm⟩
    rw [update_of_ne, ha]
    rintro rfl
    exact hnot (Tree.blocksAt_some ha ▸ hm)
  · exact ⟨b, o', update_self _ _ _, hm⟩

/-- A freed chain. -/
theorem Covered.freeFile (hg : s'.geo = s.geo) {c : List Nat} (hv : v b = some (.file c))
    (hstore : s'.store = s.store.markAll c false) : Covered s' (update v b none) := by
  refine h.put hg fun x hx => .inl ?_
  rw [hstore] at hx
  change (if x ∈ c then false else s.store.used x) = true at hx
  split at hx
  · cases hx
  · rename_i hxc
    exact ⟨hx, by rw [Tree.blocksAt_some hv]; exact hxc⟩

/-- A freed object of one block. -/
theorem Covered.freeStart (hg : s'.geo = s.geo) (hv : v b = some o) (ho : o.blocks = [b])
    (hstore : s'.store = s.store.mark b false) : Covered s' (update v b none) := by
  refine h.put hg fun x hx => .inl ?_
  rw [hstore] at hx
  have hxb : x ≠ b := by
    rintro rfl
    rw [Store.mark_used_self] at hx
    cases hx
  rw [Store.mark_used_ne _ _ hxb] at hx
  exact ⟨hx, by rw [Tree.blocksAt_some hv, ho, List.mem_singleton]; exact hxb⟩

/-- An object laid out on free blocks. -/
theorem Covered.grown (hg : s'.geo = s.geo) {a : Nat} {new : List Nat} (hv : v a = none)
    (hgr : Grown s.totalBlocks a s.store [] s'.store new) (ho : o.blocks = new) :
    Covered s' (update v a (some o)) := by
  refine h.put hg fun x hx => ?_
  rw [hgr.used, Bool.or_eq_true, decide_eq_true_eq] at hx
  rcases hx with hx | hx
  · exact .inl ⟨hx, by rw [Tree.blocksAt_none hv]; exact List.not_mem_nil⟩
  · exact .inr ⟨o, rfl, ho ▸ hx⟩

/-- A directory rewritten on its own blocks. -/
theorem Covered.rewrite (hg : s'.geo = s.geo) (hused : s'.store.used = s.store.used) {d : Nat}
    (hv : v d = some (.dir dir)) (hb : dir'.map Prod.fst = dir.map Prod.fst) :
    Covered s' (update v d (some (.dir dir'))) := by
  refine h.put hg fun x hx => ?_
  rw [hused] at hx
  by_cases hm : x ∈ dir.map Prod.fst
  · exact .inr ⟨_, rfl, show x ∈ dir'.map Prod.fst from hb ▸ hm⟩
  · exact .inl ⟨hx, by rw [Tree.blocksAt_some hv]; exact hm⟩

/-- A record added to a directory. -/
theorem Covered.adds (hg : s'.geo = s.geo) {d : Nat} (hv : v d = some (.dir dir))
    (hadds : Adds e s.totalBlocks s.store s'.store dir dir' 0) : Covered s' (update v d (some (.dir dir'))) := by
  rcases hadds.blocks with ⟨hb, hused⟩ | ⟨nb, -, hb, hused⟩
  · exact h.rewrite hg hused hv hb
  · refine h.put hg fun x hx => ?_
    by_cases hm : x ∈ dir'.map Prod.fst
    · exact .inr ⟨_, rfl, hm⟩
    · rw [hb, List.mem_append, List.mem_singleton, not_or] at hm
      rw [hused, update_of_ne hm.2] at hx
      exact .inl ⟨hx, by rw [Tree.blocksAt_some hv]; exact hm.1⟩

end

theorem Adds.frees_le {total : Nat} {σ τ : Store} (h : Adds e total σ τ dir dir' 0) :
    (σ.frees total).length ≤ (τ.frees total).length + 1 := by
  rcases h.blocks with ⟨-, hused⟩ | ⟨nb, hfree, -, hused⟩
  · rw [frees_congr fun b => congrFun hused b]
    exact Nat.le_succ _
  · rw [free?_eq_head, List.head?_eq_some_iff] at hfree
    obtain ⟨rest, hrest⟩ := hfree
    have hmark : τ.frees total = (σ.mark nb true).frees total := frees_congr fun b => congrFun hused b
    rw [hmark, frees_mark hrest, hrest, List.length_cons]

theorem FilesKept.adds (h : Rep s v) {d : Nat} (hv : v d = some (.dir dir))
    (hadds : Adds e s.totalBlocks s.store s'.store dir dir' 0) : FilesKept s s' v := by
  intro a c ha x hx
  have hne : a ≠ d := by
    rintro rfl
    rw [hv] at ha
    cases ha
  refine (hadds.frame.2.1 x (h.owned ha x hx).2).2 ?_
  have hnot := h.not_mem_blocksAt hne ha hx
  rwa [Tree.blocksAt_some hv] at hnot

theorem FilesKept.grown (h : Rep s v) {a : Nat} {new : List Nat}
    (hgr : Grown s.totalBlocks a s.store [] s'.store new) : FilesKept s s' v := by
  intro b c hb x hx
  refine hgr.data x fun hm => ?_
  exact h.not_mem_of_free (hgr.mem_frees x hm).2 hb hx

end

/-! ## Objects hung in and taken out -/

/-- The object `o` put at the start block of `e`, and a record `e` for it into
the directory at `d`. -/
structure Attach (v : Tree) (d : Nat) (e : Entry) (o : Obj) (v' : Tree) : Prop where
  fresh : v e.start = none
  tree : ∃ dir dir' total σ τ, v d = some (.dir dir) ∧ Adds e total σ τ dir dir' 0 ∧
    v' = update (update v e.start (some o)) d (some (.dir dir'))

/-- The record `l` taken out of the directory at `d`, and the object it named. -/
structure Detach (v : Tree) (d : Nat) (l : Located) (v' : Tree) : Prop where
  leaf : ∀ dir, v l.entry.start = some (.dir dir) → dirRecords dir = []
  tree : ∃ dir dir', v d = some (.dir dir) ∧ (dir.map Prod.fst).Nodup ∧ Unlinks dir dir' l ∧
    v' = update (update v l.entry.start none) d (some (.dir dir'))

theorem Unlinks.mem (h : Unlinks dir dir' l) : l ∈ dirRecords dir := by
  obtain ⟨pre, post, rs, rfl, -, hpos⟩ := h.split
  refine mem_dirRecords_snoc.mpr (.inr ⟨l.entry, rfl, ?_⟩)
  rw [← hpos]

/-- The objects below the root. -/
inductive Tree.Reach (v : Tree) (root : Nat) : Nat → Prop
  | root : Tree.Reach v root root
  | entry {d : Nat} {dir : Dir} {l : Located} : Tree.Reach v root d → v d = some (.dir dir) →
      l ∈ dirRecords dir → Tree.Reach v root l.entry.start

/-- No object is out of reach. -/
def Tree.Whole (v : Tree) (root : Nat) : Prop := ∀ a o, v a = some o → v.Reach root a

section

variable {v v' : Tree} {d root : Nat}

theorem Attach.isDir (h : Attach v d e o v') : ∃ dir, v' d = some (.dir dir) := by
  obtain ⟨_, dir', _, _, _, -, -, rfl⟩ := h.tree
  exact ⟨dir', update_self _ _ _⟩

theorem Attach.whole (h : Attach v d e o v') (hw : v.Whole root) : v'.Whole root := by
  have hfresh := h.fresh
  obtain ⟨dir, dir', _, _, _, hv, hadds, rfl⟩ := h.tree
  obtain ⟨l, rfl, hrec⟩ := hadds.records
  have hd : d ≠ l.entry.start := by
    rintro rfl
    rw [hfresh] at hv
    cases hv
  -- what was below the root still is
  have hmono : ∀ {a}, v.Reach root a → Tree.Reach
      (update (update v l.entry.start (some o)) d (some (.dir dir'))) root a := by
    intro a ha
    induction ha with
    | root => exact .root
    | @entry b dirb x _ hb hx ih =>
      by_cases hbd : b = d
      · subst hbd
        rw [hv] at hb
        cases hb
        exact ih.entry (update_self _ _ _) ((hrec x).mpr (.inl hx))
      · refine ih.entry ?_ hx
        rw [update_of_ne hbd, update_of_ne, hb]
        rintro rfl
        rw [hfresh] at hb
        cases hb
  intro a o' ha
  by_cases had : a = d
  · exact hmono (hw a _ (had ▸ hv))
  · rw [update_of_ne had] at ha
    by_cases hae : a = l.entry.start
    · subst hae
      exact (hmono (hw d _ hv)).entry (update_self _ _ _) ((hrec l).mpr (.inr rfl))
    · rw [update_of_ne hae] at ha
      exact hmono (hw a _ ha)

theorem Detach.whole (h : Detach v d l v') (hw : v.Whole root) : v'.Whole root := by
  have hleaf := h.leaf
  obtain ⟨dir, dir', hv, hnd, hun, rfl⟩ := h.tree
  -- the object taken out led nowhere
  have hmono : ∀ {a}, v.Reach root a → a ≠ l.entry.start → Tree.Reach
      (update (update v l.entry.start none) d (some (.dir dir'))) root a := by
    intro a ha
    induction ha with
    | root => exact fun _ => .root
    | @entry b dirb x _ hb hx ih =>
      intro hne
      have hbl : b ≠ l.entry.start := by
        rintro rfl
        rw [hleaf dirb hb] at hx
        cases hx
      by_cases hbd : b = d
      · subst hbd
        rw [hv] at hb
        cases hb
        have hxl : x ≠ l := fun heq => hne (congrArg (fun y => y.entry.start) heq)
        exact (ih hbl).entry (update_self _ _ _) ((hun.records hnd x).mpr ⟨hx, hxl⟩)
      · refine (ih hbl).entry ?_ hx
        rw [update_of_ne hbd, update_of_ne hbl, hb]
  intro a o ha
  by_cases had : a = d
  · subst had
    refine hmono (hw a _ hv) fun heq => ?_
    have hm : l ∈ dirRecords dir := hun.mem
    rw [hleaf dir (heq ▸ hv)] at hm
    cases hm
  · rw [update_of_ne had] at ha
    by_cases hae : a = l.entry.start
    · subst hae
      rw [update_self] at ha
      cases ha
    · rw [update_of_ne hae] at ha
      exact hmono (hw a _ ha) hae

/-- What the operations on paths do to the tree. -/
inductive Edit (v : Tree) : Tree → Prop
  | same : Edit v v
  | attach {v' : Tree} {d : Nat} {e : Entry} {o : Obj} : Attach v d e o v' → Edit v v'
  | detach {v' : Tree} {d : Nat} {l : Located} : Detach v d l v' → Edit v v'
  | replace {v1 v' : Tree} {d : Nat} {l : Located} {e : Entry} {o : Obj} : Detach v d l v1 →
      Attach v1 d e o v' → Edit v v'

theorem Edit.whole (h : Edit v v') (hw : v.Whole root) : v'.Whole root := by
  cases h with
  | same => exact hw
  | attach ha => exact ha.whole hw
  | detach hd => exact hd.whole hw
  | replace hd ha => exact ha.whole (hd.whole hw)

end

/-! ## Outcomes -/

/-- A consistent volume made of another, with no block lost. -/
structure Becomes (s : Volume) (v : Tree) (s' : Volume) (v' : Tree) : Prop where
  geo : s'.geo = s.geo
  consistent : Consistent s' v' none
  covered : Covered s v → Covered s' v'

/-- A new object with its record. The directory may have taken one more block. -/
structure Attached (s : Volume) (v : Tree) (s' : Volume) (v' : Tree) (d : Nat) (e : Entry) (o : Obj) : Prop
    extends Becomes s v s' v', Attach v d e o v' where
  data : FilesKept s s' v
  room : (s.store.frees s.totalBlocks).length ≤ (s'.store.frees s.totalBlocks).length + o.blocks.length + 1

/-- What `sdfs_delete` gives back of an object at `b`: the whole chain of a file,
but only the first block of a directory. -/
def Obj.freed (b : Nat) : Obj → List Nat
  | .file c => c
  | .dir _ => [b]

/-- A record and its object taken out by `sdfs_delete`. -/
structure Detached (s : Volume) (v : Tree) (s' : Volume) (v' : Tree) (d : Nat) (l : Located) : Prop
    extends Detach v d l v' where
  geo : s'.geo = s.geo
  consistent : Consistent s' v' none
  used : ∀ o, v l.entry.start = some o →
    ∀ x, s'.store.used x = true ↔ s.store.used x = true ∧ x ∉ o.freed l.entry.start

section

variable {s s1 s' : Volume} {v : Tree}

theorem Consistent.becomes (h : Consistent s v none) : Becomes s v s v := ⟨rfl, h, id⟩

/-- An object laid out on free blocks and then recorded. -/
theorem Attached.of_grown (h : Consistent s v none) {d : Nat} (hv : v d = some (.dir dir))
    (hfresh : v e.start = none) (hg1 : s1.geo = s.geo)
    (hgr : Grown s.totalBlocks e.start s.store [] s1.store o.blocks)
    (h1 : Consistent s1 (update v e.start (some o)) none) (hg : s'.geo = s1.geo)
    (hadds : Adds e s1.totalBlocks s1.store s'.store dir dir' 0)
    (hcons : Consistent s' (update (update v e.start (some o)) d (some (.dir dir'))) none) :
    Attached s v s' (update (update v e.start (some o)) d (some (.dir dir'))) d e o := by
  have hd : d ≠ e.start := by
    rintro rfl
    rw [hfresh] at hv
    cases hv
  have hv1 : update v e.start (some o) d = some (.dir dir) := by
    rw [update_of_ne hd, hv]
  have htot := total_of_geo hg1
  refine ⟨⟨hg.trans hg1, hcons, fun hc => ?_⟩, ⟨hfresh, dir, dir', _, _, _, hv, hadds, rfl⟩,
    fun a c ha x hx => ?_, ?_⟩
  · exact (hc.grown hg1 hfresh hgr rfl).adds hg hv1 hadds
  · have hae : a ≠ e.start := by
      rintro rfl
      rw [hfresh] at ha
      cases ha
    have ha1 : update v e.start (some o) a = some (.file c) := by
      rw [update_of_ne hae, ha]
    rw [FilesKept.adds h1.rep hv1 hadds a c ha1 x hx, FilesKept.grown h.rep hgr a c ha x hx]
  · have hle := hadds.frees_le
    rw [htot] at hle
    rw [hgr.frees, List.length_append]
    omega

/-- Nothing is lost when the object's blocks are all given back. -/
theorem Detached.covered {v' : Tree} {d : Nat} (h : Detached s v s' v' d l) (ho : v l.entry.start = some o)
    (hfreed : ∀ x ∈ o.blocks, x ∈ o.freed l.entry.start) (hc : Covered s v) : Covered s' v' := by
  intro x hx hu
  have hused := (h.used o ho x).mp hu
  obtain ⟨dir, dir', hv, -, hun, rfl⟩ := h.tree
  have hroot := root_of_geo h.geo
  obtain ⟨a, o', ha, hm⟩ := hc x (hroot ▸ hx) hused.1
  have hal : a ≠ l.entry.start := by
    rintro rfl
    rw [ho] at ha
    cases ha
    exact hused.2 (hfreed x hm)
  by_cases had : a = d
  · subst had
    rw [hv] at ha
    cases ha
    refine ⟨a, .dir dir', update_self _ _ _, ?_⟩
    show x ∈ dir'.map Prod.fst
    rw [hun.blocks]
    exact hm
  · exact ⟨a, o', by rw [update_of_ne had, update_of_ne hal, ha], hm⟩

end

end LiwusOS.Fs
