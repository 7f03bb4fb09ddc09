import LiwusOS.Fs.FileChain

/-! # The object tree of a volume

The abstract state behind a consistent volume: a partial map from start blocks
to files (chains) and directories (record lists), whose blocks are disjoint,
marked used and above the reserved area, and in which every record names an
object of its own. `Consistent` ties a volume to such a tree. The lemmas say
how each kind of change to the volume moves the tree; the operations of
`sdfs.c` are sequences of these changes. In the middle of an operation one
record may refer to an object that is gone. -/

namespace LiwusOS.Fs
open LiwusOS.Lib List Function

variable {dir dir' : Dir} {e : Entry} {l : Located} {a b b' c d root : Nat} {σ τ : Store}

inductive Obj where
  | file (chain : List Nat)
  | dir (dir : Dir)

def Obj.blocks : Obj → List Nat
  | .file c => c
  | .dir d => d.map Prod.fst

abbrev Tree := Nat → Option Obj

def ObjAt (σ : Store) (b : Nat) : Obj → Prop
  | .file chain => Chain σ.next 0 b chain ∧ chain ≠ []
  | .dir dir => DirAt σ b dir ∧ dir ≠ []

structure Rep (s : Volume) (v : Tree) : Prop where
  shape : ∀ {b o}, v b = some o → ObjAt s.store b o
  owned : ∀ {b o}, v b = some o → ∀ c ∈ o.blocks, s.Owns c ∧ s.store.used c = true
  disjoint : ∀ {b b' o o'}, v b = some o → v b' = some o' → ∀ {c}, c ∈ o.blocks → c ∈ o'.blocks → b = b'

/-- The start block of an entry. -/
def Entry.start (e : Entry) : Nat := e.startBlock.toNat

/-- `l` is a live record of some directory. -/
def Tree.Record (v : Tree) (l : Located) : Prop := ∃ b dir, v b = some (.dir dir) ∧ l ∈ dirRecords dir

/-- The object an entry names exists and has the entry's type. -/
def Tree.Target (v : Tree) (e : Entry) : Prop :=
  (e.type = sdfsTypeFile ∧ ∃ c, v e.start = some (.file c)) ∨
  (e.type = sdfsTypeDir ∧ ∃ dir, v e.start = some (.dir dir))

/-- Every record but `gone` names an object, and no two the same one. -/
structure Linked (root : Nat) (v : Tree) (gone : Option Located) : Prop where
  rootDir : ∃ dir, v root = some (.dir dir)
  target : ∀ {l}, v.Record l → gone ≠ some l → v.Target l.entry
  unique : ∀ {l l'}, v.Record l → v.Record l' → gone ≠ some l → gone ≠ some l' →
    l.entry.start = l'.entry.start → l = l'
  rootFree : ∀ {l}, v.Record l → gone ≠ some l → l.entry.start ≠ root

structure Consistent (s : Volume) (v : Tree) (gone : Option Located) : Prop where
  layout : Layout s
  rep : Rep s v
  linked : Linked s.rootBlock v gone

/-! ## Objects -/

variable {s : Volume}

theorem Layout.root_le_of_free (hl : Layout s) (hc : s.store.used c = false) : s.rootBlock ≤ c := by
  by_contra hlt
  rw [hl.reserved c (by omega)] at hc
  cases hc

variable {o : Obj}

theorem ObjAt.start_mem (h : ObjAt σ b o) : b ∈ o.blocks := by
  cases o with
  | file c =>
    obtain ⟨hc, hne⟩ := h
    cases c with
    | nil => exact absurd rfl hne
    | cons x c => exact hc.1 ▸ (.head _)
  | dir dir =>
    obtain ⟨hd, hne⟩ := h
    cases dir with
    | nil => exact absurd rfl hne
    | cons p dir => exact hd.head.1 ▸ (.head _)

theorem ObjAt.congr (h : ObjAt σ b o) (he : ∀ c ∈ o.blocks, τ.data c = σ.data c) : ObjAt τ b o := by
  cases o with
  | file c => exact ⟨h.1.congr fun x hx => by rw [Store.next, Store.next, he x hx], h.2⟩
  | dir dir => exact ⟨h.1.congr he, h.2⟩

variable {v : Tree}

theorem Rep.start_owned (h : Rep s v) (hv : v b = some o) : s.Owns b ∧ s.store.used b = true :=
  h.owned hv b (h.shape hv).start_mem

/-- A free block belongs to no object. -/
theorem Rep.not_mem_of_free (h : Rep s v) (hc : s.store.used c = false)
    (hv : v b = some o) : c ∉ o.blocks := fun hm => by
  rw [(h.owned hv c hm).2] at hc
  cases hc

theorem Rep.none_of_free (h : Rep s v) (hc : s.store.used c = false) : v c = none := by
  cases hv : v c with
  | none => rfl
  | some o => exact absurd (h.shape hv).start_mem (h.not_mem_of_free hc hv)

/-- The blocks of the object at `b`, if there is one. -/
def Tree.blocksAt (v : Tree) (b : Nat) : List Nat := ((v b).map Obj.blocks).getD []

theorem Tree.blocksAt_some (hv : v b = some o) : v.blocksAt b = o.blocks := by
  rw [blocksAt, hv]
  rfl

theorem Tree.blocksAt_none (hv : v b = none) : v.blocksAt b = [] := by
  rw [blocksAt, hv]
  rfl

/-- A step that touches, of the blocks in use, only those of the object at `b`. -/
def Kept (s s' : Volume) (v : Tree) (b : Nat) : Prop :=
  ∀ c, s.store.used c = true → c ∉ v.blocksAt b → s'.store.data c = s.store.data c ∧ s'.store.used c = true

theorem Rep.not_mem_blocksAt (h : Rep s v) (hb : b' ≠ b) (hv : v b' = some o)
    (hc : c ∈ o.blocks) : c ∉ v.blocksAt b := fun hm => by
  cases hvb : v b with
  | none =>
    rw [Tree.blocksAt_none hvb] at hm
    cases hm
  | some o' =>
    rw [Tree.blocksAt_some hvb] at hm
    exact hb (h.disjoint hv hvb hc hm)

variable {s' : Volume}

theorem Kept.other (hk : Kept s s' v b) (h : Rep s v) (hb : b' ≠ b)
    (hv : v b' = some o) (hc : c ∈ o.blocks) : s'.store.data c = s.store.data c ∧ s'.store.used c = true :=
  hk c (h.owned hv c hc).2 (h.not_mem_blocksAt hb hv hc)

/-- One object replaced or created, on its old blocks and free ones. -/
theorem Rep.put (h : Rep s v) (hl : Layout s) (hg : s'.geo = s.geo) (hshape : ObjAt s'.store b o)
    (hblocks : ∀ c ∈ o.blocks, c ∈ v.blocksAt b ∨ c < s.totalBlocks ∧ s.store.used c = false)
    (hused : ∀ c ∈ o.blocks, s'.store.used c = true) (hkept : Kept s s' v b) : Rep s' (update v b (some o)) := by
  -- every object of the new tree is `o` or an old one
  have hcases : ∀ {b' o'}, update v b (some o) b' = some o' →
      (b' = b ∧ o' = o) ∨ (b' ≠ b ∧ v b' = some o') := by
    intro b' o' hv
    by_cases hb : b' = b
    · subst hb
      rw [update_self] at hv
      exact .inl ⟨rfl, (Option.some.inj hv).symm⟩
    · rw [update_of_ne hb] at hv
      exact .inr ⟨hb, hv⟩
  have hown : ∀ c ∈ o.blocks, s.Owns c := by
    intro c hc
    rcases hblocks c hc with hm | ⟨hlt, hfree⟩
    · cases hv : v b with
      | none =>
        rw [Tree.blocksAt_none hv] at hm
        cases hm
      | some o' => exact (h.owned hv c (Tree.blocksAt_some hv ▸ hm)).1
    · exact ⟨hl.root_le_of_free hfree, hlt⟩
  have hdisj : ∀ {b' o'}, b' ≠ b → v b' = some o' → ∀ c ∈ o'.blocks, c ∉ o.blocks := by
    intro b' o' hb hv c hc hm
    rcases hblocks c hm with hm | ⟨-, hfree⟩
    · exact h.not_mem_blocksAt hb hv hc hm
    · exact h.not_mem_of_free hfree hv hc
  refine ⟨fun hv => ?_, fun hv c hc => ?_, fun hv hv' c hc hc' => ?_⟩
  · rcases hcases hv with ⟨rfl, rfl⟩ | ⟨hb, hv⟩
    · exact hshape
    · exact (h.shape hv).congr fun c hc => (hkept.other h hb hv hc).1
  · rcases hcases hv with ⟨rfl, rfl⟩ | ⟨hb, hv⟩
    · exact ⟨(owns_of_geo hg).mpr (hown c hc), hused c hc⟩
    · exact ⟨(owns_of_geo hg).mpr (h.owned hv c hc).1, (hkept.other h hb hv hc).2⟩
  · rcases hcases hv with ⟨hb, ho⟩ | ⟨hb, ho⟩ <;> rcases hcases hv' with ⟨hb', ho'⟩ | ⟨hb', ho'⟩
    · rw [hb, hb']
    · exact absurd (ho ▸ hc) (hdisj hb' ho' c hc')
    · exact absurd (ho' ▸ hc') (hdisj hb ho c hc)
    · exact h.disjoint ho ho' hc hc'

/-- One object dropped. -/
theorem Rep.erase (h : Rep s v) (hg : s'.geo = s.geo) (hkept : Kept s s' v b) : Rep s' (update v b none) := by
  have hcases : ∀ {b' o'}, update v b none b' = some o' → b' ≠ b ∧ v b' = some o' := by
    intro b' o' hv
    by_cases hb : b' = b
    · subst hb
      rw [update_self] at hv
      cases hv
    · rw [update_of_ne hb] at hv
      exact ⟨hb, hv⟩
  refine ⟨fun hv => ?_, fun hv c hc => ?_, fun hv hv' c hc hc' => ?_⟩
  · obtain ⟨hb, hv⟩ := hcases hv
    exact (h.shape hv).congr fun c hc => (hkept.other h hb hv hc).1
  · obtain ⟨hb, hv⟩ := hcases hv
    exact ⟨(owns_of_geo hg).mpr (h.owned hv c hc).1, (hkept.other h hb hv hc).2⟩
  · exact h.disjoint (hcases hv).2 (hcases hv').2 hc hc'

/-! ## Records -/

theorem recsAt_append (pos : Nat) (rs rs' : List Rec) :
    recsAt pos (rs ++ rs') = recsAt pos rs ++ recsAt (pos + recsSize rs) rs' := by
  induction rs generalizing pos with
  | nil => rfl
  | cons r rs ih =>
    cases r with
    | dead =>
      rw [cons_append, recsAt, ih, recsAt, recsSize_cons, Nat.add_assoc]
      rfl
    | live e =>
      rw [cons_append, recsAt, ih, recsAt, recsSize_cons, Nat.add_assoc]
      rfl

theorem dirRecords_append (dir dir' : Dir) : dirRecords (dir ++ dir') = dirRecords dir ++ dirRecords dir' := by
  induction dir with
  | nil => rfl
  | cons p dir ih => rw [cons_append, dirRecords, dirRecords, ih, append_assoc]

/-- The records of a directory with one record at the end of one block. -/
theorem mem_dirRecords_snoc {pre post : Dir} {rs : List Rec} {r : Rec} :
    l ∈ dirRecords (pre ++ (b, rs ++ [r]) :: post) ↔ l ∈ dirRecords (pre ++ (b, rs) :: post) ∨
      ∃ e, r = .live e ∧ l = ⟨e, b, dirDataStart + recsSize rs⟩ := by
  simp only [dirRecords_append, dirRecords, recsAt_append, map_append, mem_append]
  cases r with
  | live e =>
    simp only [recsAt, map_cons, map_nil, mem_singleton, Rec.live.injEq, exists_eq_left']
    tauto
  | dead => simp [recsAt]

/-- Adding brings in one record at a new position. -/
theorem Adds.records {total : Nat} (h : Adds e total σ τ dir dir' 0) :
    ∃ l, l.entry = e ∧ ∀ l', l' ∈ dirRecords dir' ↔ l' ∈ dirRecords dir ∨ l' = l := by
  cases h with
  | room hins _ _ =>
    obtain ⟨pre, b, rs, post, rfl, rfl⟩ := dirInsert_split hins
    refine ⟨⟨e, b, dirDataStart + recsSize rs⟩, rfl, fun l' => ?_⟩
    rw [mem_dirRecords_snoc]
    simp
  | @grow nb _ _ _ _ =>
    refine ⟨⟨e, nb, dirDataStart⟩, rfl, fun l' => ?_⟩
    rw [dirRecords_append, mem_append]
    simp [dirRecords, recsAt]

/-- Adding touches, of the blocks in use, only the directory's own. -/
theorem Adds.frame {total : Nat} {r : Int} (h : Adds e total σ τ dir dir' r) :
    (∀ c ∈ dir'.map Prod.fst, c ∈ dir.map Prod.fst ∨ c < total ∧ σ.used c = false ∧ τ.used c = true) ∧
    (∀ c, σ.used c = true → τ.used c = true ∧ (c ∉ dir.map Prod.fst → τ.data c = σ.data c)) ∧
    (dir ≠ [] → dir' ≠ []) := by
  cases h with
  | room hins hus hdata =>
    obtain ⟨pre, b, rs, post, rfl, rfl⟩ := dirInsert_split hins
    exact ⟨fun c hc => .inl (by simpa using hc), fun c hc => ⟨hus ▸ hc, hdata c⟩, fun _ => by simp⟩
  | @grow nb hins hfree hus hdata =>
    obtain ⟨hhi, hunused, -⟩ := firstFree_eq_some.mp hfree
    refine ⟨fun c hc => ?_, fun c hc => ?_, fun _ => by simp⟩
    · rw [map_append, mem_append] at hc
      rcases hc with hc | hc
      · exact .inl hc
      · cases mem_singleton.mp hc
        exact .inr ⟨by omega, hunused, by rw [hus, update_self]⟩
    · have hcn : c ≠ nb := by
        rintro rfl
        rw [hunused] at hc
        cases hc
      exact ⟨by rw [hus, update_of_ne hcn, hc], fun hm => hdata c hm hcn⟩
  | full _ _ hs => exact ⟨fun c hc => .inl hc, fun c hc => by rw [hs]; exact ⟨hc, fun _ => rfl⟩, id⟩

theorem Unlinks.records (h : Unlinks dir dir' l) (hnd : (dir.map Prod.fst).Nodup) (l' : Located) :
    l' ∈ dirRecords dir' ↔ l' ∈ dirRecords dir ∧ l' ≠ l := by
  have hblocks := h.blocks
  obtain ⟨pre, post, rs, rfl, rfl, hpos⟩ := h.split
  -- the position of `l` now holds a tombstone
  have hgone : l ∉ dirRecords (pre ++ (l.block, rs ++ [.dead]) :: post) := by
    intro hm
    obtain ⟨rs', hp, hx⟩ := mem_dirRecords.mp hm
    have hrs : rs' = rs ++ [.dead] := by
      rw [← hblocks] at hnd
      have hinj := inj_on_of_nodup_map hnd hp
        (show (l.block, rs ++ [.dead]) ∈ _ by simp) rfl
      exact (Prod.mk.inj hinj).2
    obtain ⟨rs1, rs2, heq, hoff⟩ := mem_recsAt.mp (hrs ▸ hx)
    rcases eq_nil_or_concat' rs2 with rfl | ⟨rs3, r, rfl⟩
    · have := (append_inj' heq rfl).2
      cases this
    · have hconcat : rs ++ [.dead] = (rs1 ++ .live l.entry :: rs3) ++ [r] := by rw [heq]; simp
      have hsplit : rs = rs1 ++ .live l.entry :: rs3 := (append_inj' hconcat rfl).1
      rw [hpos, hsplit, recsSize_append, recsSize_cons] at hoff
      have := (Rec.live l.entry).two_le_size
      omega
  have hl : l = ⟨l.entry, l.block, dirDataStart + recsSize rs⟩ := by rw [← hpos]
  constructor
  · intro hm
    refine ⟨?_, fun heq => hgone (heq ▸ hm)⟩
    rw [mem_dirRecords_snoc] at hm ⊢
    simpa using Or.inl hm
  · rintro ⟨hm, hne⟩
    rw [mem_dirRecords_snoc] at hm ⊢
    rcases hm with hm | ⟨e, he, heq⟩
    · exact .inl hm
    · cases he
      exact absurd (heq.trans hl.symm) hne

theorem le_of_mem_recsAt {pos p : Nat} {rs : List Rec} (h : (e, p) ∈ recsAt pos rs) : pos ≤ p := by
  obtain ⟨rs1, rs2, -, rfl⟩ := mem_recsAt.mp h
  omega

theorem recsAt_nodup (pos : Nat) (rs : List Rec) : (recsAt pos rs).Nodup := by
  induction rs generalizing pos with
  | nil => exact nodup_nil
  | cons r rs ih =>
    cases r with
    | dead => exact ih _
    | live x =>
      refine nodup_cons.mpr ⟨fun hm => ?_, ih _⟩
      -- the other records start behind this one
      have := le_of_mem_recsAt hm
      have : 2 ≤ x.size := (Rec.live x).two_le_size
      omega

theorem dirRecords_nodup (hnd : (dir.map Prod.fst).Nodup) : (dirRecords dir).Nodup := by
  induction dir with
  | nil => exact nodup_nil
  | cons p dir ih =>
    obtain ⟨b, rs⟩ := p
    obtain ⟨hb, hnd⟩ := nodup_cons.mp hnd
    refine nodup_append.mpr ⟨(recsAt_nodup _ rs).map ?_, ih hnd, ?_⟩
    · rintro ⟨e, pos⟩ ⟨e', pos'⟩ heq
      cases heq
      rfl
    · rintro x hx y hy rfl
      obtain ⟨z, -, rfl⟩ := mem_map.mp hx
      obtain ⟨rs', hp, -⟩ := mem_dirRecords.mp hy
      exact hb (mem_map.mpr ⟨_, hp, rfl⟩)

/-- The directory before and after its record `l` is overwritten in place. -/
structure Retouches (dir dir' : Dir) (l : Located) (e : Entry) : Prop where
  split : ∃ pre post rs rs', dir = pre ++ (l.block, rs ++ .live l.entry :: rs') :: post ∧
    dir' = pre ++ (l.block, rs ++ .live e :: rs') :: post ∧ l.blockOffset = dirDataStart + recsSize rs
  name : e.name = l.entry.name

theorem Retouches.blocks (h : Retouches dir dir' l e) : dir'.map Prod.fst = dir.map Prod.fst := by
  obtain ⟨pre, post, rs, rs', rfl, rfl, -⟩ := h.split
  simp

/-- Record `l` with its entry replaced by `e`; other records as they are. -/
def retouch (l : Located) (e : Entry) (x : Located) : Located := if x = l then { l with entry := e } else x

theorem map_retouch_of_notMem {ls : List Located} (h : l ∉ ls) : ls.map (retouch l e) = ls := by
  have hid : ∀ x ∈ ls, retouch l e x = id x := fun x hx => if_neg fun (heq : x = l) => h (heq ▸ hx)
  rw [map_congr_left hid, map_id]

theorem map_retouch_self (l : Located) (ls : List Located) : ls.map (retouch l l.entry) = ls := by
  have hid : ∀ x ∈ ls, retouch l l.entry x = id x := fun x _ => by
    by_cases hx : x = l
    · exact (if_pos hx).trans hx.symm
    · exact if_neg hx
  rw [map_congr_left hid, map_id]

theorem Retouches.records (h : Retouches dir dir' l e) (hnd : (dir.map Prod.fst).Nodup) :
    dirRecords dir' = (dirRecords dir).map (retouch l e) := by
  have hname := h.name
  obtain ⟨pre, post, rs, rs', rfl, rfl, hpos⟩ := h.split
  have hsize : e.size = l.entry.size := by rw [Entry.size, Entry.size, hname]
  -- the records in front of `l` and behind it do not depend on its entry
  have hsplit : ∀ x : Entry, x.size = l.entry.size →
      dirRecords (pre ++ (l.block, rs ++ .live x :: rs') :: post) =
        (dirRecords pre ++ (recsAt dirDataStart rs).map fun z => ⟨z.1, l.block, z.2⟩) ++
          { l with entry := x } :: ((recsAt (l.blockOffset + l.entry.size) rs').map
            (fun z => ⟨z.1, l.block, z.2⟩) ++ dirRecords post) := by
    intro x hx
    simp only [dirRecords_append, dirRecords, recsAt_append, recsAt, map_append, map_cons, hx,
      ← hpos, append_assoc, cons_append]
  have hnodup := dirRecords_nodup hnd
  rw [hsplit l.entry rfl] at hnodup ⊢
  rw [hsplit e hsize]
  obtain ⟨hcons, hnotin⟩ := nodup_cons.mp (nodup_middle.mp hnodup)
  rw [mem_append, not_or] at hcons
  rw [map_append, map_cons, map_retouch_of_notMem hcons.1, map_retouch_of_notMem hcons.2]
  exact congrArg _ (congrArg (· :: _) (if_pos rfl).symm)

theorem dirRecords_block (h : l ∈ dirRecords dir) : l.block ∈ (Obj.dir dir).blocks := by
  obtain ⟨rs, hp, -⟩ := mem_dirRecords.mp h
  exact mem_map_of_mem hp

/-- A record lies in one directory. -/
theorem Rep.record_dir (h : Rep s v) (hv : v b = some (.dir dir))
    (hv' : v b' = some (.dir dir')) (hm : l.block ∈ (Obj.dir dir).blocks) (hm' : l ∈ dirRecords dir') : b = b' :=
  h.disjoint hv hv' hm (dirRecords_block hm')

/-- The records after one directory's list has been replaced. -/
theorem Tree.record_update (h : Tree.Record (update v d (some (.dir dir'))) l) :
    l ∈ dirRecords dir' ∨ ∃ b dir, b ≠ d ∧ v b = some (.dir dir) ∧ l ∈ dirRecords dir := by
  obtain ⟨b, dir, hv, hm⟩ := h
  by_cases hb : b = d
  · subst hb
    rw [update_self] at hv
    cases hv
    exact .inl hm
  · rw [update_of_ne hb] at hv
    exact .inr ⟨b, dir, hb, hv, hm⟩

/-- Anything but a directory brings no records. -/
theorem Tree.record_of_update {o : Option Obj} (ho : ∀ dir, o ≠ some (.dir dir))
    (h : Tree.Record (update v b o) l) : v.Record l := by
  obtain ⟨b', dir, hv, hm⟩ := h
  by_cases hb : b' = b
  · subst hb
    rw [update_self] at hv
    exact absurd hv (ho dir)
  · rw [update_of_ne hb] at hv
    exact ⟨b', dir, hv, hm⟩

def Obj.SameKind : Obj → Obj → Prop
  | .file _, .file _ => True
  | .dir _, .dir _ => True
  | _, _ => False

theorem Tree.Target.put (h : v.Target e) (hk : ∀ o', v b = some o' → o'.SameKind o) :
    Tree.Target (update v b (some o)) e := by
  by_cases hb : e.start = b
  · rcases h with ⟨ht, c, hv⟩ | ⟨ht, dir, hv⟩
    · have hs := hk _ (hb ▸ hv)
      cases o with
      | file c' => exact .inl ⟨ht, c', by rw [hb, update_self]⟩
      | dir dir' => cases hs
    · have hs := hk _ (hb ▸ hv)
      cases o with
      | file c' => cases hs
      | dir dir' => exact .inr ⟨ht, dir', by rw [hb, update_self]⟩
  · simpa only [Tree.Target, update_of_ne hb] using h

theorem Tree.Target.erase (h : v.Target e) (hb : e.start ≠ b) : Tree.Target (update v b none) e := by
  simpa only [Tree.Target, update_of_ne hb] using h

variable {gone : Option Located}

theorem Linked.rootDir_update (h : Linked root v gone) (d : Nat) (dir : Dir) :
    ∃ dir', update v d (some (.dir dir)) root = some (.dir dir') := by
  by_cases hroot : root = d
  · exact ⟨dir, by rw [hroot, update_self]⟩
  · rw [update_of_ne hroot]
    exact h.rootDir

theorem sameKind_dir (hv : v d = some (.dir dir)) (dir' : Dir) :
    ∀ o, v d = some o → o.SameKind (.dir dir') := fun o ho => by
  rw [hv] at ho
  cases ho
  trivial

/-- Changes that bring no new record. -/
theorem Linked.mono {v' : Tree} {gone' : Option Located} (h : Linked root v gone)
    (hroot : ∃ dir, v' root = some (.dir dir))
    (hrec : ∀ {l}, v'.Record l → gone' ≠ some l → v.Record l ∧ gone ≠ some l)
    (htarget : ∀ {l}, v'.Record l → gone' ≠ some l → v.Target l.entry → v'.Target l.entry) :
    Linked root v' gone' := by
  refine ⟨hroot, fun hl hg => ?_, fun hl hl' hg hg' he => ?_, fun hl hg => ?_⟩
  · obtain ⟨h1, h2⟩ := hrec hl hg
    exact htarget hl hg (h.target h1 h2)
  · obtain ⟨h1, h2⟩ := hrec hl hg
    obtain ⟨h3, h4⟩ := hrec hl' hg'
    exact h.unique h1 h3 h2 h4 he
  · obtain ⟨h1, h2⟩ := hrec hl hg
    exact h.rootFree h1 h2

/-- An object dropped that no record but `gone` names. -/
theorem Linked.erase (h : Linked root v none) (hb : b ≠ root)
    (hun : ∀ {l}, v.Record l → gone ≠ some l → l.entry.start ≠ b) : Linked root (update v b none) gone := by
  have hrec : ∀ {l}, Tree.Record (update v b none) l → v.Record l :=
    fun hl => Tree.record_of_update (fun dir h => by cases h) hl
  refine h.mono ?_ (fun hl _ => ⟨hrec hl, nofun⟩) fun hl hg ht => ht.erase (hun (hrec hl) hg)
  rw [update_of_ne hb.symm]
  exact h.rootDir

/-- A file put at `b`, over a file or nothing. -/
theorem Linked.setFile (h : Linked root v gone)
    (hb : ∀ dir, v b ≠ some (.dir dir)) (c : List Nat) : Linked root (update v b (some (.file c))) gone := by
  refine h.mono ?_ (fun hl hg => ⟨Tree.record_of_update (fun dir h => by cases h) hl, hg⟩)
    fun _ _ ht => ht.put fun o ho => ?_
  · obtain ⟨dir, hdir⟩ := h.rootDir
    rw [update_of_ne (fun heq : root = b => hb dir (heq ▸ hdir))]
    exact ⟨dir, hdir⟩
  · cases o with
    | file c' => trivial
    | dir dir => exact absurd ho (hb dir)

/-- A new record for an object no record names yet. -/
theorem Linked.add (h : Linked root v none) (hv : v d = some (.dir dir))
    (hrec : ∀ l', l' ∈ dirRecords dir' ↔ l' ∈ dirRecords dir ∨ l' = l) (ht : v.Target l.entry)
    (hfresh : ∀ l', v.Record l' → l'.entry.start ≠ l.entry.start) (hroot : l.entry.start ≠ root) :
    Linked root (update v d (some (.dir dir'))) none := by
  have hkind := sameKind_dir hv dir'
  have hcases : ∀ {l'}, Tree.Record (update v d (some (.dir dir'))) l' → v.Record l' ∨ l' = l := by
    intro l' hl'
    rcases Tree.record_update hl' with hm | ⟨b, dir2, -, hb, hm⟩
    · exact ((hrec l').mp hm).imp_left fun hm => ⟨d, dir, hv, hm⟩
    · exact .inl ⟨b, dir2, hb, hm⟩
  have hnone : ∀ l' : Located, none ≠ some l' := fun _ => nofun
  refine ⟨h.rootDir_update d dir', fun hl _ => ?_, fun hl hl' _ _ he => ?_, fun hl _ => ?_⟩
  · rcases hcases hl with hl | rfl
    · exact (h.target hl (hnone _)).put hkind
    · exact ht.put hkind
  · rcases hcases hl with hl | rfl <;> rcases hcases hl' with hl' | rfl
    · exact h.unique hl hl' (hnone _) (hnone _) he
    · exact absurd he (hfresh _ hl)
    · exact absurd he.symm (hfresh _ hl')
    · rfl
  · rcases hcases hl with hl | rfl
    · exact h.rootFree hl (hnone _)
    · exact hroot

/-! ## Changes of a consistent volume -/

theorem Rep.dirAt (h : Rep s v) (hv : v d = some (.dir dir)) :
    DirAt s.store d dir ∧ dir ≠ [] ∧ (∀ p ∈ dir, s.Owns p.1) ∧ ∀ p ∈ dir, s.store.used p.1 = true :=
  have hm : ∀ p ∈ dir, p.1 ∈ (Obj.dir dir).blocks := fun _ hp => mem_map_of_mem hp
  ⟨(h.shape hv).1, (h.shape hv).2, fun p hp => (h.owned hv _ (hm p hp)).1,
    fun p hp => (h.owned hv _ (hm p hp)).2⟩

variable {c : List Nat}

theorem Rep.ownChain (h : Rep s v) (hl : Layout s) (hv : v b = some (.file c)) : OwnChain s b c ∧ c ≠ [] :=
  ⟨⟨hl, (h.shape hv).1, fun x hx => (h.owned hv x hx).1, fun x hx => (h.owned hv x hx).2⟩, (h.shape hv).2⟩

section

variable {s s' : Volume} {v : Tree} {gone gone' : Option Located}

section
variable (h : Consistent s v gone)
include h

/-- The reserved area survives a step on one object that keeps the root block. -/
theorem Consistent.layout_kept (hg : s'.geo = s.geo) (hkept : Kept s s' v b)
    (hroot : s'.store.used s.rootBlock = true) : Layout s' := by
  refine h.layout.of_geo hg fun c hc => ?_
  by_cases heq : c = s.rootBlock
  · rw [heq]
    exact hroot
  · refine (hkept c (h.layout.reserved c hc) fun hm => ?_).2
    cases hv : v b with
    | none =>
      rw [Tree.blocksAt_none hv] at hm
      cases hm
    | some o =>
      have := (h.rep.owned hv c (Tree.blocksAt_some hv ▸ hm)).1.1
      omega

theorem Consistent.put (hg : s'.geo = s.geo) (hshape : ObjAt s'.store b o)
    (hblocks : ∀ c ∈ o.blocks, c ∈ v.blocksAt b ∨ c < s.totalBlocks ∧ s.store.used c = false)
    (hused : ∀ c ∈ o.blocks, s'.store.used c = true) (hkept : Kept s s' v b)
    (hlinked : Linked s.rootBlock (update v b (some o)) gone') : Consistent s' (update v b (some o)) gone' := by
  have hroot := root_of_geo hg
  have hrep := h.rep.put h.layout hg hshape hblocks hused hkept
  refine ⟨h.layout_kept hg hkept ?_, hrep, hroot ▸ hlinked⟩
  obtain ⟨dir, hdir⟩ := hlinked.rootDir
  exact (hrep.start_owned hdir).2

theorem Consistent.erase (hg : s'.geo = s.geo) (hkept : Kept s s' v b)
    (hlinked : Linked s.rootBlock (update v b none) gone') : Consistent s' (update v b none) gone' := by
  have hroot := root_of_geo hg
  have hrep := h.rep.erase hg hkept
  refine ⟨h.layout_kept hg hkept ?_, hrep, hroot ▸ hlinked⟩
  obtain ⟨dir, hdir⟩ := hlinked.rootDir
  exact (hrep.start_owned hdir).2

/-- The clock and the journal are not looked at. -/
theorem Consistent.of_store (hg : s'.geo = s.geo) (hs : s'.store = s.store) : Consistent s' v gone := by
  have hroot := root_of_geo hg
  refine ⟨h.layout.of_used hg fun b hb => hs ▸ hb, ⟨fun hv => hs ▸ h.rep.shape hv, fun hv c hc => ?_,
    h.rep.disjoint⟩, hroot ▸ h.linked⟩
  exact ⟨(owns_of_geo hg).mpr (h.rep.owned hv c hc).1, hs ▸ (h.rep.owned hv c hc).2⟩

end

/-- `sdfs_dir_add_entry` for an object without a record: it succeeds, or the
directory and the volume are full. -/
theorem Consistent.add (h : Consistent s v none) (hv : v d = some (.dir dir)) (he : e.Ok) (ht : v.Target e)
    (hfresh : ∀ l, v.Record l → l.entry.start ≠ e.start) (hroot : e.start ≠ s.rootBlock) :
    (∃ s' dir', Settles (sdfsDirAddEntry e · s d) (0, s') ∧ s'.geo = s.geo ∧
      Adds e s.totalBlocks s.store s'.store dir dir' 0 ∧
      Consistent s' (update v d (some (.dir dir'))) none) ∨
    ∃ s', Settles (sdfsDirAddEntry e · s d) (-1, s') ∧ s'.geo = s.geo ∧
      s'.store = s.store ∧ dirInsert e dir = none ∧ s.store.frees s.totalBlocks = [] := by
  obtain ⟨hat, hne, hr, hu⟩ := h.rep.dirAt hv
  obtain ⟨r, s', dir', hset, hg, hat', hadds⟩ := add_settles he h.layout hat hne hr hu
  have hblocksAt : v.blocksAt d = dir.map Prod.fst := Tree.blocksAt_some hv
  have hsuccess : Adds e s.totalBlocks s.store s'.store dir dir' 0 →
      Consistent s' (update v d (some (.dir dir'))) none := by
    intro hadds
    obtain ⟨hblocks, hkept, hne'⟩ := hadds.frame
    obtain ⟨l, rfl, hrec⟩ := hadds.records
    refine h.put hg ⟨hat', hne' hne⟩ (fun c hc => ?_) (fun c hc => ?_) (fun c hc hm => ?_)
      (h.linked.add hv hrec ht hfresh hroot)
    · rw [hblocksAt]
      exact (hblocks c hc).imp_right fun hfree => ⟨hfree.1, hfree.2.1⟩
    · rcases hblocks c hc with hm | ⟨-, -, hu'⟩
      · obtain ⟨p, hp, rfl⟩ := mem_map.mp hm
        exact (hkept _ (hu p hp)).1
      · exact hu'
    · exact ⟨(hkept c hc).2 (hblocksAt ▸ hm), (hkept c hc).1⟩
  cases hadds with
  | room hins hus hdata => exact .inl ⟨s', _, hset, hg, .room hins hus hdata, hsuccess (.room hins hus hdata)⟩
  | grow hins hfree hus hdata =>
    exact .inl ⟨s', _, hset, hg, .grow hins hfree hus hdata, hsuccess (.grow hins hfree hus hdata)⟩
  | full hins hfree hs =>
    refine .inr ⟨s', hset, hg, hs, hins, ?_⟩
    rwa [free?_eq_head, head?_eq_none_iff] at hfree

/-- One block of a directory rewritten. -/
theorem Consistent.rewriteDir (h : Consistent s v gone) (hg : s'.geo = s.geo) (hv : v d = some (.dir dir))
    (hb : b ∈ (Obj.dir dir).blocks) {buf : Block} (hstore : s'.store = s.store.write b buf)
    (hat : DirAt s'.store d dir') (hblocks : dir'.map Prod.fst = dir.map Prod.fst)
    (hlinked : Linked s.rootBlock (update v d (some (.dir dir'))) gone') :
    Consistent s' (update v d (some (.dir dir'))) gone' := by
  have hblocksAt : v.blocksAt d = (Obj.dir dir').blocks := (Tree.blocksAt_some hv).trans hblocks.symm
  have hused : s'.store.used = s.store.used := by rw [hstore]; rfl
  refine h.put hg ⟨hat, ?_⟩ (fun c hc => .inl (hblocksAt ▸ hc)) (fun c hc => ?_) (fun c hc hnm => ?_)
    hlinked
  · rintro rfl
    exact (h.rep.dirAt hv).2.1 (map_eq_nil_iff.mp hblocks.symm)
  · rw [hused]
    exact (h.rep.owned hv c (show c ∈ dir.map Prod.fst from hblocks ▸ hc)).2
  · have hcb : c ≠ b := by
      rintro rfl
      exact hnm (Tree.blocksAt_some hv ▸ hb)
    rw [hused]
    exact ⟨by rw [hstore, Store.write_data_ne _ _ hcb], hc⟩

/-- Deleting the last record of its block. -/
theorem Consistent.unlink (h : Consistent s v gone) (hv : v d = some (.dir dir)) (hm : l ∈ dirRecords dir)
    (hgone : ∀ l', gone = some l' → l' = l) (hlast : IsLastRecord (sdfsReadBlock s l.block) l.blockOffset) :
    ∃ dir', Unlinks dir dir' l ∧
      (unlinked s l).store = s.store.write l.block ((s.store.data l.block).set l.blockOffset sdfsTypeDel) ∧
      (∀ {l'}, Tree.Record (update v d (some (.dir dir'))) l' → v.Record l' ∧ l' ≠ l) ∧
      Consistent (unlinked s l) (update v d (some (.dir dir'))) none := by
  obtain ⟨hat, -, hr, -⟩ := h.rep.dirAt hv
  obtain ⟨dir', hun, hat', hstore⟩ := unlink_last h.layout hat hr hm hlast
  have hrec : ∀ {l'}, Tree.Record (update v d (some (.dir dir'))) l' → v.Record l' ∧ l' ≠ l := by
    intro l' hl'
    rcases Tree.record_update hl' with hm' | ⟨b, dir2, hb, hv2, hm'⟩
    · obtain ⟨h1, h2⟩ := (hun.records hat.nodup l').mp hm'
      exact ⟨⟨d, dir, hv, h1⟩, h2⟩
    · refine ⟨⟨b, dir2, hv2, hm'⟩, ?_⟩
      rintro rfl
      exact hb (h.rep.record_dir hv hv2 (dirRecords_block hm) hm').symm
  refine ⟨dir', hun, hstore, hrec,
    h.rewriteDir (geo_metadataWrite _ _ _) hv (dirRecords_block hm) hstore hat' hun.blocks ?_⟩
  -- the deleted record is the only one that may have lost its object
  exact h.linked.mono (h.linked.rootDir_update d dir')
    (fun hl' _ => ⟨(hrec hl').1, fun hg => (hrec hl').2 (hgone _ hg)⟩)
    fun _ _ ht => ht.put (sameKind_dir hv dir')

/-- A record overwritten in place by one for the same object. -/
theorem Consistent.rewriteRecord (h : Consistent s v none) (hg : s'.geo = s.geo) (hv : v d = some (.dir dir))
    (hm : l ∈ dirRecords dir) {buf : Block} (hre : Retouches dir dir' l e) (hstart : e.start = l.entry.start)
    (htype : e.type = l.entry.type) (hstore : s'.store = s.store.write l.block buf) (hat' : DirAt s'.store d dir') :
    Consistent s' (update v d (some (.dir dir'))) none := by
  obtain ⟨hat, -, -, -⟩ := h.rep.dirAt hv
  refine h.rewriteDir hg hv (dirRecords_block hm) hstore hat' hre.blocks ?_
  have hnone : ∀ l' : Located, none ≠ some l' := fun _ => nofun
  have hrec : v.Record l := ⟨d, dir, hv, hm⟩
  -- every record corresponds to an old one with the same object
  have hold : ∀ {l'}, Tree.Record (update v d (some (.dir dir'))) l' →
      l' = { l with entry := e } ∨ v.Record l' ∧ l' ≠ l := by
    intro l' hl'
    rcases Tree.record_update hl' with hm' | ⟨b, dir2, hb, hv2, hm'⟩
    · rw [hre.records hat.nodup] at hm'
      obtain ⟨x, hx, rfl⟩ := mem_map.mp hm'
      by_cases hxl : x = l
      · exact .inl (if_pos hxl)
      · rw [retouch, if_neg hxl]
        exact .inr ⟨⟨d, dir, hv, hx⟩, hxl⟩
    · refine .inr ⟨⟨b, dir2, hv2, hm'⟩, ?_⟩
      rintro rfl
      exact hb (h.rep.record_dir hv hv2 (dirRecords_block hm) hm').symm
  refine ⟨h.linked.rootDir_update d dir', fun hl' _ => ?_, fun hl1 hl2 _ _ he => ?_, fun hl' _ => ?_⟩
  · rcases hold hl' with rfl | ⟨hl', -⟩
    · have ht := h.linked.target hrec (hnone l)
      refine Tree.Target.put ?_ (sameKind_dir hv dir')
      simpa only [Tree.Target, hstart, htype] using ht
    · exact (h.linked.target hl' (hnone _)).put (sameKind_dir hv dir')
  · rcases hold hl1 with rfl | ⟨h1, hne1⟩ <;> rcases hold hl2 with rfl | ⟨h2, hne2⟩
    · rfl
    · exact absurd (h.linked.unique h2 hrec (hnone _) (hnone _) (he.symm.trans hstart)) hne2
    · exact absurd (h.linked.unique h1 hrec (hnone _) (hnone _) (he.trans hstart)) hne1
    · exact h.linked.unique h1 h2 (hnone _) (hnone _) he
  · rcases hold hl' with rfl | ⟨hl', -⟩
    · exact hstart ▸ h.linked.rootFree hrec (hnone l)
    · exact h.linked.rootFree hl' (hnone _)

/-- `sdfs_free_chain` on a file that only `gone` names. -/
theorem Consistent.freeFile (h : Consistent s v none) (hv : v b = some (.file c))
    (hun : ∀ {l}, v.Record l → gone ≠ some l → l.entry.start ≠ b) :
    ∃ s', Settles (sdfsFreeChain · s b) s' ∧ s'.geo = s.geo ∧
      s'.store = s.store.markAll c false ∧ Consistent s' (update v b none) gone := by
  obtain ⟨hc, -⟩ := h.rep.ownChain h.layout hv
  obtain ⟨s', hset, hg, hstore⟩ := freeChain_settles h.layout.valid hc.chain hc.owned
  refine ⟨s', hset, hg, hstore, h.erase hg (fun x hx hm => ?_) (h.linked.erase ?_ hun)⟩
  · rw [Tree.blocksAt_some hv] at hm
    rw [hstore]
    exact ⟨rfl, (if_neg hm).trans hx⟩
  · rintro rfl
    obtain ⟨dir, hdir⟩ := h.linked.rootDir
    rw [hv] at hdir
    cases hdir

/-- `sdfs_free_block` on the first block of an object that only `gone` names.
Further blocks stay marked. -/
theorem Consistent.freeStart (h : Consistent s v none) (hv : v b = some o) (hb : b ≠ s.rootBlock)
    (hun : ∀ {l}, v.Record l → gone ≠ some l → l.entry.start ≠ b) :
    (sdfsFreeBlock s b).store = s.store.mark b false ∧
      Consistent (sdfsFreeBlock s b) (update v b none) gone := by
  have hstart := (h.rep.start_owned hv).1
  have hpos := h.layout.pos
  have hstore := store_free h.layout.valid (b := b) (by have := hstart.1; omega) hstart.2
  refine ⟨hstore, h.erase (geo_free s b) (fun x hx hm => ?_) (h.linked.erase hb hun)⟩
  have hxb : x ≠ b := by
    rintro rfl
    exact hm (Tree.blocksAt_some hv ▸ (h.rep.shape hv).start_mem)
  rw [hstore]
  exact ⟨rfl, by rw [Store.mark_used_ne _ _ hxb, hx]⟩

theorem Tree.blocksAt_file (hv : c = [] ∧ v a = none ∨ v a = some (.file c)) : v.blocksAt a = c := by
  rcases hv with ⟨rfl, hv⟩ | hv
  · exact Tree.blocksAt_none hv
  · exact Tree.blocksAt_some hv

theorem Grown.kept {new : List Nat} (hv : c = [] ∧ v a = none ∨ v a = some (.file c))
    (hgr : Grown s.totalBlocks a s.store c s'.store new) : Kept s s' v a := by
  intro x hx hm
  have hxc : x ∉ c ++ new := by
    rw [mem_append]
    rintro (hin | hin)
    · exact hm (Tree.blocksAt_file hv ▸ hin)
    · rw [(hgr.mem_frees x hin).2] at hx
      cases hx
  exact ⟨hgr.data x hxc, by rw [hgr.used, hx, Bool.true_or]⟩

/-- A file's chain written to and extended, or laid out from nothing. -/
theorem Consistent.grown (h : Consistent s v gone) (hg : s'.geo = s.geo) {new : List Nat}
    (hv : c = [] ∧ v a = none ∨ v a = some (.file c)) (hne : c ++ new ≠ [])
    (hgr : Grown s.totalBlocks a s.store c s'.store new) :
    Consistent s' (update v a (some (.file (c ++ new)))) gone := by
  have hused : ∀ x ∈ c, s.store.used x = true := by
    rcases hv with ⟨rfl, -⟩ | hv
    · exact fun x hx => nomatch hx
    · exact fun x hx => (h.rep.owned hv x hx).2
  refine h.put hg ⟨hgr.chain, hne⟩ (fun x hx => ?_) (fun x hx => ?_) (hgr.kept hv)
    (h.linked.setFile (fun dir hdir => ?_) _)
  · rw [Tree.blocksAt_file hv]
    exact (mem_append.mp hx).imp_right (hgr.mem_frees x)
  · rw [hgr.used]
    rcases mem_append.mp hx with hx | hx
    · rw [hused x hx, Bool.true_or]
    · rw [decide_eq_true hx, Bool.or_true]
  · rcases hv with ⟨-, hv⟩ | hv <;> (rw [hv] at hdir; cases hdir)

/-- The object `sdfs_alloc_block` leaves for a new entry of the given type. -/
def freshObj (type : UInt8) (b : Nat) : Obj := if type = sdfsTypeDir then .dir [(b, [])] else .file [b]

/-- A zeroed block becomes an object without records. -/
theorem Consistent.create (h : Consistent s v none) {rest : List Nat}
    (hf : s.store.frees s.totalBlocks = b :: rest) (type : UInt8) :
    Consistent (sdfsAllocBlock s).2 (update v b (some (freshObj type b))) none := by
  obtain ⟨-, hstore, hlo, hhi, hfree⟩ := alloc_cons h.layout hf
  have hgr := grown_zeroed hf hlo hstore
  have hv : v b = none := h.rep.none_of_free hfree
  unfold freshObj
  split
  · have hdata : (sdfsAllocBlock s).2.store.data b = Buf.zero := by rw [hstore, Store.write_data_self]
    have hat : DirAt (sdfsAllocBlock s).2.store b [(b, [])] :=
      .cons (by omega) (hdata ▸ dirBlock_zero) ⟨hgr.chain.tail, nofun, nofun⟩ fun hne => absurd rfl hne
    refine h.put (geo_alloc s) ⟨hat, by simp⟩ (fun x hx => ?_) (fun x hx => ?_) (fun x hx _ => ?_) ?_
    · cases mem_singleton.mp hx
      exact .inr ⟨hhi, hfree⟩
    · cases mem_singleton.mp hx
      rw [hstore]
      exact Store.mark_used_self _ _ _
    · have hxb : x ≠ b := by
        rintro rfl
        rw [hfree] at hx
        cases hx
      rw [hstore, Store.write_data_ne _ _ hxb]
      exact ⟨rfl, (Store.mark_used_ne _ _ hxb).trans hx⟩
    · refine h.linked.mono (h.linked.rootDir_update _ _) (fun hl _ => ⟨?_, nofun⟩)
        fun _ _ ht => ht.put fun o ho => ?_
      · rcases Tree.record_update hl with hm | ⟨b', dir, -, hb', hm⟩
        · cases hm
        · exact ⟨b', dir, hb', hm⟩
      · rw [hv] at ho
        cases ho
  · exact h.grown (geo_alloc s) (.inl ⟨rfl, hv⟩) (by simp) hgr

/-- The cut of `sdfs_truncate`: the first block of the file stays. -/
theorem Consistent.truncate (h : Consistent s v none) {rest : List Nat} (hv : v a = some (.file (a :: rest))) :
    ∃ s', Settles (fun fuel => if sdfsGetNextBlock s a ≠ 0 then
        sdfsFreeChain fuel (sdfsSetNextBlock s a 0) (sdfsGetNextBlock s a) else some s) s' ∧
      s'.geo = s.geo ∧ Kept s s' v a ∧ Consistent s' (update v a (some (.file [a]))) none := by
  obtain ⟨hc, -⟩ := h.rep.ownChain h.layout hv
  have ha : a ∈ a :: rest := .head _
  have ho := hc.owned a ha
  have hnext : sdfsGetNextBlock s a = s.store.next a := next_eq ho
  have hnodup := nodup_cons.mp hc.chain.nodup
  have hfinish : ∀ s' : Volume, s'.geo = s.geo → (∀ x, x ≠ a → s'.store.data x = s.store.data x) →
      (∀ x ∉ rest, s'.store.used x = s.store.used x) → s'.store.next a = 0 →
      Kept s s' v a ∧ Consistent s' (update v a (some (.file [a]))) none := by
    intro s' hg hdata hused hnil
    have hkept : Kept s s' v a := by
      intro x hx hm
      rw [Tree.blocksAt_some hv] at hm
      have hxa : x ≠ a := fun heq => hm (mem_cons.mpr (.inl heq))
      have hxr : x ∉ rest := fun hx => hm (.tail _ hx)
      exact ⟨hdata x hxa, by rw [hused x hxr, hx]⟩
    refine ⟨hkept, h.put hg ⟨⟨rfl, hc.chain.2.1, hnil⟩, by simp⟩ (fun x hx => .inl ?_) (fun x hx => ?_)
      hkept (h.linked.setFile (fun dir hdir => ?_) _)⟩
    · rw [Tree.blocksAt_some hv]
      exact mem_cons.mpr (.inl (mem_singleton.mp hx))
    · cases mem_singleton.mp hx
      rw [hused a hnodup.1]
      exact hc.used a ha
    · rw [hv] at hdir
      cases hdir
  by_cases h0 : s.store.next a = 0
  · refine ⟨s, .congr (fun n => ?_) (.const s), rfl,
      hfinish s rfl (fun _ _ => rfl) (fun _ _ => rfl) h0⟩
    rw [hnext, if_neg (not_not_intro h0)]
  · have hg1 : (sdfsSetNextBlock s a 0).geo = s.geo := geo_metadataWrite _ _ _
    have hstore1 : (sdfsSetNextBlock s a 0).store =
        s.store.write a (setBlockNext (sdfsReadBlock s a) 0) :=
      store_metadataWrite h.layout.valid _ ho.1 ho.2
    have hchain : Chain (sdfsSetNextBlock s a 0).store.next 0 (s.store.next a) rest := by
      refine hc.chain.tail.congr fun x hx => ?_
      have hxa : x ≠ a := fun heq => hnodup.1 (heq ▸ hx)
      rw [Store.next, hstore1, Store.write_data_ne _ _ hxa]
      rfl
    obtain ⟨s', hset, hg, hstore⟩ := freeChain_settles (hg1 ▸ h.layout.valid) hchain fun x hx =>
      (owns_of_geo hg1).mpr (hc.owned x (.tail _ hx))
    have hdata : ∀ x, x ≠ a → s'.store.data x = s.store.data x := fun x hx => by
      rw [hstore, hstore1]
      exact Store.write_data_ne _ _ hx
    have hused : ∀ x ∉ rest, s'.store.used x = s.store.used x := fun x hx => by
      rw [hstore, hstore1]
      exact if_neg hx
    refine ⟨s', .congr (fun n => ?_) hset, hg.trans hg1,
      hfinish s' (hg.trans hg1) hdata hused ?_⟩
    · rw [hnext, if_pos h0]
    · rw [Store.next, hstore, hstore1]
      show blockNext ((s.store.write a _).data a) = 0
      rw [Store.write_data_self, blockNext_setBlockNext _ (by decide)]

end

end LiwusOS.Fs
