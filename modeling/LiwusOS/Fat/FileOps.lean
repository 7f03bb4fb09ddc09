import LiwusOS.Fat.Files

/-! # The path operations on a formatted volume

Every operation on a path settles and leads from a volume with `Inv` to another
one, whether it fails or not. A component of a path before the last one is never
resolved (`fat32_resolve_directory` goes on only where the look-up failed, with
an empty entry), so a path names an entry of the root or nothing. -/

namespace LiwusOS.Fat
open LiwusOS.Lib LiwusOS.Fs Function

def leafOf (path : CStr) : List UInt8 := (fat32PathParent path.bytes).2

/-- Nothing but slashes before the last component. -/
def RootLevel (path : CStr) : Prop :=
  (splitSlash (parentOrRoot (fat32PathParent path.bytes).1)).filter (· ≠ []) = []

instance (path : CStr) : Decidable (RootLevel path) := inferInstanceAs (Decidable (_ = _))

/-- Look-ups of every name but one find what they found, with the same chain and data. -/
structure Framed (f : Bool) (dos : List UInt8) (d : Sectors) (c : Nat → List Nat) (d' : Sectors)
    (c' : Nat → List Nat) : Prop where
  found : ∀ dos', dos' ≠ dos → search dos' (rootSlots f d' c') = search dos' (rootSlots f d c)
  kept : ∀ dos' s, dos' ≠ dos → search dos' (rootSlots f d c) = some s → c' s.start = c s.start ∧
    ∀ n ∈ c s.start, fat32ReadDirectoryCluster (std f) d' n = fat32ReadDirectoryCluster (std f) d n

/-- A new entry for an empty chain. -/
structure Added (f : Bool) (name : List UInt8) (attr : UInt8) (d : Sectors) (c : Nat → List Nat) (d' : Sectors)
    (c' : Nat → List Nat) : Prop where
  valid : fat32IsValidName name = true
  framed : Framed f (fat32MakeDosName name) d c d' c'
  found : ∃ s n, s.entry = entryBytes (newDirent name attr n) ∧
    search (fat32MakeDosName name) (rootSlots f d' c') = some s

/-- The file `dos` has the contents of a buffer. -/
structure Stored (f : Bool) (dos : List UInt8) (buffer : Buf) (size : UInt32) (d' : Sectors) (c' : Nat → List Nat)
    (s : Lookup) : Prop where
  found : search dos (rootSlots f d' c') = some s
  file : dirAttr s.entry &&& 0x10 = 0
  length : s.entry.u32 28 = size
  bytes : ∀ i < size.toNat, chainByte f d' (c' s.start) i = buffer i

/-! ## Paths -/

section
variable {f : Bool} {d : Sectors} {found : List UInt8 → Option Lookup}
  (hfind : ∀ name, Settles (fat32FindEntryInDir · (std f) d 2 name) (found name))

theorem parentOrRoot_ne_nil (p : List UInt8) : parentOrRoot p ≠ [] := by
  rw [parentOrRoot]
  split
  · exact List.cons_ne_nil _ _
  · assumption

include hfind in
theorem resolveDirectory_settles (path : CStr) :
    Settles (fat32ResolveDirectory · (std f) d (parentOrRoot (fat32PathParent path.bytes).1))
      (if RootLevel path then some 2 else none) := by
  set dir := parentOrRoot (fat32PathParent path.bytes).1
  have hrun : ∀ fuel, fat32ResolveDirectory fuel (std f) d dir =
      if dir = [47] then some (some 2)
      else resolveParts fuel (std f) d 2 ((splitSlash dir).filter (· ≠ [])) := by
    intro fuel
    exact if_neg fun h => h.elim nofun (parentOrRoot_ne_nil _)
  refine .congr hrun ?_
  by_cases hroot : dir = [47]
  · have hlevel : RootLevel path := by
      show (splitSlash dir).filter (· ≠ []) = []
      rw [hroot]
      decide
    rw [if_pos hlevel]
    simp only [if_pos hroot]
    exact .const _
  · simp only [if_neg hroot]
    cases hparts : (splitSlash dir).filter (· ≠ []) with
    | nil =>
      rw [if_pos (show RootLevel path from hparts)]
      exact .const _
    | cons part rest =>
      have hlevel : ¬ RootLevel path := fun h => List.cons_ne_nil part rest (hparts.symm.trans h)
      rw [if_neg hlevel]
      by_cases hlen : 32 ≤ part.length
      · exact .pos hlen (.const _)
      · refine .neg hlen ((hfind part).bind ?_)
        -- found or not, the component is not entered
        cases found part with
        | some s => exact .const _
        | none => exact .const _

include hfind in
theorem resolvePath_settles (path : CStr) :
    Settles (fat32ResolvePath · (std f) d path)
      ((if leafOf path ≠ [] ∧ RootLevel path then found (leafOf path) else none).map fun s => (2, s)) := by
  by_cases hleaf : leafOf path = []
  · rw [if_neg fun h => h.1 hleaf]
    refine .congr (fun fuel => ?_) (.const _)
    rw [fat32ResolvePath]
    split
    · rfl
    · exact if_pos hleaf
  · have hpath : ¬ (path.bytes = [] ∨ path.bytes = [47]) := by
      rintro (h0 | h0) <;> exact hleaf (by rw [leafOf, h0]; decide)
    have hrun : ∀ fuel, fat32ResolvePath fuel (std f) d path =
        (fat32ResolveDirectory fuel (std f) d (parentOrRoot (fat32PathParent path.bytes).1)).bind fun dir =>
          dir.elim (some none) fun cluster =>
            (fat32FindEntryInDir fuel (std f) d cluster (leafOf path)).map fun found =>
            found.map fun l => (cluster, l) := by
      intro fuel
      rw [fat32ResolvePath, if_neg hpath]
      refine (if_neg hleaf).trans (congrArg _ (funext fun dir => ?_))
      cases dir <;> rfl
    refine .congr hrun ((resolveDirectory_settles hfind path).bind ?_)
    by_cases hlevel : RootLevel path
    · rw [if_pos hlevel, if_pos ⟨hleaf, hlevel⟩]
      exact (hfind (leafOf path)).map _
    · rw [if_neg hlevel, if_neg fun h => hlevel h.2]
      exact .const _

include hfind in
/-- `fat32_create_file_path` fails before anything is written, or goes on in the root. -/
theorem createFilePath_settles (path : CStr) :
    Settles (fat32CreateFilePath · (std f) d path) (-1, d) ∨
    fat32IsValidName (leafOf path) = true ∧ RootLevel path ∧ ∀ {r},
      Settles (fun fuel => (fat32AllocateClusterChain fuel (std f) d 1).bind fun (fileCluster, d) =>
        if fileCluster = 0 then some (-1, d)
        else (fat32CreateDirEntry fuel (std f) d 2 (leafOf path) 0x20 fileCluster).bind fun (ret, d) =>
          if ret ≠ 0 then (fat32FreeClusterChain (std f) fuel d fileCluster).map fun d => ((-1 : Int), d)
          else some (0, d)) r →
      Settles (fat32CreateFilePath · (std f) d path) r := by
  by_cases hpath : path.bytes = [47]
  · exact .inl (.pos (.inr hpath) (.const _))
  have hguard : ¬ ((!(std f).mounted) = true ∨ path.bytes = [47]) := fun h => h.elim nofun hpath
  by_cases hv : (!fat32IsValidName (leafOf path)) = true
  · exact .inl (.neg hguard (.pos hv (.const _)))
  have hdir := resolveDirectory_settles hfind path
  by_cases hlevel : RootLevel path
  · rw [if_pos hlevel] at hdir
    exact .inr ⟨by simpa using hv, hlevel, fun hset => .neg hguard (.neg hv (hdir.bind hset))⟩
  · rw [if_neg hlevel] at hdir
    exact .inl (.neg hguard (.neg hv (hdir.bind (.const _))))

/-- `fat32_delete_path` fails, or frees the chain of the entry it finds and marks its slot. -/
theorem deletePath_settles {path : CStr} {o : Option Lookup}
    (hres : Settles (fat32ResolvePath · (std f) d path) (o.map fun s => (2, s)))
    (hempty : ∀ s, o = some s → ∃ b, Settles (fat32IsDirectoryEmpty · (std f) d s.start) b) :
    Settles (fat32DeletePath · (std f) d path) (-1, d) ∨ ∃ s, o = some s ∧ ∀ {d1},
      Settles (fun fuel => if 2 ≤ s.start then fat32FreeClusterChain (std f) fuel d s.start else some d) d1 →
      Settles (fat32DeletePath · (std f) d path)
        (fat32MarkDirectoryEntryDeleted (std f) d1 s.entryCluster s.entryIndex) := by
  by_cases hpath : path.bytes = [47]
  · exact .inl (.pos (.inr hpath) (.const _))
  have hguard : ¬ ((!(std f).mounted) = true ∨ path.bytes = [47]) := fun h => h.elim nofun hpath
  cases o with
  | none => exact .inl (.neg hguard (hres.bind (.const _)))
  | some s =>
    obtain ⟨b, hb⟩ : ∃ b, Settles (fun fuel => if dirAttr s.entry &&& 0x10 ≠ 0 then
        fat32IsDirectoryEmpty fuel (std f) d s.start else some true) b := by
      by_cases hdir : dirAttr s.entry &&& 0x10 ≠ 0
      · obtain ⟨b, hb⟩ := hempty s rfl
        exact ⟨b, .pos hdir hb⟩
      · exact ⟨true, .neg hdir (.const _)⟩
    cases b with
    | false => exact .inl (.neg hguard (hres.bind (hb.bind (.const _))))
    | true => exact .inr ⟨s, rfl, fun hfree => .neg hguard (hres.bind (hb.bind (hfree.map _)))⟩

/-- `fat32_rename_path` fails, or writes the new name into the slot it finds. -/
theorem renamePath_settles {oldPath newPath : CStr} {o o' : Option Lookup}
    (hres : Settles (fat32ResolvePath · (std f) d oldPath) (o.map fun s => (2, s)))
    (hnew : Settles (fat32FindEntryInDir · (std f) d 2 (leafOf newPath)) o') :
    (Settles (fat32RenamePath · (std f) d oldPath newPath) (-1, d) ∧ ∀ s, o = some s →
      parentOrRoot (fat32PathParent oldPath.bytes).1 = parentOrRoot (fat32PathParent newPath.bytes).1 →
      fat32IsValidName (leafOf newPath) = true → o' ≠ none) ∨
    ∃ s, o = some s ∧ o' = none ∧ fat32IsValidName (leafOf newPath) = true ∧
      Settles (fat32RenamePath · (std f) d oldPath newPath)
        (fat32WriteDirectoryEntry (std f) d s.entryCluster s.entryIndex
          (s.entry.putBytes 0 (fat32MakeDosName (leafOf newPath)))) := by
  by_cases hpath : oldPath.bytes = [47] ∨ newPath.bytes = [47]
  · refine .inl ⟨.pos (.inr hpath) (.const _), fun s hs _ hv => ?_⟩
    rcases hpath with h0 | h0
    · rw [hs] at hres
      cases hres.unique (.pos (.inr h0) (.const none))
    · rw [leafOf, h0] at hv
      cases hv
  have hguard : ¬ ((!(std f).mounted) = true ∨ oldPath.bytes = [47] ∨ newPath.bytes = [47]) :=
    fun h => h.elim nofun hpath
  by_cases hparent : parentOrRoot (fat32PathParent oldPath.bytes).1 ≠ parentOrRoot (fat32PathParent newPath.bytes).1
  · exact .inl ⟨.neg hguard (.pos hparent (.const _)), fun _ _ heq => absurd heq hparent⟩
  by_cases hv : (!fat32IsValidName (leafOf newPath)) = true
  · refine .inl ⟨.neg hguard (.neg hparent (.pos hv (.const _))), fun _ _ _ hv' => ?_⟩
    rw [hv'] at hv
    cases hv
  cases o with
  | none => exact .inl ⟨.neg hguard (.neg hparent (.neg hv (hres.bind (.const _)))), nofun⟩
  | some s =>
    cases o' with
    | some _ =>
      exact .inl ⟨.neg hguard (.neg hparent (.neg hv (hres.bind (hnew.bind (.const _))))), fun _ _ _ _ => nofun⟩
    | none =>
      exact .inr ⟨s, rfl, rfl, by simpa using hv,
        .neg hguard (.neg hparent (.neg hv (hres.bind (hnew.bind (hres.map _)))))⟩

end

section

variable {f : Bool} {d d' : Sectors} {c c' : Nat → List Nat} {E : List Nat} {n : Nat} {s : Lookup} {dos : List UInt8}

theorem Framed.trans {d'' : Sectors} {c'' : Nat → List Nat} (h : Framed f dos d c d' c')
    (h' : Framed f dos d' c' d'' c'') : Framed f dos d c d'' c'' := by
  refine ⟨fun dos' hne => (h'.found dos' hne).trans (h.found dos' hne), fun dos' s hne hs => ?_⟩
  obtain ⟨hc, hdata⟩ := h.kept dos' s hne hs
  obtain ⟨hc', hdata'⟩ := h'.kept dos' s hne ((h.found dos' hne).trans hs)
  exact ⟨hc'.trans hc, fun n hn => (hdata' n (hc ▸ hn)).trans (hdata n hn)⟩

/-! ## Chains -/

namespace Cells

theorem isDirectoryEmpty (h : Cells d c) (hn : c n ≠ []) : ∃ b, Settles (fat32IsDirectoryEmpty · (std f) d n) b := by
  have hlow := (h.inData ((h.parts.chain hn).start_mem hn)).1
  refine ⟨_, .map (.congr (fun fuel => if_neg ?_) ((h.loaded hn).map _)) _⟩
  exact fun h => h.elim nofun (by omega)

end Cells

/-- A buffer is written to a new chain. -/
theorem NewChain.fill {d1 : Sectors} {c1 : Nat → List Nat} (h : NewChain f d c n d1 c1) (buffer : Buf)
    (size : UInt32) :
    ∃ w d', Settles (fun fuel => if 0 < size.toNat then
        fat32WriteClusterChain fuel (std f) d1 n buffer size.toNat else some (size.toNat, d1)) (w, d') ∧
      NewChain f d c n d' c1 ∧ (w = size.toNat → ∀ i < size.toNat, chainByte f d' (c1 n) i = buffer i) := by
  by_cases hsize : 0 < size.toNat
  swap
  · exact ⟨size.toNat, d1, .neg hsize (.const _), h, fun _ i hi => absurd (Nat.zero_lt_of_lt hi) hsize⟩
  have hin := fun {a m} => h.cells.inData (a := a) (n := m)
  obtain ⟨w, d', hset, hraw, hm, hout, hw, hbytes⟩ := writeChain_settles buffer (w := 0) (h.cells.chain h.chain)
    (fun m hm => hin hm) h.cells.mirrored (Nat.zero_le size.toNat)
  have hlow := (hin ((h.cells.parts.chain h.chain).start_mem h.chain)).1
  refine ⟨w, d', .congr (fun fuel => ?_) hset,
    h.refill (h.cells.of_raw hraw rfl rfl h.cells.parts hm) fun a ha m hm => ?_,
    fun heq i hi => ?_⟩
  · rw [if_pos hsize, fat32WriteClusterChain, if_neg (by omega)]
  · exact hout m (hin hm).1 (hin hm).2.1 fun hmn => ha (h.cells.parts.disjoint hm hmn)
  · rw [hbytes i (by omega), Nat.zero_add]

/-- The entry `fat32_write_file_path` leaves. -/
def Inv.rewritten (e : Buf) (n : Nat) (size : UInt32) : Buf := (fat32SetEntryStartCluster e n).putU32 28 size

/-- `fat32_write_file_path` on an entry fails and leaves the root and the files, or it
has filled a new chain that takes the place of the old one. -/
theorem Cells.overwrite (h : Cells d c) (hroot : c 2 ≠ []) (s : Lookup) (buffer : Buf) (size : UInt32) :
    (∃ d', Settles (writeFound · (std f) d buffer size s) (0, d') ∧ SameRoot f c d d') ∨
    ∃ r d1 c1, NewChain f d c r d1 c1 ∧ dirAttr s.entry &&& 0x10 = 0 ∧
      (∀ i < size.toNat, chainByte f d1 (c1 r) i = buffer i) ∧ ∀ {d2 d3},
      Settles (fun fuel => if 2 ≤ s.start then fat32FreeClusterChain (std f) fuel d1 s.start else some d1) d2 →
      fat32WriteDirectoryEntry (std f) d2 s.entryCluster s.entryIndex (Inv.rewritten s.entry r size) = (0, d3) →
      Settles (writeFound · (std f) d buffer size s) (size, d3) := by
  by_cases hdir : dirAttr s.entry &&& 0x10 ≠ 0
  · exact .inl ⟨d, .pos hdir (.const _), h, rfl, .refl⟩
  obtain ⟨r, d1, halloc, ⟨rfl, hsame⟩ | ⟨c1, hnew⟩⟩ := h.alloc (f := f) hroot _
  · exact .inl ⟨d1, .neg hdir (halloc.bind (.const _)), hsame⟩
  obtain ⟨w, d2, hfill, hnew, hbytes⟩ := hnew.fill buffer size
  by_cases hw : w ≠ size.toNat
  · obtain ⟨d3, hdrop, hsame⟩ := hnew.drop
    refine .inl ⟨d3, .neg hdir (halloc.bind (.neg hnew.nonzero (hfill.bind ?_))), hsame⟩
    exact .pos hw (hdrop.map _)
  refine .inr ⟨r, d2, c1, hnew, not_not.mp hdir, hbytes (not_not.mp hw), fun hfree hwrite => ?_⟩
  refine .neg hdir (halloc.bind (.neg hnew.nonzero (hfill.bind (.neg hw (hfree.bind ?_)))))
  unfold Inv.rewritten at hwrite
  simp only [hwrite]
  exact .const _

/-! ## Found slots -/

/-- What a look-up in the root gives. -/
structure Hit (f : Bool) (d : Sectors) (c : Nat → List Nat) (dos : List UInt8) (A : List Lookup) (s : Lookup)
    (B : List Lookup) : Prop where
  split : rootSlots f d c = A ++ s :: B
  passed : ∀ x ∈ A, x.Passed dos
  name : dirName s.entry = dos
  live : s.Live
  attr : AttrOk s.entry

theorem Hit.mem {A B : List Lookup} (h : Hit f d c dos A s B) : s ∈ rootSlots f d c := by
  rw [h.split]
  exact List.mem_append_right _ (.head _)

namespace Inv

theorem hit (h : Inv f d c E) (hs : search dos (rootSlots f d c) = some s) : ∃ A B, Hit f d c dos A s B := by
  obtain ⟨A, B, hS, hA, h0, hskip, hname⟩ := search_some hs
  have hattr := h.ok.attrs s (hS ▸ List.mem_append_right _ (.head _))
  rw [hattr.skipped, decide_eq_false_iff_not] at hskip
  exact ⟨A, B, hS, hA, hname, ⟨h0, hskip⟩, hattr⟩

/-- A live slot names a chain in the data area. -/
theorem start_low (h : Inv f d c E) (hs : s ∈ rootSlots f d c) (hl : s.Live) : 2 ≤ s.start := by
  have hne := (h.ok.owned s hs hl).1
  exact (h.cells.inData ((h.cells.parts.chain hne).start_mem hne)).1

theorem framed_of_kept (h : Inv f d c E) (hkept : FilesKept f c d c' d')
    (hfound : ∀ dos', dos' ≠ dos → search dos' (rootSlots f d' c') = search dos' (rootSlots f d c)) :
    Framed f dos d c d' c' := by
  refine ⟨hfound, fun dos' s _ hs => ?_⟩
  obtain ⟨A, B, hhit⟩ := h.hit hs
  obtain ⟨hne, h2, -⟩ := h.ok.owned s hhit.mem hhit.live
  exact hkept s.start h2 hne

/-! ## Paths -/

theorem resolvePath (h : Inv f d c E) (path : CStr) :
    Settles (fat32ResolvePath · (std f) d path) ((if leafOf path ≠ [] ∧ RootLevel path then
      search (fat32MakeDosName (leafOf path)) (rootSlots f d c) else none).map fun s => (2, s)) :=
  resolvePath_settles h.find path

/-! ## New entries -/

/-- An entry for a new chain; the chain is given back on failure. -/
theorem addEntry (h : Inv f d c []) (hnew : NewChain f d c n d' c') (name : List UInt8) (attr : UInt8)
    (hattr : attr = 0x10 ∨ attr = 0x20) :
    ∃ ret d2 c2, Settles (fun fuel => (fat32CreateDirEntry fuel (std f) d' 2 name attr n).bind fun (ret, d) =>
        if ret ≠ 0 then (fat32FreeClusterChain (std f) fuel d n).map fun d => ((-1 : Int), d)
        else some (0, d)) (ret, d2) ∧ Inv f d2 c2 [] ∧ (ret = -1 ∨ ret = 0 ∧ Added f name attr d c d2 c2) := by
  obtain ⟨ret, d2, hset, ⟨rfl, rfl⟩ | ⟨rfl, hv, c2, s, hinv, hkept, hentry, hfound, hothers⟩⟩ :=
    (hnew.inv h).createEntry hnew.chain hnew.notRoot name hattr
  · obtain ⟨d3, hfree, hsame⟩ := hnew.drop
    exact ⟨-1, d3, c, hset.bind (hfree.map _), hsame.inv h, .inl rfl⟩
  · refine ⟨0, d2, c2, hset.bind (.const _), hinv,
      .inr ⟨rfl, hv, h.framed_of_kept (hnew.kept.trans hkept) fun dos hd => ?_,
      s, n, hentry, hfound⟩⟩
    rw [hothers dos hd, hnew.slots]

theorem createFile (h : Inv f d c []) (path : CStr) :
    ∃ ret d' c', Settles (fat32CreateFilePath · (std f) d path) (ret, d') ∧ Inv f d' c' [] ∧
      (ret = -1 ∨ ret = 0 ∧ Added f (leafOf path) 0x20 d c d' c') := by
  obtain hset | ⟨-, -, hset⟩ := createFilePath_settles h.find path
  · exact ⟨-1, d, c, hset, h, .inl rfl⟩
  obtain ⟨r, d1, halloc, ⟨rfl, hsame⟩ | ⟨c1, hnew⟩⟩ := h.cells.alloc (f := f) h.root 1
  · exact ⟨-1, d1, c, hset (halloc.bind (.const _)), hsame.inv h, .inl rfl⟩
  · obtain ⟨ret, d2, c2, hadd, hinv⟩ := h.addEntry hnew (leafOf path) 0x20 (.inr rfl)
    refine ⟨ret, d2, c2, hset (halloc.bind ?_), hinv⟩
    simp only [if_neg hnew.nonzero]
    exact hadd

theorem createDir (h : Inv f d c []) (path : CStr) :
    ∃ ret d' c', Settles (fat32CreateDir · (std f) d path) (ret, d') ∧ Inv f d' c' [] := by
  by_cases hpath : path.bytes = [47]
  · exact ⟨-1, d, c, .pos (.inr hpath) (.const _), h⟩
  have hguard : ¬ ((!(std f).mounted) = true ∨ path.bytes = [47]) := fun h => h.elim nofun hpath
  by_cases hv : (!fat32IsValidName (leafOf path)) = true
  · exact ⟨-1, d, c, .neg hguard (.pos hv (.const _)), h⟩
  have hdir := resolveDirectory_settles h.find path
  by_cases hlevel : RootLevel path
  swap
  · rw [if_neg hlevel] at hdir
    exact ⟨-1, d, c, .neg hguard (.neg hv (hdir.bind (.const _))), h⟩
  rw [if_pos hlevel] at hdir
  have hfind := h.find (leafOf path)
  cases hs : search (fat32MakeDosName (leafOf path)) (rootSlots f d c) with
  | some s =>
    rw [hs] at hfind
    exact ⟨-1, d, c, .neg hguard (.neg hv (hdir.bind (hfind.bind (.const _)))), h⟩
  | none =>
    rw [hs] at hfind
    obtain ⟨r, d1, halloc, ⟨rfl, hsame⟩ | ⟨c1, hnew⟩⟩ := h.cells.alloc (f := f) h.root 1
    · exact ⟨-1, d1, c, .neg hguard (.neg hv (hdir.bind (hfind.bind (halloc.bind (.const _))))), hsame.inv h⟩
    · have hmem := (hnew.cells.parts.chain hnew.chain).start_mem hnew.chain
      have hin := fun {a m} => hnew.cells.inData (a := a) (n := m)
      have hdots := hnew.refill (hnew.cells.writeCluster (f := f) (hin hmem).1 (hin hmem).2.1 (newDirectoryCluster r 2))
        fun a ha m hm => by
          rw [read_writeCluster (hin hmem).1 (hin hmem).2.1 (hin hm).1 (hin hm).2.1, if_neg]
          rintro rfl
          exact ha (hnew.cells.parts.disjoint hm hmem)
      obtain ⟨ret, d2, c2, hadd, hinv, -⟩ := h.addEntry hdots (leafOf path) 0x10 (.inl rfl)
      refine ⟨ret, d2, c2, .neg hguard (.neg hv (hdir.bind (hfind.bind (halloc.bind ?_)))), hinv⟩
      simp only [if_neg hnew.nonzero]
      exact hadd

/-! ## Overwriting -/

/-- The chain of a live slot is freed; the slot still names it. -/
theorem freeStart (h : Inv f d c E) (hs : s ∈ rootSlots f d c) (hl : s.Live) :
    ∃ d', Settles (fun fuel => if 2 ≤ s.start then fat32FreeClusterChain (std f) fuel d s.start else some d) d' ∧
      Cells d' (update c s.start []) ∧ rootSlots f d' (update c s.start []) = rootSlots f d c ∧ ∀ {a m}, m ∈ c a →
        fat32ReadDirectoryCluster (std f) d' m = fat32ReadDirectoryCluster (std f) d m := by
  obtain ⟨hne, h2, -⟩ := h.ok.owned s hs hl
  obtain ⟨d', hset, hrest⟩ := h.cells.drop (f := f) hne h2
  exact ⟨d', .pos (h.start_low hs hl) hset, hrest⟩

/-- The entry of a file changed to name the new chain. -/
theorem exchange {A B : List Lookup} (h : Inv f d c [n]) (hn : c n ≠ []) (hn2 : n ≠ 2)
    (hhit : Hit f d c dos A s B) {e : Buf} (hname : dirName e = dos) (hattr : dirAttr e = dirAttr s.entry)
    (hstart : fat32EntryStartCluster e = n) :
    ∃ d1 d' s', Settles (fun fuel => if 2 ≤ s.start then fat32FreeClusterChain (std f) fuel d s.start else some d) d1 ∧
      fat32WriteDirectoryEntry (std f) d1 s.entryCluster s.entryIndex e = (0, d') ∧
      Inv f d' (update c s.start []) [] ∧ rootSlots f d' (update c s.start []) = A ++ s' :: B ∧
      s'.entry = entryBytes e ∧ s'.Live ∧ AttrOk s'.entry ∧ ∀ a, a ≠ 2 → a ≠ s.start → ∀ m ∈ c a,
        fat32ReadDirectoryCluster (std f) d' m = fat32ReadDirectoryCluster (std f) d m := by
  obtain ⟨hne, h2, -⟩ := h.ok.owned s hhit.mem hhit.live
  obtain ⟨d1, hfree, hcells, hslots, hdata⟩ := h.freeStart hhit.mem hhit.live
  obtain ⟨d2, hwrite, hcells2, hslots2, hkept⟩ := hcells.writeEntry (hslots.trans hhit.split) e
  have hfirst := first_of_dirName ((dirName_entryBytes e).trans (hname.trans hhit.name.symm))
  have hlive : (⟨s.entryCluster, s.entryIndex, entryBytes e⟩ : Lookup).Live :=
    ⟨ne_of_eq_of_ne hfirst hhit.live.1, ne_of_eq_of_ne hfirst hhit.live.2⟩
  have hstart' : Lookup.start ⟨s.entryCluster, s.entryIndex, entryBytes e⟩ = n := (start_entryBytes e).trans hstart
  have hattr' : AttrOk (entryBytes e) := by
    rw [AttrOk, dirAttr_entryBytes, hattr]
    exact hhit.attr
  have hsame : update c s.start [] 2 = c 2 := update_of_ne h2.symm _ _
  refine ⟨d1, d2, _, hfree, hwrite, ⟨hcells2, hsame ▸ h.root, ?_⟩, hslots2, rfl, hlive, hattr',
    fun a ha has m hm => ?_⟩
  · rw [hslots2]
    have hok : RootOk (A ++ s :: B) c [n] := hhit.split ▸ h.ok
    refine hok.rehang (slot_notMem h.nodup hhit.split) hhit.live hattr' hlive.1 (fun _ => ?_) fun a ha => ?_
    · rw [hstart']
      exact ⟨hn, hn2, List.mem_singleton.mpr rfl⟩
    · exact ⟨hlive, hstart'.trans (List.mem_singleton.mp ha).symm⟩
  · have hca : update c s.start [] a = c a := update_of_ne has _ _
    have hmem : m ∈ update c s.start [] a := hca.symm ▸ hm
    exact ((hkept a ha (List.ne_nil_of_mem hmem)).2 m hmem).trans (hdata hm)

/-- After `exchange` the other names find what they found. -/
theorem framed_exchange {A B : List Lookup} (h : Inv f d c E) (hhit : Hit f d c dos A s B) {s' : Lookup}
    (hs' : s'.Live) (hname : dirName s'.entry = dos) (hslots : rootSlots f d' (update c s.start []) = A ++ s' :: B)
    (hdata : ∀ a, a ≠ 2 → a ≠ s.start → ∀ m ∈ c a,
      fat32ReadDirectoryCluster (std f) d' m = fat32ReadDirectoryCluster (std f) d m) :
    Framed f dos d c d' (update c s.start []) := by
  refine ⟨fun dos' hne => ?_, fun dos' t hne ht => ?_⟩
  · rw [hslots, hhit.split]
    refine search_congr_tail A ?_
    rw [search_passed ⟨hs'.1, .inr (hname.trans_ne hne.symm)⟩,
      search_passed ⟨hhit.live.1, .inr (hhit.name.trans_ne hne.symm)⟩]
  · obtain ⟨A', B', hhit'⟩ := h.hit ht
    have hstart : t.start ≠ s.start := by
      intro heq
      have hts := h.ok.distinct t hhit'.mem s hhit.mem hhit'.live hhit.live heq
      exact hne (hhit'.name.symm.trans (hts ▸ hhit.name))
    exact ⟨update_of_ne hstart _ _,
      hdata t.start (h.ok.owned t hhit'.mem hhit'.live).2.1 hstart⟩

theorem rewritten_name (e : Buf) (n : Nat) (size : UInt32) : dirName (rewritten e n size) = dirName e :=
  (Buf.bytes_putU32_ne _ _ (.inl (by omega))).trans (dirName_setStart e n)

theorem rewritten_attr (e : Buf) (n : Nat) (size : UInt32) : dirAttr (rewritten e n size) = dirAttr e :=
  (Buf.eqOn_putU32 (fat32SetEntryStartCluster e n) size (.inl (Nat.le_refl 28)) 11 (Nat.zero_le _) (by omega)).trans
    (dirAttr_setStart e n)

theorem rewritten_start (e : Buf) (size : UInt32) (hn : n < 2 ^ 32) :
    fat32EntryStartCluster (rewritten e n size) = n :=
  (start_congr (Buf.eqOn_putU32 _ _ (.inl (by omega)))).trans (start_setStart e hn)

/-- The new chain takes the place of the old one in the entry. -/
theorem commit {A B : List Lookup} (h : Inv f d c [n]) (hn : c n ≠ []) (hn2 : n ≠ 2) (hhit : Hit f d c dos A s B)
    (hfile : dirAttr s.entry &&& 0x10 = 0) {buffer : Buf} {size : UInt32}
    (hbytes : ∀ i < size.toNat, chainByte f d (c n) i = buffer i) :
    ∃ d1 d' c' s', Settles (fun fuel => if 2 ≤ s.start then fat32FreeClusterChain (std f) fuel d s.start else some d)
        d1 ∧
      fat32WriteDirectoryEntry (std f) d1 s.entryCluster s.entryIndex (rewritten s.entry n size) = (0, d') ∧
      Inv f d' c' [] ∧ Framed f dos d c d' c' ∧ Stored f dos buffer size d' c' s' := by
  have hname : dirName (rewritten s.entry n size) = dos := (rewritten_name _ _ _).trans hhit.name
  have hstart := rewritten_start s.entry size (h.cells.start_small hn)
  obtain ⟨d1, d', s', hfree, hwrite, hinv, hslots, hentry, hlive, hattr, hdata⟩ := h.exchange hn hn2 hhit hname
    (rewritten_attr _ _ _) hstart
  have hns : n ≠ s.start := by
    intro heq
    exact (h.ok.owned s hhit.mem hhit.live).2.2 (List.mem_singleton.mpr heq.symm)
  have hname' : dirName s'.entry = dos := by rw [hentry, dirName_entryBytes, hname]
  refine ⟨d1, d', update c s.start [], s', hfree, hwrite, hinv, h.framed_exchange hhit hlive hname' hslots hdata,
    ?_, ?_, ?_, fun i hi => ?_⟩
  · rw [hslots, search_passed_append hhit.passed]
    exact search_hit hlive.1 (hlive.not_skipped hattr) hname'
  · rw [hentry, dirAttr_entryBytes, rewritten_attr]
    exact hfile
  · rw [hentry, size_entryBytes]
    exact Buf.u32_putU32 _ _ _
  · have hs' : s'.start = n := by rw [Lookup.start, hentry, start_entryBytes, hstart]
    rw [hs', update_of_ne hns, chainByte_congr (hdata n hn2 hns)]
    exact hbytes i hi

/-- `fat32_write_file_path` on an entry that was found. -/
theorem writeFound_settles (h : Inv f d c []) (hs : search dos (rootSlots f d c) = some s) (buffer : Buf)
    (size : UInt32) :
    ∃ ret d' c', Settles (writeFound · (std f) d buffer size s) (ret, d') ∧ Inv f d' c' [] ∧
      (ret = 0 ∨ ret = size ∧ Framed f dos d c d' c' ∧ ∃ s', Stored f dos buffer size d' c' s') := by
  obtain ⟨A, B, hhit⟩ := h.hit hs
  obtain ⟨d', hset, hsame⟩ | ⟨r, d1, c1, hnew, hfile, hbytes, hset⟩ := h.cells.overwrite (f := f) h.root s buffer size
  · exact ⟨0, d', c, hset, hsame.inv h, .inl rfl⟩
  have hhit1 : Hit f d1 c1 dos A s B :=
    ⟨hnew.slots.trans hhit.split, hhit.passed, hhit.name, hhit.live, hhit.attr⟩
  obtain ⟨d2, d3, c3, s', hfree, hwrite, hinv, hframed, hstored⟩ :=
    (hnew.inv h).commit hnew.chain hnew.notRoot hhit1 hfile hbytes
  have hframed1 : Framed f dos d c d1 c1 := h.framed_of_kept hnew.kept fun dos' _ => by rw [hnew.slots]
  exact ⟨size, d3, c3, hset hfree hwrite, hinv, .inr ⟨rfl, hframed1.trans hframed, s', hstored⟩⟩

theorem writeFile (h : Inv f d c []) (path : CStr) (buffer : Buf) (size : UInt32) :
    ∃ ret d' c', Settles (fat32WriteFilePath · (std f) d path buffer size) (ret, d') ∧
      Inv f d' c' [] ∧ (ret = 0 ∨ ret = size ∧ (leafOf path ≠ [] ∧ RootLevel path) ∧
        Framed f (fat32MakeDosName (leafOf path)) d c d' c' ∧
        ∃ s, Stored f (fat32MakeDosName (leafOf path)) buffer size d' c' s) := by
  have hres := h.resolvePath path
  obtain ⟨ret1, d1, c1, hcreate, hinv1, hret1⟩ := h.createFile path
  by_cases hok : leafOf path ≠ [] ∧ RootLevel path
  swap
  · -- nothing is found, before the file is created and afterwards
    have hres1 := hinv1.resolvePath path
    rw [if_neg hok] at hres hres1
    refine ⟨0, d1, c1, hres.bind (hcreate.bind ?_), hinv1, .inl rfl⟩
    by_cases h0 : ret1 ≠ 0
    · exact .pos h0 (.const _)
    · exact .neg h0 (hres1.bind (.const _))
  rw [if_pos hok] at hres
  cases hs : search (fat32MakeDosName (leafOf path)) (rootSlots f d c) with
  | some s =>
    rw [hs] at hres
    obtain ⟨ret, d', c', hset, hinv, hret⟩ := h.writeFound_settles hs buffer size
    exact ⟨ret, d', c', hres.bind hset, hinv, hret.imp_right fun hr => ⟨hr.1, hok, hr.2⟩⟩
  | none =>
    rw [hs] at hres
    rcases hret1 with rfl | ⟨rfl, hadded⟩
    · exact ⟨0, d1, c1, hres.bind (hcreate.bind (.const _)), hinv1, .inl rfl⟩
    · obtain ⟨s, n, -, hs1⟩ := hadded.found
      have hres1 := hinv1.resolvePath path
      rw [if_pos hok, hs1] at hres1
      obtain ⟨ret, d', c', hset, hinv, hret⟩ := hinv1.writeFound_settles hs1 buffer size
      refine ⟨ret, d', c', hres.bind (hcreate.bind (hres1.bind hset)), hinv, hret.imp_right fun hr => ?_⟩
      exact ⟨hr.1, hok, hadded.framed.trans hr.2.1, hr.2.2⟩

/-! ## Deleting and renaming -/

theorem deletePath (h : Inv f d c []) (path : CStr) :
    ∃ ret d' c', Settles (fat32DeletePath · (std f) d path) (ret, d') ∧ Inv f d' c' [] := by
  have hslot : ∀ {s}, (if leafOf path ≠ [] ∧ RootLevel path then
      search (fat32MakeDosName (leafOf path)) (rootSlots f d c) else none) = some s →
      ∃ A B, Hit f d c (fat32MakeDosName (leafOf path)) A s B :=
    fun hs => h.hit (Option.ite_none_right_eq_some.mp hs).2
  obtain hset | ⟨s, hs, hset⟩ := deletePath_settles (h.resolvePath path) fun s hs => by
    obtain ⟨A, B, hhit⟩ := hslot hs
    exact h.cells.isDirectoryEmpty (h.ok.owned s hhit.mem hhit.live).1
  · exact ⟨-1, d, c, hset, h⟩
  obtain ⟨A, B, hhit⟩ := hslot hs
  have h2 := (h.ok.owned s hhit.mem hhit.live).2.1
  obtain ⟨d1, hfree, hcells, hslots, -⟩ := h.freeStart hhit.mem hhit.live
  obtain ⟨d2, hmark, hcells2, hslots2, -⟩ := hcells.markDeleted (hslots.trans hhit.split)
  have hset := hset hfree
  rw [hmark] at hset
  have hsame : update c s.start [] 2 = c 2 := update_of_ne h2.symm _ _
  refine ⟨0, d2, _, hset, hcells2, hsame ▸ h.root, ?_⟩
  rw [hslots2]
  have hok' : RootOk (A ++ s :: B) c [] := hhit.split ▸ h.ok
  have hdead : ¬ (⟨s.entryCluster, s.entryIndex, s.entry.set 0 0xE5⟩ : Lookup).Live :=
    fun hl => hl.2 (Buf.set_self s.entry 0 0xE5)
  refine hok'.rehang (slot_notMem h.nodup hhit.split) hhit.live hhit.attr ?_ (fun hl => absurd hl hdead) nofun
  exact ne_of_eq_of_ne (Buf.set_self s.entry 0 0xE5) (by decide)

theorem renamePath (h : Inv f d c []) (oldPath newPath : CStr) :
    ∃ ret d' c', Settles (fat32RenamePath · (std f) d oldPath newPath) (ret, d') ∧ Inv f d' c' [] := by
  obtain ⟨hset, -⟩ | ⟨s, hs, -, hv, hset⟩ := renamePath_settles (h.resolvePath oldPath) (h.find (leafOf newPath))
  · exact ⟨-1, d, c, hset, h⟩
  obtain ⟨A, B, hhit⟩ := h.hit (Option.ite_none_right_eq_some.mp hs).2
  obtain ⟨hne, h2, -⟩ := h.ok.owned s hhit.mem hhit.live
  set e := s.entry.putBytes 0 (fat32MakeDosName (leafOf newPath))
  obtain ⟨d', hwrite, hcells, hslots, -⟩ := h.cells.writeEntry hhit.split e
  rw [hwrite] at hset
  refine ⟨0, d', c, hset, hcells, h.root, ?_⟩
  rw [hslots]
  have hbytes : e.EqOn s.entry 11 32 := by
    intro i h1 _
    refine Buf.putBytes_outside _ (.inr ?_)
    rw [length_makeDosName]
    omega
  have hname : dirName (entryBytes e) = fat32MakeDosName (leafOf newPath) :=
    (dirName_entryBytes _).trans (dirName_putBytes _ _)
  have hlive := live_of_dosName hv (s := ⟨s.entryCluster, s.entryIndex, entryBytes e⟩) hname
  have hstart : Lookup.start ⟨s.entryCluster, s.entryIndex, entryBytes e⟩ = s.start :=
    (start_entryBytes _).trans (start_congr (hbytes.mono (by omega) (by omega)))
  have hattr : AttrOk (entryBytes e) := by
    have heq : dirAttr e = dirAttr s.entry := hbytes 11 (by omega) (by omega)
    rw [AttrOk, dirAttr_entryBytes, heq]
    exact hhit.attr
  have hok' : RootOk (A ++ s :: B) c [] := hhit.split ▸ h.ok
  refine hok'.replace (slot_notMem h.nodup hhit.split) hattr hlive.1 (hok'.front hhit.live.1)
    (fun _ => ?_) (fun a ha _ => ha) (by simp) fun a ha => ⟨ha, fun _ heq => ⟨hlive, hstart.trans heq.symm⟩, by simp⟩
  rw [hstart]
  exact ⟨hne, h2, by simp, .inr ⟨hhit.live, rfl⟩⟩

end Inv

end

end LiwusOS.Fat
