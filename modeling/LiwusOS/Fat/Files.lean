import LiwusOS.Fat.LongNames

/-! # The entries of the root directory and their chains

`Inv d c E`: the FATs agree, the chains `c` are those of the root, of the live
root entries and of `E`. Look-ups, a new entry and an entry rewritten in place
keep it; each comes with what other names still find. -/

namespace LiwusOS.Fat
open LiwusOS.Lib Function List

structure RootOk (S : List Lookup) (c : Nat → List Nat) (E : List Nat) : Prop where
  attrs : ∀ s ∈ S, AttrOk s.entry
  tail : S.Pairwise fun s s' => s.entry 0 = 0 → s'.entry 0 = 0
  owned : ∀ s ∈ S, s.Live → c s.start ≠ [] ∧ s.start ≠ 2 ∧ s.start ∉ E
  distinct : ∀ s ∈ S, ∀ s' ∈ S, s.Live → s'.Live → s.start = s'.start → s = s'
  covers : ∀ a, c a ≠ [] → a = 2 ∨ (∃ s ∈ S, s.Live ∧ s.start = a) ∨ a ∈ E

/-! ## Changed lists -/

variable {e : Buf} {s : Lookup} {name : List UInt8}

theorem AttrOk.not_long (h : AttrOk e) : dirAttr e ≠ 0x0F := by
  rcases h with h | h | h <;> rw [h] <;> decide

theorem AttrOk.not_label (h : AttrOk e) : dirAttr e &&& 0x08 = 0 := by
  rcases h with h | h | h <;> rw [h] <;> decide

theorem AttrOk.skipped (h : AttrOk e) : direntSkipped e = decide (e 0 = 0xE5) := by
  simp [direntSkipped, h.not_long, h.not_label]

theorem Lookup.Live.not_skipped (h : s.Live) (ha : AttrOk s.entry) : direntSkipped s.entry = false := by
  rw [ha.skipped]
  exact decide_eq_false h.2

namespace RootOk

variable {S A B : List Lookup} {c c' : Nat → List Nat} {E E' : List Nat} {s s' : Lookup}

section
variable (h : RootOk (A ++ s :: B) c E)
include h

/-- Slots before one that was used have been used. -/
theorem front (hs : s.entry 0 ≠ 0) : ∀ x ∈ A, x.entry 0 ≠ 0 :=
  fun x hx h0 => hs ((pairwise_append.mp h.tail).2.2 x hx s mem_cons_self h0)

/-- Behind a slot that was never used there are only such slots. -/
theorem search_behind (hs : s.entry 0 = 0) (dos : List UInt8) : search dos B = none := by
  cases B with
  | nil => rfl
  | cons x B =>
    have htail := (pairwise_append.mp h.tail).2.1
    exact search_zero ((pairwise_cons.mp htail).1 x mem_cons_self hs)

/-- One slot replaced by a used one, together with the chains. -/
theorem replace (hs : s ∉ A ++ B) (hattr : AttrOk s'.entry) (h0 : s'.entry 0 ≠ 0) (hA : ∀ x ∈ A, x.entry 0 ≠ 0)
    (hown : s'.Live → c' s'.start ≠ [] ∧ s'.start ≠ 2 ∧ s'.start ∉ E' ∧
      (s'.start ∈ E ∨ s.Live ∧ s'.start = s.start))
    (hkeep : ∀ a, c a ≠ [] → (s.Live → a ≠ s.start) → c' a ≠ []) (hE : ∀ a ∈ E', a ∈ E)
    (hcov : ∀ a, c' a ≠ [] → c a ≠ [] ∧ (s.Live → a = s.start → s'.Live ∧ s'.start = a) ∧
      (a ∈ E → a ∈ E' ∨ s'.Live ∧ s'.start = a)) : RootOk (A ++ s' :: B) c' E' := by
  have hmem : ∀ {x y}, x ∈ A ++ y :: B ↔ x = y ∨ x ∈ A ++ B := perm_middle.mem_iff.trans mem_cons
  have hup : ∀ {x}, x ∈ A ++ B → x ∈ A ++ s :: B := fun hx => hmem.mpr (.inr hx)
  -- another live slot does not have the chain of the old one
  have hne : ∀ {x}, x ∈ A ++ B → x.Live → s.Live → x.start ≠ s.start := fun hx hlx hls heq =>
    hs (h.distinct _ (hup hx) s (hmem.mpr (.inl rfl)) hlx hls heq ▸ hx)
  have hnew : ∀ {x}, x ∈ A ++ B → x.Live → s'.Live → x.start ≠ s'.start := by
    intro x hx hlx hl' heq
    rcases (hown hl').2.2.2 with he | ⟨hls, hstart⟩
    · rw [← heq] at he
      exact (h.owned x (hup hx) hlx).2.2 he
    · exact hne hx hlx hls (heq.trans hstart)
  refine ⟨fun x hx => ?_, ?_, fun x hx hlx => ?_, fun x hx y hy hlx hly heq => ?_, fun a ha => ?_⟩
  · rcases hmem.mp hx with rfl | hx
    · exact hattr
    · exact h.attrs x (hup hx)
  · obtain ⟨hpA, hpB, hAB⟩ := pairwise_append.mp h.tail
    refine pairwise_append.mpr ⟨hpA, ?_, fun x hx y hy hx0 => absurd hx0 (hA x hx)⟩
    exact pairwise_cons.mpr ⟨fun y _ hs0 => absurd hs0 h0, (pairwise_cons.mp hpB).2⟩
  · rcases hmem.mp hx with rfl | hx
    · exact ⟨(hown hlx).1, (hown hlx).2.1, (hown hlx).2.2.1⟩
    · obtain ⟨h1, h2, h3⟩ := h.owned x (hup hx) hlx
      exact ⟨hkeep _ h1 fun hls => hne hx hlx hls, h2, fun he => h3 (hE _ he)⟩
  · rcases hmem.mp hx with hxs | hx'
    · rcases hmem.mp hy with hys | hy'
      · rw [hxs, hys]
      · subst hxs
        exact absurd heq.symm (hnew hy' hly hlx)
    · rcases hmem.mp hy with hys | hy'
      · subst hys
        exact absurd heq (hnew hx' hlx hly)
      · exact h.distinct x (hup hx') y (hup hy') hlx hly heq
  · obtain ⟨hca, hold, hext⟩ := hcov a ha
    rcases h.covers a hca with h2 | ⟨x, hx, hlx, rfl⟩ | he
    · exact .inl h2
    · by_cases hxs : x = s
      · subst hxs
        obtain ⟨hl', hstart⟩ := hold hlx rfl
        exact .inr (.inl ⟨s', hmem.mpr (.inl rfl), hl', hstart⟩)
      · exact .inr (.inl ⟨x, hmem.mpr (.inr ((hmem.mp hx).resolve_left hxs)), hlx, rfl⟩)
    · rcases hext he with he' | ⟨hl', hstart⟩
      · exact .inr (.inr he')
      · exact .inr (.inl ⟨s', hmem.mpr (.inl rfl), hl', hstart⟩)

/-- A live slot replaced, when its chain is freed. -/
theorem rehang (hs : s ∉ A ++ B) (hl : s.Live) (hattr : AttrOk s'.entry)
    (h0 : s'.entry 0 ≠ 0) (hown : s'.Live → c s'.start ≠ [] ∧ s'.start ≠ 2 ∧ s'.start ∈ E)
    (hE : ∀ a ∈ E, s'.Live ∧ s'.start = a) : RootOk (A ++ s' :: B) (update c s.start []) [] := by
  refine h.replace hs hattr h0 (h.front hl.1) (fun hl' => ?_) (fun a ha hold => ?_) nofun fun a ha => ?_
  · obtain ⟨hne, h2, hmem⟩ := hown hl'
    have hns : s'.start ≠ s.start := fun heq =>
      (h.owned s (mem_append_right _ (.head _)) hl).2.2 (heq ▸ hmem)
    rw [update_of_ne hns]
    exact ⟨hne, h2, nofun, .inl hmem⟩
  · rw [update_of_ne (hold hl)]
    exact ha
  · have has : a ≠ s.start := by
      rintro rfl
      rw [update_self] at ha
      exact ha rfl
    rw [update_of_ne has] at ha
    exact ⟨ha, fun _ heq => absurd heq has, fun hmem => .inr (hE a hmem)⟩

end

/-- More slots that were never used. -/
theorem extend (h : RootOk S c E) {Z : List Lookup} (hS : ∀ s ∈ S, s.entry 0 ≠ 0)
    (hZ : ∀ s ∈ Z, s.entry = Buf.zero) (hc : ∀ a, c' a ≠ [] ↔ c a ≠ []) : RootOk (S ++ Z) c' E := by
  have hzero : ∀ s ∈ Z, s.entry 0 = 0 := fun s hs => by rw [hZ s hs]; rfl
  have hlive : ∀ {s}, s ∈ S ++ Z → s.Live → s ∈ S := fun hs hl =>
    (mem_append.mp hs).resolve_right fun hz => hl.1 (hzero _ hz)
  refine ⟨fun s hs => ?_, ?_, fun s hs hl => ?_, fun s hs s' hs' hl hl' => ?_, fun a ha => ?_⟩
  · rcases mem_append.mp hs with hs | hs
    · exact h.attrs s hs
    · rw [hZ s hs]
      exact .inl rfl
  · refine pairwise_append.mpr ⟨h.tail, ?_, fun x hx y _ hx0 => absurd hx0 (hS x hx)⟩
    exact pairwise_of_forall_mem_list fun x _ y hy _ => hzero y hy
  · rw [hc]
    exact h.owned s (hlive hs hl) hl
  · exact h.distinct s (hlive hs hl) s' (hlive hs' hl') hl hl'
  · refine (h.covers a ((hc a).mp ha)).imp_right (Or.imp_left ?_)
    rintro ⟨s, hs, hl⟩
    exact ⟨s, mem_append_left _ hs, hl⟩

/-- The same slots with other chains behind them. -/
theorem rechain (h : RootOk S c []) (hown : ∀ s ∈ S, s.Live → c' s.start ≠ [] ∧ s.start ∉ E')
    (hcov : ∀ a, c' a ≠ [] → c a ≠ [] ∨ a ∈ E') : RootOk S c' E' := by
  refine ⟨h.attrs, h.tail, fun s hs hl => ⟨(hown s hs hl).1, (h.owned s hs hl).2.1, (hown s hs hl).2⟩,
    h.distinct, fun a ha => ?_⟩
  rcases hcov a ha with hca | hE
  · exact (h.covers a hca).imp_right (Or.imp_right nofun)
  · exact .inr (.inr hE)

end RootOk

/-! ## Fields of entries -/

section

theorem length_padName (n : Nat) (name : List UInt8) : (padName n name).length = n := by
  rw [padName, length_take, length_append, length_replicate]
  omega

theorem length_makeDosName (name : List UInt8) : (fat32MakeDosName name).length = 11 := by
  rw [fat32MakeDosName, length_append, length_padName, length_padName]

theorem dirName_putBytes (e : Buf) (name : List UInt8) :
    dirName (e.putBytes 0 (fat32MakeDosName name)) = fat32MakeDosName name := by
  have h := Buf.bytes_putBytes e 0 (fat32MakeDosName name)
  rw [length_makeDosName] at h
  exact h

theorem start_setStart (e : Buf) {n : Nat} (hn : n < 2 ^ 32) :
    fat32EntryStartCluster (fat32SetEntryStartCluster e n) = n := by
  rw [fat32EntryStartCluster, fat32SetEntryStartCluster, Buf.u16_putU16,
    Buf.u16_putU16_ne _ _ (by omega), Buf.u16_putU16, UInt16.toNat_ofNat', UInt16.toNat_ofNat']
  omega

theorem setStart_outside (e : Buf) (n : Nat) {lo hi : Nat} (h : hi ≤ 20) :
    (fat32SetEntryStartCluster e n).EqOn e lo hi := by
  rw [fat32SetEntryStartCluster]
  exact (Buf.eqOn_putU16 _ _ (.inl (by omega))).trans (Buf.eqOn_putU16 _ _ (.inl (by omega)))

theorem dirName_setStart (e : Buf) (n : Nat) : dirName (fat32SetEntryStartCluster e n) = dirName e :=
  Buf.bytes_congr (setStart_outside e n (by omega))

theorem dirAttr_setStart (e : Buf) (n : Nat) : dirAttr (fat32SetEntryStartCluster e n) = dirAttr e :=
  setStart_outside e n (Nat.le_refl 20) 11 (Nat.zero_le _) (by omega)

theorem newDirent_name (name : List UInt8) (attr : UInt8) (n : Nat) :
    dirName (newDirent name attr n) = fat32MakeDosName name := by
  rw [newDirent, dirName_setStart]
  exact (Buf.bytes_congr (Buf.eqOn_set _ _ (.inl (by omega)))).trans (dirName_putBytes _ name)

theorem newDirent_attr (name : List UInt8) (attr : UInt8) (n : Nat) : dirAttr (newDirent name attr n) = attr := by
  rw [newDirent, dirAttr_setStart]
  exact Buf.set_self _ _ _

theorem newDirent_start (name : List UInt8) (attr : UInt8) {n : Nat} (hn : n < 2 ^ 32) :
    fat32EntryStartCluster (newDirent name attr n) = n := start_setStart _ hn

/-- The first byte of an entry is the first byte of its name. -/
theorem first_of_dirName {e' : Buf} (h : dirName e = dirName e') : e 0 = e' 0 := by
  have h0 := congrArg List.head? h
  exact Option.some.inj h0

theorem first_of_dosName (h : dirName e = fat32MakeDosName name) : (fat32MakeDosName name).head? = some (e 0) := by
  rw [← h]
  rfl

theorem forall_byte {P : UInt8 → Prop} (h : ∀ n : Fin 256, P (UInt8.ofNat n)) (ch : UInt8) : P ch := by
  have hch := h ⟨ch.toNat, ch.toNat_lt⟩
  rwa [UInt8.ofNat_toNat] at hch

theorem upper_nameChar : ∀ ch, isNameChar ch = true → upper ch ≠ 0 ∧ upper ch ≠ 0xE5 ∧ ch ≠ 46 :=
  forall_byte (by decide +kernel)

/-- A valid name begins with one of its characters. -/
theorem validName_head (h : fat32IsValidName name = true) : ∃ ch rest, name = ch :: rest ∧ isNameChar ch = true := by
  cases name with
  | nil => cases h
  | cons ch rest =>
    refine ⟨ch, rest, rfl, ?_⟩
    rw [fat32IsValidName] at h
    split at h
    · cases h
    · rw [validLoop] at h
      split at h
      · cases h
      · split at h
        · rw [if_pos (.inr (.inl rfl))] at h
          cases h
        · split at h
          · assumption
          · cases h

/-- The entry of a valid name is neither free nor deleted. -/
theorem live_of_dosName (hv : fat32IsValidName name = true)
    (hs : dirName s.entry = fat32MakeDosName name) : s.Live := by
  obtain ⟨ch, rest, rfl, hch⟩ := validName_head hv
  obtain ⟨h1, h2, h46⟩ := upper_nameChar ch hch
  have hfirst : (fat32MakeDosName (ch :: rest)).head? = some (upper ch) := by
    rw [fat32MakeDosName, takeWhile_cons_of_pos (by simpa using h46)]
    rfl
  have heq : s.entry 0 = upper ch := Option.some.inj ((first_of_dosName hs).symm.trans hfirst)
  exact ⟨heq ▸ h1, heq ▸ h2⟩

/-- The entry of a new name, in whatever slot. -/
theorem newDirent_slot (hv : fat32IsValidName name = true) {attr : UInt8}
    (hattr : attr = 0x10 ∨ attr = 0x20) {n : Nat} (hn : n < 2 ^ 32)
    (hs : s.entry = entryBytes (newDirent name attr n)) :
    dirName s.entry = fat32MakeDosName name ∧ s.start = n ∧ AttrOk s.entry ∧ s.Live := by
  have hname : dirName s.entry = fat32MakeDosName name := by rw [hs, dirName_entryBytes, newDirent_name]
  refine ⟨hname, ?_, ?_, live_of_dosName hv hname⟩
  · rw [Lookup.start, hs, start_entryBytes, newDirent_start name attr hn]
  · rw [AttrOk, hs, dirAttr_entryBytes, newDirent_attr]
    exact .inr hattr

end

/-! ## The volume -/

/-- The slots of the root directory. -/
def rootSlots (f : Bool) (d : Sectors) (c : Nat → List Nat) : List Lookup :=
  slots (fat32ReadDirectoryCluster (std f) d) (c 2)

structure Inv (f : Bool) (d : Sectors) (c : Nat → List Nat) (E : List Nat) : Prop where
  cells : Cells d c
  root : c 2 ≠ []
  ok : RootOk (rootSlots f d c) c E

/-- The disk after the free cluster `n` was zeroed and hung to `last`. -/
def hangCell (f : Bool) (d : Sectors) (last n : Nat) : Sectors :=
  fat32ZeroCluster (std f) (fat32WriteFatEntry (std f) (fat32WriteFatEntry (std f) d last n) n eocMark) n

theorem direntAt_zero (i : Nat) : direntAt Buf.zero i = Buf.zero := by
  funext j
  exact ite_self _

/-- The chains other than the root's are still there with their data. -/
def FilesKept (f : Bool) (c : Nat → List Nat) (d : Sectors) (c' : Nat → List Nat) (d' : Sectors) : Prop :=
  ∀ a, a ≠ 2 → c a ≠ [] → c' a = c a ∧
    ∀ n ∈ c a, fat32ReadDirectoryCluster (std f) d' n = fat32ReadDirectoryCluster (std f) d n

section

variable {f : Bool} {d d' : Sectors} {c c' : Nat → List Nat} {E : List Nat} {n : Nat}

theorem FilesKept.refl : FilesKept f c d c d := fun _ _ _ => ⟨rfl, fun _ _ => rfl⟩

theorem FilesKept.trans {d'' : Sectors} {c'' : Nat → List Nat} (h : FilesKept f c d c' d')
    (h' : FilesKept f c' d' c'' d'') : FilesKept f c d c'' d'' := by
  intro a ha hne
  obtain ⟨hc, hdata⟩ := h a ha hne
  obtain ⟨hc', hdata'⟩ := h' a ha (hc ▸ hne)
  exact ⟨hc'.trans hc, fun n hn => (hdata' n (hc ▸ hn)).trans (hdata n hn)⟩

/-! ### Slots rewritten -/

theorem rootSlot_mem (hs : s ∈ rootSlots f d c) : s.entryCluster ∈ c 2 ∧
    s.entryIndex < 128 ∧ s.entry = direntAt (fat32ReadDirectoryCluster (std f) d s.entryCluster) s.entryIndex := by
  obtain ⟨n, hn, i, hi, rfl⟩ := mem_slots.mp hs
  exact ⟨hn, hi, rfl⟩

/-- A new chain `r`, next to a root and files that stay. -/
structure NewChain (f : Bool) (d : Sectors) (c : Nat → List Nat) (r : Nat) (d' : Sectors) (c' : Nat → List Nat) :
    Prop where
  nonzero : r ≠ 0
  notRoot : r ≠ 2
  old : c r = []
  chain : c' r ≠ []
  only : ∀ a, a ≠ r → c' a = c a
  cells : Cells d' c'
  slots : rootSlots f d' c' = rootSlots f d c
  kept : FilesKept f c d c' d'

/-- The root and the files are as they were. -/
structure SameRoot (f : Bool) (c : Nat → List Nat) (d d' : Sectors) : Prop where
  cells : Cells d' c
  slots : rootSlots f d' c = rootSlots f d c
  kept : FilesKept f c d c d'

/-- A free slot of the root, found in it or in a cluster that was hung to it. -/
structure DirSlot (f : Bool) (d d' : Sectors) (c c' : Nat → List Nat) (A : List Lookup) (s : Lookup)
    (B : List Lookup) : Prop where
  cells : Cells d' c'
  split : rootSlots f d' c' = A ++ s :: B
  free : direntFree s.entry = true
  front : ∀ x ∈ A, direntFree x.entry = false
  kept : FilesKept f c d c' d'
  root : c 2 <+: c' 2
  old : d' = d ∧ c' = c ∨ A = rootSlots f d c ∧ (∀ x ∈ s :: B, x.entry = Buf.zero) ∧ ∀ a, c' a ≠ [] ↔ c a ≠ []

namespace Cells

section
variable (h : Cells d c)
include h

theorem notMem_root {a m : Nat} (ha : a ≠ 2) (hm : m ∈ c a) : m ∉ c 2 :=
  fun hm2 => ha (h.parts.disjoint hm hm2)

theorem root_nodup (hroot : c 2 ≠ []) : (c 2).Nodup := (h.parts.chain hroot).nodup

theorem loaded (hn : c n ≠ []) : Settles (chainClusters (std f) d · n) (c n) := by
  have hclusters : ∀ {a l}, Chain (fat32NextCluster (std f) d) eocMark a l → (∀ m ∈ l, InData m) →
      Settles (chainClusters (std f) d · a) l := by
    intro a l
    induction l generalizing a with
    | nil =>
      intro hchain _
      cases show a = eocMark from hchain
      exact .succ rfl (fun _ => if_neg eocMark_not_inData) (.const _)
    | cons b l ih =>
      rintro ⟨rfl, -, htail⟩ hl
      have hrest := ih htail fun m hm => hl m (.tail _ hm)
      exact .succ rfl (fun _ => if_pos (hl a (.head _))) (hrest.map _)
  exact hclusters (h.chain hn) fun m hm => (h.inData hm).2.2

theorem find (hroot : c 2 ≠ []) (name : List UInt8) :
    Settles (fat32FindEntryInDir · (std f) d 2 name) (findLive name [] (rootSlots f d c)) :=
  findEntry_live (m := 128) (h.loaded hroot) (clusterSize_std f) name []

theorem start_small (hn : c n ≠ []) : n < 2 ^ 32 := by
  have h25 : n < 25600 := (h.inData ((h.parts.chain hn).start_mem hn)).2.1
  omega

theorem alloc (hroot : c 2 ≠ []) (k : Nat) :
    ∃ r d', Settles (fat32AllocateClusterChain · (std f) d k) (r, d') ∧
      ((r = 0 ∧ SameRoot f c d d') ∨ ∃ c', NewChain f d c r d' c') := by
  obtain ⟨r, d', hset, hkept, hcase⟩ := alloc_settles (f := f) h k
  refine ⟨r, d', hset, hcase.imp (fun ⟨hr, hcells⟩ =>
    ⟨hr, hcells, slots_congr (hkept 2), fun a _ _ => ⟨rfl, hkept a⟩⟩) ?_⟩
  rintro ⟨l, hl, hnil, hcells⟩
  have hne : update c r l r ≠ [] := by rwa [update_self]
  have hr := (hcells.inData ((hcells.parts.chain hne).start_mem hne)).1
  have hsame : ∀ {a}, c a ≠ [] → update c r l a = c a := fun {a} ha =>
    update_of_ne (fun heq : a = r => ha (heq ▸ hnil)) _ _
  refine ⟨update c r l, by omega, fun heq => hroot (heq ▸ hnil), hnil, hne, fun a ha => update_of_ne ha _ _, hcells, ?_,
    fun a _ hne => ⟨hsame hne, hkept a⟩⟩
  rw [rootSlots, hsame hroot]
  exact slots_congr (hkept 2)

/-- A chain other than the root's is given back. -/
theorem drop (hn : c n ≠ []) (hn2 : n ≠ 2) :
    ∃ d', Settles (fat32FreeClusterChain (std f) · d n) d' ∧ Cells d' (update c n []) ∧
      rootSlots f d' (update c n []) = rootSlots f d c ∧ ∀ {a m}, m ∈ c a →
        fat32ReadDirectoryCluster (std f) d' m = fat32ReadDirectoryCluster (std f) d m := by
  obtain ⟨d', hset, hcells, hdata⟩ := h.free (f := f) hn
  have hread : ∀ {a m}, m ∈ c a → _ := fun hm => hdata _ (h.inData hm).1 (h.inData hm).2.1
  refine ⟨d', hset, hcells, ?_, hread⟩
  rw [rootSlots, update_of_ne hn2.symm]
  exact slots_congr fun m hm => hread hm

/-- One slot of the root rewritten. -/
theorem writeSlot {A B : List Lookup} (hS : rootSlots f d c = A ++ s :: B)
    {b : Buf} (hb : ∀ j < 128, direntAt (clip b) j = if j = s.entryIndex then e
      else direntAt (fat32ReadDirectoryCluster (std f) d s.entryCluster) j) :
    Cells (fat32WriteDirectoryCluster (std f) d s.entryCluster b) c ∧
    rootSlots f (fat32WriteDirectoryCluster (std f) d s.entryCluster b) c =
      A ++ ⟨s.entryCluster, s.entryIndex, e⟩ :: B ∧
    FilesKept f c d c (fat32WriteDirectoryCluster (std f) d s.entryCluster b) := by
  have hs : s ∈ rootSlots f d c := hS ▸ mem_append_right _ (.head _)
  obtain ⟨hmem, hi, -⟩ := rootSlot_mem hs
  obtain ⟨hlow, hhigh, -⟩ := h.inData hmem
  refine ⟨h.writeCluster hlow hhigh b, ?_, fun a ha _ => ⟨rfl, fun m hm => ?_⟩⟩
  · refine slots_replace (h.root_nodup (ne_nil_of_mem hmem)) hS (fun m hm hne => ?_) fun j hj => ?_
    · rw [read_writeCluster hlow hhigh (h.inData hm).1 (h.inData hm).2.1, if_neg hne]
    · rw [read_writeCluster hlow hhigh hlow hhigh, if_pos rfl]
      exact hb j hj
  · rw [read_writeCluster hlow hhigh (h.inData hm).1 (h.inData hm).2.1, if_neg]
    rintro rfl
    exact h.notMem_root ha hm hmem

theorem writeEntry {A B : List Lookup} (hS : rootSlots f d c = A ++ s :: B)
    (e : Buf) : ∃ d', fat32WriteDirectoryEntry (std f) d s.entryCluster s.entryIndex e = (0, d') ∧ Cells d' c ∧
      rootSlots f d' c = A ++ ⟨s.entryCluster, s.entryIndex, entryBytes e⟩ :: B ∧ FilesKept f c d c d' := by
  have hs : s ∈ rootSlots f d c := hS ▸ mem_append_right _ (.head _)
  have hlow := (h.inData (rootSlot_mem hs).1).1
  exact ⟨_, if_neg (by omega), h.writeSlot hS fun j hj => direntAt_copy hj e⟩

theorem markDeleted {A B : List Lookup} (hS : rootSlots f d c = A ++ s :: B) :
    ∃ d', fat32MarkDirectoryEntryDeleted (std f) d s.entryCluster s.entryIndex = (0, d') ∧ Cells d' c ∧
      rootSlots f d' c = A ++ ⟨s.entryCluster, s.entryIndex, s.entry.set 0 0xE5⟩ :: B ∧ FilesKept f c d c d' := by
  have hs : s ∈ rootSlots f d c := hS ▸ mem_append_right _ (.head _)
  obtain ⟨hmem, -, hentry⟩ := rootSlot_mem hs
  have hlow := (h.inData hmem).1
  obtain ⟨h1, h2, h3⟩ := h.writeSlot hS fun j hj => direntAt_set hj 0xE5
  exact ⟨_, if_neg (by omega), h1, hentry ▸ h2, h3⟩

/-- A zeroed cluster hung to the root's chain. -/
theorem hangRoot {l : List Nat} {last : Nat} (hl : c 2 = l ++ [last]) (hn : FreeCell d n) :
    Cells (hangCell f d last n) (update c 2 (c 2 ++ [n])) ∧
    rootSlots f (hangCell f d last n) (update c 2 (c 2 ++ [n])) =
      rootSlots f d c ++ clusterSlots Buf.zero n ∧
    FilesKept f c d (update c 2 (c 2 ++ [n])) (hangCell f d last n) := by
  have hlast : last ∈ c 2 := by rw [hl]; simp
  have hlt := (h.inData hlast).2.1
  have hsmall : n < 2 ^ 32 := by
    have h25 : n < 25600 := hn.high
    omega
  have hread : ∀ {m}, 2 ≤ m → m < fatEntries → fat32ReadDirectoryCluster (std f) (hangCell f d last n) m =
      if m = n then Buf.zero else fat32ReadDirectoryCluster (std f) d m := fun h1 h2 => by
    rw [hangCell, fat32ZeroCluster, read_writeCluster hn.low hn.high h1 h2, read_writeFat hn.high h1 h2,
      read_writeFat hlt h1 h2, clip_zero]
  have hkept : ∀ {a m}, m ∈ c a → fat32ReadDirectoryCluster (std f) (hangCell f d last n) m =
      fat32ReadDirectoryCluster (std f) d m := fun {a m} hm => by
    rw [hread (h.inData hm).1 (h.inData hm).2.1, if_neg]
    exact fun heq => h.fresh hn a (heq ▸ hm)
  refine ⟨h.append hn hl (fun m hm => ?_) ?_, ?_,
    fun a ha _ => ⟨update_of_ne ha _ _, fun m hm => hkept hm⟩⟩
  · rw [hangCell, fat32ZeroCluster, raw_writeCluster hn.low hn.high _ hm, raw_writeFat hn.high (by decide) hm,
      raw_writeFat hlt hsmall hm, update_apply, update_apply]
  · rw [hangCell, fat32ZeroCluster]
    exact mirrored_writeCluster (mirrored_writeFat (mirrored_writeFat h.mirrored hlt) hn.high) hn.low hn.high _
  · rw [rootSlots, update_self, slots_append, slots_congr fun m hm => hkept hm, slots_cons,
      hread hn.low hn.high, if_pos rfl]
    exact congrArg _ (append_nil _)

/-- `fat32_find_free_dir_slot` on the root. -/
theorem freeSlot (hroot : c 2 ≠ []) :
    ∃ o d', Settles (fat32FindFreeDirSlot (std f) · d 2) (o, d') ∧
      ((o = none ∧ d' = d) ∨ ∃ c' A s B, o = some (s.entryCluster, s.entryIndex) ∧
        DirSlot f d d' c c' A s B) := by
  have hdata : ∀ n ∈ c 2, InData n := fun n hn => (h.inData hn).2.2
  cases hfind : (rootSlots f d c).find? fun s => direntFree s.entry with
  | some s =>
    obtain ⟨hfree, A, B, hS, hA⟩ := find?_eq_some_iff_append.mp hfind
    exact ⟨_, d, freeSlot_found (h.chain hroot) hdata hfind, .inr ⟨c, A, s, B, rfl, h, hS, hfree,
      fun x hx => by simpa using hA x hx, .refl, prefix_rfl, .inl ⟨rfl, rfl⟩⟩⟩
  | none =>
    have hfull : ∀ s ∈ rootSlots f d c, direntFree s.entry = false := fun s hs => by
      simpa using find?_eq_none.mp hfind s hs
    obtain ⟨l, last, hl⟩ := (eq_nil_or_concat' (c 2)).resolve_left hroot
    have hset := freeSlot_full (f := f) (hl ▸ h.chain hroot) (hl ▸ hdata)
      (fun s hs => hfull s (by rw [rootSlots, hl]; exact hs))
    rcases findFree_spec (f := f) h with h0 | hn
    · rw [extendDir, if_pos h0] at hset
      exact ⟨none, d, hset, .inl ⟨rfl, rfl⟩⟩
    · have hn0 : fat32FindFreeCluster (std f) d ≠ 0 := fun h0 => absurd (h0 ▸ hn.low) (by decide)
      rw [extendDir, if_neg hn0] at hset
      obtain ⟨hcells, hslots, hkept⟩ := h.hangRoot (f := f) hl hn
      have hhead : ∀ n, clusterSlots Buf.zero n = ⟨n, 0, Buf.zero⟩ ::
          (List.range 127).map fun i => ⟨n, i + 1, Buf.zero⟩ := by
        intro n
        rw [clusterSlots, range_succ_eq_map, map_cons, map_map, direntAt_zero]
        simp only [comp_def, direntAt_zero]
      rw [hhead] at hslots
      refine ⟨_, hangCell f d last (fat32FindFreeCluster (std f) d), hset, .inr ⟨_, rootSlots f d c, _, _, ?_,
        hcells, hslots, ?_, hfull, hkept, ?_, .inr ⟨rfl, fun x hx => ?_, fun a => ?_⟩⟩⟩
      · rfl
      · rfl
      · rw [update_self]
        exact prefix_append _ _
      · rcases mem_cons.mp hx with rfl | hx
        · rfl
        · obtain ⟨i, -, rfl⟩ := mem_map.mp hx
          rfl
      · by_cases ha : a = 2
        · subst ha
          rw [update_self]
          exact iff_of_true (by simp) hroot
        · rw [update_of_ne ha]

end

end Cells

/-- `fat32_create_dir_entry` in the root for a name that is not there. -/
theorem createDirEntry_settles (hv : fat32IsValidName name = true) (attr : UInt8)
    (hfind : Settles (fat32FindEntryInDir · (std f) d 2 name) none) {o : Option (Nat × Nat)}
    (hslot : Settles (fat32FindFreeDirSlot (std f) · d 2) (o, d')) :
    Settles (fat32CreateDirEntry · (std f) d 2 name attr n)
      (o.elim (-1, d') fun p => fat32WriteDirectoryEntry (std f) d' p.1 p.2 (newDirent name attr n)) := by
  have hguard : ¬ (!fat32IsValidName name) = true := by rw [hv]; decide
  cases o with
  | none => exact .neg hguard (hfind.bind (hslot.map _))
  | some _ => exact .neg hguard (hfind.bind (hslot.map _))

namespace NewChain

variable {d1 : Sectors} {c1 : Nat → List Nat} (h : NewChain f d c n d1 c1)
include h

/-- The data of the chain changes. -/
theorem refill (hcells : Cells d' c1) (hread : ∀ a, a ≠ n → ∀ m ∈ c1 a,
    fat32ReadDirectoryCluster (std f) d' m = fat32ReadDirectoryCluster (std f) d1 m) : NewChain f d c n d' c1 := by
  refine { h with cells := hcells, slots := ?_, kept := fun a ha hne => ?_ }
  · exact (slots_congr (hread 2 h.notRoot.symm)).trans h.slots
  · obtain ⟨hc, hdata⟩ := h.kept a ha hne
    exact ⟨hc, fun m hm => (hread a (fun heq => hne (heq ▸ h.old)) m (hc ▸ hm)).trans (hdata m hm)⟩

/-- The chain is given back. -/
theorem drop : ∃ d', Settles (fat32FreeClusterChain (std f) · d1 n) d' ∧ SameRoot f c d d' := by
  obtain ⟨d', hset, hcells, hslots, hdata⟩ := h.cells.drop (f := f) h.chain h.notRoot
  have hback : update c1 n [] = c := by
    funext a
    by_cases ha : a = n
    · rw [ha, update_self, h.old]
    · rw [update_of_ne ha, h.only a ha]
  rw [hback] at hcells hslots
  refine ⟨d', hset, hcells, hslots.trans h.slots, fun a ha hne => ⟨rfl, fun m hm => ?_⟩⟩
  obtain ⟨hc, hkept⟩ := h.kept a ha hne
  exact (hdata (hc.symm ▸ hm : m ∈ c1 a)).trans (hkept m hm)

theorem inv (hi : Inv f d c []) : Inv f d1 c1 [n] := by
  refine ⟨h.cells, h.only 2 h.notRoot.symm ▸ hi.root, ?_⟩
  rw [h.slots]
  refine hi.ok.rechain (fun s hs hl => ?_) fun a ha => ?_
  · obtain ⟨hne, h2, -⟩ := hi.ok.owned s hs hl
    rw [(h.kept _ h2 hne).1]
    exact ⟨hne, fun hm => hne (mem_singleton.mp hm ▸ h.old)⟩
  · by_cases han : a = n
    · exact .inr (mem_singleton.mpr han)
    · exact .inl (h.only a han ▸ ha)

end NewChain

theorem SameRoot.inv (h : SameRoot f c d d') (hi : Inv f d c E) : Inv f d' c E := ⟨h.cells, hi.root, h.slots ▸ hi.ok⟩

namespace DirSlot

variable {A B : List Lookup} (h : DirSlot f d d' c c' A s B)
include h

theorem used : ∀ x ∈ A, x.entry 0 ≠ 0 := by
  intro x hx h0
  have hfree := h.front x hx
  rw [direntFree, decide_eq_false_iff_not] at hfree
  exact hfree (.inl h0)

theorem inv (hi : Inv f d c E) : Inv f d' c' E := by
  obtain ⟨rfl, rfl⟩ | ⟨rfl, hzero, hchains⟩ := h.old
  · exact hi
  · refine ⟨h.cells, (hchains 2).mpr hi.root, ?_⟩
    rw [h.split]
    exact hi.ok.extend h.used hzero hchains

theorem found (dos : List UInt8) : search dos (rootSlots f d' c') = search dos (rootSlots f d c) := by
  obtain ⟨rfl, rfl⟩ | ⟨rfl, hzero, -⟩ := h.old
  · rfl
  · have hs : s.entry 0 = 0 := by
      rw [hzero s (.head _)]
      rfl
    rw [h.split]
    exact (search_congr_tail (rootSlots f d c) (search_zero hs)).trans (congrArg (search dos) (append_nil _))

end DirSlot

namespace Inv

theorem nodup (h : Inv f d c E) : (c 2).Nodup := h.cells.root_nodup h.root

/-- `fat32_find_entry_in_dir` on the root. -/
theorem find (h : Inv f d c E) (name : List UInt8) :
    Settles (fat32FindEntryInDir · (std f) d 2 name)
      (search (fat32MakeDosName name) (rootSlots f d c)) := by
  rw [← findLive_eq_search (fun s hs => (h.ok.attrs s hs).not_long) (rfl : longRun [] = [])]
  exact h.cells.find h.root name

/-- `fat32_create_dir_entry` in the root for a chain that no slot names: nothing
changes, or the entry is there and other names find what they found. -/
theorem createEntry (h : Inv f d c [n]) (hn : c n ≠ []) (hn2 : n ≠ 2) (name : List UInt8) {attr : UInt8}
    (hattr : attr = 0x10 ∨ attr = 0x20) :
    ∃ ret d', Settles (fat32CreateDirEntry · (std f) d 2 name attr n) (ret, d') ∧
      ((ret = -1 ∧ d' = d) ∨ (ret = 0 ∧ fat32IsValidName name = true ∧ ∃ c' s, Inv f d' c' [] ∧
        FilesKept f c d c' d' ∧ s.entry = entryBytes (newDirent name attr n) ∧
        search (fat32MakeDosName name) (rootSlots f d' c') = some s ∧
        ∀ dos, dos ≠ fat32MakeDosName name → search dos (rootSlots f d' c') = search dos (rootSlots f d c))) := by
  by_cases hv : fat32IsValidName name = true
  swap
  · refine ⟨-1, d, .congr (fun fuel => ?_) (.const _), .inl ⟨rfl, rfl⟩⟩
    rw [fat32CreateDirEntry, if_pos (by simpa using hv)]
  have hfind := h.find name
  cases hs : search (fat32MakeDosName name) (rootSlots f d c) with
  | some s =>
    rw [hs] at hfind
    exact ⟨-1, d, .neg (by rw [hv]; decide) (hfind.bind (.const _)), .inl ⟨rfl, rfl⟩⟩
  | none =>
    rw [hs] at hfind
    obtain ⟨o, d1, hslot, ⟨rfl, rfl⟩ | ⟨c1, A, s, B, rfl, hds⟩⟩ := h.cells.freeSlot (f := f) h.root
    · exact ⟨-1, d1, createDirEntry_settles hv attr hfind hslot, .inl ⟨rfl, rfl⟩⟩
    have hinv := hds.inv h
    obtain ⟨d2, hwrite, hcells, hslots, hkept⟩ := hds.cells.writeEntry hds.split (newDirent name attr n)
    have hset := createDirEntry_settles (n := n) hv attr hfind hslot
    rw [Option.elim_some, hwrite] at hset
    refine ⟨0, d2, hset, .inr ⟨rfl, hv, c1, ⟨s.entryCluster, s.entryIndex, entryBytes (newDirent name attr n)⟩,
      ?_⟩⟩
    have hok := hds.split ▸ hinv.ok
    have hc1 := (hds.kept n hn2 hn).1
    -- the slot was free and the new entry is live
    have hfree := hds.free
    rw [direntFree, decide_eq_true_iff] at hfree
    have hdead : ¬ s.Live := fun hl => hfree.elim hl.1 hl.2
    obtain ⟨hname, hstart, hattr', hlive⟩ := newDirent_slot hv hattr (h.cells.start_small hn)
      (s := ⟨s.entryCluster, s.entryIndex, entryBytes (newDirent name attr n)⟩) rfl
    have hnotA := slot_notMem hinv.nodup hds.split
    refine ⟨⟨hcells, hinv.root, ?_⟩, hds.kept.trans hkept, rfl, ?_, fun dos hdos => ?_⟩
    · rw [hslots]
      refine hok.replace hnotA hattr' hlive.1 hds.used (fun _ => ?_) (fun a ha _ => ha) nofun fun a ha => ?_
      · rw [hstart]
        exact ⟨hc1 ▸ hn, hn2, nofun, .inl (mem_singleton.mpr rfl)⟩
      · refine ⟨ha, fun hl => absurd hl hdead, fun hE => .inr ⟨hlive, ?_⟩⟩
        rw [mem_singleton.mp hE]
        exact hstart
    · have hnone := hds.found (fat32MakeDosName name)
      rw [hs, hds.split] at hnone
      rw [hslots, search_passed_append (passed_of_none hnone hds.used)]
      exact search_hit hlive.1 (hlive.not_skipped hattr') hname
    · rw [← hds.found dos, hds.split, hslots]
      refine search_congr_tail A ?_
      rw [search_passed ⟨hlive.1, .inr (by rw [hname]; exact hdos.symm)⟩]
      -- the old slot was passed over, or the search ended there
      by_cases h0 : s.entry 0 = 0
      · rw [search_zero h0, hok.search_behind h0]
      · rw [search_passed ⟨h0, .inl ?_⟩]
        rw [(hok.attrs s (mem_append_right _ (.head _))).skipped, decide_eq_true_iff]
        exact hfree.resolve_left h0

end Inv

end

end LiwusOS.Fat
