import LiwusOS.Mm.MapOne
import LiwusOS.Mm.UserMemory

/-! # Mapping and unmapping ranges of pages

The loops of the memory system calls map or unmap one page after another. What
a loop does to a page outside its range follows from what one step does: the
levels of that page are touched once for each page of the range. -/

namespace LiwusOS.Mm
open LiwusOS.Lib List

/-! ## Levels touched many times -/

/-- The levels of the page at `q` after the pages at `S` are mapped in turn. -/
def touchedAll (fl : BitVec 64) (q : List (Fin 512)) (S : List (List (Fin 512))) (ls : List (BitVec 12)) :
    List (BitVec 12) := S.foldl (fun ls r => touched fl r q ls) ls

section Levels
variable {fl : BitVec 64} {q r : List (Fin 512)} {S : List (List (Fin 512))} {ls : List (BitVec 12)}

theorem touched_ne_nil (h : ls ≠ []) : touched fl r q ls ≠ [] := by
  fun_cases touched fl r q ls <;> simp_all

/-- A page that is closed to user mode stays closed when each page of the range
leaves a closed level. -/
theorem touchedAll_user_iff (S : List (List (Fin 512))) (ls : List (BitVec 12)) (hfl : fl.getLsbD 2 = true) (k : Nat) :
    ((touchedAll fl q S ls).drop k).all (·.getLsbD 2) = false ↔
      (∃ l ∈ ls.drop k, l.getLsbD 2 = false) ∧ ∀ r ∈ S, ∃ l ∈ ls.drop (shared r q), l.getLsbD 2 = false := by
  induction S generalizing ls with
  | nil => simp only [touchedAll, foldl_nil, all_eq_false_iff, not_mem_nil, false_implies,
      implies_true, and_true]
  | cons r S ih =>
    have hmono : ∀ {a b}, a ≤ b → (∃ l ∈ ls.drop b, l.getLsbD 2 = false) →
        ∃ l ∈ ls.drop a, l.getLsbD 2 = false :=
      fun hab ⟨l, hl, h⟩ => ⟨l, (drop_sublist_drop_left ls hab).subset hl, h⟩
    have hmax : ∀ a b, (∃ l ∈ ls.drop (max a b), l.getLsbD 2 = false) ↔
        (∃ l ∈ ls.drop a, l.getLsbD 2 = false) ∧ ∃ l ∈ ls.drop b, l.getLsbD 2 = false := by
      intro a b
      refine ⟨fun h => ⟨hmono (Nat.le_max_left a b) h, hmono (Nat.le_max_right a b) h⟩, fun ⟨ha, hb⟩ => ?_⟩
      rcases Nat.le_total a b with hab | hab
      · rwa [Nat.max_eq_right hab]
      · rwa [Nat.max_eq_left hab]
    rw [touchedAll, foldl_cons, ← touchedAll, ih]
    simp only [forall_mem_cons, ← all_eq_false_iff, touched_drop_user hfl]
    simp only [all_eq_false_iff, hmax]
    exact ⟨fun ⟨⟨h1, h2⟩, h3⟩ => ⟨h1, h2, fun r' hr' => (h3 r' hr').1⟩,
      fun ⟨h1, h2, h3⟩ => ⟨⟨h1, h2⟩, fun r' hr' => ⟨h3 r' hr', h2⟩⟩⟩

/-- A page that is open to user mode stays open. -/
theorem touchedAll_user (hfl : fl.getLsbD 2 = true) (h : ls.all (·.getLsbD 2) = true) :
    (touchedAll fl q S ls).all (·.getLsbD 2) = true := by
  by_contra hn
  have hclosed := (touchedAll_user_iff S ls hfl 0).mp (by simpa using hn)
  rw [drop_zero, ← all_eq_false_iff, h] at hclosed
  cases hclosed.1

theorem shared_lt_self (r q : List (Fin 512)) (h : r ≠ []) : shared r q < r.length := by
  fun_induction shared r q with
  | case1 i' r j q ih =>
    have := ih (cons_ne_nil _ _)
    simp only [length_cons] at this ⊢
    omega
  | case2 => simp
  | case3 => exact length_pos_iff.mpr h

theorem touchedAll_cons : touchedAll fl q (r :: S) ls = touchedAll fl q S (touched fl r q ls) := rfl

theorem touchedAll_map_write (hls : ls ≠ []) (h : ∀ r ∈ S, shared r q < ls.length) :
    (touchedAll fl q S ls).map (·.getLsbD 1) = ls.map (·.getLsbD 1) := by
  induction S generalizing ls with
  | nil => rfl
  | cons r S ih =>
    obtain ⟨hr, hS⟩ := forall_mem_cons.mp h
    have hmap := touched_map_write fl r q hls
    rw [if_pos hr] at hmap
    have hlen : (touched fl r q ls).length = ls.length := by simpa using congrArg List.length hmap
    rw [touchedAll_cons, ih (touched_ne_nil hls) (by rwa [hlen]), hmap]

end Levels

/-! ## Loops -/

/-- The state of a loop that has mapped the pages at `S` of the current space. -/
structure MapsRange (fl : BitVec 64) (vm vm' : Vm) (S : List (List (Fin 512))) : Prop where
  ready : vm'.heap.Ready
  directory : vm'.currentDirectory = vm.currentDirectory
  space : vm'.Space vm.currentDirectory.pml4
  other : ∀ q, q.length = 4 → q ∉ S → translate vm'.table vm.currentDirectory.pml4 q =
    (translate vm.table vm.currentDirectory.pml4 q).map fun a => { a with levels := touchedAll fl q S a.levels }
  /-- The tables on the way to the pages are there. -/
  tables : ∀ p, p.length < 4 → ((tableAt vm'.table vm.currentDirectory.pml4 p).isSome ↔
    (tableAt vm.table vm.currentDirectory.pml4 p).isSome ∨ ∃ r ∈ S, p <+: r)

section Loops
variable {fl : BitVec 64} {vm vm' vm'' : Vm} {S S' : List (List (Fin 512))}

theorem MapsRange.nil (hk : vm.Ready) : MapsRange fl vm vm [] where
  ready := hk.heap
  directory := rfl
  space := hk.space
  other q _ _ := by simp [touchedAll]
  tables p _ := by simp

theorem MapsRange.ok (h : MapsRange fl vm vm' S) : vm'.Ready := ⟨h.ready, h.directory ▸ h.space⟩

/-- Taking a frame changes no table. -/
theorem MapsRange.allocFrame (fl : BitVec 64) (hk : vm.Ready) : MapsRange fl vm vm.allocFrame.2 [] where
  ready := ⟨hk.heap.started, hk.heap.bound, hk.heap.memory⟩
  directory := rfl
  space := ⟨hk.space.tree, hk.space.plain, hk.space.below⟩
  other q _ _ := by simp [touchedAll, Vm.allocFrame]
  tables p _ := by simp [Vm.allocFrame]

theorem MapsRange.append (h : MapsRange fl vm vm' S) (h' : MapsRange fl vm' vm'' S') :
    MapsRange fl vm vm'' (S ++ S') where
  ready := h'.ready
  directory := h'.directory.trans h.directory
  space := h.directory ▸ h'.space
  other q hq hn := by
    rw [mem_append, not_or] at hn
    have h2 := h'.other q hq hn.2
    rw [h.directory] at h2
    rw [h2, h.other q hq hn.1, Option.map_map]
    refine Option.map_congr fun a _ => ?_
    simp [touchedAll]
  tables p hp := by
    have h2 := h'.tables p hp
    rw [h.directory] at h2
    simp only [h2, h.tables p hp, mem_append, or_and_right, exists_or, or_assoc]

/-! ### Missing tables -/

/-- The page tables that are missing on the way to the pages at `S`, by their paths. -/
def missingTables (m : Tables) (t : Nat) (S : List (List (Fin 512))) : Finset (List (Fin 512)) :=
  (S.flatMap fun q => [q.take 1, q.take 2, q.take 3]).toFinset.filter fun p => tableAt m t p = none

/-- How many are missing in the current space. -/
def Vm.missing (vm : Vm) (S : List (List (Fin 512))) : Nat :=
  (missingTables vm.table vm.currentDirectory.pml4 S).card

theorem mem_missingTables {m : Tables} {t : Nat} {p : List (Fin 512)} (hS : ∀ r ∈ S, r.length = 4) :
    p ∈ missingTables m t S ↔ (∃ r ∈ S, p <+: r) ∧ p.length < 4 ∧ tableAt m t p = none := by
  simp only [missingTables, Finset.mem_filter, mem_toFinset, mem_flatMap, mem_cons, not_mem_nil, or_false]
  constructor
  · rintro ⟨⟨r, hr, h⟩, hnone⟩
    have hlen := hS r hr
    rcases h with rfl | rfl | rfl <;>
      exact ⟨⟨r, hr, take_prefix _ _⟩, by rw [length_take]; omega, hnone⟩
  · rintro ⟨⟨r, hr, hp⟩, hlen, hnone⟩
    refine ⟨⟨r, hr, ?_⟩, hnone⟩
    have hne : p.length ≠ 0 := fun h0 => by
      rw [eq_nil_of_length_eq_zero h0] at hnone
      cases hnone
    rw [prefix_iff_eq_take.mp hp]
    have hcases : p.length = 1 ∨ p.length = 2 ∨ p.length = 3 := by omega
    rcases hcases with h | h | h <;> simp [h]

theorem missing_one (vm : Vm) (v : Nat) :
    vm.missing [pagePath v] = missingOn vm.table vm.currentDirectory.pml4 (pagePath v) := by
  simp only [Vm.missing, missingTables, pagePath, flatMap_singleton, take_succ_cons, take_zero, missingOn]
  cases h1 : (vm.table vm.currentDirectory.pml4 (vaddrPml4i v)).child with
  | none => simp [Finset.filter_insert, Finset.filter_singleton, tableAt, h1]
  | some t₁ =>
    cases h2 : (vm.table t₁ (vaddrPdpi v)).child with
    | none => simp [Finset.filter_insert, Finset.filter_singleton, tableAt, h1, h2]
    | some t₂ =>
      cases h3 : (vm.table t₂ (vaddrPdi v)).child with
      | none => simp [Finset.filter_insert, Finset.filter_singleton, tableAt, h1, h2, h3]
      | some t₃ => simp [Finset.filter_insert, Finset.filter_singleton, tableAt, h1, h2, h3]

/-- A table that is missing for both parts is made for the first. -/
theorem MapsRange.missing_append (h : MapsRange fl vm vm' S) (hS : ∀ r ∈ S, r.length = 4)
    (hS' : ∀ r ∈ S', r.length = 4) : vm.missing (S ++ S') = vm.missing S + vm'.missing S' := by
  have hboth : ∀ r ∈ S ++ S', r.length = 4 := fun r hr => (mem_append.mp hr).elim (hS r) (hS' r)
  have hnone : ∀ p, p.length < 4 → (tableAt vm'.table vm.currentDirectory.pml4 p = none ↔
      tableAt vm.table vm.currentDirectory.pml4 p = none ∧ ¬ ∃ r ∈ S, p <+: r) := by
    intro p hp
    rw [← Option.not_isSome_iff_eq_none, ← Option.not_isSome_iff_eq_none, h.tables p hp, not_or]
  unfold Vm.missing
  rw [h.directory, ← Finset.card_union_of_disjoint]
  · congr 1
    ext p
    rw [Finset.mem_union, mem_missingTables hboth, mem_missingTables hS, mem_missingTables hS']
    have hsplit : (∃ r ∈ S ++ S', p <+: r) ↔ (∃ r ∈ S, p <+: r) ∨ ∃ r ∈ S', p <+: r := by
      simp only [mem_append, or_and_right, exists_or]
    rw [hsplit]
    by_cases hp : p.length < 4
    · rw [hnone p hp]
      by_cases hr : ∃ r ∈ S, p <+: r
      · simp only [hr, true_or, true_and, not_true_eq_false, and_false, or_false]
      · simp only [hr, false_or, false_and, not_false_eq_true, and_true]
    · simp only [hp, false_and, and_false, or_false]
  · refine Finset.disjoint_left.mpr fun p hp hp' => ?_
    obtain ⟨hr, hlen, -⟩ := (mem_missingTables hS).mp hp
    exact ((hnone p hlen).mp ((mem_missingTables hS').mp hp').2.2).2 hr

theorem Vm.missing_mono {vm : Vm} (h : S ⊆ S') : vm.missing S ≤ vm.missing S' := by
  refine Finset.card_le_card fun p hp => ?_
  simp only [missingTables, Finset.mem_filter, mem_toFinset, mem_flatMap] at hp ⊢
  obtain ⟨⟨r, hr, hp⟩, hnone⟩ := hp
  exact ⟨⟨r, h hr, hp⟩, hnone⟩

/-- A frame is mapped and cleared. -/
theorem mapCleared_maps {frame virt : Nat} (hfl : fl ≠ 0) (hk : vm.Ready) (h : mapCleared vm frame virt fl = some vm') :
    MapsRange fl vm vm' [pagePath virt] ∧ Spent vm.heap vm'.heap (vm.missing [pagePath virt]) [] := by
  obtain ⟨vm₁, hmap, rfl⟩ := Option.map_eq_some_iff.mp h
  obtain ⟨hspent, hsame, hm⟩ := vmmMapPage_mapped hfl hk hmap
  have hdir : vm₁.currentDirectory = vm.currentDirectory := by rw [hsame]
  refine ⟨⟨hspent.ready, hdir, ⟨hm.tree, hm.plain, hm.bound⟩, fun q hq hn => ?_, fun p hp => ?_⟩, ?_⟩
  · exact hm.other q hq fun h => hn (mem_singleton.mpr h)
  · simpa using hm.tables p hp
  · rw [missing_one]
    exact hspent

/-! ### Ranges -/

/-- The pages `i`, ..., `k - 1` of a region. -/
def regionPages (base i k : Nat) : List (List (Fin 512)) :=
  (List.range' i (k - i)).map fun j => pagePath (pageAddr base j)

theorem regionPages_snoc (base n : Nat) :
    regionPages base 0 (n + 1) = regionPages base 0 n ++ [pagePath (pageAddr base n)] := by
  simp [regionPages, range'_concat]

theorem mmapLoop_succ (vm : Vm) (base : Nat) (fl : BitVec 64) (n i : Nat) : mmapLoop vm base fl (n + 1) i =
    if vm.allocFrame.1 = 0 then some (i, vm.allocFrame.2) else
      (mapCleared vm.allocFrame.2 vm.allocFrame.1 (pageAddr base i) fl).bind fun vm =>
        mmapLoop vm base fl n (i + 1) := rfl

/-- The state of a loop that has unmapped the pages at `S`. -/
structure UnmapsRange (vm vm' : Vm) (S : List (List (Fin 512))) : Prop where
  length : ∀ q ∈ S, q.length = 4
  ready : vm'.heap.Ready
  directory : vm'.currentDirectory = vm.currentDirectory
  space : vm'.Space vm.currentDirectory.pml4
  other : ∀ q, q.length = 4 → q ∉ S →
    translate vm'.table vm.currentDirectory.pml4 q = translate vm.table vm.currentDirectory.pml4 q
  /-- The pages inside 2 MB pages stay. -/
  hit : ∀ q ∈ S, translate vm'.table vm.currentDirectory.pml4 q =
    (translate vm.table vm.currentDirectory.pml4 q).filter fun a => a.levels.length != 4

theorem UnmapsRange.nil (hk : vm.Ready) : UnmapsRange vm vm [] :=
  ⟨nofun, hk.heap, rfl, hk.space, fun _ _ _ => rfl, nofun⟩

theorem UnmapsRange.ok (h : UnmapsRange vm vm' S) : vm'.Ready := ⟨h.ready, h.directory ▸ h.space⟩

/-- One more page. -/
theorem UnmapsRange.snoc (h : UnmapsRange vm vm' S) (virt : Nat) :
    UnmapsRange vm (vmmUnmapPage vm' virt).2 (S ++ [pagePath virt]) := by
  have hlength : ∀ q ∈ S ++ [pagePath virt], q.length = 4 := by
    intro q hq
    rcases mem_append.mp hq with hq | hq
    · exact h.length q hq
    · rw [mem_singleton.mp hq]
      rfl
  have hroot := h.directory
  rcases vmmUnmapPage_cases virt h.ok with ⟨hno, heq⟩ | ⟨vm₂, heq, hun⟩
  · rw [heq]
    rw [hroot] at hno
    refine ⟨hlength, h.ready, hroot, h.space, fun q hq hn => h.other q hq fun hm => hn (mem_append_left _ hm), ?_⟩
    intro q hq
    by_cases hm : q ∈ S
    · exact h.hit q hm
    · obtain rfl : q = pagePath virt := by simpa [hm] using hq
      rw [h.other _ rfl hm] at hno ⊢
      cases ha : translate vm.table vm.currentDirectory.pml4 (pagePath virt) with
      | none => rfl
      | some a => simp [Option.filter, hno a ha]
  · rw [heq]
    obtain ⟨hready, hsame, htop⟩ := hun.heap h.ready
    have hdir : vm₂.currentDirectory = vm.currentDirectory := by rw [hsame]; exact hroot
    have hm := hun.mapped
    have hother := fun q hq hne => hun.other (q := q) hq hne
    obtain ⟨a, ha, hlen, -⟩ := hun.page
    rw [hroot] at hm hother ha
    refine ⟨hlength, hready, hdir, ⟨hm.tree, hm.plain, htop ▸ hm.bound⟩, fun q hq hn => ?_, fun q hq => ?_⟩
    · rw [mem_append, mem_singleton, not_or] at hn
      rw [hother q hq hn.2, h.other q hq hn.1]
    · by_cases hq0 : q = pagePath virt
      · subst hq0
        rw [hm.hit]
        -- the page was mapped, so it was not unmapped before
        by_cases hmem : pagePath virt ∈ S
        · rw [h.hit _ hmem, Option.filter_eq_some_iff] at ha
          exact absurd hlen (by simpa using ha.2)
        · rw [h.other _ rfl hmem] at ha
          simp [ha, hlen, leafMapping, Pte.present_zero, Option.filter]
      · have hmem : q ∈ S := by simpa [hq0] using hq
        rw [hother q (h.length q hmem) hq0, h.hit q hmem]

theorem unmapLoop_unmapsRange (base n : Nat) (hk : vm.Ready) :
    UnmapsRange vm (unmapLoop vm base n) (regionPages base 0 n) := by
  induction n with
  | zero => exact .nil hk
  | succ n ih =>
    rw [regionPages_snoc]
    exact ih.snoc _

end Loops
end LiwusOS.Mm
