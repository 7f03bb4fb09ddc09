import LiwusOS.Mm.BootSpace

/-! # One page at a time

When does `vmm_map_page` change the page it is given and no other? The entries
on the way to a page are shared. Opening them to user mode opens every page
below that was kept from user mode by them alone, and cutting up a 2 MB page
gives its other pages the new page's permissions. -/

namespace LiwusOS.Mm
open LiwusOS.Lib List

variable {ls : List (BitVec 12)} {q r : List (Fin 512)}

/-- The page at `r` is mapped to `phys` with the flags `fl`, and the other
pages have the frame and the permissions they had. -/
structure MapsOne (m m' : Tables) (root phys : Nat) (r : List (Fin 512)) (fl : BitVec 64) : Prop where
  page : ∃ a, translate m' root r = some a ∧ a.frame = phys / 4096 ∧
    a.levels.getLast?.map (BitVec.setWidth 64) = some (fl ||| 1) ∧
    a.write = fl.getLsbD 1 ∧ a.user = fl.getLsbD 2
  others : ∀ q, q.length = r.length → q ≠ r →
    (translate m' root q).map Mapping.access = (translate m root q).map Mapping.access

/-- The state and the arguments for which only one page changes. -/
structure MapsAlone (m : Tables) (root : Nat) (r : List (Fin 512)) (fl : BitVec 64) : Prop where
  /-- No flag above bit 11 is asked for, such as `PTE_NX`. -/
  low : fl &&& 0xFFF = fl
  /-- Nothing on the way forbids writing. -/
  writable : fl.getLsbD 1 = true → ∀ l ∈ keptFlags m root r, l.getLsbD 1 = true
  /-- A page that is closed to user mode is not closed by the shared entries alone. -/
  hidden : fl.getLsbD 2 = true → ∀ q a, q.length = r.length → q ≠ r → translate m root q = some a →
    a.user = false → ∃ l ∈ a.levels.drop (shared r q), l.getLsbD 2 = false
  /-- A 2 MB page around the page has the permissions asked for. -/
  large : ∀ q a, q.length = r.length → q ≠ r → translate m root q = some a →
    a.levels.length ≤ shared r q →
      (fl.getLsbD 2 = false → a.user = false) ∧
      (fl.getLsbD 1 = true → a.write = false → ∃ l ∈ a.levels.dropLast, l.getLsbD 1 = false)

section Levels
variable {fl : BitVec 64}

theorem openedFlags_eq (fl : BitVec 64) (m : Tables) (t : Nat) (r : List (Fin 512)) : ∃ k,
    openedFlags fl m t r = (keptFlags m t r).map (raise fl) ++ List.replicate k (allocFlags fl) := by
  induction r generalizing t with
  | nil => exact ⟨0, rfl⟩
  | cons i r ih =>
    cases r with
    | nil => exact ⟨0, rfl⟩
    | cons j r =>
      simp only [openedFlags, keptFlags]
      split
      · obtain ⟨k, hk⟩ := ih (m t i).frame
        exact ⟨k, by rw [hk]; rfl⟩
      · exact ⟨r.length + 1, rfl⟩

/-- Where nothing is shared, `touched` changes nothing. -/
theorem shared_eq_zero (hne : ls ≠ [])
    (h : ∀ i i' r' j q' l ls', r = i :: i' :: r' → q = j :: q' → ls = l :: ls' → False) : shared r q = 0 := by
  match r, q, ls with
  | [], _, _ | [_], _, _ | _ :: _ :: _, [], _ => simp [shared]
  | _ :: _ :: _, _ :: _, [] => exact absurd rfl hne
  | i :: i' :: r, j :: q, l :: ls => exact (h i i' r j q l ls rfl rfl rfl).elim

/-- With `PTE_U` asked for, what counts from level `k` on is what lies below both
`k` and the shared levels. -/
theorem touched_drop_user (hfl : fl.getLsbD 2 = true) (r q : List (Fin 512)) (ls : List (BitVec 12)) (k : Nat) :
    ((touched fl r q ls).drop k).all (·.getLsbD 2) = (ls.drop (max k (shared r q))).all (·.getLsbD 2) := by
  fun_induction touched fl r q ls generalizing k with
  | case1 i' r i q l =>
    have hall : ([allocFlags fl, splitFlags fl l].drop k).all (·.getLsbD 2) = true := by
      refine all_eq_true.mpr fun x hx => ?_
      have hx := mem_of_mem_drop hx
      simp only [mem_cons, not_mem_nil, or_false] at hx
      rcases hx with rfl | rfl
      · rw [allocFlags_user, hfl]
      · rw [splitFlags_user, hfl, Bool.or_true]
    rw [hall, drop_eq_nil_of_le (by rw [shared, if_pos rfl, length_singleton]; omega), all_nil]
  | case2 i' r i q l ls hne ih =>
    rw [shared, if_pos rfl]
    cases k with
    | zero =>
      have h0 := ih 0
      simp only [drop_zero] at h0 ⊢
      rw [all_cons, raise_user, hfl, Bool.or_true, Bool.true_and, h0, Nat.zero_max, Nat.zero_max,
        drop_succ_cons]
    | succ k => rw [drop_succ_cons, ih k, Nat.succ_max_succ, drop_succ_cons]
  | case3 i i' r j q l ls hij => rw [shared, if_neg hij, Nat.max_zero]
  | case4 r q ls h =>
    by_cases hls : ls = []
    · simp [hls]
    · rw [shared_eq_zero hls h, Nat.max_zero]

/-- The shared levels no longer count. -/
theorem touched_user (hfl : fl.getLsbD 2 = true) :
    (touched fl r q ls).all (·.getLsbD 2) = (ls.drop (shared r q)).all (·.getLsbD 2) := by
  simpa using touched_drop_user hfl r q ls 0

/-- Without `PTE_U`, only the pages of a 2 MB page that is cut up change: they
are closed to user mode. -/
theorem touched_closed (hfl : fl.getLsbD 2 = false) (hls : ls ≠ []) :
    (touched fl r q ls).all (·.getLsbD 2) =
      (decide (shared r q < ls.length) && ls.all (·.getLsbD 2)) := by
  fun_induction touched fl r q ls with
  | case1 i' r i q l =>
    have hle : ¬ shared (i :: i' :: r) (i :: q) < [l].length := by simp [shared]
    simp only [all_cons, allocFlags_user, hfl, Bool.false_and, decide_eq_false hle]
  | case2 i' r i q l ls hne ih =>
    simp only [shared, ↓reduceIte, all_cons, raise_user, hfl, Bool.or_false, length_cons,
      Nat.add_lt_add_iff_right, ih hne, Bool.and_left_comm]
  | case3 i i' r j q l ls hij => simp [shared, hij]
  | case4 r q ls h => simp [shared_eq_zero hls h, length_pos_iff.mpr hls]

/-- The write bits stay, unless the page's own 2 MB page is cut up. -/
theorem touched_map_write (fl : BitVec 64) (r q : List (Fin 512)) (hls : ls ≠ []) :
    (touched fl r q ls).map (·.getLsbD 1) =
    if shared r q < ls.length then ls.map (·.getLsbD 1)
    else ls.dropLast.map (·.getLsbD 1) ++ [true, (ls.getLast hls).getLsbD 1 || fl.getLsbD 1] := by
  fun_induction touched fl r q ls with
  | case1 i' r i q l =>
    have hle : ¬ shared (i :: i' :: r) (i :: q) < [l].length := by simp [shared]
    rw [if_neg hle]
    simp only [map_cons, map_nil, allocFlags_write, splitFlags_write, dropLast_singleton,
      nil_append, getLast_singleton]
  | case2 i' r i q l ls hne ih =>
    simp only [shared, ↓reduceIte, map_cons, raise_write, length_cons, Nat.add_lt_add_iff_right,
      ih hne, dropLast_cons_of_ne_nil hne, getLast_cons hne]
    split <;> rfl
  | case3 i i' r j q l ls hij => simp [shared, hij]
  | case4 r q ls h => rw [shared_eq_zero hls h, if_pos (length_pos_iff.mpr hls)]

theorem all_write_eq (ls : List (BitVec 12)) : ls.all (·.getLsbD 1) = (ls.map (·.getLsbD 1)).all id := by
  rw [all_map]
  rfl

theorem all_dropLast_getLast (hls : ls ≠ []) :
    ls.all (·.getLsbD 1) = (ls.dropLast.all (·.getLsbD 1) && (ls.getLast hls).getLsbD 1) := by
  conv_lhs => rw [← dropLast_append_getLast hls]
  rw [all_append, all_cons, all_nil, Bool.and_true]

theorem touched_write (hls : ls ≠ []) :
    (touched fl r q ls).all (·.getLsbD 1) =
      if shared r q < ls.length then ls.all (·.getLsbD 1)
      else ls.dropLast.all (·.getLsbD 1) && ((ls.getLast hls).getLsbD 1 || fl.getLsbD 1) := by
  rw [all_write_eq, touched_map_write fl r q hls, all_write_eq, all_write_eq]
  split
  · rfl
  · simp

theorem all_eq_false_iff {k : Nat} : ls.all (·.getLsbD k) = false ↔ ∃ l ∈ ls, l.getLsbD k = false := by
  simp only [all_eq_false, Bool.not_eq_true]

theorem opened_write (m : Tables) (t : Nat) (r : List (Fin 512)) :
    (openedFlags fl m t r).all (·.getLsbD 1) = (keptFlags m t r).all (·.getLsbD 1) := by
  obtain ⟨k, hk⟩ := openedFlags_eq fl m t r
  rw [hk, all_append, all_map, all_replicate]
  simp only [Function.comp_def, raise_write, allocFlags_write, ite_self, Bool.and_true]

theorem opened_user (hfl : fl.getLsbD 2 = true) (m : Tables) (t : Nat) (r : List (Fin 512)) :
    (openedFlags fl m t r).all (·.getLsbD 2) = true := by
  obtain ⟨k, hk⟩ := openedFlags_eq fl m t r
  rw [hk, all_append, all_map, all_replicate]
  simp only [Function.comp_def, raise_user, allocFlags_user, hfl, Bool.or_true, ite_self, Bool.and_true]
  exact all_eq_true.mpr fun _ _ => rfl

theorem getLsbD_lowMask (k : Nat) : (0xFFF : BitVec 64).getLsbD k = decide (k < 12) := by
  have hmask : (0xFFF : BitVec 64) = BitVec.ofNat 64 (2 ^ 12 - 1) := rfl
  rw [hmask, BitVec.getLsbD_ofNat, Nat.testBit_two_pow_sub_one, ← Bool.decide_and]
  congr 1
  rw [eq_iff_iff]
  omega

/-- The entry has the flags, read as a word, unless one above bit 11 is lost. -/
theorem leafEntry_flags_iff (phys : Nat) : (leafEntry phys fl).flags.setWidth 64 = fl ||| 1 ↔ fl &&& 0xFFF = fl := by
  have h64 : ∀ k, (1 : BitVec 64).getLsbD k = decide (k = 0) := by simp [BitVec.getLsbD_one]
  have hword : (leafEntry phys fl).flags.setWidth 64 = (fl &&& 0xFFF) ||| 1 := by
    refine BitVec.eq_of_getLsbD_eq fun k hk => ?_
    have h12 : pteP.getLsbD k = decide (k = 0) := by simp [pteP, BitVec.getLsbD_one]
    simp only [leafEntry, BitVec.getLsbD_setWidth, BitVec.getLsbD_or, BitVec.getLsbD_and, getLsbD_lowMask,
      h64, h12, hk, decide_true, Bool.true_and, Bool.and_comm]
  rw [hword]
  constructor
  · intro h
    refine BitVec.eq_of_getLsbD_eq fun k hk => ?_
    have hbit := congrArg (BitVec.getLsbD · k) h
    simp only [BitVec.getLsbD_or, BitVec.getLsbD_and, getLsbD_lowMask, h64] at hbit ⊢
    by_cases h0 : k = 0
    · simp [h0]
    · simpa only [h0, decide_false, Bool.or_false] using hbit
  · intro h
    rw [h]

/-- The page itself is as asked for. -/
theorem mapped_page_iff (phys : Nat) {root : Nat} {m : Tables} :
    ((some ((leafEntry phys fl).flags.setWidth 64) = some (fl ||| 1)) ∧
      (openedFlags fl m root r ++ [(leafEntry phys fl).flags]).all (·.getLsbD 1) = fl.getLsbD 1 ∧
      (openedFlags fl m root r ++ [(leafEntry phys fl).flags]).all (·.getLsbD 2) = fl.getLsbD 2) ↔
    fl &&& 0xFFF = fl ∧ (fl.getLsbD 1 = true → ∀ l ∈ keptFlags m root r, l.getLsbD 1 = true) := by
  have hW : (leafEntry phys fl).flags.getLsbD 1 = fl.getLsbD 1 := by simp [leafEntry, pteP]
  have hU : (leafEntry phys fl).flags.getLsbD 2 = fl.getLsbD 2 := by simp [leafEntry, pteP]
  rw [Option.some.injEq, leafEntry_flags_iff, all_append, all_append, opened_write]
  simp only [all_cons, all_nil, Bool.and_true, hW, hU]
  refine and_congr_right fun _ => ?_
  have huser : ((openedFlags fl m root r).all (·.getLsbD 2) && fl.getLsbD 2) = fl.getLsbD 2 := by
    cases hfl : fl.getLsbD 2 with
    | true => rw [opened_user hfl, Bool.and_self]
    | false => rw [Bool.and_false]
  rw [and_iff_left huser, ← all_eq_true]
  cases fl.getLsbD 1 <;> simp

/-- Another page keeps its permissions. -/
theorem touched_access_iff {a : Mapping} (ha : a.levels ≠ []) :
    ({ a with levels := touched fl r q a.levels } : Mapping).access = a.access ↔
      (fl.getLsbD 2 = true → a.user = false → ∃ l ∈ a.levels.drop (shared r q), l.getLsbD 2 = false) ∧
      (a.levels.length ≤ shared r q → (fl.getLsbD 2 = false → a.user = false) ∧
        (fl.getLsbD 1 = true → a.write = false → ∃ l ∈ a.levels.dropLast, l.getLsbD 1 = false)) := by
  have huser : (touched fl r q a.levels).all (·.getLsbD 2) = a.user ↔
      (fl.getLsbD 2 = true → a.user = false → ∃ l ∈ a.levels.drop (shared r q), l.getLsbD 2 = false) ∧
      (a.levels.length ≤ shared r q → fl.getLsbD 2 = false → a.user = false) := by
    cases hfl : fl.getLsbD 2 with
    | true =>
      rw [touched_user hfl, ← all_eq_false_iff]
      have hdrop : a.user = true → (a.levels.drop (shared r q)).all (·.getLsbD 2) = true := fun h =>
        all_eq_true.mpr fun l hl => all_eq_true.mp h l (mem_of_mem_drop hl)
      cases hu : a.user <;> simp_all
    | false =>
      rw [touched_closed hfl ha, ← Nat.not_lt]
      change (_ && a.user) = _ ↔ _
      by_cases hlt : shared r q < a.levels.length <;> cases a.user <;> simp_all
  have hwrite : (touched fl r q a.levels).all (·.getLsbD 1) = a.write ↔
      (a.levels.length ≤ shared r q → fl.getLsbD 1 = true → a.write = false →
        ∃ l ∈ a.levels.dropLast, l.getLsbD 1 = false) := by
    have hlast : a.write = (a.levels.dropLast.all (·.getLsbD 1) && (a.levels.getLast ha).getLsbD 1) :=
      all_dropLast_getLast ha
    rw [touched_write ha, ← all_eq_false_iff, ← Nat.not_lt]
    split
    · simp_all [Mapping.write]
    · rw [hlast]
      cases a.levels.dropLast.all (·.getLsbD 1) <;> cases (a.levels.getLast ha).getLsbD 1 <;>
        cases fl.getLsbD 1 <;> simp_all
  rw [Mapping.access, Mapping.access, Prod.mk.injEq, Prod.mk.injEq, and_iff_right rfl, Mapping.write,
    Mapping.user, hwrite, huser]
  constructor
  · exact fun ⟨h1, h2, h3⟩ => ⟨h2, fun hle => ⟨h3 hle, h1 hle⟩⟩
  · exact fun ⟨h1, h2⟩ => ⟨fun hle => (h2 hle).2, h1, fun hle => (h2 hle).1⟩

end Levels

/-- `vmm_map_page` changes one page exactly for the states and arguments of
`MapsAlone`. -/
theorem mapsOne_iff_mapsAlone {vm vm' : Vm} {phys virt : Nat} {fl : BitVec 64} (hfl : fl ≠ 0)
    (hk : vm.heap.Ready) (hs : vm.Space vm.currentDirectory.pml4) (h : vmmMapPage vm phys virt fl = some vm') :
    MapsOne vm.table vm'.table vm.currentDirectory.pml4 phys (pagePath virt) fl ↔
      MapsAlone vm.table vm.currentDirectory.pml4 (pagePath virt) fl := by
  obtain ⟨-, -, hm⟩ := vmmMapPage_mapped hfl ⟨hk, hs⟩ h
  generalize vm.currentDirectory.pml4 = root at hm ⊢
  generalize pagePath virt = r at hm ⊢
  have hpage : (∃ a, translate vm'.table root r = some a ∧ a.frame = phys / 4096 ∧
      a.levels.getLast?.map (BitVec.setWidth 64) = some (fl ||| 1) ∧
      a.write = fl.getLsbD 1 ∧ a.user = fl.getLsbD 2) ↔
      fl &&& 0xFFF = fl ∧ (fl.getLsbD 1 = true → ∀ l ∈ keptFlags vm.table root r, l.getLsbD 1 = true) := by
    rw [hm.hit, leafMapping, if_pos (leafEntry_present phys fl), ← mapped_page_iff phys]
    simp [leafEntry, Mapping.write, Mapping.user]
  have hothers : ∀ q, q.length = r.length → q ≠ r →
      ((translate vm'.table root q).map Mapping.access = (translate vm.table root q).map Mapping.access ↔
        ∀ a, translate vm.table root q = some a →
          ({ a with levels := touched fl r q a.levels } : Mapping).access = a.access) := by
    intro q hq hne
    rw [hm.other q hq hne, Option.map_map]
    cases translate vm.table root q with
    | none => simp
    | some a => simp
  constructor
  · rintro ⟨h1, h2⟩
    obtain ⟨hlow, hw⟩ := hpage.mp h1
    have hcond := fun q a hq hne ha => (touched_access_iff (translate_levels_ne_nil ha)).mp
      ((hothers q hq hne).mp (h2 q hq hne) a ha)
    exact ⟨hlow, hw, fun hu q a hq hne ha => (hcond q a hq hne ha).1 hu,
      fun q a hq hne ha => (hcond q a hq hne ha).2⟩
  · intro h
    refine ⟨hpage.mpr ⟨h.low, h.writable⟩, fun q hq hne => (hothers q hq hne).mpr fun a ha => ?_⟩
    exact (touched_access_iff (translate_levels_ne_nil ha)).mpr
      ⟨fun hu => h.hidden hu q a hq hne ha, h.large q a hq hne ha⟩

/-- A kernel page above the first gigabyte, right after boot. -/
theorem mapsOne_booted : ∃ vm vm', booted = some vm ∧ vmmMapPage vm 0x3000000 0x40000000 0x3 = some vm' ∧
    MapsOne vm.table vm'.table 0x13F0 0x3000000 (pagePath 0x40000000) 0x3 := by
  obtain ⟨vm, hvm, vm', hmap, -⟩ : ∃ vm ∈ booted, ∃ vm' ∈ vmmMapPage vm 0x3000000 0x40000000 0x3, True := by
    decide +kernel
  obtain ⟨htable, hroot, hready, hspace⟩ := booted_space hvm
  have hiff := mapsOne_iff_mapsAlone (by decide) hready hspace hmap
  rw [hroot, htable] at hiff
  refine ⟨vm, vm', hvm, hmap, htable ▸ hiff.mpr ⟨by decide, ?_, fun hu => ?_, fun q a hq hne ha hle => ?_⟩⟩
  · decide +kernel
  · exact absurd hu (by decide)
  · -- the pages that are mapped share one level with this one
    obtain ⟨k, l, rfl, rfl⟩ := translate_bootTables_some hq ha
    have hpath : pagePath 0x40000000 = [0, 1, 0, 0] := by decide
    simp [hpath, shared] at hle

/-- The first page of a program at 4 MB is mapped right after boot. The 2 MB
page around it belongs to the kernel: all of it becomes accessible to user mode. -/
theorem map_exposes_kernel_page : ∃ vm vm', booted = some vm ∧
    vmmMapPage vm 0x3000000 0x400000 0x7 = some vm' ∧
    (translate vm.table 0x13F0 (pagePath 0x401000)).map Mapping.access = some (0x401, true, false) ∧
    (translate vm'.table 0x13F0 (pagePath 0x401000)).map Mapping.access = some (0x401, true, true) ∧
    ¬ MapsOne vm.table vm'.table 0x13F0 0x3000000 (pagePath 0x400000) 0x7 := by
  obtain ⟨vm, hvm, vm', hmap, hbefore, hafter⟩ : ∃ vm ∈ booted, ∃ vm' ∈ vmmMapPage vm 0x3000000 0x400000 0x7,
      (translate vm.table 0x13F0 (pagePath 0x401000)).map Mapping.access = some (0x401, true, false) ∧
      (translate vm'.table 0x13F0 (pagePath 0x401000)).map Mapping.access = some (0x401, true, true) := by
    decide +kernel
  refine ⟨vm, vm', hvm, hmap, hbefore, hafter, fun h => ?_⟩
  have hkept := h.others (pagePath 0x401000) rfl (by decide)
  rw [hbefore, hafter] at hkept
  cases hkept

end LiwusOS.Mm
