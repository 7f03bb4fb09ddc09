import Mathlib.Data.List.Count
import LiwusOS.Mm.FreeSpace

/-! # Who owns what is freed

Directories share tables with the kernel's, and `vmm_free_directory` frees all
it finds. It leaves the other directories alone exactly when they use none of
the tables and frames it frees. -/

namespace LiwusOS.Mm
open LiwusOS.Lib List Function

/-! ## Translations after entries have been cleared -/

/-- The entries that the translation of a page reads. -/
def entriesRead (m : Tables) : Nat → List (Fin 512) → List (Nat × Fin 512)
  | _, [] => []
  | t, i :: q => (t, i) :: match (m t i).child with
    | some t' => entriesRead m t' q
    | none => []

section Cleared
variable {m m' : Tables} {t : Nat} {q : List (Fin 512)}

theorem translate_of_read (h : ∀ p ∈ entriesRead m t q, m' p.1 p.2 = m p.1 p.2) :
    translate m' t q = translate m t q := by
  induction q generalizing t with
  | nil => rfl
  | cons i q ih =>
    refine translate_entry (h (t, i) (.head _)) fun t' hc => ih fun p hp => h p ?_
    rw [entriesRead, hc]
    exact .tail _ hp

/-- A page is gone when an entry on its way is. -/
theorem translate_cleared (hpart : ∀ x i, m' x i = m x i ∨ (m' x i).present = false)
    (h : ∃ p ∈ entriesRead m t q, (m' p.1 p.2).present = false) : translate m' t q = none := by
  induction q generalizing t with
  | nil =>
    obtain ⟨p, hp, -⟩ := h
    cases hp
  | cons i q ih =>
    rcases hpart t i with hsame | habsent
    · obtain ⟨p, hp, habsent⟩ := h
      rcases mem_cons.mp hp with rfl | hp
      · exact translate_absent habsent q
      · cases hc : (m t i).child with
        | none =>
          rw [hc] at hp
          cases hp
        | some t' =>
          rw [hc] at hp
          cases q with
          | nil => cases hp
          | cons j q => rw [translate_child (hsame ▸ hc), ih ⟨p, hp, habsent⟩, Option.map_none]
    · exact translate_absent habsent q

theorem present_of_read {a : Mapping} (ha : translate m t q = some a) {p : Nat × Fin 512}
    (hp : p ∈ entriesRead m t q) : (m p.1 p.2).present = true := by
  by_contra hn
  have hnone : translate m t q = none := translate_cleared (fun _ _ => .inl rfl) ⟨p, hp, by simpa using hn⟩
  rw [ha] at hnone
  cases hnone

/-- A translation stays exactly if no entry that it reads is cleared. -/
theorem translate_eq_iff (hpart : ∀ x i, m' x i = m x i ∨ (m' x i).present = false) :
    translate m' t q = translate m t q ↔ ∀ a, translate m t q = some a →
      ∀ p ∈ entriesRead m t q, (m' p.1 p.2).present = true := by
  have hkept : (∀ p ∈ entriesRead m t q, (m' p.1 p.2).present = true) → translate m' t q = translate m t q :=
    fun h => translate_of_read fun p hp => (hpart p.1 p.2).resolve_right (by simp [h p hp])
  constructor
  · intro heq a ha p hp
    by_contra hn
    rw [translate_cleared hpart ⟨p, hp, by simpa using hn⟩, ha] at heq
    cases heq
  · intro h
    by_cases habsent : ∃ p ∈ entriesRead m t q, (m' p.1 p.2).present = false
    · cases ha : translate m t q with
      | none => exact translate_cleared hpart habsent
      | some a =>
        obtain ⟨p, hp, hn⟩ := habsent
        rw [h a ha p hp] at hn
        cases hn
    · exact hkept fun p hp => by simpa using fun hn => habsent ⟨p, hp, hn⟩

end Cleared

/-! ## What is promised -/

/-- A directory maps a page to frame `f`. -/
def Vm.Maps (vm : Vm) (d : Directory) (f : Nat) : Prop :=
  ∃ q a, q.length = 4 ∧ translate vm.table d.pml4 q = some a ∧ a.frame = f

/-- The page at `q` is mapped to frame `f` by an entry that names this frame:
its own, or that of a 2 MB page it is the first page of. -/
def Vm.MapsFirst (vm : Vm) (d : Directory) (q : List (Fin 512)) (f : Nat) : Prop :=
  q.length = 4 ∧ ∃ a, translate vm.table d.pml4 q = some a ∧ a.frame = f ∧ a.Released q

/-- Freeing `d` leaves the directories `others` their pages and frees what only
`d` has, once. -/
structure FreesOwn (vm vm' : Vm) (d : Directory) (others : List Directory) : Prop where
  translations : ∀ o ∈ others, ∀ q, q.length = 4 →
    translate vm'.table o.pml4 q = translate vm.table o.pml4 q
  used : ∀ o ∈ others, ∀ f, vm'.Maps o f → vm'.heap.pmm.bitmapTest f = true
  once : ∀ f, vm.Maps d f → (∀ o ∈ others, ¬ vm.Maps o f) →
    vm'.heap.pmm.bitmapTest f = false ∧ (vm.releasedFrames d).count f = 1

/-- The tables and frames of `d` are its own. -/
structure OwnsAll (vm : Vm) (d : Directory) (others : List Directory) : Prop where
  /-- No page of another directory is below entry 0 of a table that is freed. -/
  tables : ∀ o ∈ others, ∀ q a, q.length = 4 → translate vm.table o.pml4 q = some a →
    ∀ x, (x, 0) ∈ entriesRead vm.table o.pml4 q → ¬ vm.FreedTable d x
  frames : ∀ o ∈ others, ∀ f, vm.Maps o f →
    vm.heap.pmm.bitmapTest f = true ∧ ∀ q, ¬ vm.MapsFirst d q f
  single : ∀ f, vm.Maps d f → (∀ o ∈ others, ¬ vm.Maps o f) → ∃! q, vm.MapsFirst d q f

section Owned
variable {vm vm' : Vm} {d : Directory} {others : List Directory}

theorem test_foldl_free (p : Pmm) (fs : List Nat) (c : Nat) :
    (fs.foldl (fun p f => pmmFreeBlock p (f * 4096)) p).bitmapTest c = (p.bitmapTest c && !decide (c ∈ fs)) := by
  induction fs generalizing p with
  | nil => simp
  | cons f fs ih =>
    have hdiv : f * 4096 / blockSize = f := Nat.mul_div_cancel f (by decide)
    rw [foldl_cons, ih, pmmFreeBlock, Pmm.test_counter, Pmm.test_bitmapUnset, hdiv]
    by_cases hc : c = f <;> simp [hc]

/-- A value that occurs once in a list of pairs belongs to one key. -/
theorem count_snd_eq_one {α : Type} {L : List (α × Nat)} (hL : (L.map (·.1)).Nodup) {f : Nat} :
    (L.map (·.2)).count f = 1 ↔ ∃! q, (q, f) ∈ L := by
  have hcount : (L.map (·.2)).count f = (L.filter fun p => p.2 == f).length := by
    rw [count_eq_countP, countP_map, countP_eq_length_filter]
    rfl
  have hmem : ∀ q, (q, f) ∈ L ↔ (q, f) ∈ L.filter fun p => p.2 == f := by simp
  have hnodup : ((L.filter fun p => p.2 == f).map (·.1)).Nodup := hL.sublist (filter_sublist.map _)
  have hsnd : ∀ p ∈ L.filter fun p => p.2 == f, p.2 = f := by simp
  simp only [hcount, hmem]
  generalize (L.filter fun p => p.2 == f) = M at hnodup hsnd
  constructor
  · intro hone
    obtain ⟨⟨q, g⟩, rfl⟩ := length_eq_one_iff.mp hone
    obtain rfl : g = f := hsnd _ (mem_singleton_self _)
    exact ⟨q, mem_singleton_self _, fun q' hq' => (Prod.mk.inj (mem_singleton.mp hq')).1⟩
  · rintro ⟨q, hq, huniq⟩
    match M, hnodup, hsnd, hq, huniq with
    | [_], _, _, _, _ => rfl
    | p :: p' :: M, hnodup, hsnd, _, huniq =>
      have h1 : p.1 = q := huniq p.1 (by rw [← hsnd p (by simp)]; simp)
      have h2 : p'.1 = q := huniq p'.1 (by rw [← hsnd p' (by simp)]; simp)
      simp [h1, h2] at hnodup

theorem mapsFirst_iff (hp : Plain vm.table 3 d.pml4) {q : List (Fin 512)} {f : Nat} :
    vm.MapsFirst d q f ↔ (q, f) ∈ released vm.table 3 d.pml4 := (mem_released hp).symm

theorem mem_releasedFrames (hp : Plain vm.table 3 d.pml4) {f : Nat} :
    f ∈ vm.releasedFrames d ↔ ∃ q, vm.MapsFirst d q f := by
  simp only [mapsFirst_iff hp, Vm.releasedFrames, mem_map, Prod.exists, exists_eq_right]

theorem FreedSpace.test (h : FreedSpace vm vm' d) (f : Nat) :
    vm'.heap.pmm.bitmapTest f = (vm.heap.pmm.bitmapTest f && !decide (f ∈ vm.releasedFrames d)) := by
  rw [h.pmm, test_foldl_free]

theorem FreedSpace.translate_iff (h : FreedSpace vm vm' d) {t : Nat} {q : List (Fin 512)} :
    translate vm'.table t q = translate vm.table t q ↔ ∀ a, translate vm.table t q = some a →
      ∀ x, (x, 0) ∈ entriesRead vm.table t q → ¬ vm.FreedTable d x := by
  have hpart : ∀ x i, vm'.table x i = vm.table x i ∨ (vm'.table x i).present = false := by
    intro x i
    by_cases hx : vm.FreedTable d x ∧ i = 0
    · obtain ⟨hx, rfl⟩ := hx
      exact .inr (h.cleared x hx)
    · exact .inl (h.kept x i hx)
  rw [translate_eq_iff hpart]
  refine forall_congr' fun a => forall_congr' fun ha => ⟨fun hall x hx hfreed => ?_, fun hall p hp => ?_⟩
  · have := hall (x, 0) hx
    rw [h.cleared x hfreed] at this
    cases this
  · rw [h.kept p.1 p.2 fun hx => hall p.1 (by rw [← hx.2]; exact hp) hx.1]
    exact present_of_read ha hp

/-- The frames are freed in the order of the pages, and the others keep their
pages exactly if all that is freed belongs to `d`. -/
theorem freesOwn_iff (hd : vm.Freeable d) :
    (vmmFreeDirectory vm (some d)).heap.pmm =
      (vm.releasedFrames d).foldl (fun p f => pmmFreeBlock p (f * 4096)) vm.heap.pmm ∧
    (FreesOwn vm (vmmFreeDirectory vm (some d)) d others ↔ OwnsAll vm d others) := by
  have h := vmmFreeDirectory_freed hd
  refine ⟨h.pmm, ?_⟩
  generalize vmmFreeDirectory vm (some d) = vm' at h
  have honce : ∀ f, (vm.releasedFrames d).count f = 1 ↔ ∃! q, vm.MapsFirst d q f := fun f => by
    rw [Vm.releasedFrames, count_snd_eq_one released_nodup]
    simp only [mapsFirst_iff hd.plain]
  have hused : ∀ f, vm'.heap.pmm.bitmapTest f = true ↔
      vm.heap.pmm.bitmapTest f = true ∧ ∀ q, ¬ vm.MapsFirst d q f := fun f => by
    rw [h.test, Bool.and_eq_true, Bool.not_eq_true', decide_eq_false_iff_not, mem_releasedFrames hd.plain,
      not_exists]
  have hmaps : (∀ o ∈ others, ∀ q, q.length = 4 → translate vm'.table o.pml4 q = translate vm.table o.pml4 q) →
      ∀ o ∈ others, ∀ f, vm'.Maps o f ↔ vm.Maps o f := fun htr o ho f =>
    exists_congr fun q => exists_congr fun a => and_congr_right fun hq => by rw [htr o ho q hq]
  constructor
  · intro hf
    refine ⟨fun o ho q a hq => (h.translate_iff.mp (hf.translations o ho q hq)) a, fun o ho f hm => ?_,
      fun f hm hn => (honce f).mp (hf.once f hm hn).2⟩
    exact (hused f).mp (hf.used o ho f ((hmaps hf.translations o ho f).mpr hm))
  · intro ho
    have htr : ∀ o ∈ others, ∀ q, q.length = 4 → translate vm'.table o.pml4 q = translate vm.table o.pml4 q :=
      fun o hmem q hq => h.translate_iff.mpr fun a ha => ho.tables o hmem q a hq ha
    refine ⟨htr, fun o hmem f hm => (hused f).mpr (ho.frames o hmem f ((hmaps htr o hmem f).mp hm)), ?_⟩
    intro f hm hn
    have hcount := (honce f).mpr (ho.single f hm hn)
    have hmem : f ∈ vm.releasedFrames d := count_pos_iff.mp (by omega)
    exact ⟨by rw [h.test, decide_eq_true hmem]; simp, hcount⟩

end Owned

/-! ## Two directories -/

theorem visits_of_read {m : Tables} {t x : Nat} {i : Fin 512} {q : List (Fin 512)} (h : (x, i) ∈ entriesRead m t q) :
    Visits Pte.child m t q x := by
  induction q generalizing t with
  | nil => cases h
  | cons j q ih =>
    rw [entriesRead] at h
    rcases mem_cons.mp h with heq | h
    · exact .inl (congrArg Prod.fst heq)
    · split at h
      · rename_i t' hc
        exact .inr ⟨t', hc, ih h⟩
      · cases h

/-- A machine whose kernel maps nothing: two directories with a page each. -/
def twoSpaces : Option (Directory × Directory × Vm) := do
  let vm ← initVmm (bootHeap largeInitrd) (fun _ _ => Pte.zero) (fun _ _ => 0) 0x13F0000
  let (d, vm) ← vmmCreateDirectory vm
  let (o, vm) ← vmmCreateDirectory vm
  let vm ← vmmMapPage { vm with currentDirectory := d } 0x1500000 0x400000 0x7
  let vm ← vmmMapPage { vm with currentDirectory := o } 0x1501000 0x400000 0x7
  return (d, o, vm)

/-- Their pages are all that they map. -/
theorem twoSpaces_maps {d o : Directory} {vm : Vm} (h : twoSpaces = some (d, o, vm)) (hne : d.pml4 ≠ o.pml4) :
    ∃ w : Spaces, w.vm = vm ∧ w.Inv ∧ d ∈ w.all ∧ o ∈ w.all ∧ d.pml4 ≠ 0 ∧ ∀ dir ∈ [d, o], ∀ q, q.length = 4 →
      q ≠ pagePath 0x400000 → translate vm.table dir.pml4 q = none := by
  simp only [twoSpaces, Option.bind_eq_bind, Option.bind_eq_some_iff] at h
  obtain ⟨vm₀, h0, ⟨d, vm₁⟩, h1, ⟨o, vm₂⟩, h2, vm₃, h3, vm, h4, heq⟩ := h
  cases heq
  obtain ⟨hready, htop, htable, hpml4, hcur⟩ := initVmm_largeInitrd h0
  have hroot : vm₀.kernelDirectory.pml4 < vm₀.heap.top := by omega
  have hinv₀ : Spaces.Inv ⟨vm₀, []⟩ :=
    Spaces.Start.inv ⟨rfl, hcur, hready, .empty (fun _ _ => by rw [htable]) hroot⟩
  -- no entry is present until the pages are mapped
  have hzero₁ : ∀ t i, vm₁.table t i = Pte.zero := by
    intro t i
    rw [(Spaces.create_some hready hroot h1).rest, htable]
    by_cases ht : t = d.pml4
    · simp [ht]
    · simp [update_of_ne ht]
  have hinv₁ := hinv₀.create (by rw [htable, Pte.present_zero]) h1
  have hcreated := Spaces.create_some hinv₁.ready ((hinv₁.space _ (.head _)).below _ .self) h2
  have hzero₂ : ∀ t i, vm₂.table t i = Pte.zero := by
    intro t i
    rw [hcreated.rest]
    by_cases ht : t = o.pml4
    · simp [ht, hzero₁]
    · simp [update_of_ne ht, hzero₁]
  have hinv₂ := hinv₁.create (by rw [hzero₁, Pte.present_zero]) h2
  have hd : Spaces.Inv ⟨{ vm₂ with currentDirectory := d }, [o, d]⟩ :=
    hinv₂.step ⟨.switchTo d, by simp [Spaces.Admits, Spaces.all], trivial, rfl⟩
  obtain ⟨hsame₃, hinv₃, hother₃⟩ := hd.page (show (MapOp.map 0x1500000 0x400000 0x7).virt < _ by decide) h3
  have ho : Spaces.Inv ⟨{ vm₃ with currentDirectory := o }, [o, d]⟩ :=
    hinv₃.step ⟨.switchTo o, by simp [Spaces.Admits, Spaces.all], trivial, rfl⟩
  obtain ⟨hsame₄, hinv₄, hother₄⟩ := ho.page (show (MapOp.map 0x1501000 0x400000 0x7).virt < _ by decide) h4
  obtain ⟨-, -, hm₃⟩ := vmmMapPage_mapped (by decide) ⟨hd.ready, hd.space _ hd.current⟩ h3
  obtain ⟨-, -, hm₄⟩ := vmmMapPage_mapped (by decide) ⟨ho.ready, ho.space _ ho.current⟩ h4
  refine ⟨⟨vm, [o, d]⟩, rfl, hinv₄, by simp [Spaces.all], by simp [Spaces.all], ?_, fun dir hdir q hq hne' => ?_⟩
  · exact Nat.ne_of_gt (Nat.lt_of_lt_of_le (by omega) (Spaces.create_some hready hroot h1).above)
  · rcases mem_cons.mp hdir with rfl | hdir
    · rw [hother₄ dir (by simp [Spaces.all]) hne q hq, hm₃.other q hq hne', translate_zero (hzero₂ _), Option.map_none]
    · rw [mem_singleton.mp hdir, hm₄.other q hq hne', hother₃ o (by simp [Spaces.all]) hne.symm q hq,
        translate_zero (hzero₂ _), Option.map_none]

theorem freesOwn_twoSpaces : ∃ d o vm, twoSpaces = some (d, o, vm) ∧ vm.Maps d 0x1500 ∧ vm.Maps o 0x1501 ∧
    FreesOwn vm (vmmFreeDirectory vm (some d)) d [o] := by
  obtain ⟨⟨d, o, vm⟩, hvm, hne, hfree, hsmall, hused, a, ha, hframe, hlevels, b, hb, hframe'⟩ : ∃ p ∈ twoSpaces,
      p.1.pml4 ≠ p.2.1.pml4 ∧ p.2.2.heap.freeList = [] ∧ p.2.2.heap.blockSizeAt (headerOf p.1.addr) = 24 ∧
      p.2.2.heap.pmm.bitmapTest 0x1501 = true ∧
      ∃ a ∈ translate p.2.2.table p.1.pml4 (pagePath 0x400000), a.frame = 0x1500 ∧ a.levels.length = 4 ∧
      ∃ b ∈ translate p.2.2.table p.2.1.pml4 (pagePath 0x400000), b.frame = 0x1501 := by
    rw [twoSpaces, bootHeap_largeInitrd]
    decide +kernel
  obtain ⟨w, rfl, hinv, hdmem, homem, hpml4, hother⟩ := twoSpaces_maps hvm hne
  have hd : w.vm.Freeable d := by
    refine ⟨hpml4, (hinv.space d hdmem).tree, (hinv.space d hdmem).plain, ?_, by rw [hsmall]; decide⟩
    rw [Vm.EvenLinks, hfree]
    nofun
  have hpage : ∀ dir ∈ [d, o], ∀ q x, q.length = 4 → translate w.vm.table dir.pml4 q = some x →
      q = pagePath 0x400000 := by
    intro dir hdir q x hlen hx
    by_contra hq
    rw [hother dir hdir q hlen hq] at hx
    cases hx
  have hmaps : ∀ f, w.vm.Maps o f → f = 0x1501 := by
    rintro f ⟨q, x, hlen, hx, rfl⟩
    obtain rfl := hpage o (by simp) q x hlen hx
    rw [hb, Option.some.injEq] at hx
    exact hx ▸ hframe'
  have hfirst : ∀ q f, w.vm.MapsFirst d q f → q = pagePath 0x400000 ∧ f = 0x1500 := by
    rintro q f ⟨hlen, x, hx, rfl, -⟩
    obtain rfl := hpage d (by simp) q x hlen hx
    rw [ha, Option.some.injEq] at hx
    exact ⟨rfl, hx ▸ hframe⟩
  refine ⟨d, o, w.vm, hvm, ⟨_, a, rfl, ha, hframe⟩, ⟨_, b, rfl, hb, hframe'⟩, (freesOwn_iff hd).2.mpr ⟨?_, ?_, ?_⟩⟩
  · intro o' ho' q x hlen hx y hy hfreed
    obtain rfl := mem_singleton.mp ho'
    obtain rfl := hpage o' (by simp) q x hlen hx
    have hvisits := visits_of_read hy
    rw [Spaces.pagePath_user (by decide)] at hvisits
    refine hinv.apart o' homem d hdmem hne.symm y ?_ hfreed.1
    exact hvisits.imp_right fun ⟨t, hc, hv⟩ => ⟨t, hc, hv.reaches (by decide)⟩
  · intro o' ho' f hf
    obtain rfl := mem_singleton.mp ho'
    obtain rfl := hmaps f hf
    exact ⟨hused, fun q hq => absurd (hfirst q _ hq).2 (by decide)⟩
  · rintro f ⟨q, x, hlen, hx, rfl⟩ -
    obtain rfl := hpage d (by simp) q x hlen hx
    rw [ha, Option.some.injEq] at hx
    subst hx
    exact ⟨_, ⟨rfl, a, ha, rfl, .inl hlevels⟩, fun q' hq' => (hfirst q' _ hq').1⟩

set_option maxRecDepth 100000 in
/-- The copy of the kernel's tables has 512 pages to release. -/
theorem freed_after_boot : ∃ vm ∈ booted, ∃ p ∈ vmmCreateDirectory vm,
    (vmmFreeDirectory p.2 (some p.1)).heap.pmm.bitmapTest 0 = false ∧
      ∃ a ∈ translate (vmmFreeDirectory p.2 (some p.1)).table p.2.kernelDirectory.pml4 [0, 0, 0, 0], a.frame = 0 := by
  rw [booted, bootHeap_largeInitrd]
  decide +kernel

/-- A directory made right after boot and freed at once: the kernel's 2 MB pages
lose their first frames. -/
theorem free_releases_kernel_frames : ∃ vm d vm₁, booted = some vm ∧ vmmCreateDirectory vm = some (d, vm₁) ∧
    (vmmFreeDirectory vm₁ (some d)).Maps vm₁.kernelDirectory 0 ∧
    (vmmFreeDirectory vm₁ (some d)).heap.pmm.bitmapTest 0 = false ∧
    ¬ FreesOwn vm₁ (vmmFreeDirectory vm₁ (some d)) d [vm₁.kernelDirectory] := by
  obtain ⟨vm, hvm, ⟨d, vm₁⟩, hcreate, hbit, a, ha, hframe⟩ := freed_after_boot
  have hmaps : (vmmFreeDirectory vm₁ (some d)).Maps vm₁.kernelDirectory 0 := ⟨_, a, rfl, ha, hframe⟩
  refine ⟨vm, d, vm₁, hvm, hcreate, hmaps, hbit, fun h => ?_⟩
  have hused := h.used _ (mem_singleton_self _) 0 hmaps
  rw [hbit] at hused
  cases hused

end LiwusOS.Mm
