import LiwusOS.Mm.Access
import LiwusOS.Mm.MapRange

/-! # Pages mapped over others

The loops of the memory calls and of the loaders take a frame, map it for user
mode and clear it. They differ in what they do when there is no frame. -/

namespace LiwusOS.Mm
open LiwusOS.Lib List
open Option (bind_eq_some_iff map_eq_some_iff bind_eq_bind)

/-! ## Pages that user mode can use -/

/-- The current space's page at `q`. -/
def Vm.lookup (vm : Vm) (q : List (Fin 512)) : Option Mapping := translate vm.table vm.currentDirectory.pml4 q

/-- A page with its own entry, open to user mode; `x` is what it is mapped to. -/
def UserPage (vm : Vm) (q : List (Fin 512)) (x : Option (Nat × Bool × Bool)) : Prop :=
  ∃ a, vm.lookup q = some a ∧ a.user = true ∧ a.levels.length = 4 ∧ some a.access = x

/-- A page of that kind on the frame `f`. -/
def PageOn (vm : Vm) (q : List (Fin 512)) (f : Nat) : Prop := ∃ w u, UserPage vm q (some (f, w, u))

section Pages
variable {vm vm' : Vm} {fl : BitVec 64} {q : List (Fin 512)} {S : List (List (Fin 512))}
  {x : Option (Nat × Bool × Bool)}

theorem flags_ne_zero (hfl : fl.getLsbD 2 = true) : fl ≠ 0 := fun h => by
  rw [h] at hfl
  cases hfl

theorem UserPage.record (h : UserPage vm q x) : UserPage vm q ((vm.lookup q).map Mapping.access) := by
  obtain ⟨a, ha, hu, hlen, -⟩ := h
  exact ⟨a, ha, hu, hlen, by rw [ha, Option.map_some]⟩

theorem PageOn.frame_eq {f : Nat} {a : Mapping} (h : PageOn vm q f) (ha : vm.lookup q = some a) : a.frame = f := by
  obtain ⟨w, u, b, hb, -, -, hacc⟩ := h
  rw [ha] at hb
  cases hb
  exact congrArg Prod.fst (Option.some.inj hacc)

/-- Mapping other pages does not change it. -/
theorem UserPage.touched (hfl : fl.getLsbD 2 = true) (hS : ∀ r ∈ S, r.length = 4)
    (hlook : vm'.lookup q = (vm.lookup q).map fun a => { a with levels := touchedAll fl q S a.levels })
    (h : UserPage vm q x) : UserPage vm' q x := by
  obtain ⟨a, ha, hu, hlen, rfl⟩ := h
  have hne : a.levels ≠ [] := by rw [← length_pos_iff, hlen]; decide
  have hshort : ∀ r ∈ S, shared r q < a.levels.length := fun r hr => by
    have hlt := shared_lt_self r q (by rw [← length_pos_iff, hS r hr]; decide)
    rwa [hS r hr, ← hlen] at hlt
  have hwrite := @touchedAll_map_write fl _ _ _ hne hshort
  have huser : (touchedAll fl q S a.levels).all (·.getLsbD 2) = true := touchedAll_user hfl hu
  refine ⟨{ a with levels := touchedAll fl q S a.levels }, by rw [hlook, ha, Option.map_some], huser, ?_, ?_⟩
  · simpa [hlen] using congrArg List.length hwrite
  · have huser' : ({ a with levels := touchedAll fl q S a.levels } : Mapping).user = a.user :=
      huser.trans hu.symm
    have hwrite' : ({ a with levels := touchedAll fl q S a.levels } : Mapping).write = a.write := by
      rw [Mapping.write, Mapping.write, all_write_eq, all_write_eq, hwrite]
    rw [Mapping.access, Mapping.access, huser', hwrite']

theorem openedFlags_length (fl : BitVec 64) (m : Tables) (t : Nat) (r : List (Fin 512)) :
    (openedFlags fl m t r).length = r.length - 1 := by
  fun_induction openedFlags fl m t r with
  | case1 t i j r e h ih =>
    rw [length_cons, ih]
    rfl
  | case2 => simp
  | case3 r t h =>
    match r with
    | [] | [_] => rfl
    | i :: j :: r => exact (h i j r rfl).elim

theorem mapCleared_pageOn {frame virt : Nat} (hfl : fl.getLsbD 2 = true) (hk : vm.Ready)
    (h : mapCleared vm frame virt fl = some vm') : PageOn vm' (pagePath virt) frame := by
  obtain ⟨vm₁, hmap, rfl⟩ := Option.map_eq_some_iff.mp h
  obtain ⟨-, hsame, hm⟩ := vmmMapPage_mapped (flags_ne_zero hfl) hk hmap
  have hdir : vm₁.currentDirectory = vm.currentDirectory := by rw [hsame]
  have hhit := hm.hit
  rw [leafMapping, if_pos (leafEntry_present _ fl)] at hhit
  have hframe : (leafEntry (frame * 4096) fl).frame = frame := Nat.mul_div_cancel _ (by decide)
  rw [hframe] at hhit
  refine ⟨_, _, _, by rw [Vm.lookup, hdir]; exact hhit, ?_, ?_, rfl⟩
  · have hleaf : (leafEntry (frame * 4096) fl).flags.getLsbD 2 = true := by
      simpa [leafEntry, pteP] using hfl
    rw [Mapping.user, all_append, opened_user hfl]
    simp [hleaf]
  · rw [length_append, openedFlags_length]
    rfl

/-- A frame is taken, mapped and cleared. -/
theorem mapAlloc_spent {virt : Nat} (hfl : fl ≠ 0) (hk : vm.Ready)
    (h : mapCleared vm.allocFrame.2 vm.allocFrame.1 virt fl = some vm') :
    Spent vm.heap vm'.heap (vm.missing [pagePath virt]) [vm.allocFrame.1] := by
  have hall := (Spent.alloc hk.heap).trans (mapCleared_maps hfl (MapsRange.allocFrame fl hk).ok h).2
  rw [Nat.zero_add] at hall
  exact hall

/-- The frame that was just taken. -/
theorem mapAlloc_pageOn {virt : Nat} (hfl : fl.getLsbD 2 = true) (hk : vm.Ready)
    (h : mapCleared vm.allocFrame.2 vm.allocFrame.1 virt fl = some vm') :
    PageOn vm' (pagePath virt) vm.allocFrame.1 :=
  mapCleared_pageOn hfl (MapsRange.allocFrame fl hk).ok h

/-- The pages of a range that were mapped before stay as they were. -/
theorem MapsRange.userPage (h : MapsRange fl vm vm' S) (hfl : fl.getLsbD 2 = true)
    (hS : ∀ r ∈ S, r.length = 4) (hq : q.length = 4) (hn : q ∉ S) (hp : UserPage vm q x) : UserPage vm' q x := by
  refine hp.touched hfl hS ?_
  rw [Vm.lookup, h.directory]
  exact h.other q hq hn

/-- A mapped page stays mapped. -/
theorem MapsRange.lookup_isSome (h : MapsRange fl vm vm' S) (hq : q.length = 4) (hn : q ∉ S) :
    (vm'.lookup q).isSome = (vm.lookup q).isSome := by
  rw [Vm.lookup, h.directory, h.other q hq hn, Option.isSome_map]
  rfl

/-- The bytes of the other pages are where they were. -/
theorem MapsRange.byteAt {v : Nat} (h : MapsRange fl vm vm' S) (hv : pagePath v ∉ S) : vm'.byteAt v = vm.byteAt v := by
  rw [Vm.byteAt, Vm.byteAt, h.directory, h.other _ rfl hv, Option.map_map]
  rfl

end Pages

/-! ## Overlays -/

/-- The pages at `S` are mapped over what `vm` had there, on `New` frames. -/
structure Overlays (fl : BitVec 64) (New : Nat → Prop) (vm vm' : Vm) (S : List (List (Fin 512))) : Prop where
  maps : MapsRange fl vm vm' S
  top : vm.heap.top ≤ vm'.heap.top
  free : vm'.heap.pmm.free ⊆ vm.heap.pmm.free
  length : ∀ q ∈ S, q.length = 4
  onNew : ∀ q ∈ S, ∃ f, PageOn vm' q f ∧ New f

/-- A frame that `pmm_alloc_block` may return. -/
def Handed (vm : Vm) (f : Nat) : Prop := f = 0 ∨ f ∈ vm.heap.pmm.free

section Overlays
variable {fl : BitVec 64} {New New' : Nat → Prop} {vm vm₁ vm' : Vm} {S S' : List (List (Fin 512))} {f : Nat}

namespace Overlays

theorem nil (fl : BitVec 64) (New : Nat → Prop) (hk : vm.Ready) : Overlays fl New vm vm [] :=
  ⟨.nil hk, le_rfl, fun _ h => h, nofun, nofun⟩

theorem mono (h : Overlays fl New vm vm' S) (hn : ∀ f, New f → New' f) : Overlays fl New' vm vm' S := by
  refine ⟨h.maps, h.top, h.free, h.length, fun q hq => ?_⟩
  obtain ⟨f, hp, hf⟩ := h.onNew q hq
  exact ⟨f, hp, hn f hf⟩

theorem append (hfl : fl.getLsbD 2 = true) (h : Overlays fl New vm vm₁ S) (h' : Overlays fl New vm₁ vm' S') :
    Overlays fl New vm vm' (S ++ S') := by
  refine ⟨h.maps.append h'.maps, h.top.trans h'.top, fun f hf => h.free (h'.free hf), fun q hq => ?_,
    fun q hq => ?_⟩
  · exact (mem_append.mp hq).elim (h.length q) (h'.length q)
  · by_cases hm : q ∈ S'
    · exact h'.onNew q hm
    · have hq' := (mem_append.mp hq).resolve_right hm
      obtain ⟨f, ⟨w, u, hp⟩, hf⟩ := h.onNew q hq'
      exact ⟨f, ⟨w, u, h'.maps.userPage hfl h'.length (h.length q hq') hm hp⟩, hf⟩

theorem userPage (h : Overlays fl New vm vm' S) {q : List (Fin 512)} (hq : q ∈ S) : ∃ x, UserPage vm' q x := by
  obtain ⟨f, ⟨w, u, hp⟩, -⟩ := h.onNew q hq
  exact ⟨_, hp⟩

theorem handed (h : Overlays fl New vm vm₁ S) (hf : Handed vm₁ f) : Handed vm f := hf.imp id fun hm => h.free hm

end Overlays

theorem allocFrame_handed (vm : Vm) : Handed vm vm.allocFrame.1 := by
  rcases pmmAllocBlock_free vm.heap.pmm with ⟨f, hf, -, heq, -⟩ | ⟨-, heq, -⟩
  · have hframe : vm.allocFrame.1 = f := heq
    exact .inr (hframe ▸ hf)
  · exact .inl heq

variable (hfl : fl.getLsbD 2 = true) (hk : vm.Ready)
include hfl hk

theorem mapAlloc_overlays {virt : Nat} (h : mapCleared vm.allocFrame.2 vm.allocFrame.1 virt fl = some vm') :
    Overlays fl (Handed vm) vm vm' [pagePath virt] := by
  have halloc := MapsRange.allocFrame fl hk
  have hmaps := (mapCleared_maps (flags_ne_zero hfl) halloc.ok h).1
  have hspent := mapAlloc_spent (flags_ne_zero hfl) hk h
  refine ⟨halloc.append hmaps, hspent.top, hspent.subset, ?_, ?_⟩
  · intro q hq
    rw [mem_singleton.mp hq]
    rfl
  · intro q hq
    rw [mem_singleton.mp hq]
    exact ⟨_, mapAlloc_pageOn hfl hk h, allocFrame_handed vm⟩

omit hfl in
theorem brkLoop_overlays {start n : Nat} (h : brkLoop vm start n = some vm') :
    Overlays 0x7 (Handed vm) vm vm' (regionPages start 0 n) := by
  induction n generalizing vm' with
  | zero =>
    cases h
    exact .nil _ _ hk
  | succ n ih =>
    rw [brkLoop, bind_eq_bind, bind_eq_some_iff] at h
    obtain ⟨vm₁, h1, h⟩ := h
    have hi := ih h1
    rw [regionPages_snoc]
    exact hi.append rfl ((mapAlloc_overlays rfl hi.maps.ok h).mono fun f => hi.handed)

theorem mmapLoop_overlays {base n i k : Nat} (h : mmapLoop vm base fl n i = some (k, vm')) :
    i ≤ k ∧ k ≤ i + n ∧ Overlays fl (Handed vm) vm vm' (regionPages base i k) := by
  induction n generalizing vm i with
  | zero =>
    cases h
    exact ⟨le_rfl, le_rfl, by simpa [regionPages] using Overlays.nil fl (Handed vm') hk⟩
  | succ n ih =>
    rw [mmapLoop_succ] at h
    split at h
    · cases h
      have halloc : Overlays fl (Handed vm) vm vm.allocFrame.2 [] :=
        ⟨.allocFrame fl hk, le_rfl, (Spent.alloc hk.heap).subset, forall_mem_nil _, forall_mem_nil _⟩
      exact ⟨le_rfl, by omega, by simpa [regionPages] using halloc⟩
    · obtain ⟨vm₁, h1, h⟩ := bind_eq_some_iff.mp h
      have hstep := mapAlloc_overlays hfl hk h1
      obtain ⟨hle, hle', hrest⟩ := ih hstep.maps.ok h
      have hpages : regionPages base i k = [pagePath (pageAddr base i)] ++ regionPages base (i + 1) k := by
        obtain ⟨d, rfl⟩ := Nat.exists_eq_add_of_le hle
        have h1 : i + 1 + d - i = d + 1 := by omega
        simp [regionPages, h1, range'_succ]
      rw [hpages]
      exact ⟨by omega, by omega, hstep.append hfl (hrest.mono fun f => hstep.handed)⟩

end Overlays

/-! ## How far `sys_mmap` gets -/

/-- The page tables made for the first `i` pages of a region. -/
def Vm.tablesFor (vm : Vm) (base i : Nat) : Nat := vm.missing (regionPages base 0 i)

/-- Page `i` of a region gets a frame when the pages are mapped in order. -/
def Vm.Backed (vm : Vm) (base i : Nat) : Prop := Supplies vm.heap (vm.tablesFor base) (i + 1)

/-- The loop of `sys_mmap` once it has put pages on `fs`. -/
structure MmapState (fl : BitVec 64) (vm₀ vm : Vm) (base : Nat) (fs : List Nat) : Prop where
  maps : MapsRange fl vm₀ vm (regionPages base 0 fs.length)
  drawn : Drawn vm₀.heap vm.heap (vm₀.tablesFor base) fs
  pages : ∀ j (h : j < fs.length), PageOn vm (pagePath (pageAddr base j)) fs[j]

section Mmap
variable {fl : BitVec 64} {vm₀ vm vm' : Vm} {base n i k : Nat} {fs : List Nat}

theorem regionPages_length (base i k : Nat) : ∀ r ∈ regionPages base i k, r.length = 4 := by
  intro r hr
  obtain ⟨j, -, rfl⟩ := mem_map.mp hr
  rfl

theorem tablesFor_mono (vm : Vm) (base : Nat) : Monotone (vm.tablesFor base) := by
  refine monotone_nat_of_le_succ fun n => Vm.missing_mono ?_
  rw [regionPages_snoc]
  exact subset_append_left _ _

theorem tablesFor_zero (vm : Vm) (base : Nat) : vm.tablesFor base 0 = 0 := rfl

/-- The range has fewer pages than there are paths. -/
theorem region_ne (base : Nat) {i j : Nat} (hlt : i < j) (hj : j < 2 ^ 31) :
    pagePath (pageAddr base i) ≠ pagePath (pageAddr base j) := by
  rw [ne_eq, pagePath_eq_iff, pageAddr, pageAddr]
  omega

theorem MmapState.nil (hk : vm.Ready) : MmapState fl vm vm base [] :=
  ⟨.nil hk, .nil hk.heap (tablesFor_zero vm base), nofun⟩

theorem MmapState.snoc (h : MmapState fl vm₀ vm base fs) (hfl : fl.getLsbD 2 = true) (hn : fs.length < 2 ^ 31)
    (hne : vm.allocFrame.1 ≠ 0)
    (hmap : mapCleared vm.allocFrame.2 vm.allocFrame.1 (pageAddr base fs.length) fl = some vm') :
    MmapState fl vm₀ vm' base (fs ++ [vm.allocFrame.1]) := by
  have hk := h.maps.ok
  have hone := mapAlloc_overlays hfl hk hmap
  have hlen : (fs ++ [vm.allocFrame.1]).length = fs.length + 1 := by rw [length_append, length_singleton]
  refine ⟨?_, ?_, fun j hj => ?_⟩
  · rw [hlen, regionPages_snoc]
    exact h.maps.append hone.maps
  · refine h.drawn.snoc hne (mapCleared_maps (flags_ne_zero hfl) (MapsRange.allocFrame fl hk).ok hmap).2 ?_
    rw [Vm.tablesFor, regionPages_snoc]
    exact h.maps.missing_append (regionPages_length base 0 _) hone.length
  · rcases Nat.lt_or_eq_of_le (Nat.le_of_lt_succ (hlen ▸ hj)) with hlt | rfl
    · rw [getElem_append_left hlt]
      obtain ⟨w, u, hp⟩ := h.pages j hlt
      refine ⟨w, u, hone.maps.userPage hfl hone.length rfl (fun hm => ?_) hp⟩
      exact region_ne base hlt hn (mem_singleton.mp hm)
    · rw [getElem_concat_length rfl]
      exact mapAlloc_pageOn hfl hk hmap

end Mmap
end LiwusOS.Mm
