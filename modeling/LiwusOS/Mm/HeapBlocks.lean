import LiwusOS.Lib.Regions
import LiwusOS.Lib.Runs
import LiwusOS.Mm.HeapFrames
import Mathlib.Data.List.Nodup

/-! # The blocks of the kernel heap

Runs of the whole heap interface, `kfree` and `krealloc` included. A ledger
records the pointers that are live with the size each was asked for; the blocks
of the heap are the live ones and those on the free list. `kmalloc` and
`kmalloc_ap` either cut a block from the free list, shortening it in place, or
place one at or after `kheap_current`; `kmalloc_a` only does the second. Either
way no two blocks meet.

The sizes lie in the headers, the links in the first 16 bytes of the free
blocks. The model keeps both beside the memory, which is faithful as long as
those bytes belong to the block itself. -/

namespace LiwusOS.Mm
open LiwusOS.Lib List Function Relation
open Option (map_eq_some_iff)

variable {k k' : Kheap} {b ptr size total : Nat} {p : Nat × Nat}

inductive HeapOp where
  | alloc (call : HeapCall) (size : Nat)
  | kfree (ptr : Nat)
  | krealloc (ptr size : Nat)

structure Ledger where
  heap : Kheap
  /-- The pointers returned and not freed since, with the size asked for. -/
  live : List (Nat × Nat)

namespace Ledger

def liveHeaders (live : List (Nat × Nat)) : List Nat := live.map fun p => p.1 - headerSize

/-- The headers of all blocks. -/
def headers (u : Ledger) : List Nat := liveHeaders u.live ++ u.heap.freeList

def drop (ptr : Nat) (live : List (Nat × Nat)) : List (Nat × Nat) := live.filter (·.1 ≠ ptr)

def step (u : Ledger) : HeapOp → Option Ledger
  | .alloc call size => (heapCall u.heap call size).map fun (ptr, k) => ⟨k, (ptr, size) :: u.live⟩
  | .kfree ptr => some ⟨Mm.kfree u.heap ptr, drop ptr u.live⟩
  | .krealloc ptr size => (Mm.krealloc u.heap ptr size).map fun (np, k) =>
      if np = 0 then ⟨k, if size = 0 then drop ptr u.live else u.live⟩
      else ⟨k, (np, size) :: drop ptr u.live⟩

/-- A pointer that may be passed to `kfree` or `krealloc`. -/
def Holds (u : Ledger) (ptr : Nat) : Prop := ptr = 0 ∨ ptr ∈ u.live.map (·.1)

/-- Sizes are below 2 GiB, `kmalloc_a` is asked for 8 bytes or more, and only
live pointers are freed. -/
def Allowed (u : Ledger) : HeapOp → Prop
  | .alloc call size => size < 2 ^ 31 ∧ (call = .kmallocA → 8 ≤ size)
  | .kfree ptr => u.Holds ptr
  | .krealloc ptr size => size < 2 ^ 31 ∧ u.Holds ptr

def AllowedStep (u v : Ledger) : Prop := ∃ op, u.Allowed op ∧ u.step op = some v

/-- The representation invariant of the heap. -/
structure WellFormed (u : Ledger) : Prop where
  /-- No two blocks meet. -/
  disjoint : u.headers.Pairwise fun a b => ∀ x, a ≤ x → x < a + u.heap.blockSizeAt a →
    ¬ (b ≤ x ∧ x < b + u.heap.blockSizeAt b)
  inside : ∀ a ∈ u.headers, u.heap.kheapStart ≤ a ∧ a + u.heap.blockSizeAt a ≤ u.heap.kheapCurrent
  /-- A live pointer has the bytes it was asked for. -/
  usable : ∀ p ∈ u.live, p.1 + p.2 ≤ p.1 - headerSize + u.heap.blockSizeAt (p.1 - headerSize)
  /-- The 16 bytes `kfree` may write lie in the block. -/
  node : ∀ a ∈ u.heap.freeList, a + 16 ≤ a + u.heap.blockSizeAt a

end Ledger

/-- A heap before its first call, with or without `kheap_set_start`. Physical
addresses have far fewer than 62 bits. -/
structure Kheap.Fresh (k : Kheap) : Prop where
  free : k.freeList = []
  current : k.kheapCurrent = k.kheapStart
  start : k.kheapStart ≤ 2 ^ 62
  kernel : k.kernelEnd < 2 ^ 61
  memory : k.memorySize ≤ 2 ^ 62

/-! ## The invariant -/

namespace Ledger

structure Inv (u : Ledger) : Prop where
  regions : Regions 16 u.heap.blockSizeAt u.heap.kheapStart u.heap.kheapCurrent u.headers
  pointer : ∀ p ∈ u.live, headerSize ≤ p.1
  usable : ∀ p ∈ u.live, p.2 + headerSize ≤ u.heap.blockSizeAt (p.1 - headerSize)
  order : u.heap.kheapStart ≤ u.heap.kheapCurrent
  current : u.heap.kheapCurrent ≤ 2 ^ 62
  kernel : u.heap.kernelEnd < 2 ^ 61
  memory : u.heap.memorySize ≤ 2 ^ 62
  unset : u.heap.kheapStart = 0 → u.headers = []

variable {u v : Ledger}

theorem Inv.wellFormed (h : u.Inv) : u.WellFormed where
  disjoint := h.regions.apart.imp fun hab x h1 h2 ⟨h3, h4⟩ => by
    unfold Apart at hab
    omega
  inside := h.regions.inside
  usable p hp := by
    have h1 := h.pointer p hp
    have h2 := h.usable p hp
    omega
  node a ha := Nat.add_le_add_left (h.regions.large a (mem_append_right _ ha)) a

theorem fresh_inv (h : k.Fresh) : (⟨k, []⟩ : Ledger).Inv where
  regions := by
    rw [headers, h.free]
    exact Regions.nil
  pointer _ hp := absurd hp not_mem_nil
  usable _ hp := absurd hp not_mem_nil
  order := h.current.symm.le
  current := h.current ▸ h.start
  kernel := h.kernel
  memory := h.memory
  unset _ := by rw [headers, h.free]; rfl

section
variable (h : u.Inv)
include h

/-- The header of a live pointer, as `kfree` computes it. -/
theorem Inv.headerOf (hp : p ∈ u.live) :
    Mm.headerOf p.1 = p.1 - headerSize ∧ u.heap.kheapStart ≤ p.1 - headerSize ∧ p.1 ≠ 0 := by
  have hmem : p.1 - headerSize ∈ u.headers :=
    mem_append_left _ (mem_map.mpr ⟨p, hp, rfl⟩)
  have h1 := h.regions.inside _ hmem
  have h2 := h.pointer p hp
  have h3 := h.current
  unfold Mm.headerOf headerSize at *
  omega

/-- Setting the heap up changes no block: there is none yet. -/
theorem Inv.setStart (hs : u.heap.kheapStart = 0) {start : Nat} (hpos : 0 < start) (hle : start ≤ 2 ^ 62) :
    (⟨kheapSetStart u.heap start, u.live⟩ : Ledger).Inv ∧
      (kheapSetStart u.heap start).kheapStart ≠ 0 := by
  have hal := alignPage_le_two_pow hle
  have hnil : headers ⟨kheapSetStart u.heap start, u.live⟩ = [] := h.unset hs
  refine ⟨⟨by rw [hnil]; exact Regions.nil, h.pointer, h.usable, le_rfl, hal.2, h.kernel,
    h.memory, fun _ => hnil⟩, ?_⟩
  show alignPage start ≠ 0
  omega

theorem Inv.ready : (⟨kheapReady u.heap, u.live⟩ : Ledger).Inv ∧
    (kheapReady u.heap).kheapStart ≠ 0 := by
  rw [kheapReady]
  split
  · rename_i hs
    have hkernel := h.kernel
    exact h.setStart hs (by omega) (by omega)
  · rename_i hs
    exact ⟨h, hs⟩

theorem Inv.nodup : u.headers.Nodup := h.regions.nodup (by decide)

/-- A served block joins the live ones. -/
theorem Inv.served {n lo : Nat} (hs : u.heap.kheapStart ≠ 0) (hserved : Served u.heap k b n lo total)
    (hsize : size + headerSize ≤ n) (hlarge : 16 ≤ n) :
    (⟨k, (b + headerSize, size) :: u.live⟩ : Ledger).Inv ∧
      b ∉ liveHeaders u.live := by
  obtain ⟨hstart, hmem, hker, hgrow, hbound, hsizes, hplace⟩ := hserved
  have hhead : headers ⟨k, (b + headerSize, size) :: u.live⟩ =
      b :: (liveHeaders u.live ++ k.freeList) := by
    simp [headers, liveHeaders]
  have hregions : Regions 16 k.blockSizeAt k.kheapStart k.kheapCurrent
      (b :: (liveHeaders u.live ++ k.freeList)) ∧ b ∉ liveHeaders u.live := by
    rw [hsizes, hstart]
    cases hplace with
    | reused mem fits free pmm =>
      rw [free]
      constructor
      · -- the block moves from the free list to the live ones
        have hperm : u.headers.Perm (b :: (liveHeaders u.live ++ u.heap.freeList.erase b)) :=
          ((perm_cons_erase mem).append_left _).trans perm_middle
        exact ((h.regions.shrink_one fits hlarge).extend hgrow).perm hperm
      · exact fun hb => (nodup_append.mp h.nodup).2.2 b hb b mem rfl
    | fresh above below free pmm reserved room =>
      rw [free]
      have hb := above.trans reserved.1
      have hnot := h.regions.notMem_of_ge (by decide) hb
      exact ⟨h.regions.push (by decide) (h.order.trans hb) hb hlarge below,
        fun hb => hnot (mem_append_left _ hb)⟩
  refine ⟨⟨?_, ?_, ?_, by rw [hstart]; exact h.order.trans hgrow, hbound, by rw [hker]; exact h.kernel,
    by rw [hmem]; exact h.memory, ?_⟩, hregions.2⟩
  · rw [hhead]
    exact hregions.1
  · intro p hp
    rcases mem_cons.mp hp with rfl | hp
    · exact Nat.le_add_left _ _
    · exact h.pointer p hp
  · intro p hp
    show p.2 + headerSize ≤ k.blockSizeAt (p.1 - headerSize)
    rw [hsizes]
    rcases mem_cons.mp hp with rfl | hp
    · simpa using hsize
    · have hne : p.1 - headerSize ≠ b := ne_of_mem_of_not_mem (mem_map.mpr ⟨p, hp, rfl⟩) hregions.2
      rw [update_of_ne hne]
      exact h.usable p hp
  · intro h0
    exact absurd (hstart ▸ h0) hs

/-- A live pointer is on the ledger once. -/
theorem Inv.live_perm (hp : p ∈ u.live) : u.live.Perm (p :: drop p.1 u.live) := by
  have hnodup : (liveHeaders u.live).Nodup := (nodup_append.mp h.nodup).1
  have hdrop : drop p.1 u.live = u.live.erase p := by
    rw [drop, (List.Nodup.of_map _ hnodup).erase_eq_filter]
    refine filter_congr fun q hq => ?_
    have hinj : q.1 = p.1 → q = p := fun heq =>
      inj_on_of_nodup_map hnodup hq hp (congrArg (· - headerSize) heq)
    rw [Bool.eq_iff_iff, decide_eq_true_eq, bne_iff_ne]
    exact not_congr ⟨hinj, congrArg Prod.fst⟩
  rw [hdrop]
  exact perm_cons_erase hp

theorem Inv.headers_perm (hp : p ∈ u.live) :
    u.headers.Perm (liveHeaders (drop p.1 u.live) ++ (p.1 - headerSize) :: u.heap.freeList) := by
  have hmap : (liveHeaders u.live).Perm ((p.1 - headerSize) :: liveHeaders (drop p.1 u.live)) :=
    (h.live_perm hp).map _
  exact (hmap.append_right _).trans perm_middle.symm

theorem kfree_live (hp : p ∈ u.live) :
    Mm.kfree u.heap p.1 = { u.heap with
      pmm := if (p.1 - headerSize) % 4096 = 0 ∧ u.heap.blockSizeAt (p.1 - headerSize) ≥ 4096 then
          freePages u.heap.pmm (p.1 - headerSize) (u.heap.blockSizeAt (p.1 - headerSize) / 4096)
        else u.heap.pmm
      freeList := (p.1 - headerSize) :: u.heap.freeList } := by
  obtain ⟨hhead, hstart, h0⟩ := h.headerOf hp
  rw [Mm.kfree, if_neg h0, hhead, if_neg (not_lt.mpr hstart)]

/-- A live block goes to the free list. -/
theorem Inv.freed (hp : p ∈ u.live) : (⟨Mm.kfree u.heap p.1, drop p.1 u.live⟩ : Ledger).Inv := by
  have hheaders := h.headers_perm hp
  have hsub : ∀ q ∈ drop p.1 u.live, q ∈ u.live := fun q hq => (mem_filter.mp hq).1
  rw [kfree_live h hp]
  exact ⟨h.regions.perm hheaders, fun q hq => h.pointer q (hsub q hq),
    fun q hq => h.usable q (hsub q hq), h.order, h.current, h.kernel, h.memory,
    fun h0 => perm_nil.mp ((h.unset h0) ▸ hheaders).symm⟩

theorem Inv.drop_zero : drop 0 u.live = u.live :=
  filter_eq_self.mpr fun _ hq => decide_eq_true (h.headerOf hq).2.2

theorem Inv.kfree (hptr : u.Holds ptr) : (⟨Mm.kfree u.heap ptr, drop ptr u.live⟩ : Ledger).Inv := by
  rcases hptr with rfl | hmem
  · rw [h.drop_zero]
    exact h
  · obtain ⟨p, hp, rfl⟩ := mem_map.mp hmem
    exact h.freed hp

/-- What an allocation does. The block may lie where `kheap_set_start` has just
put the heap. -/
theorem Inv.alloc {call : HeapCall} (hok : u.Allowed (.alloc call size)) (hv : u.step (.alloc call size) = some v) :
    ∃ b n, v.live = (b + headerSize, size) :: u.live ∧
      (∃ lo total, Served (kheapReady u.heap) v.heap b n lo total) ∧
      b ∉ liveHeaders u.live ∧ v.Inv := by
  obtain ⟨⟨ptr, k⟩, hcall, rfl⟩ := map_eq_some_iff.mp hv
  obtain ⟨hready, hs⟩ := h.ready
  have hcall' : heapCall (kheapReady u.heap) call size = some (ptr, k) := by
    rw [← hcall]
    cases call <;> simp only [heapCall, kmalloc, kmallocA, kmallocAp, kheapReady_started hs]
  obtain ⟨b, n, rfl, hserved, hroom, hlarge⟩ :=
    heapCall_served hcall' ⟨hs, hready.current, hready.memory⟩ fun _ => hok.1
  obtain ⟨hinv, hnew⟩ := hready.served hs hserved (hroom hok.1) (hlarge hok.2)
  exact ⟨b, n, rfl, ⟨_, _, hserved⟩, hnew, hinv⟩

/-- `krealloc` that leaves the block where it is. -/
theorem Inv.resized (hp : p ∈ u.live) (hroom : size + headerSize ≤ u.heap.blockSizeAt (p.1 - headerSize)) :
    (⟨u.heap, (p.1, size) :: drop p.1 u.live⟩ : Ledger).Inv := by
  have hmap : (liveHeaders u.live).Perm (liveHeaders ((p.1, size) :: drop p.1 u.live)) :=
    (h.live_perm hp).map _
  have hmem : ∀ q ∈ (p.1, size) :: drop p.1 u.live, q = (p.1, size) ∨ q ∈ u.live := fun q hq =>
    (mem_cons.mp hq).imp_right fun hq => (mem_filter.mp hq).1
  refine ⟨h.regions.perm (hmap.append_right _), fun q hq => ?_, fun q hq => ?_, h.order, h.current,
    h.kernel, h.memory, fun h0 => ?_⟩
  · rcases hmem q hq with rfl | hq
    · exact h.pointer p hp
    · exact h.pointer q hq
  · rcases hmem q hq with rfl | hq
    · exact hroom
    · exact h.usable q hq
  · have hnil := h.unset h0
    rw [headers, append_eq_nil_iff] at hnil
    rw [map_eq_nil_iff.mp hnil.1] at hp
    cases hp

/-- A `krealloc` is an allocation, a `kfree`, both in this order, or only a
note that the caller now relies on fewer or more bytes of the same block. -/
theorem Inv.krealloc_cases (hok : u.Allowed (.krealloc ptr size)) (hv : u.step (.krealloc ptr size) = some v) :
    ptr = 0 ∧ u.step (.alloc .kmalloc size) = some v ∨
    ptr ≠ 0 ∧ u.step (.kfree ptr) = some v ∨
    (∃ p ∈ u.live, size + headerSize ≤ u.heap.blockSizeAt (p.1 - headerSize) ∧
      v = ⟨u.heap, (p.1, size) :: drop p.1 u.live⟩) ∨
    ∃ w, ∃ p ∈ u.live, p.1 = ptr ∧ u.step (.alloc .kmalloc size) = some w ∧
      w.step (.kfree ptr) = some v := by
  obtain ⟨⟨np, k⟩, hcall, rfl⟩ := map_eq_some_iff.mp hv
  dsimp only
  -- a block that `kmalloc` returns is not NULL, and its pointer is not live yet
  have hkmalloc : ∀ {np k}, kmalloc u.heap size = some (np, k) →
      u.step (.alloc .kmalloc size) = some ⟨k, (np, size) :: u.live⟩ ∧ np ≠ 0 ∧
      ∀ p ∈ u.live, np ≠ p.1 := by
    intro np k hk
    have hstep : u.step (.alloc .kmalloc size) = some ⟨k, (np, size) :: u.live⟩ := by
      rw [step, heapCall, hk, Option.map_some]
    obtain ⟨b, n, hlive, -, hnew, -⟩ := h.alloc ⟨hok.1, fun hc => by cases hc⟩ hstep
    have hnp : np = b + headerSize := congrArg Prod.fst (List.cons.inj hlive).1
    refine ⟨hstep, hnp ▸ Nat.succ_ne_zero _, fun p hp heq => hnew ?_⟩
    exact mem_map.mpr ⟨p, hp, by rw [← heq, hnp, Nat.add_sub_cancel]⟩
  by_cases hz : ptr = 0
  · rw [Mm.krealloc, if_pos hz] at hcall
    obtain ⟨hstep, hne, -⟩ := hkmalloc hcall
    rw [if_neg hne, hz, h.drop_zero]
    exact .inl ⟨rfl, hstep⟩
  obtain ⟨p, hp, rfl⟩ := mem_map.mp (hok.2.resolve_left hz)
  obtain ⟨hhead, hstart, -⟩ := h.headerOf hp
  rw [Mm.krealloc, if_neg hz] at hcall
  by_cases hs : size = 0
  · rw [if_pos hs] at hcall
    cases hcall
    rw [if_pos rfl, if_pos hs]
    exact .inr (.inl ⟨hz, rfl⟩)
  rw [if_neg hs, hhead, if_neg (not_lt.mpr hstart)] at hcall
  dsimp only at hcall
  generalize hold : (if u.heap.blockSizeAt (p.1 - headerSize) > headerSize then
    u.heap.blockSizeAt (p.1 - headerSize) - headerSize else 0) = old at hcall
  split at hcall
  · rename_i hle
    cases hcall
    rw [if_neg hz]
    refine .inr (.inr (.inl ⟨p, hp, ?_, rfl⟩))
    split at hold <;> omega
  · obtain ⟨⟨np', k'⟩, hk, heq⟩ := map_eq_some_iff.mp hcall
    cases heq
    obtain ⟨hstep, hne, hnew⟩ := hkmalloc hk
    rw [if_neg hne]
    refine .inr (.inr (.inr ⟨_, p, hp, rfl, hstep, ?_⟩))
    simp [step, drop, hnew p hp]

theorem allowedStep_inv (hstep : AllowedStep u v) : v.Inv := by
  obtain ⟨op, hok, hv⟩ := hstep
  -- the two calls that the others are made of
  have halloc : ∀ {call size w}, u.Allowed (.alloc call size) → u.step (.alloc call size) = some w →
      w.Inv := fun hok hw => (h.alloc hok hw).choose_spec.choose_spec.2.2.2
  cases op with
  | alloc call size => exact halloc hok hv
  | kfree ptr =>
    cases hv
    exact h.kfree hok
  | krealloc ptr size =>
    have hok' : u.Allowed (.alloc .kmalloc size) := ⟨hok.1, fun hc => by cases hc⟩
    rcases h.krealloc_cases hok hv with ⟨-, hv⟩ | ⟨-, hv⟩ | ⟨p, hp, hroom, rfl⟩ | ⟨w, p, hp, rfl, hw, hv⟩
    · exact halloc hok' hv
    · cases hv
      exact h.kfree hok.2
    · exact h.resized hp hroom
    · obtain ⟨b, n, hlive, -, -, hinv⟩ := h.alloc hok' hw
      cases hv
      exact hinv.freed (hlive ▸ .tail _ hp)

end

/-- **The heap keeps its representation invariant** in every run of its
interface from a heap that has not been used. -/
theorem heap_wellFormed {k : Kheap} (hk : k.Fresh) (hr : ReflTransGen AllowedStep ⟨k, []⟩ u) : u.WellFormed := by
  have hinv : u.Inv := by
    induction hr with
    | refl => exact fresh_inv hk
    | tail _ hstep ih => exact allowedStep_inv ih hstep
  exact hinv.wellFormed

end Ledger

/-! ## The heap after boot -/

theorem bootHeap_fresh {i : BootInfo} (h : i.Sane) : (bootHeap i).Fresh := by
  obtain ⟨hmem, -, hs⟩ := heapStart_bounds h
  obtain ⟨-, hmemory, hstart, hcurrent, hfree⟩ := bootHeap_fields i
  have hkernel := h.kernel
  exact ⟨hfree, hcurrent.trans hstart.symm, hstart ▸ (alignPage_le_two_pow hs).2,
    hkernel.trans (by decide), hmemory ▸ hmem⟩

instance (u : Ledger) (op : HeapOp) : Decidable (u.Allowed op) := by
  cases op <;> dsimp only [Ledger.Allowed, Ledger.Holds] <;> infer_instance

/-- A run that allocates a block, has `krealloc` move it and frees it. -/
theorem heap_wellFormed_largeInitrd : ∃ u,
    ReflTransGen Ledger.AllowedStep ⟨bootHeap largeInitrd, []⟩ u ∧
    u.heap.freeList = [8194 * 4096 + 24, 8194 * 4096] ∧ u.WellFormed := by
  obtain ⟨u, hr, hfree⟩ : ∃ u, ReflTransGen Ledger.AllowedStep ⟨bootHeap largeInitrd, []⟩ u ∧
      u.heap.freeList = [8194 * 4096 + 24, 8194 * 4096] :=
    exists_run (fun _ => Ledger.step) Ledger.Allowed (fun h hv => ⟨_, h, hv⟩)
      [(.alloc .kmalloc 16, 0), (.krealloc (8194 * 4096 + 8) 100, 0), (.kfree (8194 * 4096 + 32), 0)]
        (by decide +kernel)
  exact ⟨u, hr, hfree, Ledger.heap_wellFormed (bootHeap_fresh largeInitrd_sane) hr⟩

end LiwusOS.Mm
