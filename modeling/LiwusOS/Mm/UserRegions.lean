import Mathlib
import LiwusOS.Mm.UserConfined

/-! # Heap, mappings and stack of a task

The heap grows up from `heap_start` and the mappings grow down from `mmap_top`.
`sys_brk` knows no limit and `sys_mmap` a fixed one. The regions stay apart as
long as each call stops at the other's boundary. -/

namespace LiwusOS.Mm
open LiwusOS.Lib List
open LiwusOS.Sched (Task)

/-! ## Sequences of calls -/

def stackBase : Nat := 0xBFFF0000
def stackTop : Nat := 0xC0000000

/-- A task's memory with what its calls have returned. -/
structure Session where
  mem : UserMem
  /-- The ranges `sys_mmap` has returned. -/
  ranges : List (Nat × Nat)
  /-- The pages the calls have returned, with what each was mapped to then. -/
  pages : List (Nat × Option (Nat × Bool × Bool))

inductive MemCall where
  | brk (addr : Nat)
  | mmap (addr length prot flags : Nat)

/-- `length` in whole pages. -/
def mmapSpan (length : Nat) : Nat := max ((length + 4095) / 4096 * 4096) 4096

namespace Session

/-- The pages at `vs` as they are mapped. -/
def record (vm : Vm) (vs : List Nat) : List (Nat × Option (Nat × Bool × Bool)) :=
  vs.map fun v => (v, (vm.lookup (pagePath v)).map Mapping.access)

def step (s : Session) : MemCall → Option Session
  | .brk addr => (sysBrk s.mem addr).map fun (_, m) =>
    { s with mem := m, pages := record m.vm (brkMapped s.mem addr) ++ s.pages }
  | .mmap addr length prot flags => (sysMmap s.mem addr length prot flags).map fun (r, m) =>
    if r = mapFailed then { s with mem := m }
    else {
      mem := m
      ranges := (r, r + mmapSpan length) :: s.ranges
      pages := record m.vm (mmapMapped s.mem addr length prot flags) ++ s.pages }

/-- Without `MAP_FIXED`, or without an address to fix. -/
def NonFixed : MemCall → Prop
  | .brk _ => True
  | .mmap addr _ _ flags => (hasFlag flags mapFixed && addr ≠ 0) = false

/-- The calls that stop at the other region's boundary, or are refused. -/
def Clear (t : Task) : MemCall → Prop
  | .brk addr => addr ≤ t.mmapTop
  | .mmap addr length _ flags =>
    mmapBase t addr length flags = none ∨ t.heapEnd + mmapSpan length ≤ t.mmapTop

def ClearStep (s s' : Session) : Prop :=
  ∃ call, NonFixed call ∧ (∀ t, s.mem.task = some t → Clear t call) ∧ s.step call = some s'

/-- A task as `create_user_task_64_named` makes it. -/
structure Start (s : Session) : Prop where
  ready : s.mem.vm.heap.Ready
  space : s.mem.vm.Space s.mem.vm.currentDirectory.pml4
  task : ∃ t, s.mem.task = some t ∧ t.heapEnd = t.heapStart ∧ t.mmapTop = stackBase
  ranges : s.ranges = []
  pages : s.pages = []

/-- Heap, stack and mappings do not meet. -/
def Apart (s : Session) : Prop := ∀ t, s.mem.task = some t →
  ((t.heapStart, t.heapEnd) :: (stackBase, stackTop) :: s.ranges).Pairwise fun a b =>
    Disjoint (Set.Ico a.1 a.2) (Set.Ico b.1 b.2)

/-- Each page that was returned is mapped as it was then. -/
def Kept (s : Session) : Prop := ∀ p ∈ s.pages,
  p.2.isSome ∧ (s.mem.vm.lookup (pagePath p.1)).map Mapping.access = p.2

/-! ### The invariant -/

structure Inv (s : Session) (t : Task) : Prop where
  task : s.mem.task = some t
  ready : s.mem.vm.heap.Ready
  space : s.mem.vm.Space s.mem.vm.currentDirectory.pml4
  heap : t.heapStart ≤ t.heapEnd
  top : t.mmapTop ≤ stackBase
  aligned : t.mmapTop % 4096 = 0
  below : t.heapEnd = t.heapStart ∨ t.heapEnd ≤ t.mmapTop
  inside : ∀ r ∈ s.ranges, t.mmapTop ≤ r.1 ∧ r.2 ≤ stackBase
  apart : s.ranges.Pairwise fun a b => Disjoint (Set.Ico a.1 a.2) (Set.Ico b.1 b.2)
  /-- A page belongs to the heap or to the mappings. -/
  places : ∀ p ∈ s.pages, p.1 % 4096 = 0 ∧ p.1 < stackBase ∧ (p.1 + 4096 ≤ t.heapEnd ∨ t.mmapTop ≤ p.1)
  user : ∀ p ∈ s.pages, UserPage s.mem.vm (pagePath p.1) p.2

variable {s s' : Session} {t : Task}

theorem Start.inv (h : s.Start) : ∃ t, s.Inv t := by
  obtain ⟨t, ht, hheap, htop⟩ := h.task
  refine ⟨t, ⟨ht, h.ready, h.space, by omega, by omega, by rw [htop]; rfl, .inl hheap, ?_, ?_, ?_, ?_⟩⟩
  · simp [h.ranges]
  · simp [h.ranges]
  · simp [h.pages]
  · simp [h.pages]

theorem disjoint_of_le {a b c d : Nat} (h : b ≤ c) : Disjoint (Set.Ico a b) (Set.Ico c d) :=
  Set.Ico_disjoint_Ico.mpr (le_trans (min_le_left b d) (le_trans h (le_max_right a c)))

theorem Inv.regions (h : s.Inv t) : s.Apart := by
  intro t' ht'
  obtain rfl : t = t' := by rw [h.task] at ht'; exact Option.some.inj ht'
  have hstack : ∀ r ∈ s.ranges, Disjoint (Set.Ico stackBase stackTop) (Set.Ico r.1 r.2) := fun r hr =>
    (disjoint_of_le (h.inside r hr).2).symm
  refine pairwise_cons.mpr ⟨?_, pairwise_cons.mpr ⟨hstack, h.apart⟩⟩
  rcases h.below with hempty | hbelow
  · intro r _
    simp [hempty]
  · refine forall_mem_cons.mpr ⟨disjoint_of_le (le_trans hbelow h.top), fun r hr => ?_⟩
    exact disjoint_of_le (le_trans hbelow (h.inside r hr).1)

theorem Inv.kept (h : s.Inv t) : s.Kept := by
  intro p hp
  obtain ⟨a, ha, -, -, hx⟩ := h.user p hp
  rw [← hx, ha]
  exact ⟨rfl, rfl⟩

/-- Two pages below `2 ^ 48` have the same path only if they are one. -/
theorem pagePath_inj {v w : Nat} (hv : v < 2 ^ 48) (hw : w < 2 ^ 48) (h : pagePath v = pagePath w) :
    v / 4096 = w / 4096 := by
  rw [pagePath_eq_iff] at h
  omega

/-- The pages of a call and the pages from before, when they are different. -/
theorem user_append {fl : BitVec 64} {vm vm' : Vm} {vs : List Nat} {ps : List (Nat × Option (Nat × Bool × Bool))}
    {New : Nat → Prop} (hfl : fl.getLsbD 2 = true) (ho : Overlays fl New vm vm' (vs.map pagePath))
    (hold : ∀ p ∈ ps, UserPage vm (pagePath p.1) p.2) (hne : ∀ p ∈ ps, pagePath p.1 ∉ vs.map pagePath) :
    ∀ p ∈ record vm' vs ++ ps, UserPage vm' (pagePath p.1) p.2 := by
  intro p hp
  rcases mem_append.mp hp with hp | hp
  · obtain ⟨v, hv, rfl⟩ := mem_map.mp hp
    obtain ⟨x, hx⟩ := ho.userPage (mem_map_of_mem hv)
    exact hx.record
  · exact ho.maps.userPage hfl ho.length rfl (hne p hp) (hold p hp)

/-! ### The steps -/

theorem roundUpPage_eq {x : Nat} (hx : x ≤ stackBase) : roundUpPage x = (x + 4095) / 4096 * 4096 := by
  unfold roundUpPage stackBase at *
  omega

/-- The pages of a range between the heap and the mappings are new, -/
theorem Inv.fresh (h : s.Inv t) {base n : Nat} (hmod : base % 4096 = 0) (hlo : t.heapEnd ≤ base)
    (hhi : base + n * 4096 ≤ t.mmapTop) : ∀ p ∈ s.pages, pagePath p.1 ∉ (regionAddrs base n).map pagePath := by
  intro p hp hin
  obtain ⟨v, hv, heq⟩ := mem_map.mp hin
  obtain ⟨hpmod, hlt, hplace⟩ := h.places p hp
  have htop := h.top
  unfold stackBase at *
  obtain ⟨i, hi, rfl⟩ := (mem_regionAddrs (by omega)).mp hv
  have hpage := pagePath_inj (by omega) (by omega) heq
  omega

/-- and belong to the one or to the other when that is extended. -/
theorem Inv.placed (h : s.Inv t) {base n lo hi : Nat} (hmod : base % 4096 = 0) (hlo : t.heapEnd ≤ lo)
    (hhi : hi ≤ t.mmapTop) (hend : base + n * 4096 ≤ t.mmapTop) (hcover : base + n * 4096 ≤ lo ∨ hi ≤ base) (vm : Vm) :
    ∀ p ∈ record vm (regionAddrs base n) ++ s.pages,
      p.1 % 4096 = 0 ∧ p.1 < stackBase ∧ (p.1 + 4096 ≤ lo ∨ hi ≤ p.1) := by
  intro p hp
  have htop := h.top
  rcases mem_append.mp hp with hp | hp
  · obtain ⟨v, hv, rfl⟩ := mem_map.mp hp
    obtain ⟨i, hi, rfl⟩ := (mem_regionAddrs (by unfold stackBase at htop; omega)).mp hv
    dsimp only
    omega
  · have := h.places p hp
    omega

theorem Inv.brk {addr : Nat} (h : s.Inv t) (hc : addr ≤ t.mmapTop) (hs : s.step (.brk addr) = some s') :
    ∃ t', s'.Inv t' := by
  obtain ⟨⟨r, m⟩, hbrk, rfl⟩ := Option.map_eq_some_iff.mp hs
  have htop : brkTop t = t.heapEnd := if_neg (not_lt.mpr h.heap)
  rcases sysBrk_cases hbrk with ⟨rfl, hnil, -⟩ | ⟨t', vm, ht, h0, hlt, hloop, hpages, -, rfl⟩
  · rw [hnil]
    exact ⟨t, h⟩
  · cases h.task.symm.trans ht
    have htop' := h.top
    have haligned := h.aligned
    have hend : roundUpPage addr = (addr + 4095) / 4096 * 4096 := roundUpPage_eq (by omega)
    have hstart : roundUpPage (brkTop t) = (t.heapEnd + 4095) / 4096 * 4096 := by
      rw [htop]
      exact roundUpPage_eq (by omega)
    have hspan : roundUpPage (brkTop t) + brkPages t addr * 4096 = roundUpPage addr := by
      rw [brkPages, hstart, hend]
      omega
    have hle : roundUpPage addr ≤ t.mmapTop := by omega
    have hmod : roundUpPage (brkTop t) % 4096 = 0 := by omega
    have hgrown : t.heapEnd ≤ roundUpPage addr := by omega
    have ho := brkLoop_overlays ⟨h.ready, h.space⟩ hloop
    rw [regionPages_eq] at ho
    rw [hpages]
    refine ⟨{ t with heapEnd := roundUpPage addr }, ⟨rfl, ho.maps.ready, ho.maps.ok.space, ?_, htop', haligned,
      .inr hle, h.inside, h.apart, h.placed hmod hgrown le_rfl (by omega) (.inl (by omega)) vm,
      user_append (by decide) ho h.user (h.fresh hmod (by omega) (by omega))⟩⟩
    have := h.heap
    change t.heapStart ≤ roundUpPage addr
    omega

theorem mmapLength_eq {length : Nat} (h : mmapSpan length ≤ stackBase) : mmapLength length = mmapSpan length := by
  unfold mmapSpan stackBase at h
  have hup : roundUpPage length = (length + 4095) / 4096 * 4096 := by
    unfold roundUpPage
    omega
  rw [mmapLength, hup, mmapSpan]
  split <;> omega

theorem mmapPages_eq {length : Nat} (h : mmapSpan length ≤ stackBase) :
    mmapPages length * 4096 = mmapSpan length := by
  have hmod : mmapSpan length % 4096 = 0 := by
    unfold mmapSpan
    omega
  have hlen := mmapLength_eq h
  unfold stackBase at h
  rw [mmapPages, hlen, if_pos (by omega)]
  omega

theorem Inv.mmap {addr length prot flags : Nat} (h : s.Inv t) (hf : (hasFlag flags mapFixed && addr ≠ 0) = false)
    (hc : mmapBase t addr length flags = none ∨ t.heapEnd + mmapSpan length ≤ t.mmapTop)
    (hs : s.step (.mmap addr length prot flags) = some s') : ∃ t', s'.Inv t' := by
  obtain ⟨⟨r, m⟩, hmmap, heq⟩ := Option.map_eq_some_iff.mp hs
  dsimp only at heq
  rw [sysMmap, h.task] at hmmap
  dsimp only at hmmap
  cases hbase : mmapBase t addr length flags with
  | none =>
    rw [hbase] at hmmap
    cases hmmap
    rw [if_pos rfl] at heq
    exact ⟨t, heq ▸ h⟩
  | some base =>
    rw [hbase] at hmmap
    have hle : t.heapEnd + mmapSpan length ≤ t.mmapTop := hc.resolve_left (by simp [hbase])
    have htop := h.top
    have hspan : mmapSpan length ≤ stackBase := by omega
    have hpos : 4096 ≤ mmapSpan length := le_max_right _ _
    have hpages := mmapPages_eq hspan
    have hb : base = t.mmapTop - mmapSpan length := by
      obtain ⟨-, ⟨hfixed, -⟩ | ⟨-, -, heq⟩⟩ := mmapBase_cases hbase
      · simp [hfixed] at hf
      · rw [heq, mmapLength_eq hspan]
        unfold stackBase at *
        omega
    obtain ⟨⟨i, vm⟩, hloop, hres⟩ := Option.map_eq_some_iff.mp hmmap
    obtain ⟨-, hi, ho⟩ := mmapLoop_overlays (mmapFlags_user prot) ⟨h.ready, h.space⟩ hloop
    have hmapped : mmapMapped s.mem addr length prot flags = regionAddrs base i := by
      simp only [mmapMapped, h.task, hbase, hloop]
    rw [regionPages_eq] at ho
    -- the range lies between the heap and the mappings from before
    have hmod : base % 4096 = 0 := by
      have := h.aligned
      omega
    have hnew := h.fresh hmod (by omega : t.heapEnd ≤ base) (by omega : base + i * 4096 ≤ t.mmapTop)
    dsimp only at hres
    split at hres
    · -- out of frames: what was mapped is unmapped again
      cases hres
      rw [if_pos rfl] at heq
      subst heq
      have hun := unmapLoop_unmapsRange base i ho.maps.ok
      rw [regionPages_eq] at hun
      refine ⟨t, ⟨rfl, hun.ready, hun.ok.space, h.heap, htop, h.aligned, h.below, h.inside,
        h.apart, h.places, fun p hp => ?_⟩⟩
      refine (h.user p hp).touched (mmapFlags_user prot) ho.length ?_
      rw [← ho.maps.lookup _ rfl (hnew p hp), Vm.lookup, hun.directory]
      exact hun.other _ rfl (hnew p hp)
    · rw [if_neg (by simpa using hf), Prod.mk.injEq] at hres
      obtain ⟨rfl, rfl⟩ := hres
      rw [if_neg (by unfold mapFailed stackBase at *; omega), hmapped] at heq
      subst heq
      refine ⟨{ t with mmapTop := base }, ⟨rfl, ho.maps.ready, ho.maps.ok.space, h.heap, ?_, hmod, .inr ?_, ?_, ?_,
        h.placed hmod le_rfl (by omega) (by omega) (.inr le_rfl) vm,
        user_append (mmapFlags_user prot) ho h.user hnew⟩⟩
      · change base ≤ stackBase
        omega
      · change t.heapEnd ≤ base
        omega
      · refine forall_mem_cons.mpr ⟨?_, fun r hr => ?_⟩
        · change base ≤ base ∧ base + mmapSpan length ≤ stackBase
          omega
        · have := h.inside r hr
          change base ≤ r.1 ∧ _
          omega
      · refine pairwise_cons.mpr ⟨fun r hr => disjoint_of_le ?_, h.apart⟩
        have := (h.inside r hr).1
        change base + mmapSpan length ≤ r.1
        omega

theorem Inv.step (h : s.Inv t) (hs : ClearStep s s') : ∃ t', s'.Inv t' := by
  obtain ⟨call, hf, hc, hs⟩ := hs
  cases call with
  | brk addr => exact h.brk (hc t h.task) hs
  | mmap addr length prot flags => exact h.mmap hf (hc t h.task) hs

end Session
end LiwusOS.Mm
