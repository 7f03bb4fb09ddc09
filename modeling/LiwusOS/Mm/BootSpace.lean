import LiwusOS.Mm.MapPage

/-! # The address space after boot

`boot.s` maps the first gigabyte with 2 MB pages and `init_vmm` takes that over
as the kernel's directory. User code (from 4 MB) and user data lie in the same
range, below entries without `PTE_U`. -/

namespace LiwusOS.Mm
open LiwusOS.Lib Option

section
variable {f t x n : Nat} {i : Fin 512}

theorem bootTables_pml4 : bootTables f f i = if i = 0 then ⟨f + 1, 0x3#12⟩ else Pte.zero := by
  simp [bootTables]

theorem bootTables_pdp : bootTables f (f + 1) i = if i = 0 then ⟨f + 2, 0x3#12⟩ else Pte.zero := by
  simp [bootTables]

theorem bootTables_pd : bootTables f (f + 2) i = ⟨512 * i, 0x83#12⟩ := by
  simp [bootTables]

/-- The two kinds of entries. -/
theorem bootFlags_table : Pte.present ⟨t, 0x3#12⟩ = true ∧ Pte.large ⟨t, 0x3#12⟩ = false := by
  simp [Pte.present, Pte.large]

theorem bootFlags_page : Pte.present ⟨t, 0x83#12⟩ = true ∧ Pte.large ⟨t, 0x83#12⟩ = true := by
  simp [Pte.present, Pte.large]

theorem bootTables_pd_child : (bootTables f (f + 2) i).child = none := by
  simp [bootTables_pd, Pte.child, bootFlags_page]

theorem bootTables_pdp_child (h : (bootTables f (f + 1) i).child = some t) : i = 0 ∧ t = f + 2 := by
  rw [bootTables_pdp] at h
  split at h
  · exact ⟨‹_›, (Pte.child_eq_some.mp h).2.2.symm⟩
  · cases h

theorem bootTables_pml4_child (h : (bootTables f f i).child = some t) : i = 0 ∧ t = f + 1 := by
  rw [bootTables_pml4] at h
  split at h
  · exact ⟨‹_›, (Pte.child_eq_some.mp h).2.2.symm⟩
  · cases h

theorem bootTables_reaches_pd (h : Reaches Pte.child (bootTables f) n (f + 2) x) : x = f + 2 :=
  reaches_childless (fun _ => bootTables_pd_child) h

theorem bootTables_reaches_pdp (h : Reaches Pte.child (bootTables f) (n + 1) (f + 1) x) : x = f + 1 ∨ x = f + 2 := by
  rcases h with rfl | ⟨i, t, hc, hx⟩
  · exact .inl rfl
  · obtain ⟨-, rfl⟩ := bootTables_pdp_child hc
    exact .inr (bootTables_reaches_pd hx)

theorem bootTables_reaches (h : Reaches Pte.child (bootTables f) 3 f x) : f ≤ x ∧ x ≤ f + 2 := by
  rcases h with rfl | ⟨i, t, hc, hx⟩
  · omega
  · obtain ⟨-, rfl⟩ := bootTables_pml4_child hc
    rcases bootTables_reaches_pdp hx with rfl | rfl <;> omega

theorem bootTables_tree : Tree Pte.child (bootTables f) 3 f := by
  intro i t hc
  obtain ⟨rfl, rfl⟩ := bootTables_pml4_child hc
  refine ⟨fun j u hd => ?_, fun hr => ?_, fun j u hj hd => ?_⟩
  · obtain ⟨rfl, rfl⟩ := bootTables_pdp_child hd
    refine ⟨fun k v he => ?_, fun hr => ?_, fun k v hk he => ?_⟩
    · rw [bootTables_pd_child] at he
      cases he
    · have := bootTables_reaches_pd hr
      omega
    · exact absurd (bootTables_pdp_child he).1 hk
  · rcases bootTables_reaches_pdp hr with h | h <;> omega
  · exact absurd (bootTables_pml4_child hd).1 hj

theorem bootTables_plain : Plain (bootTables f) 3 f := by
  intro i hp
  rw [bootTables_pml4] at hp ⊢
  split at hp
  · rw [if_pos ‹_›]
    refine ⟨bootFlags_table.2, fun j hq => ?_⟩
    rw [bootTables_pdp] at hq ⊢
    split at hq
    · rw [if_pos ‹_›]
      exact ⟨bootFlags_table.2, trivial⟩
    · cases hq
  · cases hp

/-- The first gigabyte is mapped to itself, for the kernel only. -/
theorem translate_bootTables (i j k l : Fin 512) : translate (bootTables f) f [i, j, k, l] =
    if i = 0 ∧ j = 0 then some ⟨512 * k + l, [0x3#12, 0x3#12, 0x83#12]⟩ else none := by
  by_cases hi : i = 0
  · by_cases hj : j = 0
    · simp [translate, bootTables, hi, hj, Pte.present, Pte.large, pageOffset, Nat.mul_comm]
    · simp [translate, bootTables, hi, hj, Pte.present, Pte.large, Pte.zero]
  · simp [translate, bootTables, hi, Pte.present, Pte.zero]

theorem translate_bootTables_some {q : List (Fin 512)} {a : Mapping} (hq : q.length = 4)
    (h : translate (bootTables f) f q = some a) :
    ∃ k l : Fin 512, q = [0, 0, k, l] ∧ a = ⟨512 * k + l, [0x3#12, 0x3#12, 0x83#12]⟩ := by
  match q, hq with
  | [i, j, k, l], _ =>
    rw [translate_bootTables] at h
    split at h
    · rename_i h0
      obtain ⟨rfl, rfl⟩ := h0
      cases h
      exact ⟨k, l, rfl, rfl⟩
    · cases h

end

/-- A space without pages. -/
theorem Vm.Space.empty {vm : Vm} {root : Nat} (h : ∀ t i, vm.table t i = Pte.zero) (hroot : root < vm.heap.top) :
    vm.Space root := by
  have hchild : ∀ t i, (vm.table t i).child = none := fun t i => by rw [h, Pte.child_zero]
  refine ⟨fun i t hc => ?_, fun i hp => ?_, fun x hx => ?_⟩
  · rw [hchild] at hc
    cases hc
  · rw [h, Pte.present_zero] at hp
    cases hp
  · rw [reaches_childless (hchild _) hx]
    exact hroot

/-- `init_vmm` after the boot of `largeInitrd`. -/
theorem initVmm_largeInitrd {table : Tables} {page : Nat → Fin 4096 → UInt8} {cr3 : Nat} {vm : Vm}
    (h : initVmm (bootHeap largeInitrd) table page cr3 = some vm) :
    vm.heap.Ready ∧ 0x2000 ≤ vm.heap.top ∧ vm.table = table ∧ vm.kernelDirectory.pml4 = cr3 / 4096 ∧
      vm.currentDirectory = vm.kernelDirectory := by
  obtain ⟨⟨addr, k⟩, hk, rfl⟩ := map_eq_some_iff.mp h
  have heval : ∀ p ∈ kmallocA (bootHeap largeInitrd) 16, p.2.kheapStart ≠ 0 ∧ p.2.kheapCurrent ≤ 2 ^ 62 ∧
      p.2.memorySize ≤ 2 ^ 62 ∧ 0x2000 ≤ p.2.top := by
    rw [bootHeap_largeInitrd]
    decide +kernel
  obtain ⟨hstarted, hbound, hmemory, htop⟩ := heval _ hk
  exact ⟨⟨hstarted, hbound, hmemory⟩, htop, rfl, rfl, rfl⟩

/-- The machine of `largeInitrd` after `init_vmm`, with the tables at 0x13F0000. -/
def booted : Option Vm := initVmm (bootHeap largeInitrd) (bootTables 0x13F0) (fun _ _ => 0) 0x13F0000

section Booted
variable {vm : Vm} (h : booted = some vm)
include h

theorem booted_space : vm.table = bootTables 0x13F0 ∧ vm.currentDirectory.pml4 = 0x13F0 ∧ vm.heap.Ready ∧
    vm.Space vm.currentDirectory.pml4 := by
  obtain ⟨hready, htop, htable, hpml4, hcur⟩ := initVmm_largeInitrd h
  have hroot : vm.currentDirectory.pml4 = 0x13F0 := by rw [hcur, hpml4]
  refine ⟨htable, hroot, hready, ?_⟩
  rw [hroot]
  refine ⟨?_, ?_, fun x hx => ?_⟩
  · exact htable ▸ bootTables_tree
  · exact htable ▸ bootTables_plain
  · rw [htable] at hx
    have := bootTables_reaches hx
    omega

theorem booted_lookup {q : List (Fin 512)} {a : Mapping} (hq : q.length = 4)
    (ha : translate vm.table vm.currentDirectory.pml4 q = some a) :
    ∃ k l : Fin 512, q = [0, 0, k, l] ∧ a = ⟨512 * k + l, [0x3#12, 0x3#12, 0x83#12]⟩ := by
  obtain ⟨htable, hroot, -⟩ := booted_space h
  rw [hroot, htable] at ha
  exact translate_bootTables_some hq ha

end Booted

end LiwusOS.Mm
