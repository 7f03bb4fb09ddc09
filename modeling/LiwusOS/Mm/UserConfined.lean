import LiwusOS.Mm.BootSpace
import LiwusOS.Mm.Overlay

/-! # Memory system calls and the kernel's pages

`is_user_addr` checks addresses only, and the range it accepts holds pages of
the kernel. When do `sys_brk`, `sys_mmap` and `sys_munmap` leave everything but
the caller's own pages alone? -/

namespace LiwusOS.Mm
open LiwusOS.Lib List
open LiwusOS.Sched (Task)

/-! ## The pages of a call -/

def regionAddrs (base n : Nat) : List Nat := (List.range n).map (pageAddr base)

/-- The addresses `sys_brk` maps pages at. -/
def brkMapped (s : UserMem) (addr : Nat) : List Nat :=
  match s.task with
  | none => []
  | some t =>
    if addr = 0 ∨ addr ≤ brkTop t then [] else regionAddrs (roundUpPage (brkTop t)) (brkPages t addr)

/-- The addresses `sys_mmap` maps pages at: all of the range, or those before
the frames run out. -/
def mmapMapped (s : UserMem) (addr length prot flags : Nat) : List Nat :=
  match s.task with
  | none => []
  | some t =>
    match mmapBase t addr length flags with
    | none => []
    | some base =>
      match mmapLoop s.vm base (mmapFlags prot) (mmapPages length) 0 with
      | none => []
      | some (i, _) => regionAddrs base i

/-! ## What is promised -/

/-- `sys_munmap` removes user pages only and changes nothing else. -/
structure Released (vm vm' : Vm) : Prop where
  removed : ∀ q a, q.length = 4 → vm.lookup q = some a → vm'.lookup q = none →
    a.user = true ∧ ∃ v, isUserAddr v = true ∧ pagePath v = q
  others : ∀ q, q.length = 4 → vm'.lookup q = none ∨ vm'.lookup q = vm.lookup q

section Mapping
variable {vm vm' : Vm} {vs : List Nat} {fl : BitVec 64}

theorem regionPages_eq (base n : Nat) : regionPages base 0 n = (regionAddrs base n).map pagePath := by
  simp [regionPages, regionAddrs, range_eq_range', Function.comp_def]

theorem MapsRange.lookup (h : MapsRange fl vm vm' (vs.map pagePath)) : ∀ q, q.length = 4 → q ∉ vs.map pagePath →
    vm'.lookup q =
      (vm.lookup q).map fun a => { a with levels := touchedAll fl q (vs.map pagePath) a.levels } := by
  intro q hq hn
  rw [Vm.lookup, h.directory]
  exact h.other q hq hn

end Mapping

/-! ## The calls -/

section Calls
variable {s s' : UserMem} {addr length prot flags r : Nat}

/-- `sys_brk` changes nothing, or maps pages behind the heap and moves its end. -/
theorem sysBrk_cases (h : sysBrk s addr = some (r, s')) :
    s' = s ∧ brkMapped s addr = [] ∧ (∀ t, s.task = some t → addr ≠ 0 → addr ≤ brkTop t ∧ r = brkTop t) ∨
    ∃ t vm, s.task = some t ∧ addr ≠ 0 ∧ brkTop t < addr ∧
      brkLoop s.vm (roundUpPage (brkTop t)) (brkPages t addr) = some vm ∧
      brkMapped s addr = regionAddrs (roundUpPage (brkTop t)) (brkPages t addr) ∧ r = roundUpPage addr ∧
      s' = ⟨vm, some { t with heapEnd := roundUpPage addr }⟩ := by
  unfold sysBrk at h
  unfold brkMapped
  cases ht : s.task with
  | none =>
    rw [ht] at h
    cases h
    exact .inl ⟨rfl, rfl, nofun⟩
  | some t =>
    rw [ht] at h
    dsimp only at h ⊢
    split at h
    · rename_i h0
      cases h
      exact .inl ⟨rfl, if_pos (.inl h0), fun _ _ hne => absurd h0 hne⟩
    · rename_i h0
      split at h
      · rename_i hle
        cases h
        refine .inl ⟨rfl, if_pos (.inr hle), ?_⟩
        rintro _ ⟨⟩ _
        exact ⟨hle, rfl⟩
      · rename_i hlt
        obtain ⟨vm, hvm, heq⟩ := Option.map_eq_some_iff.mp h
        cases heq
        exact .inr ⟨t, vm, rfl, h0, not_le.mp hlt, hvm, if_neg (by simp [h0, hlt]), rfl, rfl⟩

theorem mem_regionAddrs {base n v : Nat} (hb : base + n * 4096 ≤ 2 ^ 64) :
    v ∈ regionAddrs base n ↔ ∃ i < n, v = base + i * 4096 := by
  simp only [regionAddrs, mem_map, mem_range]
  refine exists_congr fun i => and_congr_right fun hi => ?_
  rw [pageAddr, Nat.mod_eq_of_lt (by omega), eq_comm]

theorem isUserAddr_iff {v : Nat} : isUserAddr v = true ↔ 0x1000 ≤ v ∧ v < 0xC0000000 := by
  simp only [isUserAddr, Bool.and_eq_true, decide_eq_true_eq]
  rfl

theorem mmapFlags_user (prot : Nat) : (mmapFlags prot).getLsbD 2 = true := by
  unfold mmapFlags
  split <;> rfl

/-- Where the mapping goes. -/
theorem mmapBase_cases {t : Task} {base : Nat} (h : mmapBase t addr length flags = some base) :
    (base + mmapLength length) % 2 ^ 64 ≤ userAddrMax ∧
      ((hasFlag flags mapFixed = true ∧ addr ≠ 0) ∧ isUserAddr addr = true ∧ base = roundDownPage addr ∨
        ¬ (hasFlag flags mapFixed = true ∧ addr ≠ 0) ∧ 0x40000000 ≤ base ∧
          base = (t.mmapTop + 2 ^ 64 - mmapLength length) % 2 ^ 64) := by
  rw [mmapBase] at h
  split at h
  · cases h
  · split at h
    · cases h
    · rename_i huser
      by_cases hf : hasFlag flags mapFixed = true ∧ addr ≠ 0
      · have hfixed : (hasFlag flags mapFixed && addr ≠ 0) = true := by simp [hf]
        simp only [hfixed, ↓reduceIte, Bool.not_true, Bool.false_and, Bool.false_eq_true] at h
        split at h
        · cases h
        · cases h
          exact ⟨by omega, .inl ⟨hf, by simpa [hf.2] using huser, rfl⟩⟩
      · have hfixed : (hasFlag flags mapFixed && addr ≠ 0) = false := by
          rw [Bool.eq_false_iff]
          simpa using hf
        simp only [hfixed, Bool.false_eq_true, ↓reduceIte, Bool.not_false, Bool.true_and, decide_eq_true_eq] at h
        split at h
        · cases h
        · split at h
          · cases h
          · cases h
            exact ⟨by omega, .inr ⟨hf, by omega, rfl⟩⟩

end Calls

/-- User addresses above the first gigabyte share the top level with the kernel's pages. -/
theorem shared_boot {v : Nat} (hlo : 0x40000000 ≤ v) (hhi : v < 0xC0000000) (k l : Fin 512) :
    shared (pagePath v) [0, 0, k, l] = 1 ∧ pagePath v ≠ [0, 0, k, l] := by
  have hfirst : vaddrPml4i v = 0 := by
    simp only [vaddrPml4i, Fin.ext_iff, Fin.val_ofNat]
    simp
    omega
  have hsecond : vaddrPdpi v ≠ 0 := by
    simp only [vaddrPdpi, ne_eq, Fin.ext_iff, Fin.val_ofNat]
    simp
    omega
  simp [pagePath, shared, hfirst, hsecond]

end LiwusOS.Mm
