import LiwusOS.Exec.ExecIntact

/-! # The checks on user pointers (`usercopy.c`)

`validate_user_pointer` looks at `PTE_P` and `PTE_U` and serves reads and writes
alike. `strncpy_from_user` stops one byte before the end of its buffer. -/

namespace LiwusOS.Exec
open LiwusOS.Lib LiwusOS.Mm Option

/-- **`validate_user_pointer` is exact** where there are no 1 GB pages. -/
theorem validateUserPointer_iff {vm : Vm} (hp : Plain vm.table 3 vm.currentDirectory.pml4) (ptr size : Nat) :
    validateUserPointer vm ptr size = true ↔ size = 0 ∨
      ptr + size < 2 ^ 64 ∧ userAddrMin ≤ ptr ∧ ptr + size ≤ userAddrMax ∧
        ∀ v, ptr ≤ v → v < ptr + size → Accessible vm v := by
  simp only [validateUserPointer_walks, walkUserPt_iff hp, Accessible]

/-- The last bytes of a task's only page. -/
theorem validateUserPointer_onePage : ∃ vm, bootedWith 0x40000000 pageA = some vm ∧
    validateUserPointer vm 0x40000FF0 16 = true ∧ validateUserPointer vm 0x40000FF0 17 = false := by
  obtain ⟨vm, hvm, -⟩ : ∃ vm ∈ bootedWith 0x40000000 pageA, True := by
    rw [bootedWith, booted, bootHeap_largeInitrd]
    decide +kernel
  have hpage := bootedWith_onePage hvm (by decide) (by decide)
  have hpath : ∀ v, 0x40000FF0 ≤ v → v < 0x40000FF0 + 16 → pagePath v = pagePath 0x40000000 := by
    intro v hlo hhi
    rw [← pagePath_page v, show v / 4096 * 4096 = 0x40000000 by omega]
  obtain ⟨w, u, a, ha, hu, -, -⟩ := hpage.page
  refine ⟨vm, hvm, ?_, ?_⟩
  · refine (validateUserPointer_iff hpage.space.plain _ _).mpr
      (.inr ⟨by decide, by decide, by decide, fun v hlo hhi => ?_⟩)
    exact ⟨a, hpath v hlo hhi ▸ ha, hu⟩
  · rw [← Bool.not_eq_true, validateUserPointer_iff hpage.space.plain]
    rintro (h | ⟨-, -, -, h⟩)
    · cases h
    · obtain ⟨b, hb, hbu⟩ := h 0x40001000 (by decide) (by decide)
      rw [hpage.others _ rfl (by decide) b hb] at hbu
      cases hbu

/-! ## Writing -/

def copyToUser (vm : Vm) (dst : Nat) (src : Nat → UInt8) (n : Nat) : Option (Int × Vm) :=
  if n = 0 then some (0, vm)
  else if validateUserPointer vm dst n then (vm.storeBytes dst src n).map fun vm => (0, vm)
  else some (-eFault, vm)

/-- The call succeeds only where the caller may write, and changes nothing when it fails. -/
def WritesOwn (vm : Vm) (dst : Nat) (src : Nat → UInt8) (n : Nat) : Prop :=
  ∃ r vm', copyToUser vm dst src n = some (r, vm') ∧
    (r = 0 → ∀ v, dst ≤ v → v < dst + n →
      ∃ a, vm.lookup (pagePath v) = some a ∧ a.user = true ∧ a.write = true) ∧
    (r = -eFault → vm' = vm)

/-- `copy_to_user` keeps to what the caller may write exactly if no page that passes the check is read-only. -/
theorem copyToUser_writesOwn_iff (vm : Vm) (dst : Nat) (src : Nat → UInt8) (n : Nat) :
    WritesOwn vm dst src n ↔ (validateUserPointer vm dst n = true → ∀ v, dst ≤ v → v < dst + n →
      ∀ a, vm.lookup (pagePath v) = some a → a.write = true) := by
  by_cases h0 : n = 0
  · refine iff_of_true ⟨0, vm, if_pos h0, fun _ v hlo hhi => ?_, fun _ => rfl⟩ fun _ v hlo hhi => ?_ <;> omega
  by_cases hval : validateUserPointer vm dst n = true
  · obtain ⟨hwrap, -, hmax, hwalk⟩ := ((validateUserPointer_walks dst n).mp hval).resolve_left h0
    obtain ⟨vm', hstore⟩ : ∃ vm', vm.storeBytes dst src n = some vm' := by
      refine Vm.storeBytes_mapped src fun i hi => ?_
      rw [Nat.mod_eq_of_lt (by omega), isSome_iff_exists]
      exact byteAt_accessible (walkUserPt_accessible (hwalk _ (by omega) (by omega))) (by omega)
    have hcall : copyToUser vm dst src n = some (0, vm') := by
      rw [copyToUser, if_neg h0, if_pos hval, hstore, map_some]
    constructor
    · rintro ⟨r, vm₁, hr, hpages, -⟩ - v hlo hhi a ha
      cases hcall.symm.trans hr
      obtain ⟨b, hb, -, hw⟩ := hpages rfl v hlo hhi
      cases ha.symm.trans hb
      exact hw
    · refine fun h => ⟨0, vm', hcall, fun _ v hlo hhi => ?_, fun hr => absurd hr (by decide)⟩
      obtain ⟨a, ha, hu⟩ := walkUserPt_accessible (hwalk v hlo hhi)
      exact ⟨a, ha, hu, h hval v hlo hhi a ha⟩
  · refine iff_of_true ⟨-eFault, vm, ?_, fun hr => absurd hr (by decide), fun _ => rfl⟩ fun h => absurd h hval
    rw [copyToUser, if_neg h0, if_neg hval]

/-- A page that is read-only for the caller is written. -/
theorem copyToUser_writes_readOnly : ∃ vm vm₁ vm', booted = some vm ∧
    vmmMapPage vm 0x3000000 0x40000000 0x5 = some vm₁ ∧
    (vm₁.lookup (pagePath 0x40000000)).map Mapping.access = some (0x3000, false, true) ∧
    copyToUser vm₁ 0x40000000 (fun _ => 65) 1 = some (0, vm') ∧ vm₁.load 0x40000000 = some 0 ∧
    vm'.load 0x40000000 = some 65 ∧ ¬ WritesOwn vm₁ 0x40000000 (fun _ => 65) 1 := by
  obtain ⟨vm, hvm, vm₁, hmap, ⟨r, vm'⟩, hcall, hr, hacc, hbefore, hafter⟩ :
      ∃ vm ∈ booted, ∃ vm₁ ∈ vmmMapPage vm 0x3000000 0x40000000 0x5, ∃ p ∈ copyToUser vm₁ 0x40000000 (fun _ => 65) 1,
        p.1 = 0 ∧ (vm₁.lookup (pagePath 0x40000000)).map Mapping.access = some (0x3000, false, true) ∧
        vm₁.load 0x40000000 = some 0 ∧ p.2.load 0x40000000 = some 65 := by decide +kernel
  cases hr
  refine ⟨vm, vm₁, vm', hvm, hmap, hacc, hcall, hbefore, hafter, ?_⟩
  rintro ⟨r, vm₂, hr, hpages, -⟩
  cases hcall.symm.trans hr
  obtain ⟨a, ha, -, hw⟩ := hpages rfl 0x40000000 le_rfl (by decide)
  rw [ha, map_some, some.injEq] at hacc
  cases hw.symm.trans (congrArg (·.2.1) hacc)

/-! ## Strings -/

/-- The byte at `v` for user mode. -/
def userLoad (vm : Vm) (v : Nat) : Option UInt8 :=
  (vm.lookup (pagePath v)).bind fun a => if a.user then vm.load v else none

theorem userByte_eq {vm : Vm} (hp : Plain vm.table 3 vm.currentDirectory.pml4) : userByte vm = userLoad vm := by
  funext v
  have hwalk := walkUserPt_iff hp v
  rw [userByte, userLoad]
  cases ha : vm.lookup (pagePath v) with
  | none => simp_all
  | some a => cases hu : a.user <;> simp_all

/-- A string that ends within `maxlen` bytes is returned, anything else is `-EFAULT`. -/
def KeepsContract (vm : Vm) (src maxlen : Nat) : Prop :=
  ∃ o, strncpyFromUser vm src maxlen = some o ∧
    ∀ s, o = some s ↔ StringAt (userLoad vm) src s ∧ s.length < maxlen

/-- `strncpy_from_user` keeps its contract unless a longer string fills the buffer. -/
theorem strncpyFromUser_contract_iff {vm : Vm} {src maxlen : Nat} (hp : Plain vm.table 3 vm.currentDirectory.pml4)
    (hmax : 0 < maxlen) : KeepsContract vm src maxlen ↔
      (isUserAddr src = true → ∀ s, s.length + 1 = maxlen → BytesAt (userLoad vm) src s →
        src + s.length < userAddrMax ∧ userLoad vm (src + s.length) = some 0) := by
  obtain ⟨o, ho, hread⟩ := @strncpyFromUser_iff vm src maxlen hmax
  rw [userByte_eq hp] at hread
  constructor
  · rintro ⟨o', ho', hs⟩ huser s hlen hbytes
    cases ho.symm.trans ho'
    obtain ⟨hstr, -⟩ := (hs s).mp ((hread s).mpr ⟨huser, hbytes, .inl (by omega)⟩)
    exact ⟨hstr.high, hstr.terminator⟩
  · refine fun h => ⟨o, ho, fun s => (hread s).trans ⟨?_, fun ⟨hstr, hlt⟩ => ?_⟩⟩
    · rintro ⟨huser, hbytes, hlen⟩
      have hlow := huser
      simp only [isUserAddr, Bool.and_eq_true, decide_eq_true_eq] at hlow
      obtain ⟨hhigh, hend⟩ : src + s.length < userAddrMax ∧ userLoad vm (src + s.length) = some 0 :=
        hlen.elim (fun heq => h huser s (by omega) hbytes) And.right
      refine ⟨⟨hlow.1, hhigh, fun i hi => ?_, hbytes.nonzero, hend⟩, by omega⟩
      rw [hbytes.bytes i hi, List.getElem?_eq_getElem hi]
    · refine ⟨hstr.isUserAddr, hstr.bytesAt, ?_⟩
      by_cases heq : s.length = maxlen - 1
      · exact .inl heq
      · exact .inr ⟨by omega, hstr.high, hstr.terminator⟩

theorem strncpyFromUser_contract_oneByte : ∃ vm, bootedWith 0x40000000 (fun i => if i = 0 then 65 else 0) = some vm ∧
    KeepsContract vm 0x40000000 2 := by
  obtain ⟨vm, hvm, hend⟩ : ∃ vm ∈ bootedWith 0x40000000 fun i => if i = 0 then 65 else 0,
      userByte vm 0x40000001 = some 0 := by
    rw [bootedWith, booted, bootHeap_largeInitrd]
    decide +kernel
  have hpage := bootedWith_onePage hvm (by decide) (by decide)
  refine ⟨vm, hvm, (strncpyFromUser_contract_iff hpage.space.plain (by decide)).mpr fun _ s hlen _ => ?_⟩
  rw [Nat.succ.inj hlen, ← userByte_eq hpage.space.plain]
  exact ⟨by decide, hend⟩

/-- `execve` of a path of more than 254 bytes gets the first 254 of them. -/
theorem strncpyFromUser_cuts : ∃ vm, bootedWith 0x40000000 (fun _ => 65) = some vm ∧
    strncpyFromUser vm 0x40000000 255 = some (some (List.replicate 254 65)) ∧ ¬ KeepsContract vm 0x40000000 255 := by
  obtain ⟨vm, hvm, hcut, hbyte⟩ : ∃ vm ∈ bootedWith 0x40000000 fun _ => 65,
      strncpyFromUser vm 0x40000000 255 = some (some (List.replicate 254 65)) ∧
      userByte vm (0x40000000 + 254) = some 65 := by
    rw [bootedWith, booted, bootHeap_largeInitrd]
    decide +kernel
  refine ⟨vm, hvm, hcut, ?_⟩
  rintro ⟨o, ho, hs⟩
  cases hcut.symm.trans ho
  have hend := ((hs _).mp rfl).1.terminator
  rw [← userByte_eq (bootedWith_onePage hvm (by decide) (by decide)).space.plain, List.length_replicate, hbyte] at hend
  cases hend

end LiwusOS.Exec
