import LiwusOS.Mm.BootSpace

/-! # The address spaces of programs

`vmm_create_directory` copies the entries of the kernel's top-level table, so
whatever lies below a present one is shared by all directories. User addresses
all lie below entry 0. Programs are kept apart as long as that entry is empty
when their directories are made. -/

namespace LiwusOS.Mm
open LiwusOS.Lib Function Relation Option

inductive MapOp where
  | map (phys virt : Nat) (flags : BitVec 64)
  | unmap (virt : Nat)

def MapOp.virt : MapOp → Nat
  | .map _ virt _ => virt
  | .unmap virt => virt

def Vm.exec (vm : Vm) : MapOp → Option Vm
  | .map phys virt flags => vmmMapPage vm phys virt flags
  | .unmap virt => some (vmmUnmapPage vm virt).2

/-- The memory with the directories that `vmm_create_directory` has returned. -/
structure Spaces where
  vm : Vm
  made : List Directory

inductive SpaceOp where
  | create
  | switchTo (dir : Directory)
  | page (op : MapOp)

variable {dir : Directory} {w : Spaces} {vm' : Vm}

namespace Spaces

def all (w : Spaces) : List Directory := w.vm.kernelDirectory :: w.made

def step (w : Spaces) : SpaceOp → Option Spaces
  | .create => (vmmCreateDirectory w.vm).map fun (dir, vm) => ⟨vm, dir :: w.made⟩
  | .switchTo dir => some { w with vm := { w.vm with currentDirectory := dir } }
  | .page op => (w.vm.exec op).map fun vm => { w with vm }

/-- Pages are mapped and unmapped at user addresses. -/
def Admits (w : Spaces) : SpaceOp → Prop
  | .create => True
  | .switchTo dir => dir ∈ w.all
  | .page op => op.virt < userAddrMax

/-- The kernel maps nothing below entry 0 when a directory is made. -/
def Unshared (w : Spaces) : SpaceOp → Prop
  | .create => (w.vm.table w.vm.kernelDirectory.pml4 0).present = false
  | _ => True

def UnsharedStep (w v : Spaces) : Prop := ∃ op, w.Admits op ∧ w.Unshared op ∧ w.step op = some v

/-- Right after `init_vmm`. -/
structure Start (w : Spaces) : Prop where
  made : w.made = []
  current : w.vm.currentDirectory = w.vm.kernelDirectory
  ready : w.vm.heap.Ready
  space : w.vm.Space w.vm.kernelDirectory.pml4

/-- The pages of a directory are translated as before. -/
def Unchanged (vm vm' : Vm) (dir : Directory) : Prop :=
  ∀ q, q.length = 4 → translate vm'.table dir.pml4 q = translate vm.table dir.pml4 q

/-! ## The invariant -/

/-- The tables that user addresses are translated with. -/
def Own (m : Tables) (root x : Nat) : Prop :=
  x = root ∨ ∃ t, (m root 0).child = some t ∧ Reaches Pte.child m 2 t x

theorem Own.reaches {m : Tables} {root x : Nat} (h : Own m root x) : Reaches Pte.child m 3 root x :=
  h.imp_right fun ⟨t, hc, hx⟩ => ⟨0, t, hc, hx⟩

theorem Own.congr {m m' : Tables} {root x : Nat} (h : ∀ y, Reaches Pte.child m 3 root y → m' y = m y)
    (hx : Own m' root x) : Own m root x := by
  refine hx.imp_right ?_
  rintro ⟨t, hc, hx⟩
  rw [h _ .self] at hc
  exact ⟨t, hc, (Reaches.congr fun y hy => h y (.below hc hy)).mp hx⟩

/-- A space whose tables stay. -/
theorem space_congr {vm vm' : Vm} {root : Nat} (hs : vm.Space root) (hle : vm.heap.top ≤ vm'.heap.top)
    (h : ∀ y, Reaches Pte.child vm.table 3 root y → vm'.table y = vm.table y) : vm'.Space root :=
  ⟨hs.tree.congr h, hs.plain.congr h, fun x hx => Nat.lt_of_lt_of_le (hs.below x ((Reaches.congr h).mp hx)) hle⟩

structure Inv (w : Spaces) : Prop where
  ready : w.vm.heap.Ready
  current : w.vm.currentDirectory ∈ w.all
  space : ∀ dir ∈ w.all, w.vm.Space dir.pml4
  apart : ∀ dir ∈ w.all, ∀ dir' ∈ w.all, dir.pml4 ≠ dir'.pml4 → ∀ x,
    Own w.vm.table dir.pml4 x → ¬ Reaches Pte.child w.vm.table 3 dir'.pml4 x

theorem Start.inv (h : w.Start) : w.Inv := by
  have hall : ∀ dir ∈ w.all, dir = w.vm.kernelDirectory := by
    intro dir hdir
    rw [all, h.made] at hdir
    exact List.mem_singleton.mp hdir
  refine ⟨h.ready, h.current ▸ (.head _), fun dir hdir => hall dir hdir ▸ h.space, ?_⟩
  intro dir hdir dir' hdir' hne
  rw [hall dir hdir, hall dir' hdir'] at hne
  exact absurd rfl hne

section Mapped
variable {w : Spaces} {vm' : Vm} {fl : BitVec 64} {leaf : Pte} {r : List (Fin 512)}

/-- The tables of the other directories are not touched. -/
theorem Inv.kept (h : w.Inv) (hr : r.length = 3)
    (hm : Mapped fl leaf w.vm.heap.top vm'.heap.top w.vm.table vm'.table 3 w.vm.currentDirectory.pml4 (0 :: r))
    (hdir : dir ∈ w.all) (hne : dir.pml4 ≠ w.vm.currentDirectory.pml4) {x : Nat}
    (hx : Reaches Pte.child w.vm.table 3 dir.pml4 x) : vm'.table x = w.vm.table x := by
  refine hm.frame x ((h.space dir hdir).below x hx) fun hv => ?_
  refine h.apart _ h.current dir hdir hne.symm x ?_ hx
  exact hv.imp_right fun ⟨t, hc, hv⟩ => ⟨t, hc, hv.reaches hr.le⟩

/-- Opening the way to a page below entry 0 of the current directory. -/
theorem Inv.mapped (h : w.Inv) (hr : r.length = 3) (hready : vm'.heap.Ready) (hsame : w.vm.SameBut vm')
    (hm : Mapped fl leaf w.vm.heap.top vm'.heap.top w.vm.table vm'.table 3 w.vm.currentDirectory.pml4 (0 :: r)) :
    Inv { w with vm := vm' } ∧
      ∀ dir ∈ w.all, dir.pml4 ≠ w.vm.currentDirectory.pml4 → Unchanged w.vm vm' dir := by
  have hkept : ∀ dir ∈ w.all, dir.pml4 ≠ w.vm.currentDirectory.pml4 → ∀ x,
      Reaches Pte.child w.vm.table 3 dir.pml4 x → vm'.table x = w.vm.table x :=
    fun dir hdir hne x hx => h.kept hr hm hdir hne hx
  have hcur : vm'.currentDirectory = w.vm.currentDirectory := by rw [hsame]
  have hall : all { w with vm := vm' } = w.all := by
    have hkernel : vm'.kernelDirectory = w.vm.kernelDirectory := by rw [hsame]
    rw [all, all, hkernel]
  -- what is new lies in the current directory
  have hreach : ∀ dir ∈ w.all, ∀ x, Reaches Pte.child vm'.table 3 dir.pml4 x →
      Reaches Pte.child w.vm.table 3 dir.pml4 x ∨
        dir.pml4 = w.vm.currentDirectory.pml4 ∧ w.vm.heap.top ≤ x := by
    intro dir hdir x hx
    by_cases hne : dir.pml4 = w.vm.currentDirectory.pml4
    · rw [hne] at hx ⊢
      exact (hm.reach x hx).imp_right fun hle => ⟨rfl, hle⟩
    · exact .inl ((Reaches.congr (hkept dir hdir hne)).mp hx)
  have hown : ∀ dir ∈ w.all, ∀ x, Own vm'.table dir.pml4 x →
      Own w.vm.table dir.pml4 x ∨ dir.pml4 = w.vm.currentDirectory.pml4 ∧ w.vm.heap.top ≤ x := by
    intro dir hdir x hx
    by_cases hne : dir.pml4 = w.vm.currentDirectory.pml4
    · rw [hne] at hx ⊢
      rcases hx with rfl | ⟨t, hc, hx⟩
      · exact .inl (.inl rfl)
      · exact (hm.below 0 r 2 rfl rfl t hc x hx).imp (fun ho => .inr ho) fun hle => ⟨rfl, hle⟩
    · exact .inl (hx.congr (hkept dir hdir hne))
  refine ⟨⟨hready, hall ▸ hcur ▸ h.current, fun dir hdir => ?_, ?_⟩, fun dir hdir hne q hq => ?_⟩
  · rw [hall] at hdir
    by_cases hne : dir.pml4 = w.vm.currentDirectory.pml4
    · rw [hne]
      exact ⟨hm.tree, hm.plain, hm.bound⟩
    · exact space_congr (h.space dir hdir) hm.grows (hkept dir hdir hne)
  · rw [hall]
    intro dir hdir dir' hdir' hne x hx hx'
    rcases hown dir hdir x hx with ho | ⟨hd, hle⟩
    · rcases hreach dir' hdir' x hx' with hr' | ⟨-, hle⟩
      · exact h.apart dir hdir dir' hdir' hne x ho hr'
      · exact not_lt.mpr hle ((h.space dir hdir).below x ho.reaches)
    · rcases hreach dir' hdir' x hx' with hr' | ⟨hd', -⟩
      · exact not_lt.mpr hle ((h.space dir' hdir').below x hr')
      · exact hne (hd.trans hd'.symm)
  · exact translate_congr fun x hx => hkept dir hdir hne x (hx.reaches hq.le)

end Mapped

/-- User addresses lie below entry 0. -/
theorem pagePath_user {virt : Nat} (h : virt < userAddrMax) :
    pagePath virt = 0 :: [vaddrPdpi virt, vaddrPdi virt, vaddrPti virt] := by
  have h0 : vaddrPml4i virt = 0 := by
    unfold userAddrMax at h
    rw [vaddrPml4i, Nat.div_eq_of_lt (by omega)]
    rfl
  rw [pagePath, h0]

theorem Unchanged.refl (vm : Vm) (dir : Directory) : Unchanged vm vm dir := fun _ _ => rfl

theorem Inv.page (h : w.Inv) {op : MapOp} (hop : op.virt < userAddrMax) (hexec : w.vm.exec op = some vm') :
    w.vm.SameBut vm' ∧ Inv { w with vm := vm' } ∧
      ∀ dir ∈ w.all, dir.pml4 ≠ w.vm.currentDirectory.pml4 → Unchanged w.vm vm' dir := by
  have hok : w.vm.Ready := ⟨h.ready, h.space _ h.current⟩
  cases op with
  | map phys virt flags =>
    rcases vmmMapPage_cases hok hexec with ⟨-, rfl⟩ | ⟨hspent, hsame, hm⟩
    · exact ⟨rfl, h, fun dir _ _ => .refl _ dir⟩
    · rw [pagePath_user (show virt < userAddrMax from hop)] at hm
      exact ⟨hsame, h.mapped rfl hspent.ready hsame hm⟩
  | unmap virt =>
    rcases vmmUnmapPage_cases virt hok with ⟨-, heq⟩ | ⟨vm₁, heq, hun⟩
    · rw [Vm.exec, heq] at hexec
      cases hexec
      exact ⟨rfl, h, fun dir _ _ => .refl _ dir⟩
    · rw [Vm.exec, heq] at hexec
      cases hexec
      obtain ⟨hready, hsame, htop⟩ := hun.heap h.ready
      have hm := hun.mapped
      rw [pagePath_user (show virt < userAddrMax from hop)] at hm
      have hm' : Mapped 0 Pte.zero w.vm.heap.top vm₁.heap.top w.vm.table vm₁.table 3
          w.vm.currentDirectory.pml4 (0 :: [vaddrPdpi virt, vaddrPdi virt, vaddrPti virt]) := by
        rw [htop]
        exact hm
      exact ⟨hsame, h.mapped rfl hready hsame hm'⟩

/-! ## New directories -/

/-- What `vmm_create_directory` leaves. -/
structure Created (vm vm' : Vm) (dir : Directory) : Prop where
  ready : vm'.heap.Ready
  above : vm.heap.top ≤ dir.pml4
  top : vm'.heap.top = dir.pml4 + 1
  rest : vm' = { vm with
    heap := vm'.heap
    table := update vm.table dir.pml4 (vm.table vm.kernelDirectory.pml4) }

end Spaces

theorem kmalloc_ready {k k' : Kheap} {size ptr : Nat} (hk : k.Ready) (h : kmalloc k size = some (ptr, k')) :
    k'.Ready ∧ k.top ≤ k'.top := by
  have hcall : heapCall k .kmalloc size = some (ptr, k') := h
  obtain ⟨b, n, -, hs, -⟩ := heapCall_served hcall hk nofun
  refine ⟨hs.ready hk, ?_⟩
  have := hs.grows
  unfold Kheap.top
  omega

namespace Spaces

theorem create_some {vm : Vm} (hk : vm.heap.Ready)
    (hroot : vm.kernelDirectory.pml4 < vm.heap.top) (h : vmmCreateDirectory vm = some (dir, vm')) :
    Created vm vm' dir := by
  simp only [vmmCreateDirectory, bind_eq_bind, bind_eq_some_iff] at h
  obtain ⟨⟨addr, k⟩, hkm, ⟨f, vm₁⟩, hnew, heq⟩ := h
  cases heq
  obtain ⟨hready, htop⟩ := kmalloc_ready hk hkm
  have hready' : ({ vm with heap := k } : Vm).heap.Ready := hready
  have hn := newTable_some hready' hnew
  have habove : vm.heap.top ≤ f := htop.trans hn.above
  refine ⟨hn.spent.ready, habove, hn.top, ?_⟩
  have hkernel : vm.kernelDirectory.pml4 ≠ f := by omega
  rw [hn.rest]
  dsimp only
  rw [update_of_ne hkernel, update_idem]

theorem Inv.create (h : w.Inv) (hempty : (w.vm.table w.vm.kernelDirectory.pml4 0).present = false)
    (hnew : vmmCreateDirectory w.vm = some (dir, vm')) : Inv ⟨vm', dir :: w.made⟩ := by
  have hkmem : w.vm.kernelDirectory ∈ w.all := .head _
  have hspace := h.space _ hkmem
  have hc := create_some h.ready (hspace.below _ .self) hnew
  have htable : vm'.table = update w.vm.table dir.pml4 (w.vm.table w.vm.kernelDirectory.pml4) := by
    rw [hc.rest]
  have hfix : ∀ x, x ≠ dir.pml4 → vm'.table x = w.vm.table x := fun x hx => by
    rw [htable, update_of_ne hx]
  have hcopy : vm'.table dir.pml4 = w.vm.table w.vm.kernelDirectory.pml4 := by
    rw [htable, update_self]
  have hchild : (vm'.table dir.pml4 0).child = none := by
    simp [hcopy, Pte.child, hempty]
  have hall : ∀ d, d ∈ all ⟨vm', dir :: w.made⟩ ↔ d = dir ∨ d ∈ w.all := by
    have hkernel : vm'.kernelDirectory = w.vm.kernelDirectory := by rw [hc.rest]
    intro d
    simp only [all, hkernel, List.mem_cons]
    exact or_left_comm
  have hgrow : w.vm.heap.top ≤ vm'.heap.top := by
    have := hc.above
    rw [hc.top]
    omega
  -- the tables of the older directories stay
  have hlow : ∀ d ∈ w.all, ∀ x, Reaches Pte.child w.vm.table 3 d.pml4 x → x ≠ dir.pml4 := by
    intro d hd x hx
    have := (h.space d hd).below x hx
    have := hc.above
    omega
  have hkept : ∀ d ∈ w.all, ∀ x, Reaches Pte.child w.vm.table 3 d.pml4 x → vm'.table x = w.vm.table x :=
    fun d hd x hx => hfix x (hlow d hd x hx)
  have hold : ∀ d ∈ w.all, ∀ x, Reaches Pte.child vm'.table 3 d.pml4 x ↔
      Reaches Pte.child w.vm.table 3 d.pml4 x := fun d hd x => Reaches.congr (hkept d hd)
  have hownOld : ∀ d ∈ w.all, ∀ x, Own vm'.table d.pml4 x → Own w.vm.table d.pml4 x :=
    fun d hd x hx => hx.congr (hkept d hd)
  have hroot : ¬ Reaches Pte.child w.vm.table 3 w.vm.kernelDirectory.pml4 dir.pml4 :=
    fun hx => hlow _ hkmem _ hx rfl
  have hnewReach : ∀ x, Reaches Pte.child vm'.table 3 dir.pml4 x → x = dir.pml4 ∨ ∃ i t,
      (w.vm.table w.vm.kernelDirectory.pml4 i).child = some t ∧ Reaches Pte.child w.vm.table 2 t x :=
    fun x hx => hx.reroot hfix hroot hcopy
  have hown : ∀ x, Own vm'.table dir.pml4 x → x = dir.pml4 := by
    intro x hx
    refine hx.resolve_right ?_
    rintro ⟨t, hc, -⟩
    rw [hchild] at hc
    cases hc
  refine ⟨hc.ready, (hall _).mpr (.inr ?_), fun d hd => ?_, fun d hd d' hd' hne x hx hx' => ?_⟩
  · rw [hc.rest]
    exact h.current
  · rcases (hall d).mp hd with rfl | hd
    · refine ⟨hspace.tree.reroot hfix hroot hcopy, fun i hp => ?_, fun x hx => ?_⟩
      · rw [hcopy] at hp ⊢
        obtain ⟨hl, hsub⟩ := hspace.plain i hp
        exact ⟨hl, hsub.congr fun x hx => hkept _ hkmem x (.below (Pte.child_eq hp hl) hx)⟩
      · rcases hnewReach x hx with rfl | ⟨i, t, hc', hx⟩
        · rw [hc.top]
          omega
        · exact Nat.lt_of_lt_of_le (hspace.below x (.below hc' hx)) hgrow
    · exact space_congr (h.space d hd) hgrow (hkept d hd)
  · rcases (hall d).mp hd with rfl | hold'
    · rcases (hall d').mp hd' with rfl | hold'
      · exact hne rfl
      · exact hlow d' hold' x ((hold d' hold' x).mp hx') (hown x hx)
    · have hox := hownOld d hold' x hx
      rcases (hall d').mp hd' with hnew' | hold''
      · rw [hnew'] at hx'
        rcases hnewReach x hx' with rfl | ⟨i, t, hc', hx'⟩
        · exact hlow d hold' _ hox.reaches rfl
        · by_cases hk : d.pml4 = w.vm.kernelDirectory.pml4
          · -- the kernel's own tables at entry 0 are none but the root
            rw [hk] at hox
            rcases hox with rfl | ⟨u, hu, -⟩
            · exact (hspace.tree i t hc').2.1 hx'
            · simp [Pte.child, hempty] at hu
          · exact h.apart d hold' _ hkmem hk x hox (.below hc' hx')
      · exact h.apart d hold' d' hold'' hne x hox ((hold d' hold'' x).mp hx')

/-! ## Runs -/

theorem Inv.step {v : Spaces} (h : w.Inv) (hstep : UnsharedStep w v) : v.Inv := by
  obtain ⟨op, hadm, hun, hop⟩ := hstep
  cases op with
  | create =>
    obtain ⟨⟨dir, vm'⟩, hnew, rfl⟩ := map_eq_some_iff.mp hop
    exact h.create hun hnew
  | switchTo dir =>
    cases hop
    exact ⟨h.ready, hadm, fun d hd => ⟨(h.space d hd).tree, (h.space d hd).plain, (h.space d hd).below⟩, h.apart⟩
  | page op =>
    obtain ⟨vm', hexec, rfl⟩ := map_eq_some_iff.mp hop
    exact (h.page hadm hexec).2.1

theorem Start.run {v : Spaces} (h : w.Start) (hr : ReflTransGen UnsharedStep w v) : v.Inv := by
  induction hr with
  | refl => exact h.inv
  | tail _ hstep ih => exact ih.step hstep

/-- In a run in which every directory is made while the kernel maps nothing
below entry 0, what is done at user addresses in one directory does not show in
another. -/
theorem unchanged_of_unshared {w v : Spaces} (h : w.Start) (hr : ReflTransGen UnsharedStep w v)
    {ops : List MapOp} (hops : ∀ op ∈ ops, op.virt < userAddrMax) {vm' : Vm}
    (hexec : ops.foldlM Vm.exec v.vm = some vm') {dir : Directory} (hdir : dir ∈ v.all)
    (hne : dir.pml4 ≠ v.vm.currentDirectory.pml4) : Unchanged v.vm vm' dir := by
  have hi := h.run hr
  clear h hr
  induction ops generalizing v with
  | nil =>
    cases hexec
    exact .refl _ dir
  | cons op ops ih =>
    rw [List.foldlM_cons, bind_eq_bind, bind_eq_some_iff] at hexec
    obtain ⟨vm₁, h1, hexec⟩ := hexec
    obtain ⟨hsame, hi', hun⟩ := hi.page (hops op (.head _)) h1
    have hrest := ih (v := { v with vm := vm₁ }) (fun o ho => hops o (.tail _ ho)) hexec
      (by rw [hsame]; exact hdir) (by rw [hsame]; exact hne) hi'
    exact fun q hq => (hrest q hq).trans (hun dir hdir hne q hq)

/-- The frame and the permissions of a page in a directory. -/
def pageAt (vm : Vm) (dir : Directory) (virt : Nat) : Option (Nat × Bool × Bool) :=
  (translate vm.table dir.pml4 (pagePath virt)).map Mapping.access

/-- Two directories are made and a page is mapped in the first. -/
def mapInFirst (boot : Option Vm) (phys virt : Nat) (flags : BitVec 64) :
    Option (Vm × Directory × Vm × Directory × Vm × Vm) := do
  let vm ← boot
  let (dir₁, vm₁) ← vmmCreateDirectory vm
  let (dir₂, vm₂) ← vmmCreateDirectory vm₁
  let vm' ← vmmMapPage { vm₂ with currentDirectory := dir₁ } phys virt flags
  return (vm, dir₁, vm₁, dir₂, vm₂, vm')

/-- A machine whose kernel maps nothing: a page at 4 MB in the first of two
directories. -/
theorem unchanged_of_unshared_empty : ∃ w v : Spaces, ∃ dir₁ dir₂ vm', w.Start ∧
    ReflTransGen UnsharedStep w v ∧ v.made = [dir₂, dir₁] ∧ v.vm.currentDirectory = dir₁ ∧
    [MapOp.map 0x3000000 0x400000 0x7].foldlM Vm.exec v.vm = some vm' ∧
    pageAt vm' dir₁ 0x400000 = some (0x3000, true, true) ∧ Unchanged v.vm vm' dir₂ := by
  obtain ⟨vm, hvm, ⟨dir₁, vm₁⟩, h1, ⟨dir₂, vm₂⟩, h2, vm', hmap, hempty, hne, hpage⟩ :
      ∃ vm ∈ initVmm (bootHeap largeInitrd) (fun _ _ => Pte.zero) (fun _ _ => 0) 0x13F0000,
      ∃ p ∈ vmmCreateDirectory vm, ∃ q ∈ vmmCreateDirectory p.2,
      ∃ vm' ∈ vmmMapPage { q.2 with currentDirectory := p.1 } 0x3000000 0x400000 0x7,
        (p.2.table p.2.kernelDirectory.pml4 0).present = false ∧ p.1.pml4 ≠ q.1.pml4 ∧
        pageAt vm' p.1 0x400000 = some (0x3000, true, true) := by decide +kernel
  obtain ⟨hready, htop, htable, hpml4, hcur⟩ := initVmm_largeInitrd hvm
  have hroot : vm.kernelDirectory.pml4 < vm.heap.top := by omega
  have hstart : Start ⟨vm, []⟩ := ⟨rfl, hcur, hready, .empty (fun _ _ => by rw [htable]) hroot⟩
  have hempty₀ : (vm.table vm.kernelDirectory.pml4 0).present = false := by rw [htable, Pte.present_zero]
  -- make both directories and switch to the first
  let v : Spaces := ⟨{ vm₂ with currentDirectory := dir₁ }, [dir₂, dir₁]⟩
  have s1 : UnsharedStep ⟨vm, []⟩ ⟨vm₁, [dir₁]⟩ := ⟨.create, trivial, hempty₀, by rw [step, h1]; rfl⟩
  have s2 : UnsharedStep ⟨vm₁, [dir₁]⟩ ⟨vm₂, [dir₂, dir₁]⟩ :=
    ⟨.create, trivial, hempty, by rw [step, h2]; rfl⟩
  have s3 : UnsharedStep ⟨vm₂, [dir₂, dir₁]⟩ v := ⟨.switchTo dir₁, by simp [Admits, all], trivial, rfl⟩
  have hsteps : ReflTransGen UnsharedStep ⟨vm, []⟩ v := ((ReflTransGen.single s1).tail s2).tail s3
  have hexec : [MapOp.map 0x3000000 0x400000 0x7].foldlM Vm.exec v.vm = some vm' := by
    rw [List.foldlM_cons, Vm.exec, hmap]
    rfl
  refine ⟨⟨vm, []⟩, v, dir₁, dir₂, vm', hstart, hsteps, rfl, rfl, hexec, hpage, ?_⟩
  refine unchanged_of_unshared hstart hsteps (fun op hop => ?_) hexec (by simp [all, v]) ?_
  · rw [List.mem_singleton.mp hop]
    decide
  · exact fun h => by simp [v, h] at hne

/-- Two programs' directories right after boot: a page mapped for the first one
appears in the second one and in the kernel's. -/
theorem map_shows_in_other_spaces : ∃ vm dir₁ vm₁ dir₂ vm₂ vm',
    mapInFirst booted 0x3000000 0x400000 0x7 = some (vm, dir₁, vm₁, dir₂, vm₂, vm') ∧ dir₁.pml4 ≠ dir₂.pml4 ∧
    pageAt vm₂ dir₂ 0x400000 = some (0x400, true, false) ∧
    pageAt vm' dir₂ 0x400000 = some (0x3000, true, false) ∧
    pageAt vm₂ vm.kernelDirectory 0x400000 = some (0x400, true, false) ∧
    pageAt vm' vm.kernelDirectory 0x400000 = some (0x3000, true, false) := by
  obtain ⟨r, hr, h⟩ : ∃ r ∈ mapInFirst booted 0x3000000 0x400000 0x7, let (vm, dir₁, _, dir₂, vm₂, vm') := r
      dir₁.pml4 ≠ dir₂.pml4 ∧ pageAt vm₂ dir₂ 0x400000 = some (0x400, true, false) ∧
      pageAt vm' dir₂ 0x400000 = some (0x3000, true, false) ∧
      pageAt vm₂ vm.kernelDirectory 0x400000 = some (0x400, true, false) ∧
      pageAt vm' vm.kernelDirectory 0x400000 = some (0x3000, true, false) := by decide +kernel
  exact ⟨_, _, _, _, _, _, hr, h⟩

end Spaces
end LiwusOS.Mm
