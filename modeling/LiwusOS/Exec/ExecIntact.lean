import LiwusOS.Exec.ExecPages
import LiwusOS.Exec.UserCopy
import LiwusOS.Mm.Spaces

/-! # A failing `do_execve`

The first exits leave the caller's memory alone. The last two come after the
segments, and then the stack, have been mapped over it. -/

namespace LiwusOS.Exec
open LiwusOS.Lib Function Option
open LiwusOS.Mm

/-- The user pages are on frames that are in use. -/
def FramesInUse (vm : Vm) : Prop := ∀ v a, isUserAddr v = true → vm.lookup (pagePath v) = some a → a.user = true →
  a.frame ≠ 0 ∧ a.frame ∉ vm.heap.pmm.free

/-- The address space of a task: its user pages are on frames that are in use,
and one page of its stack is where the kernel put it, in the heap. -/
structure Caller (vm : Vm) : Prop where
  ready : vm.heap.Ready
  space : vm.Space vm.currentDirectory.pml4
  frames : FramesInUse vm
  stack : ∃ i < 16, ∀ a, vm.lookup (pagePath (pageAddr execStackBase i)) = some a → a.user = true →
    a.frame < vm.heap.top

section Proof
variable {vm vm₁ vm₂ : Vm} {vs : List Nat} {ws : List (Nat × UInt8)}

end Proof

/-- After boot one user page at `base` is mapped and filled. -/
def bootedWith (base : Nat) (contents : Fin 4096 → UInt8) : Option Vm :=
  booted.bind fun vm => (brkLoop vm base 1).map fun vm' =>
    { vm' with page := update vm'.page vm.allocFrame.1 contents }

/-- The only page of user mode is at `base`, on frame `f`. -/
structure OnePage (vm : Vm) (base f : Nat) : Prop where
  ready : vm.heap.Ready
  space : vm.Space vm.currentDirectory.pml4
  page : PageOn vm (pagePath base) f
  frame : f ≠ 0 ∧ f ∉ vm.heap.pmm.free
  others : ∀ q, q.length = 4 → q ≠ pagePath base → ∀ a, vm.lookup q = some a → a.user = false

/-- The first frame handed out after boot. -/
theorem booted_allocFrame {vm : Vm} (h : booted = some vm) : vm.allocFrame.1 = 8193 := by
  have hframe : ∀ vm ∈ booted, vm.allocFrame.1 = 8193 := by
    rw [booted, bootHeap_largeInitrd]
    decide +kernel
  exact hframe vm h

theorem bootedWith_onePage {base : Nat} {contents : Fin 4096 → UInt8} {vm : Vm}
    (h : bootedWith base contents = some vm) (hlo : 0x40000000 ≤ base) (hhi : base < 0xC0000000) :
    OnePage vm base 8193 := by
  obtain ⟨vm₀, hvm, h⟩ := Option.bind_eq_some_iff.mp h
  obtain ⟨vm', hloop, rfl⟩ := map_eq_some_iff.mp h
  obtain ⟨-, -, hk, hs⟩ := booted_space hvm
  have hfirst := booted_allocFrame hvm
  have hone : mapCleared vm₀.allocFrame.2 vm₀.allocFrame.1 base 0x7 = some vm' := by
    have hpage : pageAddr base 0 = base := Nat.mod_eq_of_lt (by omega)
    rw [brkLoop, brkLoop, bind_eq_bind, Option.bind_some, hpage] at hloop
    exact hloop
  have ho := mapAlloc_overlays rfl ⟨hk, hs⟩ hone
  have hnew := mapAlloc_pageOn rfl ⟨hk, hs⟩ hone
  have hspent := mapAlloc_spent (by decide) ⟨hk, hs⟩ hone
  rw [hfirst] at hnew hspent
  refine ⟨ho.maps.ok.heap, ?_, hnew, ⟨by decide, fun hm => ?_⟩, fun q hq hne a ha => ?_⟩
  · have hs' := ho.maps.ok.space
    exact ⟨hs'.tree, hs'.plain, hs'.below⟩
  · exact ((hspent.free 8193).mp hm).2.1 (List.mem_singleton_self _)
  · -- the other pages are those of the kernel, closed on the second level
    have hlook := ho.maps.other q hq fun hm => hne (List.mem_singleton.mp hm)
    have ha' : translate vm'.table vm'.currentDirectory.pml4 q = some a := ha
    rw [ho.maps.directory, hlook] at ha'
    obtain ⟨b, hb, rfl⟩ := map_eq_some_iff.mp ha'
    obtain ⟨k, l, rfl, rfl⟩ := booted_lookup hvm hq hb
    have hshared := (shared_boot hlo hhi k l).1
    have huser := (@touchedAll_user_iff 0x7 [0, 0, k, l] [pagePath base] [0x3#12, 0x3#12, 0x83#12] rfl 0).mpr
      ⟨⟨0x3#12, by simp, rfl⟩, fun r hr => by
        rw [List.mem_singleton.mp hr, hshared]
        exact ⟨0x3#12, by simp, rfl⟩⟩
    rw [List.drop_zero] at huser
    exact huser

theorem OnePage.framesInUse {vm : Vm} {base f : Nat} (h : OnePage vm base f) : FramesInUse vm := by
  intro v a _ ha hu
  by_cases hv : pagePath v = pagePath base
  · rw [h.page.frame_eq (hv ▸ ha)]
    exact h.frame
  · rw [h.others _ rfl hv a ha] at hu
    cases hu

theorem OnePage.caller {vm : Vm} {base f : Nat} (h : OnePage vm base f)
    (hb : pagePath base ≠ pagePath execStackBase) : Caller vm := by
  refine ⟨h.ready, h.space, h.framesInUse, 0, by decide, fun a ha hu => ?_⟩
  rw [h.others _ rfl (fun heq => hb heq.symm) a ha] at hu
  cases hu

/-- A page that begins with the string "A". -/
def pageA : Fin 4096 → UInt8 := fun i => if i = 0 then 65 else 0

/-- A program without an entry point, to be loaded where the caller's page is. -/
def noEntry : Buf := elfImage 0 0x40000000 0x10

end LiwusOS.Exec
