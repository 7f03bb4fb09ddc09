import LiwusOS.Mm.UserRegions

/-! # Memory system calls without frames

`sys_mmap` takes its pages back when `pmm_alloc_block` returns NULL; `sys_brk`
maps frame 0 and goes on. The pages that `sys_mmap` takes back are unmapped
whatever they were before, and the tables made for them stay. -/

namespace LiwusOS.Mm
open LiwusOS.Lib List
open Option (bind_eq_some_iff map_eq_some_iff bind_eq_bind map_some)
open LiwusOS.Sched (Task)

/-! ## What is promised -/

namespace MemCall

def exec (s : UserMem) : MemCall → Option (Nat × UserMem)
  | .brk addr => sysBrk s addr
  | .mmap addr length prot flags => sysMmap s addr length prot flags

/-- The result `r` says that the call did not succeed. -/
def Refused (r : Nat) : MemCall → Prop
  | .brk addr => r < addr
  | .mmap .. => r = mapFailed

end MemCall

/-- Pages, task and free frames are those of before. -/
structure Untouched (s s' : UserMem) : Prop where
  pages : ∀ q, q.length = 4 → (s'.vm.lookup q).map Mapping.access = (s.vm.lookup q).map Mapping.access
  task : s'.task.map (fun t => (t.heapEnd, t.mmapTop)) = s.task.map fun t => (t.heapEnd, t.mmapTop)
  frames : s'.vm.heap.pmm.free = s.vm.heap.pmm.free

def FailsCleanly (s : UserMem) (call : MemCall) : Prop :=
  ∃ r s', call.exec s = some (r, s') ∧ call.Refused r ∧ Untouched s s'

section Loop
variable {vm vm₀ : Vm} {fl : BitVec 64} {base n : Nat} {fs : List Nat}

end Loop

section Frames
variable {vm vm₀ : Vm} {fl : BitVec 64} {base : Nat} {fs : List Nat}

/-- The pages are on different frames that were free. -/
theorem MmapState.frames (h : MmapState fl vm₀ vm base fs) :
    fs.toFinset.card = fs.length ∧ fs.toFinset ⊆ vm₀.heap.pmm.free := by
  refine ⟨toFinset_card_of_nodup (h.drawn.firstFit.nodup (Drawn.left_antitone _ (tablesFor_mono vm₀ base))), ?_⟩
  intro f hf
  obtain ⟨i, hi, rfl⟩ := mem_iff_getElem.mp (mem_toFinset.mp hf)
  exact (h.drawn.firstFit i hi).1.1.1

end Frames

/-! ## The pages -/

section Calls
variable {s : UserMem} {addr length prot flags : Nat}

end Calls

/-! ## A machine without free frames -/

end LiwusOS.Mm
