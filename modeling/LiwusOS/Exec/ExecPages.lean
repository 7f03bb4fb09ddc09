import LiwusOS.Exec.ElfPages
import LiwusOS.Exec.Execve
import LiwusOS.Mm.Spaces
import LiwusOS.Mm.UserAtomic

/-! # The pages of a new program over those of the old one

The loaders take their frames from `pmm_alloc_block`, which hands out free
frames or 0; the stack's frames come from the end of the heap. -/

namespace LiwusOS.Exec
open LiwusOS.Lib List Option
open LiwusOS.Mm

/-! ## Segments -/

/-- The stores of the segments `ps` that are made outside their pages, when pages at
`S` have been mapped before. -/
def imageStores (file : Buf) (S : List (List (Fin 512))) : List Phdr → List (Nat × UInt8)
  | [] => []
  | p :: ps => (segmentStores file p).filter (fun w => pagePath w.1 ∉ S ++ segmentPages p) ++
      imageStores file (S ++ segmentPages p) ps

section Segments
variable {vm vm₁ vm' : Vm} {file : Buf} {ps : List Phdr} {f : Nat} {i : Fin 4096} {S : List (List (Fin 512))}

theorem mapCleared_page {frame virt : Nat} {fl : BitVec 64} (hk : vm.Ready) (hfl : fl ≠ 0)
    (h : mapCleared vm frame virt fl = some vm') (hf : f ≠ frame) : vm'.page f = vm.page f := by
  obtain ⟨vm₁, hmap, rfl⟩ := map_eq_some_iff.mp h
  obtain ⟨-, hsame, -⟩ := vmmMapPage_mapped hfl hk hmap
  have hpage : vm₁.page = vm.page := by rw [hsame]
  dsimp only
  rw [Function.update_of_ne hf, hpage]

variable (hf0 : f ≠ 0)
include hf0

end Segments

/-! ## An image -/

section Image
variable {vm vm' : Vm} {last last' entry : Nat} {cls : UInt8} {file : Buf}

/-- The header of the image's class. -/
def imageEhdr (cls : UInt8) (file : Buf) : Ehdr := if cls = elfClass32 then elf32Ehdr file else elf64Ehdr file

def imageSegments (cls : UInt8) (file : Buf) : List Phdr :=
  if cls = elfClass32 then loadSegments32 file else loadSegments64 file

/-- The machine the loader of the class expects. -/
def imageMachine (cls : UInt8) : Nat := if cls = elfClass32 then em386 else emX8664

end Image

/-! ## Before the image is loaded -/

section Copy
variable (k : Kheap) (size : Nat)

/-- The block of the free list that `kmalloc` takes. -/
def freeBlock : Option Nat := k.freeList.find? fun b => k.blockSizeAt b ≥ blockTotal (roundUp4 size)

/-- Where `kmalloc` puts a block, and where the heap ends after it. -/
def blockFor : Nat := (freeBlock k size).getD k.kheapCurrent
def endFor : Nat := if (freeBlock k size).isSome then k.kheapCurrent else k.kheapCurrent + blockTotal (roundUp4 size)

variable {k size}

end Copy

section Call
variable (files : Files) (vm : Vm) (filename : Nat)

/-- The name in the call, when it can be read. -/
def calledName : Option (List UInt8) := if filename = 0 then none else (strncpyFromUser vm filename 255).join

/-- The file with its size, when it is one of SDFS. -/
def copiedFile : Option (Nat × Buf) := (calledName vm filename).bind fun name => files.sdfs (sdfsPath name)

/-- The program that the call names, with its class. -/
def calledProgram : Option (UInt8 × Buf) :=
  (((copiedFile files vm filename).map Prod.snd).or ((calledName vm filename).bind files.initrd)).bind fun file =>
    (elfClass file).map fun cls => (cls, file)

/-- The stores to the kernel's copy of the file. -/
def copyStores : List (Nat × UInt8) :=
  (copiedFile files vm filename).elim [] fun (size, file) =>
    let buf := blockFor vm.heap ((size + 1) % 2 ^ 32) + headerSize
    ((buf + size) % 2 ^ 64, 0) :: bytesTo buf file size

/-- The stores of the call outside the pages it maps: to the copy, and those of the
segments when they are loaded. -/
def callStores : List (Nat × UInt8) :=
  copyStores files vm filename ++ (calledProgram files vm filename).elim [] fun (cls, file) =>
    if (imageEhdr cls file).machine = imageMachine cls then imageStores file [] (imageSegments cls file) else []

/-- Where the heap ends with the copy. -/
def endWithCopy : Nat :=
  (copiedFile files vm filename).elim vm.heap.kheapCurrent fun (size, _) => endFor vm.heap ((size + 1) % 2 ^ 32)

end Call

/-- The file is searched for and copied: the heap changes, and the stores `ws` are made. -/
structure Prepared (vm vm' : Vm) (ws : List (Nat × UInt8)) : Prop where
  same : vm' = { vm with heap := vm'.heap, page := vm'.page }
  ready : vm'.heap.Ready
  top : vm.heap.top ≤ vm'.heap.top
  free : vm'.heap.pmm.free ⊆ vm.heap.pmm.free
  page : ∀ f i, vm'.page f i = (vm.lastStore ws (f, i)).getD (vm.page f i)

section Open
variable {files : Files} {vm vm' : Vm} {filename : Nat} {name : List UInt8} {o : Option Buf}

theorem Prepared.refl (hk : vm.heap.Ready) : Prepared vm vm [] := ⟨rfl, hk, le_rfl, fun _ h => h, fun _ _ => rfl⟩

end Open

namespace Prepared
variable {vm vm' : Vm} {ws : List (Nat × UInt8)}

theorem lookup (h : Prepared vm vm' ws) (q : List (Fin 512)) : vm'.lookup q = vm.lookup q := by
  rw [h.same]
  rfl

theorem byteAt (h : Prepared vm vm' ws) (v : Nat) : vm'.byteAt v = vm.byteAt v := by
  rw [h.same]
  rfl

theorem missing (h : Prepared vm vm' ws) (S : List (List (Fin 512))) : vm'.missing S = vm.missing S := by
  rw [h.same]
  rfl

theorem ok (h : Prepared vm vm' ws) (hs : vm.Space vm.currentDirectory.pml4) : vm'.Ready := by
  have htop := h.top
  refine ⟨h.ready, ?_⟩
  rw [h.same]
  exact ⟨hs.tree, hs.plain, fun x hx => Nat.lt_of_lt_of_le (hs.below x hx) htop⟩

end Prepared

/-! ## The stack -/

section Stack
variable {vm vm' : Vm} {n : Nat}

theorem mapStack_succ (vm : Vm) (n : Nat) : mapStack vm (n + 1) =
    (mapStack vm n).bind fun vm => mapStackPage vm (execStackBase + n * 4096) := by
  rw [mapStack, range_succ, foldlM_append]
  simp only [foldlM_cons, foldlM_nil, bind_eq_bind, Option.pure_def, bind_fun_some]
  rfl

/-- The frame of page `i` of the new stack: it is put behind the end `c` of the heap,
after the page tables for the pages at `S` and for the pages of the stack below. -/
def stackFrame (vm : Vm) (S : List (List (Fin 512))) (c i : Nat) : Nat :=
  tableEnd^[vm.missing (S ++ regionPages execStackBase 0 i) + i + 1] c / 4096 - 1

theorem mapStackPage_spec {vaddr : Nat} (hk : vm.Ready) (h : mapStackPage vm vaddr = some vm') :
    ∃ f, f = tableEnd vm.heap.kheapCurrent / 4096 - 1 ∧ vm.heap.top ≤ f ∧ f < vm'.heap.top ∧
      Overlays 0x7 (· = f) vm vm' [pagePath vaddr] ∧ Spent vm.heap vm'.heap (vm.missing [pagePath vaddr] + 1) [] ∧
      vm'.page f = (fun _ => 0) ∧ ∀ g, g ≠ f → vm'.page g = vm.page g := by
  obtain ⟨⟨phys, k⟩, hkm, h⟩ := bind_eq_some_iff.mp h
  obtain ⟨hready, habove, htop, -⟩ := kmallocA_frame hk.heap (by decide) le_rfl hkm
  have hgrow : vm.heap.top ≤ k.top := by omega
  have hok : ({ vm with heap := k } : Vm).Ready :=
    ⟨hready, hk.space.tree, hk.space.plain, fun x hx => Nat.lt_of_lt_of_le (hk.space.below x hx) hgrow⟩
  obtain ⟨hmaps, hspent⟩ := mapCleared_maps (by decide) hok h
  have hpage := kmallocA_spent hk.heap hkm
  have hall : Spent vm.heap vm'.heap (vm.missing [pagePath vaddr] + 1) [] := by
    rw [Nat.add_comm]
    exact hpage.trans hspent
  have hlt : phys / 4096 < vm'.heap.top := by
    have : k.top ≤ vm'.heap.top := hspent.top
    omega
  have hframe : phys / 4096 = tableEnd vm.heap.kheapCurrent / 4096 - 1 := by
    have hcur : k.kheapCurrent = tableEnd vm.heap.kheapCurrent := hpage.current
    unfold Kheap.top at htop
    rw [hcur] at htop
    unfold tableEnd at *
    omega
  refine ⟨phys / 4096, hframe, habove, hlt, ⟨⟨hmaps.ready, hmaps.directory, hmaps.space, hmaps.other, hmaps.tables⟩,
    hall.top, hall.subset, ?_, ?_⟩, hall, ?_, fun g hg => ?_⟩
  · intro q hq
    rw [mem_singleton.mp hq]
    rfl
  · intro q hq
    rw [mem_singleton.mp hq]
    exact ⟨_, mapCleared_pageOn rfl hok h, rfl⟩
  · obtain ⟨vm₁, -, rfl⟩ := map_eq_some_iff.mp h
    exact Function.update_self ..
  · have hkeep := mapCleared_page hok (by decide) h hg
    exact hkeep

/-- The first `n` pages of the stack: each is put behind the heap, and the other frames
keep their contents. -/
structure StackMapped (vm vm' : Vm) (n : Nat) : Prop where
  overlays : Overlays 0x7 (vm.heap.top ≤ ·) vm vm' (regionPages execStackBase 0 n)
  spent : Spent vm.heap vm'.heap (vm.missing (regionPages execStackBase 0 n) + n) []
  page : ∀ f, (∀ i < n, f ≠ stackFrame vm [] vm.heap.kheapCurrent i) → vm'.page f = vm.page f

/-- The frame of the next page. -/
theorem StackMapped.frame (h : StackMapped vm vm' n) :
    tableEnd vm'.heap.kheapCurrent / 4096 - 1 = stackFrame vm [] vm.heap.kheapCurrent n := by
  rw [h.spent.current, Kheap.endAfter, ← Function.iterate_succ_apply' tableEnd]
  rfl

theorem mapStack_mapped (hk : vm.Ready) (h : mapStack vm n = some vm') : StackMapped vm vm' n := by
  induction n generalizing vm' with
  | zero =>
    cases h
    exact ⟨.nil _ _ hk, .refl hk.heap, fun _ _ => rfl⟩
  | succ n ih =>
    rw [mapStack_succ] at h
    obtain ⟨vm₁, h1, h2⟩ := bind_eq_some_iff.mp h
    have hi := ih h1
    have ho := hi.overlays
    obtain ⟨f, hf, habove, -, hstep, hone, -, hkeep⟩ := mapStackPage_spec ho.maps.ok h2
    rw [hi.frame] at hf
    refine ⟨?_, ?_, fun g hg => ?_⟩
    · rw [regionPages_snoc, pageAddr, pagePath_mod]
      exact ho.append rfl (hstep.mono fun g hg => hg ▸ ho.top.trans habove)
    · have hall := hi.spent.trans hone
      rw [regionPages_snoc, pageAddr, pagePath_mod, ho.maps.missing_append ho.length hstep.length]
      rwa [Nat.add_add_add_comm] at hall
    · rw [hkeep g (hf ▸ hg n (Nat.lt_succ_self n)), hi.page g fun i hi => hg i (Nat.lt_succ_of_lt hi)]

end Stack

end LiwusOS.Exec
