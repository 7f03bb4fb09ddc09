import LiwusOS.Exec.ElfPages

/-! # `_sbrk` of libgloss over `sys_brk`

Each side has its own idea of where the heap starts: `_sbrk` begins at
0x40000000, the kernel at the end of the last segment. -/

namespace LiwusOS.Exec
open LiwusOS.Lib List Option
open LiwusOS.Mm
open LiwusOS.Sched (Scheduler createUserTask64Named)

/-! ## The model -/

/-- The kernel's side, and `heap_end` of `_sbrk`. -/
structure Program where
  mem : UserMem
  heapEnd : Nat

def sbrkStart : Nat := 0x40000000

/-- `memset` in `sys_brk` faults on a page that is not canonical. -/
def brkFaults (s : UserMem) (addr : Nat) : Bool := (brkMapped s addr).any fun v => !canonical v

/-- `_sbrk`: the pointer it returns, and the state. -/
def sbrk (s : Program) (incr : Nat) : Option (Nat × Program) :=
  let addr := (s.heapEnd + incr) % 2 ^ 64
  if brkFaults s.mem addr then none else
  (sysBrk s.mem addr).map fun (ret, mem) =>
    if ret = 2 ^ 64 - 1 then (2 ^ 64 - 1, { s with mem }) else (s.heapEnd, ⟨mem, addr⟩)

/-- A program that allocates, with what the calls have done. -/
structure Allocation where
  prog : Program
  /-- The ranges returned, first and past the last byte, in order. -/
  returned : List (Nat × Nat)
  /-- The pages mapped by `sys_brk`. -/
  mapped : List Nat

namespace Allocation

def step (a : Allocation) (incr : Nat) : Option Allocation :=
  (sbrk a.prog incr).map fun (p, prog) => {
    prog
    returned := if p = 2 ^ 64 - 1 then a.returned else a.returned ++ [(p, p + incr)]
    mapped := a.mapped ++ brkMapped a.prog.mem ((a.prog.heapEnd + incr) % 2 ^ 64) }

def run (a : Allocation) (incrs : List Nat) : Option Allocation := incrs.foldlM step a

section Step
variable {a a' : Allocation} {vm : Vm} {start incr : Nat}

/-- The state after some calls; `vm` is the memory before them. -/
structure Inv (a : Allocation) (vm : Vm) (start top : Nat) : Prop where
  task : ∃ t, a.prog.mem.task = some t ∧ t.heapStart = start ∧ t.heapEnd = top
  maps : MapsRange 0x7 vm a.prog.mem.vm (a.mapped.map pagePath)
  present : ∀ v ∈ a.mapped, (a.prog.mem.vm.lookup (pagePath v)).isSome = true
  low : sbrkStart ≤ a.prog.heapEnd
  high : a.prog.heapEnd ≤ 2 ^ 47
  aligned : start % 4096 = 0 ∧ top % 4096 = 0
  bounds : start ≤ top ∧ top ≤ 2 ^ 47
  pages : ∀ v, v ∈ a.mapped ↔ v % 4096 = 0 ∧ start ≤ v ∧ v < top
  reached : a.returned ≠ [] → a.prog.heapEnd ≤ top
  tight : top = start ∨ top < a.prog.heapEnd + 4096
  chain : a.returned.IsChain fun p q => p.2 = q.1
  last : (a.returned.getLast?.map Prod.snd).getD sbrkStart = a.prog.heapEnd
  cover : ∀ x, (∃ p ∈ a.returned, p.1 ≤ x ∧ x < p.2) ↔ sbrkStart ≤ x ∧ x < a.prog.heapEnd
  above : ∀ p ∈ a.returned, sbrkStart ≤ p.1

/-- The range grows by the bytes of one more call. -/
theorem Inv.extend {r : List (Nat × Nat)} {stop : Nat} (hle : sbrkStart ≤ stop) (incr : Nat)
    (hcover : ∀ x, (∃ p ∈ r, p.1 ≤ x ∧ x < p.2) ↔ sbrkStart ≤ x ∧ x < stop) (x : Nat) :
    (∃ p ∈ r ++ [(stop, stop + incr)], p.1 ≤ x ∧ x < p.2) ↔ sbrkStart ≤ x ∧ x < stop + incr := by
  have hsplit : (∃ p ∈ r ++ [(stop, stop + incr)], p.1 ≤ x ∧ x < p.2) ↔
      (∃ p ∈ r, p.1 ≤ x ∧ x < p.2) ∨ stop ≤ x ∧ x < stop + incr := by
    simp [or_and_right, exists_or]
  rw [hsplit, hcover]
  omega

/-- The chain of ranges goes on where the last one ended. -/
theorem chain_snoc {r : List (Nat × Nat)} {stop : Nat} (hc : r.IsChain fun p q => p.2 = q.1)
    (hl : (r.getLast?.map Prod.snd).getD sbrkStart = stop) (incr : Nat) :
    (r ++ [(stop, stop + incr)]).IsChain fun p q => p.2 = q.1 := by
  refine List.IsChain.append hc (isChain_singleton _) fun p hp q hq => ?_
  rw [mem_def] at hp
  rw [hp] at hl
  cases hq
  exact hl

/-- The pages of a call that does not fault. -/
theorem brk_below {base n : Nat} (hbase : base ≤ 2 ^ 47) (halign : base % 4096 = 0) (hn : base + n * 4096 < 2 ^ 64)
    (h : (regionAddrs base n).any (fun v => !canonical v) = false) : base + n * 4096 ≤ 2 ^ 47 := by
  by_contra hlt
  -- the first page of the upper part is in the range
  have hmem : 2 ^ 47 ∈ regionAddrs base n :=
    (mem_regionAddrs (by omega)).mpr ⟨(2 ^ 47 - base) / 4096, by omega, by omega⟩
  have hcan := any_eq_false.mp h _ hmem
  exact hcan (by decide)

/-- What `sys_brk` does for a new end of the heap. -/
theorem Inv.brk {top addr ret : Nat} {mem : UserMem} (h : a.Inv vm start top) (haddr : addr < 2 ^ 64 - 4096)
    (hf : brkFaults a.prog.mem addr = false) (h0 : addr ≠ 0) (hb : sysBrk a.prog.mem addr = some (ret, mem)) :
    addr ≤ ret ∧ top ≤ ret ∧ ret % 4096 = 0 ∧ ret ≤ 2 ^ 47 ∧ (ret = top ∨ ret < addr + 4096) ∧
      (∃ t, mem.task = some t ∧ t.heapStart = start ∧ t.heapEnd = ret) ∧
      MapsRange 0x7 vm mem.vm ((a.mapped ++ brkMapped a.prog.mem addr).map pagePath) ∧
      (∀ v ∈ a.mapped ++ brkMapped a.prog.mem addr, (mem.vm.lookup (pagePath v)).isSome = true) ∧
      ∀ v, v ∈ a.mapped ++ brkMapped a.prog.mem addr ↔ v % 4096 = 0 ∧ start ≤ v ∧ v < ret := by
  obtain ⟨t, ht, hstart, hend⟩ := h.task
  have hbounds := h.bounds
  have haligned := h.aligned
  have htop : brkTop t = top := by
    rw [brkTop, hstart, hend]
    exact if_neg (by omega)
  have hround : roundUpPage top = top := by
    unfold roundUpPage
    omega
  rcases sysBrk_cases hb with ⟨rfl, hnil, hret⟩ | ⟨t', vm', ht', -, hlt, hloop, hnew, rfl, rfl⟩
  · obtain ⟨hle, rfl⟩ := hret t ht h0
    rw [htop] at hle ⊢
    rw [hnil, append_nil]
    exact ⟨hle, le_rfl, haligned.2, hbounds.2, .inl rfl, ⟨t, ht, hstart, hend⟩, h.maps,
      h.present, h.pages⟩
  · cases ht.symm.trans ht'
    rw [htop, hround] at hloop hnew
    have hpages : top + brkPages t addr * 4096 = roundUpPage addr := by
      rw [brkPages, htop, hround]
      unfold roundUpPage
      omega
    have hup : addr ≤ roundUpPage addr ∧ roundUpPage addr < addr + 4096 := by
      unfold roundUpPage
      omega
    rw [brkFaults, hnew] at hf
    have hlimit := brk_below hbounds.2 haligned.2 (by omega) hf
    have ho := brkLoop_overlays h.maps.ok hloop
    rw [regionPages_eq] at ho
    rw [hnew, map_append]
    refine ⟨hup.1, by omega, roundUpPage_mod _, by omega, .inr hup.2,
      ⟨_, rfl, hstart, rfl⟩, h.maps.append ho.maps, fun v hv => ?_, fun v => ?_⟩
    · by_cases hm : pagePath v ∈ (regionAddrs top (brkPages t addr)).map pagePath
      · obtain ⟨x, b, hlook, -⟩ := ho.userPage hm
        rw [hlook]
        rfl
      · rw [ho.maps.lookup_isSome rfl hm]
        refine h.present v ((mem_append.mp hv).resolve_right fun hv' => hm ?_)
        exact mem_map_of_mem hv'
    · rw [mem_append, h.pages, mem_regionAddrs (by omega)]
      constructor
      · rintro (hv | ⟨i, hi, rfl⟩)
        · omega
        · omega
      · intro hv
        by_cases hlt : v < top
        · exact .inl ⟨hv.1, hv.2.1, hlt⟩
        · exact .inr ⟨(v - top) / 4096, by omega, by omega⟩

theorem Inv.step {top : Nat} (h : a.Inv vm start top) (hincr : incr < 2 ^ 63) (hs : a.step incr = some a') :
    (∃ top', a'.Inv vm start top') ∧ a'.returned = a.returned ++ [(a.prog.heapEnd, a.prog.heapEnd + incr)] ∧
      a'.prog.heapEnd = a.prog.heapEnd + incr := by
  have hlow := h.low
  have hhigh := h.high
  unfold sbrkStart at hlow
  have haddr : (a.prog.heapEnd + incr) % 2 ^ 64 = a.prog.heapEnd + incr := Nat.mod_eq_of_lt (by omega)
  rw [Allocation.step, sbrk, haddr] at hs
  dsimp only at hs
  split at hs
  · cases hs
  · rename_i hf
    rw [Option.map_map] at hs
    obtain ⟨⟨ret, mem⟩, hb, heq⟩ := map_eq_some_iff.mp hs
    obtain ⟨hreach, htop, hmod, hmax, htight, htask, hmaps, hpresent, hpages⟩ :=
      h.brk (by omega) (by simpa using hf) (by omega) hb
    have hret : ¬ ret = 2 ^ 64 - 1 := by omega
    have hptr : ¬ a.prog.heapEnd = 2 ^ 64 - 1 := by omega
    rw [Function.comp_apply] at heq
    dsimp only at heq
    rw [if_neg hret] at heq
    dsimp only at heq
    rw [if_neg hptr] at heq
    cases heq
    refine ⟨⟨ret, htask, hmaps, hpresent, by unfold sbrkStart; dsimp only; omega, ?_, ⟨h.aligned.1, hmod⟩,
      ⟨by have := h.bounds; omega, hmax⟩, hpages, fun _ => hreach, ?_, chain_snoc h.chain h.last incr, ?_,
      Inv.extend h.low incr h.cover, ?_⟩, rfl, rfl⟩
    · dsimp only
      omega
    · have hold := h.tight
      dsimp only
      omega
    · simp
    · intro p hp
      rcases mem_append.mp hp with hp | hp
      · exact h.above p hp
      · rw [mem_singleton.mp hp]
        exact h.low

end Step

/-! ## All calls -/

section Run
variable {a a' : Allocation} {vm : Vm} {start top : Nat} {incrs : List Nat}

theorem Inv.run (h : a.Inv vm start top) (hincr : ∀ i ∈ incrs, i < 2 ^ 63) (hr : a.run incrs = some a') :
    (∃ top', a'.Inv vm start top') ∧ a'.returned.length = a.returned.length + incrs.length ∧
      a'.prog.heapEnd = a.prog.heapEnd + incrs.sum := by
  induction incrs generalizing a top with
  | nil =>
    cases hr
    exact ⟨⟨top, h⟩, rfl, rfl⟩
  | cons i incrs ih =>
    rw [Allocation.run, foldlM_cons, bind_eq_bind, bind_eq_some_iff] at hr
    obtain ⟨a₁, h1, hr⟩ := hr
    obtain ⟨⟨top₁, hinv⟩, hret, hend⟩ := h.step (hincr i (.head _)) h1
    obtain ⟨hinv', hlen, hend'⟩ := ih hinv (fun j hj => hincr j (.tail _ hj)) hr
    refine ⟨hinv', ?_, ?_⟩
    · rw [hlen, hret, length_append, length_singleton, length_cons]
      omega
    · rw [hend', hend, sum_cons, Nat.add_assoc]

end Run

/-! ## Programs -/

/-- `heap_start` of a program started from `file`. -/
def heapStart (file : Buf) : Nat :=
  if maxEnd (loadSegments64 file) ≠ 0 then maxEnd (loadSegments64 file) else sbrkStart

section Launch
variable {vm vm' : Vm} {s : Scheduler} {file : Buf} {last entry addr stackBase : Nat}

end Launch

end Allocation
end LiwusOS.Exec
