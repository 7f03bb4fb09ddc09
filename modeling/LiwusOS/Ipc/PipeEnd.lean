import LiwusOS.Ipc.PipeCount

/-! # The end of a pipe

A reader looks for the end of the file in the count of the pipe, in which its own
descriptor is counted. -/

namespace LiwusOS.Ipc
namespace Procs

open LiwusOS.Lib LiwusOS.Sched Relation Option

/-- `fd` is a read end of the pipe at `a`, which is empty and has no write end. -/
structure AtEnd (s : Procs) (fd : Int) (a : Nat) : Prop where
  readEnd : ∃ i, fdSlot fd = some i ∧ (s.files i).type = .pipe ∧ (s.files i).baseAddr = 1 ∧ (s.files i).socketPtr = a
  closed : ∀ k ∈ s.slots, s.ref k = some a → (s.table k.1 k.2).baseAddr ≠ 2
  empty : (s.pipe a).bytesAvail = 0

/-- `sys_read` returns 0. -/
def SeesEnd (s : Procs) (fd : Int) (count : Nat) : Prop := ∃ s', s.sysRead fd count = some (.bytes [], s')

/-- A system call on descriptors, of the task that runs. -/
def CallStep (s s' : Procs) : Prop :=
  ∃ op fuel, (∀ o, op ≠ .sched o) ∧ s.Admits op ∧ s.exec fuel op = some s'

variable {s s' : Procs} {fd : Int} {a : Nat} {i : Fin 32}

/-- The reader of an empty pipe waits, whoever has the other end. -/
theorem Inv.sysRead_waits (h : s.Inv) (count : Nat) (hfd : fdSlot fd = some i) (hp : (s.files i).type = .pipe)
    (ha : (s.files i).socketPtr = a) (hempty : (s.pipe a).bytesAvail = 0) :
    ∃ s', s.sysRead fd count = some (.waits, s') := by
  have href : s.ref (s.key i) = some a := by rw [ref_key, if_pos hp, ha]
  have hmem := h.ref_mem (h.key_mem i) href
  have h0 : a ≠ 0 := fun heq => h.nonzero (heq ▸ hmem)
  -- the descriptor of the reader is counted
  have hpos : ¬ (s.pipe a).refcount ≤ 0 := by
    rw [h.counted.exact_count a hmem]
    exact not_le.mpr (Int.natCast_pos.mpr (holders_pos (h.key_mem i) href))
  have hread : sysReadPipe (s.pipe a) count = (none, s.pipe a) := by rw [sysReadPipe, if_pos hempty, if_neg hpos]
  refine ⟨(s.setPipe a (s.pipe a)).yield, ?_⟩
  rw [Procs.sysRead, hfd, bind_some]
  dsimp only
  rw [if_neg (not_not.mpr hp), ha, if_neg h0, hread]

theorem inv_of_calls {mem : Nat → Task} {word : Nat → UInt64} {directory addr : Nat} {table : Nat → FdTable}
    {pipe : Nat → Pipe} (h0 : addr ≠ 0) (hr : ReflTransGen ClosedStep (boot mem word directory addr table pipe) s)
    (hc : ReflTransGen CallStep s s') : s'.Inv := by
  induction hc with
  | refl => exact inv_of_closed h0 hr
  | tail _ hstep ih =>
    obtain ⟨op, fuel, hcall, hadm, hexec⟩ := hstep
    exact (ih.call hcall hadm hexec).1

/-- **No reader sees the end of a pipe**: in every state that the calls on pipes
lead to, a read at the end of a pipe returns 0 only as far as no descriptor is
at the end of a pipe. -/
theorem seesEnd_iff_not_atEnd {mem : Nat → Task} {word : Nat → UInt64} {directory addr : Nat}
    {table : Nat → FdTable} {pipe : Nat → Pipe} (h0 : addr ≠ 0)
    (hr : ReflTransGen ClosedStep (boot mem word directory addr table pipe) s)
    (hc : ReflTransGen CallStep s s') (fd : Int) (a count : Nat) :
    (s'.AtEnd fd a → s'.SeesEnd fd count) ↔ ¬ s'.AtEnd fd a := by
  refine ⟨fun hsees hend => ?_, fun hnot hend => absurd hend hnot⟩
  obtain ⟨t, ht⟩ := hsees hend
  obtain ⟨i, hfd, hp, -, ha⟩ := hend.readEnd
  obtain ⟨t', ht'⟩ := (inv_of_calls h0 hr hc).sysRead_waits count hfd hp ha hend.empty
  cases ht.symm.trans ht'

/-! ## A concrete machine -/

instance (op : IpcOp) : Decidable (∀ o, op ≠ .sched o) := by
  apply IpcOp.casesOn (motive := fun op => Decidable (∀ o, op ≠ .sched o)) op
  case sched => exact fun o => .isFalse fun h => h o rfl
  all_goals intros; exact .isTrue nofun

/-- The first task opens a pipe and closes its write end. -/
theorem zeroBoot_close : ∃ s, ReflTransGen CallStep zeroBoot s ∧
    ((s.files 3).type = .pipe ∧ (s.files 3).baseAddr = 1 ∧ (s.files 3).socketPtr = 0x60000) ∧
    (∀ k ∈ s.slots, s.ref k = some 0x60000 → (s.table k.1 k.2).baseAddr ≠ 2) ∧ (s.pipe 0x60000).bytesAvail = 0 ∧
    (s.sysRead 3 1).map Prod.fst ≠ some (.bytes []) :=
  exists_run exec (fun s op => (∀ o, op ≠ .sched o) ∧ s.Admits op) (fun h hv => ⟨_, _, h.1, h.2, hv⟩)
    [(.sysPipe true true (some 0x60000), 0), (.sysClose 4, 0)] (by decide +kernel)

theorem seesEnd_zeroBoot : ∃ s, ReflTransGen CallStep zeroBoot s ∧ s.AtEnd 3 0x60000 ∧
    ((s.AtEnd 3 0x60000 → s.SeesEnd 3 1) ↔ ¬ s.AtEnd 3 0x60000) := by
  obtain ⟨s, hr, hfile, hclosed, hempty, -⟩ := zeroBoot_close
  exact ⟨s, hr, ⟨⟨3, rfl, hfile⟩, hclosed, hempty⟩, seesEnd_iff_not_atEnd (by decide) .refl hr 3 0x60000 1⟩

/-- The reader waits for data although nobody can write any. -/
theorem reader_waits_at_end : ∃ s, ReflTransGen CallStep zeroBoot s ∧
    s.AtEnd 3 0x60000 ∧ ¬ s.SeesEnd 3 1 := by
  obtain ⟨s, hr, hfile, hclosed, hempty, hread⟩ := zeroBoot_close
  refine ⟨s, hr, ⟨⟨3, rfl, hfile⟩, hclosed, hempty⟩, ?_⟩
  rintro ⟨t, ht⟩
  rw [ht] at hread
  exact hread rfl

end Procs
end LiwusOS.Ipc
