import LiwusOS.Sched.TaskRing

/-! # `fork_process` and the ring

The child gets a pid, a state and a parent, and is never linked to another
task: its `next` stays NULL. A task with a NULL link lies on no ring, so neither
the scan of `schedule` nor the one of `sys_waitpid` meets it. -/

namespace LiwusOS.Sched
open LiwusOS.Lib

/-- The child of the current task; `directory` is what `vmm_copy_directory` returned. -/
def forkedTask (s : Scheduler) (stackBase directory : Nat) : Task :=
  let stack := (stackBase + 4096) % 2 ^ 64
  { blankTask with
    id := s.nextPid
    state := .ready
    parent := s.currentTask
    pageDirectory := directory
    kernelStackBase := stackBase
    kernelStack := stack
    kernelStackSize := 4096
    stackTop := stack - registersSize
    heapStart := s.curr.heapStart
    heapEnd := s.curr.heapEnd
    mmapTop := s.curr.mmapTop
    userMode := s.curr.userMode
    priority := s.curr.priority
    timeSlice := taskQuantum { blankTask with priority := s.curr.priority } }

/-- `fork_process`: the pid returned to the parent, and the tasks. -/
def forkProcess (s : Scheduler) (addr stackBase directory : Nat) : Int × Scheduler :=
  (s.nextPid, { s with nextPid := wrapInt (s.nextPid + 1) }.modify addr fun _ => forkedTask s stackBase directory)

/-- What makes a child schedulable and waitable. -/
structure Joined (s : Scheduler) (child caller : Nat) (pid : Int) : Prop where
  onRing : ∃ l, Ring s.next 0 s.taskList l ∧ child ∈ l
  ready : (s.mem child).state = .ready
  parent : (s.mem child).parent = caller
  waitable : ∀ fuel junk s', sysWaitpid fuel s pid junk ≠ some (.noChild, s')

variable {s : Scheduler} {l : List Nat} {a addr stackBase directory : Nat}

/-- Whatever state the parent forks in, the child is on no ring. -/
theorem forked_never_joined (s : Scheduler) (addr stackBase directory : Nat) :
    ¬ Joined (forkProcess s addr stackBase directory).2 addr s.currentTask
      (forkProcess s addr stackBase directory).1 := by
  rintro ⟨⟨l, hring, hmem⟩, -⟩
  have hnull : (forkProcess s addr stackBase directory).2.next addr = 0 := by
    rw [forkProcess, Scheduler.next, Scheduler.modify_self]
    rfl
  exact hring.ne_nil _ (hring.next_mem hmem) hnull

/-! ## What the parent sees -/

/-- The first task forks at boot, gets pid 1 and waits for it. -/
theorem fork_loses_child : ∃ s' : Scheduler, forkProcess World.zeroBoot.sched 0x20000 0x30000 0 = (1, s') ∧
    ¬ Joined s' 0x20000 World.zeroBoot.sched.currentTask 1 ∧
    (sysWaitpid 2 s' 1 blankTask).map (fun x => x.1 matches .noChild) = some true := by
  refine ⟨_, rfl, ?_, ?_⟩
  · rintro ⟨⟨l, hring, hmem⟩, -⟩
    exact hring.ne_nil _ (hring.next_mem hmem) rfl
  · decide +kernel

end LiwusOS.Sched
