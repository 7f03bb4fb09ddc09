import LiwusOS.Sched.ForkProcess

/-! # The stack checks of `schedule`

`schedule` compares two words of the running task's kernel stack with a magic
number: the one at `stack_canary_addr`, unless that is 0, and the one at
`kernel_stack_base`. Only `create_task_named_stack` writes them; the other
functions leave the address 0 and the base word as `kmalloc` returned it. -/

namespace LiwusOS.Sched
open Function

/-- The functions that make a task, each with the arguments of its own. -/
inductive Creation where
  | createTaskNamedStack (priority : Int) (stackSize : Nat)
  | createUserTaskNamed
  | createUserTask64Named
  | forkProcess (directory : Nat)

namespace Creation

def make (s : Scheduler) (addr stackBase : Nat) : Creation → Scheduler
  | createTaskNamedStack priority stackSize => Sched.createTaskNamedStack s addr stackBase priority stackSize
  | createUserTaskNamed => Sched.createUserTaskNamed s addr stackBase
  | createUserTask64Named => Sched.createUserTask64Named s addr stackBase
  | forkProcess directory => (Sched.forkProcess s addr stackBase directory).2

def isKernel : Creation → Bool
  | createTaskNamedStack .. => true
  | _ => false

end Creation

/-- The fields that `schedule` checks. -/
def Task.stack (t : Task) : Nat × Nat × Nat := (t.kernelStack, t.kernelStackBase, t.stackCanaryAddr)

/-- The task at `addr` runs in `v` with its stack pointer at `rsp`, and since `s`
it has kept within its stack: the words at its ends are as they were. -/
structure WithinStack (s v : Scheduler) (addr rsp : Nat) : Prop where
  current : v.currentTask = addr
  stack : (v.mem addr).stack = (s.mem addr).stack
  base : v.word (s.mem addr).kernelStackBase = s.word (s.mem addr).kernelStackBase
  canary : v.word (s.mem addr).stackCanaryAddr = s.word (s.mem addr).stackCanaryAddr
  low : (s.mem addr).kernelStackBase ≤ rsp
  high : rsp ≤ (s.mem addr).kernelStack

variable {s v : Scheduler} {addr rsp stackBase : Nat}

theorem WithinStack.stackFault_iff (h : WithinStack s v addr rsp) (hbase : (s.mem addr).kernelStackBase ≠ 0) :
    stackFault v rsp ↔ (s.mem addr).stackCanaryAddr ≠ 0 ∧ s.word (s.mem addr).stackCanaryAddr ≠ stackMagic ∨
      s.word (s.mem addr).kernelStackBase ≠ stackMagic := by
  obtain ⟨rfl, hstack, hword, hcanary, hlow, hhigh⟩ := h
  obtain ⟨htop, hbottom, haddr⟩ : v.curr.kernelStack = _ ∧ v.curr.kernelStackBase = _ ∧ v.curr.stackCanaryAddr = _ := by
    simpa only [Task.stack, Scheduler.curr, Prod.mk.injEq] using hstack
  have hne : (s.mem v.currentTask).kernelStack ≠ 0 := by omega
  simp [stackFault, htop, hbottom, haddr, hword, hcanary, hbase, hne, hlow.not_gt, hhigh.not_gt]

/-- `schedule` panics by these checks and in no other way. -/
theorem schedule_panic_iff (fuel : Nat) (ctrlC : Bool) : schedule fuel v rsp ctrlC = some .panic ↔
    v.currentTask ≠ 0 ∧ ¬ (v.curr.id = 0 ∧ v.curr.next = v.currentTask) ∧ stackFault v rsp := by
  rw [schedule]
  split_ifs <;> simp_all [Option.bind_eq_some_iff]

/-- What a new task's stack fields say, and which words were written. -/
theorem Creation.make_stack (c : Creation) (s : Scheduler) (addr stackBase : Nat) :
    let s' := c.make s addr stackBase
    ∃ top canary, (s'.mem addr).stack = (top, stackBase, canary) ∧
      if c.isKernel then s'.word canary = stackMagic ∧ s'.word stackBase = stackMagic
      else canary = 0 ∧ s'.word = s.word := by
  have hview : ∀ u t, ((linkTask u addr t).mem addr).stack = t.stack := fun _ _ => linkTask_view fun _ _ => rfl
  cases c with
  | createTaskNamedStack priority stackSize =>
    refine ⟨_, _, hview _ _, ?_, update_self ..⟩
    -- the canary may be the base word itself
    simp only [make, Sched.createTaskNamedStack, linkTask, Scheduler.modify, update_apply, if_true, ite_self]
  | createUserTaskNamed => exact ⟨_, _, hview _ _, rfl, rfl⟩
  | createUserTask64Named => exact ⟨_, _, hview _ _, rfl, rfl⟩
  | forkProcess directory =>
    exact ⟨_, _, congrArg Task.stack (Scheduler.modify_self _ addr fun _ => forkedTask s stackBase directory), rfl, rfl⟩

/-- **`schedule` stops a task that has kept within its stack exactly if it is not
one of `create_task_named_stack`**, unless the memory of its stack happened to
begin with the magic number. -/
theorem Creation.panics_iff (c : Creation) (hbase : stackBase ≠ 0) (haddr : addr ≠ 0)
    (h : WithinStack (c.make s addr stackBase) v addr rsp)
    (halone : ¬ (v.curr.id = 0 ∧ v.curr.next = addr)) (fuel : Nat) (ctrlC : Bool) :
    schedule fuel v rsp ctrlC = some .panic ↔ c.isKernel = false ∧ s.word stackBase ≠ stackMagic := by
  obtain ⟨top, canary, hstack, hwords⟩ := c.make_stack s addr stackBase
  simp only [Task.stack, Prod.mk.injEq] at hstack
  obtain ⟨-, hbottom, hcanary⟩ := hstack
  have hfault := h.stackFault_iff (by rwa [hbottom])
  rw [hbottom, hcanary] at hfault
  rw [schedule_panic_iff, h.current, hfault]
  cases hc : c.isKernel with
  | true =>
    rw [hc, if_pos rfl] at hwords
    simp [hwords]
  | false =>
    rw [hc, if_neg (by decide)] at hwords
    simp [hwords, haddr, halone]

/-- A user task on a zeroed stack. -/
theorem Creation.panics_iff_zeroed : ∃ v : Scheduler, v.currentTask = 0x20000 ∧
    schedule 0 v 0x31F50 false = some .panic := by
  let s' := createUserTask64Named.make World.zeroBoot.sched 0x20000 0x30000
  have hwithin : WithinStack s' { s' with currentTask := 0x20000 } 0x20000 0x31F50 :=
    ⟨rfl, rfl, rfl, rfl, by decide, by decide⟩
  exact ⟨_, rfl, (panics_iff _ (by decide) (by decide) hwithin (by decide) 0 false).mpr (by decide)⟩

/-- The first task creates a user task and is preempted by it. The next tick
stops the system although the user task's `rsp` is where it began. -/
theorem user_task_panics : ((schedule 2 (createUserTask64Named World.zeroBoot.sched 0x20000 0x30000) 0 false).bind
    fun o => match o with
      | .resume rsp s => (schedule 2 s rsp false).map fun o => (s.currentTask, rsp, o matches .panic)
      | .panic => none) = some (0x20000, 0x31F50, true) := by
  decide +kernel

end LiwusOS.Sched
