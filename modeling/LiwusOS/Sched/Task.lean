import LiwusOS.Lib.Ring

/-! # Tasks and the scheduler (`task.c`)

Tasks are kept by address in `mem`; NULL is 0. The functions run under
`scheduler_lock` on one CPU, so each is one step up to the point where it calls
`switch_task`, which sets `g_resched_force` and lets `schedule` run as the next
step. `int` fields are integers in two's complement range, `next_pid++` wraps.

Loops over the ring carry fuel. The addresses `kmalloc` returns are arguments.
Names, working directories, descriptors, register frames and the counts of
switches are left out, as are the page tables that `sys_waitpid` frees. -/

namespace LiwusOS.Sched
open LiwusOS.Lib Function

inductive TaskState where
  | running
  | ready
  | sleeping
  | zombie
deriving DecidableEq

structure Task where
  id : Int
  state : TaskState
  exitCode : Int
  stackTop : Nat
  kernelStack : Nat
  kernelStackBase : Nat
  kernelStackSize : Nat
  stackCanaryAddr : Nat
  parent : Nat
  next : Nat
  pageDirectory : Nat
  heapStart : Nat
  heapEnd : Nat
  mmapTop : Nat
  cpuTicks : Nat
  priority : Int
  timeSlice : Int
  wakeTick : Nat
  userMode : Bool

structure Scheduler where
  mem : Nat → Task
  /-- The 64-bit words of memory; the stack checks read them. -/
  word : Nat → UInt64
  taskList : Nat
  currentTask : Nat
  nextPid : Int
  reschedForce : Bool
  lastForegroundPid : Int
  timerTicks : Nat
  currentDirectory : Nat
  lastElfHeapStart : Nat

def taskPrioDefault : Int := 1
def taskPrioMax : Int := 10
def stackMagic : UInt64 := 0xDEADBEEFCAFEBABE

/-- `sizeof(registers_t)`. -/
def registersSize : Nat := 176

/-- The value of an `int` after wrapping. -/
def wrapInt (x : Int) : Int := (x + 2 ^ 31) % 2 ^ 32 - 2 ^ 31

def taskQuantum (t : Task) : Int :=
  if t.priority < 1 then 1 else if t.priority > taskPrioMax then taskPrioMax else t.priority

namespace Scheduler

def modify (s : Scheduler) (a : Nat) (f : Task → Task) : Scheduler :=
  { s with mem := update s.mem a (f (s.mem a)) }

def next (s : Scheduler) (a : Nat) : Nat := (s.mem a).next

/-- The task that runs. -/
def curr (s : Scheduler) : Task := s.mem s.currentTask

@[simp] theorem modify_self (s : Scheduler) (a : Nat) (f : Task → Task) :
    (s.modify a f).mem a = f (s.mem a) := update_self ..

theorem modify_ne (s : Scheduler) {a b : Nat} (f : Task → Task) (h : b ≠ a) :
    (s.modify a f).mem b = s.mem b := update_of_ne h ..

end Scheduler

/-! ## Creation -/

/-- A task after `memset` and `task_sched_fields_init`. -/
def blankTask : Task where
  id := 0
  state := .running
  exitCode := 0
  stackTop := 0
  kernelStack := 0
  kernelStackBase := 0
  kernelStackSize := 0
  stackCanaryAddr := 0
  parent := 0
  next := 0
  pageDirectory := 0
  heapStart := 0
  heapEnd := 0
  mmapTop := 0
  cpuTicks := 0
  priority := taskPrioDefault
  timeSlice := taskPrioDefault
  wakeTick := 0
  userMode := false

/-- `init_tasking` on whatever the memory holds. -/
def initTasking (mem : Nat → Task) (word : Nat → UInt64) (directory addr : Nat) : Scheduler where
  mem := update mem addr { blankTask with pageDirectory := directory, next := addr }
  word := word
  taskList := addr
  currentTask := addr
  nextPid := 1
  reschedForce := false
  lastForegroundPid := -1
  timerTicks := 0
  currentDirectory := directory
  lastElfHeapStart := 0

/-- What the three creation functions have in common at their start. -/
def newTask (s : Scheduler) (userMode : Bool) : Task :=
  { blankTask with
    id := s.nextPid
    state := .ready
    parent := s.currentTask
    pageDirectory := s.currentDirectory
    userMode := userMode }

/-- What they have in common at their end: the task goes right after `task_list`. -/
def linkTask (s : Scheduler) (addr : Nat) (t : Task) : Scheduler :=
  let s := { s with nextPid := wrapInt (s.nextPid + 1) }
  let s := s.modify addr fun _ => { t with next := s.next s.taskList }
  s.modify s.taskList fun r => { r with next := addr }

/-- `stack & ~0xF`. -/
def align16 (x : Nat) : Nat := x / 16 * 16

def createTaskNamedStack (s : Scheduler) (addr stackBase : Nat) (priority : Int) (stackSize : Nat) : Scheduler :=
  let t := newTask s false
  let t := if 1 ≤ priority ∧ priority ≤ taskPrioMax then
    { t with priority := priority, timeSlice := priority } else t
  let stackSize := if stackSize < 8192 then 8192 else stackSize
  let stack := (stackBase + stackSize) % 2 ^ 64
  let canaryAddr := (align16 stack + 2 ^ 64 - 8) % 2 ^ 64
  let s := { s with
    word := update (update s.word canaryAddr stackMagic) stackBase stackMagic }
  linkTask s addr { t with
    kernelStackBase := stackBase
    kernelStack := stack
    kernelStackSize := stackSize % 2 ^ 32
    stackCanaryAddr := canaryAddr
    stackTop := stack - registersSize }

/-- The user task of both entry modes; only the heap start differs. No canary
is written. -/
def createUserTask (s : Scheduler) (addr stackBase heapStart : Nat) : Scheduler :=
  let stack := align16 ((stackBase + 8192) % 2 ^ 64)
  linkTask s addr { newTask s true with
    kernelStackBase := stackBase
    kernelStack := stack
    kernelStackSize := 8192
    stackTop := stack - registersSize
    heapStart := heapStart
    heapEnd := heapStart
    mmapTop := 0xBFFF0000 }

def createUserTaskNamed (s : Scheduler) (addr stackBase : Nat) : Scheduler :=
  createUserTask s addr stackBase 0x40000000

def createUserTask64Named (s : Scheduler) (addr stackBase : Nat) : Scheduler :=
  createUserTask s addr stackBase
    (if s.lastElfHeapStart ≠ 0 then s.lastElfHeapStart else 0x40000000)

/-! ## Termination -/

/-- A task becomes a zombie and its parent is woken. -/
def terminate (s : Scheduler) (t : Nat) (code : Int) : Scheduler :=
  let s := s.modify t fun x => { x with state := .zombie, exitCode := code }
  let parent := (s.mem t).parent
  if parent ≠ 0 then s.modify parent fun x => { x with state := .running } else s

/-- The search of `sys_kill_by_pid`. A kernel task is left alone. -/
def sysKillByPid (fuel : Nat) (s : Scheduler) (pid : Int) : Option Scheduler :=
  if pid < 0 then some s else
  (doWhile Scheduler.next s.taskList (fun s t =>
    if (s.mem t).id = pid then
      .inr (if (s.mem t).userMode then terminate s t (128 + 2) else s)
    else .inl s) fuel s s.taskList).map (Sum.elim id id)

/-- `sys_exit_process` up to its first `switch_task`. -/
def sysExitProcess (s : Scheduler) (status : Int) : Scheduler :=
  let s := if s.curr.id = s.lastForegroundPid then { s with lastForegroundPid := -1 } else s
  { terminate s s.currentTask status with reschedForce := true }

/-! ## `schedule` -/

/-- The checks at the start of `schedule` that end in `kernel_panic`. -/
def stackFault (s : Scheduler) (rsp : Nat) : Bool :=
  s.curr.kernelStack ≠ 0 && s.curr.kernelStackBase ≠ 0 &&
    (rsp < s.curr.kernelStackBase || rsp > s.curr.kernelStack ||
      s.curr.stackCanaryAddr ≠ 0 && s.word s.curr.stackCanaryAddr ≠ stackMagic ||
      s.word s.curr.kernelStackBase ≠ stackMagic)

/-- Ctrl-C ends the foreground user task. -/
def handleCtrlC (fuel : Nat) (s : Scheduler) (ctrlC : Bool) : Option Scheduler :=
  if ctrlC ∧ s.lastForegroundPid > 0 then
    (doWhile Scheduler.next s.taskList (fun s t =>
      if (s.mem t).id = s.lastForegroundPid ∧ (s.mem t).userMode then
        .inr { terminate s t (128 + 2) with lastForegroundPid := -1 }
      else .inl s) fuel s s.taskList).map (Sum.elim id id)
  else some s

/-- `(int64_t)(timer_ticks - wake_tick) >= 0`. -/
def due (ticks wakeTick : Nat) : Bool := (ticks + 2 ^ 64 - wakeTick) % 2 ^ 64 < 2 ^ 63

def wakeTask (ticks : Nat) (w : Task) : Task :=
  if w.state = .sleeping ∧ w.wakeTick ≠ 0 ∧ due ticks w.wakeTick then
    { w with state := .ready, wakeTick := 0, timeSlice := taskQuantum w }
  else w

def wakeSleepers (fuel : Nat) (s : Scheduler) : Option Scheduler :=
  (doWhile (β := Scheduler) Scheduler.next s.taskList
    (fun s t => .inl (s.modify t (wakeTask s.timerTicks))) fuel s s.taskList).map (Sum.elim id id)

/-- The round-robin scan from the current task on. -/
def pickNext (fuel : Nat) (s : Scheduler) : Option Nat :=
  seek s.next (fun t => (s.mem t).state = .ready || t = s.currentTask) fuel (s.next s.currentTask)

def run (s : Scheduler) (t : Nat) : Scheduler :=
  s.modify t fun x => { x with state := .running, timeSlice := taskQuantum x }

/-- The switch to the task the scan ended at. -/
def switchTo (s : Scheduler) (next : Nat) : Scheduler :=
  let s := if (s.mem next).state = .ready then { run s next with currentTask := next }
    else if s.curr.state = .ready then run s s.currentTask else s
  { s with currentDirectory := s.curr.pageDirectory }

/-- The part of `schedule` after Ctrl-C and the sleepers. -/
def reschedule (fuel : Nat) (s : Scheduler) (forced : Bool) (rsp : Nat) : Option (Nat × Scheduler) :=
  let s := s.modify s.currentTask fun c =>
    { c with stackTop := rsp, cpuTicks := (c.cpuTicks + 1) % 2 ^ 64 }
  if !forced ∧ s.curr.state = .running ∧ s.curr.timeSlice > 1 then
    some (rsp, s.modify s.currentTask fun c => { c with timeSlice := c.timeSlice - 1 })
  else
    let s := if !forced ∧ s.curr.state = .running then
      s.modify s.currentTask fun c => { c with timeSlice := 0 } else s
    let s := if s.curr.state = .running then
      s.modify s.currentTask fun c => { c with state := .ready } else s
    (pickNext fuel s).map fun next =>
      let s := switchTo s next
      (s.curr.stackTop, s)

inductive Outcome where
  | panic
  | resume (rsp : Nat) (s : Scheduler)

def schedule (fuel : Nat) (s : Scheduler) (rsp : Nat) (ctrlC : Bool) : Option Outcome :=
  if s.currentTask = 0 then some (.resume rsp s) else
  if s.curr.id = 0 ∧ s.curr.next = s.currentTask then some (.resume rsp s) else
  if stackFault s rsp then some .panic else
  (handleCtrlC fuel { s with reschedForce := false } ctrlC).bind fun s1 =>
  (wakeSleepers fuel s1).bind fun s2 =>
  (reschedule fuel s2 s.reschedForce rsp).map fun (rsp, s) => .resume rsp s

/-! ## Blocking -/

/-- `task_sleep_ms` up to its `switch_task`. -/
def taskSleepMs (s : Scheduler) (ms : Nat) : Scheduler :=
  if s.currentTask = 0 then s else
  if ms = 0 then { s with reschedForce := true } else
  let ticks := (ms + 9) % 2 ^ 32 / 10
  let ticks := if ticks = 0 then 1 else ticks
  { s.modify s.currentTask fun t =>
      { t with wakeTick := (s.timerTicks + ticks) % 2 ^ 64, state := .sleeping } with
    reschedForce := true }

inductive WaitResult where
  | reaped (child : Nat) (id status : Int)
  | noChild
  | blocked

/-- One pass of `sys_waitpid` over the ring: the zombie to reap, or `any_child`
and `found`. -/
def waitScan (fuel : Nat) (s : Scheduler) (pid : Int) : Option ((Bool × Bool) ⊕ Nat) :=
  doWhile (fun _ => s.next) s.taskList (fun (f : Bool × Bool) t =>
    if (s.mem t).parent ≠ 0 ∧ (s.mem (s.mem t).parent).id = s.curr.id then
      if pid = -1 ∨ (s.mem t).id = pid then
        if (s.mem t).state = .zombie then .inr t else .inl (true, true)
      else .inl (true, f.2)
    else .inl f) fuel (false, false) s.taskList

/-- A reaped task leaves the ring, its children go to `task_list`, and its
memory is freed and holds `junk` from then on. -/
def reap (fuel : Nat) (s : Scheduler) (t : Nat) (junk : Task) : Option Scheduler :=
  (seek s.next (fun p => s.next p = t) fuel s.taskList).bind fun prev =>
  let s := s.modify prev fun p => { p with next := s.next t }
  (doWhile (β := Scheduler) Scheduler.next s.taskList (fun s c =>
    .inl (s.modify c fun x => if x.parent = t then { x with parent := s.taskList } else x))
    fuel s s.taskList).map fun r =>
  (r.elim id id).modify t fun _ => junk

/-- What a pass over the ring leads to. -/
def waitEnd (fuel : Nat) (s : Scheduler) (pid : Int) (junk : Task) :
    (Bool × Bool) ⊕ Nat → Option (WaitResult × Scheduler)
  | .inr t => (reap fuel s t junk).map fun s' => (.reaped t (s.mem t).id (s.mem t).exitCode, s')
  | .inl (anyChild, found) =>
    if !anyChild ∨ pid ≠ -1 ∧ !found then some (.noChild, s)
    else some (.blocked, { s.modify s.currentTask fun p => { p with state := .sleeping } with
      reschedForce := true })

/-- One round of `sys_waitpid`; a blocked caller tries again when it runs next. -/
def sysWaitpid (fuel : Nat) (s : Scheduler) (pid : Int) (junk : Task) : Option (WaitResult × Scheduler) :=
  (waitScan fuel s pid).bind (waitEnd fuel s pid junk)

end LiwusOS.Sched
