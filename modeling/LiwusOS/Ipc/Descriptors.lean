import LiwusOS.Ipc.Pipe
import LiwusOS.Sched.Termination

/-! # File descriptors and pipes across tasks (`syscall.c`)

Every task has 32 descriptors; a system call works on those of the running task.
`fork_process` copies them. It does not link its task into the ring of tasks, so
that task never runs; it is kept apart here.

The count of a pipe is an `int`; far fewer than 2^31 descriptors fit into memory,
so it does not wrap. -/

namespace LiwusOS.Ipc
open LiwusOS.Lib LiwusOS.Sched Function

inductive FdType where
  | free
  | file
  | socket
  | pipe
deriving DecidableEq

/-- `kfile_t`. -/
structure KFile where
  type : FdType
  baseAddr : Nat
  size : Nat
  offset : Nat
  ownedBuffer : Int
  socketPtr : Nat
deriving DecidableEq

abbrev FdTable := Fin 32 → KFile

/-- A descriptor after `memset`. -/
def noFile : KFile := ⟨.free, 0, 0, 0, 0, 0⟩

/-- The machine: its tasks, their descriptors by the address of the task, and
the pipes by address. `pipes` are the allocated ones. -/
structure Procs where
  world : World
  forked : List Nat
  table : Nat → FdTable
  pipe : Nat → Pipe
  pipes : List Nat

def efault : Int := 14

/-- The descriptor with number `fd`. -/
def fdSlot (fd : Int) : Option (Fin 32) := if 0 ≤ fd ∧ fd < 32 then some (Fin.ofNat 32 fd.toNat) else none

namespace Procs

/-- `get_fd_table`. -/
def files (s : Procs) : FdTable := s.table s.world.sched.currentTask

def setFile (s : Procs) (i : Fin 32) (f : KFile) : Procs :=
  { s with table := update s.table s.world.sched.currentTask (update s.files i f) }

def addRef (s : Procs) (p : Nat) : Procs :=
  if p = 0 then s
  else { s with pipe := update s.pipe p { s.pipe p with refcount := (s.pipe p).refcount + 1 } }

/-- A reference less; without any the pipe is freed. -/
def dropRef (s : Procs) (p : Nat) : Procs :=
  if p = 0 then s else
  let refcount := (s.pipe p).refcount - 1
  { s with
    pipe := update s.pipe p { s.pipe p with refcount := refcount }
    pipes := if refcount ≤ 0 then s.pipes.erase p else s.pipes }

def pipeAddRef (s : Procs) (i : Fin 32) : Procs :=
  if (s.files i).type = .pipe then s.addRef (s.files i).socketPtr else s

/-- The body of `sys_close` for a descriptor in range. -/
def closeSlot (s : Procs) (i : Fin 32) : Procs :=
  let f := s.files i
  let s := if f.type = .pipe then s.dropRef f.socketPtr else s
  s.setFile i { f with type := .free }

def sysClose (s : Procs) (fd : Int) : Int × Procs :=
  match fdSlot fd with
  | none => (-1, s)
  | some i => (0, s.closeSlot i)

/-- `memcpy` of a descriptor to another, and `pipe_add_ref`. -/
def copySlot (s : Procs) (old new : Fin 32) : Procs := (s.setFile new (s.files old)).pipeAddRef new

/-- The first free descriptor from `lo` on. -/
def firstFree (t : FdTable) (lo : Nat) : Option (Fin 32) :=
  (List.finRange 32).find? fun i => lo ≤ i.val && (t i).type = .free

def sysDup (s : Procs) (oldfd : Int) : Int × Procs :=
  match fdSlot oldfd with
  | none => (-1, s)
  | some old =>
    if (s.files old).type = .free then (-1, s) else
    match firstFree s.files 3 with
    | none => (-1, s)
    | some i => (i.val, s.copySlot old i)

def sysDup2 (s : Procs) (oldfd newfd : Int) : Int × Procs :=
  match fdSlot oldfd, fdSlot newfd with
  | some old, some new =>
    if (s.files old).type = .free then (-1, s)
    else if newfd = oldfd then (newfd, s)
    else
      let s := if (s.files new).type ≠ .free then s.closeSlot new else s
      (newfd, s.copySlot old new)
  | _, _ => (-1, s)

/-- An end of the pipe at `p`; the rest of the descriptor is as it was. -/
def pipeEnd (f : KFile) (p baseAddr : Nat) : KFile :=
  { f with type := .pipe, baseAddr := baseAddr, socketPtr := p, offset := 0, size := 0 }

def addPipe (s : Procs) (p : Nat) : Procs :=
  { s with pipe := update s.pipe p newPipe, pipes := p :: s.pipes }

/-- `kfree` of a pipe. -/
def freePipe (s : Procs) (p : Nat) : Procs := { s with pipes := s.pipes.erase p }

def freeSlot (s : Procs) (i : Fin 32) : Procs := s.setFile i { s.files i with type := .free }

/-- `sys_pipe`: `valid` and `copied` are the results of `validate_user_pointer`
and `copy_to_user`, `addr` that of `kmalloc`. -/
def sysPipe (s : Procs) (valid copied : Bool) (addr : Option Nat) : Int × Procs :=
  if !valid then (-efault, s) else
  match addr with
  | none => (-1, s)
  | some p =>
    let s := s.addPipe p
    match firstFree s.files 3, (firstFree s.files 3).bind fun r => firstFree s.files (r.val + 1) with
    | some r, some w =>
      let s := s.setFile r (pipeEnd (s.files r) p 1)
      let s := s.setFile w (pipeEnd (s.files w) p 2)
      if copied then (0, s)
      else
        (-efault, ((s.freeSlot r).freeSlot w).freePipe p)
    | _, _ => (-1, s.freePipe p)

inductive ReadResult where
  | error
  /-- The caller has given up the processor and looks again when it runs next. -/
  | waits
  | bytes (data : List UInt8)
  deriving DecidableEq

def setPipe (s : Procs) (p : Nat) (x : Pipe) : Procs := { s with pipe := update s.pipe p x }

/-- `switch_task`. -/
def yield (s : Procs) : Procs :=
  { s with world := { s.world with sched := { s.world.sched with reschedForce := true } } }

/-- `sys_read` on a pipe; none for the other descriptors. -/
def sysRead (s : Procs) (fd : Int) (count : Nat) : Option (ReadResult × Procs) :=
  (fdSlot fd).bind fun i =>
  let f := s.files i
  if f.type ≠ .pipe then none
  else if f.socketPtr = 0 then some (.error, s)
  else match sysReadPipe (s.pipe f.socketPtr) count with
    | (some data, p) => some (.bytes data, s.setPipe f.socketPtr p)
    | (none, p) => some (.waits, (s.setPipe f.socketPtr p).yield)

/-- `sys_write` on a pipe; descriptors 1 and 2 are the console whatever they
refer to. -/
def sysWrite (s : Procs) (fd : Int) (data : List UInt8) : Option (Int × Procs) :=
  if fd = 1 ∨ fd = 2 then none else
  (fdSlot fd).bind fun i =>
  let f := s.files i
  if f.type ≠ .pipe then none
  else if f.socketPtr = 0 then some (-1, s)
  else
    let (n, p) := sysWritePipe (s.pipe f.socketPtr) data
    some (n, s.setPipe f.socketPtr p)

/-- The task of `fork_process`; its page directory and its stack are given. -/
def forkTask (s : Scheduler) (stackBase directory : Nat) : Task :=
  { blankTask with
    id := s.nextPid
    state := .ready
    parent := s.currentTask
    pageDirectory := directory
    kernelStackBase := stackBase
    kernelStack := (stackBase + 4096) % 2 ^ 64
    kernelStackSize := 4096
    stackTop := (stackBase + 4096) % 2 ^ 64 - registersSize
    heapStart := s.curr.heapStart
    heapEnd := s.curr.heapEnd
    mmapTop := s.curr.mmapTop
    userMode := s.curr.userMode
    priority := s.curr.priority
    timeSlice := taskQuantum s.curr }

/-- The copied descriptors at `addr` are counted. -/
def addRefs (s : Procs) (addr : Nat) : Procs :=
  (List.finRange 32).foldl
    (fun s i => if (s.table addr i).type = .pipe then s.addRef (s.table addr i).socketPtr else s) s

def forkProcess (s : Procs) (addr stackBase directory : Nat) : Int × Procs :=
  let child := forkTask s.world.sched stackBase directory
  let sched := { s.world.sched.modify addr fun _ => child with nextPid := wrapInt (s.world.sched.nextPid + 1) }
  let s := { s with
    world := { s.world with sched := sched }
    forked := addr :: s.forked
    table := update s.table addr s.files }
  (child.id, s.addRefs addr)

end Procs

/-! ## Runs -/

inductive IpcOp where
  | sched (op : SchedOp)
  | forkProcess (addr stackBase directory : Nat)
  | sysPipe (valid copied : Bool) (addr : Option Nat)
  | sysDup (oldfd : Int)
  | sysDup2 (oldfd newfd : Int)
  | sysClose (fd : Int)
  | sysRead (fd : Int) (count : Nat)
  | sysWrite (fd : Int) (data : List UInt8)

namespace Procs

/-- All tasks that have not been reaped. -/
def tasks (s : Procs) : List Nat := s.world.live ++ s.forked

def exec (fuel : Nat) (s : Procs) : IpcOp → Option Procs
  | .sched op => (s.world.exec fuel op).map fun w =>
    { s with world := w, table := op.created.elim s.table fun a => update s.table a fun _ => noFile }
  | .forkProcess addr stackBase directory => some (s.forkProcess addr stackBase directory).2
  | .sysPipe valid copied addr => some (s.sysPipe valid copied addr).2
  | .sysDup oldfd => some (s.sysDup oldfd).2
  | .sysDup2 oldfd newfd => some (s.sysDup2 oldfd newfd).2
  | .sysClose fd => some (s.sysClose fd).2
  | .sysRead fd count => (s.sysRead fd count).map Prod.snd
  | .sysWrite fd data => (s.sysWrite fd data).map Prod.snd

/-- What `kmalloc` guarantees: memory that nobody has. -/
def Admits (s : Procs) : IpcOp → Prop
  | .sched op => s.world.Admits op ∧ ∀ a, op.created = some a → a ∉ s.forked
  | .forkProcess addr _ _ => addr ≠ 0 ∧ addr ∉ s.tasks
  | .sysPipe _ _ addr => ∀ p, addr = some p → p ≠ 0 ∧ p ∉ s.pipes
  | _ => True

def Step (s s' : Procs) : Prop := ∃ op fuel, s.Admits op ∧ s.exec fuel op = some s'

/-- After `init_tasking`. -/
def boot (mem : Nat → Task) (word : Nat → UInt64) (directory addr : Nat) (table : Nat → FdTable)
    (pipe : Nat → Pipe) : Procs :=
  ⟨World.boot mem word directory addr, [], update table addr fun _ => noFile, pipe, []⟩

end Procs
end LiwusOS.Ipc
