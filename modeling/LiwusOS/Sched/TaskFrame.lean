import LiwusOS.Sched.TaskSteps
import LiwusOS.Lib.Bytes

/-! # The first frame of a kernel task

`create_task_named_stack` puts a `registers_t` at the top of the new stack and
then a canary where the new `rsp` points. The frame ends at the top itself, while
`rsp` is the top rounded down to 16 bytes less 8, so the canary lies inside the
frame. -/

namespace LiwusOS.Sched
open LiwusOS.Lib

/-- `*(uint64_t *)(m + a) = v`. -/
def put64 (m : Buf) (a v : Nat) : Buf :=
  (m.putU32 a (UInt32.ofNat v)).putU32 (a + 4) (UInt32.ofNat (v / 2 ^ 32))

/-- What `create_task_named_stack` writes to the stack that `kmalloc` gave it. -/
def prepareStack (m : Buf) (stackBase stackSize entryPoint : Nat) : Buf :=
  let stackSize := if stackSize < 8192 then 8192 else stackSize
  let stack := (stackBase + stackSize) % 2 ^ 64
  let regs := stack - registersSize
  let m : Buf := fun i => if regs ≤ i ∧ i < regs + registersSize then 0 else m i
  let m := put64 m (regs + 152) 0x202
  let m := put64 m (regs + 144) 0x08
  let m := put64 m (regs + 136) entryPoint
  let rsp := (align16 stack + 2 ^ 64 - 8) % 2 ^ 64
  let m := put64 m (regs + 160) rsp
  let m := put64 m (regs + 168) 0x10
  let m := put64 m rsp stackMagic.toNat
  put64 m stackBase stackMagic.toNat

/-- The frame at `stack_top` holds what the task is to start with. -/
structure Starts (m : Buf) (t : Task) (entryPoint : Nat) : Prop where
  rip : m.u64 (t.stackTop + 136) = entryPoint
  cs : m.u64 (t.stackTop + 144) = 0x08
  rflags : m.u64 (t.stackTop + 152) = 0x202
  rsp : m.u64 (t.stackTop + 160) = align16 t.kernelStack - 8
  ss : m.u64 (t.stackTop + 168) = 0x10

/-! ## Bytes of a word -/

theorem put64_outside (m : Buf) {a i : Nat} (v : Nat) (h : i < a ∨ a + 8 ≤ i) : put64 m a v i = m i := by
  rw [put64, Buf.putU32_outside _ _ (by omega), Buf.putU32_outside _ _ (by omega)]

theorem u64_mod (m : Buf) (a : Nat) : m.u64 a % 256 = (m a).toNat := by
  have h0 := (m a).toNat_lt
  rw [Buf.u64, Buf.u32, UInt32.toNat_ofNat']
  omega

/-- No byte of the canary is the low byte of `ss` or of an aligned `rsp`. -/
theorem canary_byte (m : Buf) (a : Nat) {i : Nat} (hi : i < 8) :
    (put64 m a stackMagic.toNat (a + i)).toNat ≠ 0x10 ∧ (put64 m a stackMagic.toNat (a + i)).toNat % 16 ≠ 8 := by
  interval_cases i <;> simp [put64, Buf.putU32, Nat.add_assoc] <;> decide

/-! ## The canary and the frame -/

/-- The new task as `create_task_named_stack` links it in. -/
theorem createTaskNamedStack_stack (s : Scheduler) (addr stackBase : Nat) (priority : Int) (stackSize : Nat) :
    let t := (createTaskNamedStack s addr stackBase priority stackSize).mem addr
    let stack := (stackBase + if stackSize < 8192 then 8192 else stackSize) % 2 ^ 64
    t.kernelStack = stack ∧ t.stackTop = stack - registersSize := by
  exact Prod.mk.inj (linkTask_view (g := fun y => (y.kernelStack, y.stackTop)) fun _ _ => rfl)

/-- **A new kernel task never has the frame it is given**: the canary covers the
low byte of `ss` or, if the stack ends 8 bytes or more above a multiple of 16,
that of `rsp`. -/
theorem prepareStack_spoils (m : Buf) (s : Scheduler) (addr : Nat) {stackBase stackSize : Nat} (priority : Int)
    (entryPoint : Nat) (hfits : stackBase + max stackSize 8192 < 2 ^ 64) :
    ¬ Starts (prepareStack m stackBase stackSize entryPoint)
      ((createTaskNamedStack s addr stackBase priority stackSize).mem addr) entryPoint := by
  obtain ⟨hkernel, htop⟩ := createTaskNamedStack_stack s addr stackBase priority stackSize
  rintro ⟨-, -, -, hrsp, hss⟩
  rw [htop] at hrsp hss
  rw [hkernel] at hrsp
  have hsize : (if stackSize < 8192 then 8192 else stackSize) = max stackSize 8192 := by
    split <;> omega
  simp only [prepareStack, hsize, Nat.mod_eq_of_lt hfits] at hrsp hss
  generalize hstack : stackBase + max stackSize 8192 = stack at *
  have hcanary : (align16 stack + 2 ^ 64 - 8) % 2 ^ 64 = stack / 16 * 16 - 8 := by
    rw [align16]
    omega
  rw [hcanary] at hrsp hss
  rw [align16] at hrsp
  rw [show registersSize = 176 from rfl] at hrsp hss
  by_cases hr : stack % 16 < 8
  · have hbyte := u64_mod _ _ |>.symm.trans (congrArg (· % 256) hss)
    rw [put64_outside _ _ (by omega), show stack - 176 + 168 = stack / 16 * 16 - 8 + stack % 16 by omega] at hbyte
    exact (canary_byte _ _ hr).1 hbyte
  · have hbyte := u64_mod _ _ |>.symm.trans (congrArg (· % 256) hrsp)
    rw [put64_outside _ _ (by omega),
      show stack - 176 + 160 = stack / 16 * 16 - 8 + (stack % 16 - 8) by omega] at hbyte
    have hlow : (stack / 16 * 16 - 8) % 256 % 16 = 8 := by omega
    exact (canary_byte _ _ (by omega)).2 ((congrArg (· % 16) hbyte).trans hlow)

theorem prepareStack_spoils_zeroed : ¬ Starts (prepareStack Buf.zero 0x100008 65536 0x200000)
    ((createTaskNamedStack (initTasking (fun _ => blankTask) (fun _ => 0) 0 0x10000) 0x20000 0x100008 1 65536).mem
      0x20000) 0x200000 :=
  prepareStack_spoils _ _ _ _ _ (by decide)

/-- The stack of the default size at 1 MB: `ss` reads as the canary. -/
theorem canary_in_ss : ((createTaskNamedStack (initTasking (fun _ => blankTask) (fun _ => 0) 0 0x10000) 0x20000
      0x100000 1 65536).mem 0x20000).stackTop = 0x10FF50 ∧
    (prepareStack Buf.zero 0x100000 65536 0x200000).u64 (0x10FF50 + 168) = 0xDEADBEEFCAFEBABE := by
  decide +kernel

end LiwusOS.Sched
