import LiwusOS.Lib.Runs
import LiwusOS.Sched.TaskSteps

/-! # The task ring

Every created and not yet reaped task lies on the ring of `next` pointers from
`task_list`. -/

namespace LiwusOS.Sched
open LiwusOS.Lib Function List Relation Option

/-! ## Runs -/

inductive SchedOp where
  | createTaskNamedStack (addr stackBase : Nat) (priority : Int) (stackSize : Nat)
  | createUserTaskNamed (addr stackBase : Nat)
  | createUserTask64Named (addr stackBase : Nat)
  | schedule (rsp : Nat) (ctrlC : Bool)
  | taskSleepMs (ms : Nat)
  | sysWaitpid (pid : Int) (junk : Task)
  | sysKillByPid (pid : Int)
  | sysExitProcess (status : Int)
  /-- `timer_handler`. -/
  | tick
  /-- `launch_initrd_program_argv` notes the program it started. -/
  | foreground (pid : Int) (heapStart : Nat)
  /-- Code writes to memory. -/
  | store (addr : Nat) (w : UInt64)

/-- The task an operation creates. -/
def SchedOp.created : SchedOp → Option Nat
  | .createTaskNamedStack addr _ _ _ => some addr
  | .createUserTaskNamed addr _ => some addr
  | .createUserTask64Named addr _ => some addr
  | _ => none

/-- What it makes of the time. -/
def SchedOp.clock (ticks : Nat) : SchedOp → Nat
  | .tick => (ticks + 1) % 2 ^ 32
  | _ => ticks

def SchedOp.isSchedule : SchedOp → Bool
  | .schedule _ _ => true
  | _ => false

/-- The scheduler with the tasks created and not yet reaped. -/
structure World where
  sched : Scheduler
  live : List Nat

namespace World

def exec (fuel : Nat) (w : World) : SchedOp → Option World
  | .createTaskNamedStack addr stackBase priority stackSize =>
    some ⟨Sched.createTaskNamedStack w.sched addr stackBase priority stackSize, addr :: w.live⟩
  | .createUserTaskNamed addr stackBase =>
    some ⟨Sched.createUserTaskNamed w.sched addr stackBase, addr :: w.live⟩
  | .createUserTask64Named addr stackBase =>
    some ⟨Sched.createUserTask64Named w.sched addr stackBase, addr :: w.live⟩
  | .schedule rsp ctrlC => (Sched.schedule fuel w.sched rsp ctrlC).bind fun
    | .panic => none
    | .resume _ s => some ⟨s, w.live⟩
  | .taskSleepMs ms => some ⟨Sched.taskSleepMs w.sched ms, w.live⟩
  | .sysWaitpid pid junk => (Sched.sysWaitpid fuel w.sched pid junk).map fun
    | (.reaped t _ _, s) => ⟨s, w.live.erase t⟩
    | (_, s) => ⟨s, w.live⟩
  | .sysKillByPid pid => (Sched.sysKillByPid fuel w.sched pid).map fun s => ⟨s, w.live⟩
  | .sysExitProcess status => some ⟨Sched.sysExitProcess w.sched status, w.live⟩
  | .tick => some ⟨{ w.sched with timerTicks := (w.sched.timerTicks + 1) % 2 ^ 32 }, w.live⟩
  | .foreground pid heapStart =>
    some ⟨{ w.sched with lastForegroundPid := pid, lastElfHeapStart := heapStart }, w.live⟩
  | .store addr x => some ⟨{ w.sched with word := update w.sched.word addr x }, w.live⟩

/-- What `kmalloc` guarantees: a new task gets memory no task has. -/
def Fresh (w : World) (addr : Nat) : Prop := addr ≠ 0 ∧ addr ∉ w.live

def Admits (w : World) : SchedOp → Prop
  | .createTaskNamedStack addr _ _ _ => w.Fresh addr
  | .createUserTaskNamed addr _ => w.Fresh addr
  | .createUserTask64Named addr _ => w.Fresh addr
  | _ => True

def Step (w v : World) : Prop := ∃ op fuel, w.Admits op ∧ w.exec fuel op = some v

/-- After `init_tasking`. -/
def boot (mem : Nat → Task) (word : Nat → UInt64) (directory addr : Nat) : World :=
  ⟨initTasking mem word directory addr, [addr]⟩

/-- Following `next` from `task_list` visits every live task once and returns,
the current task is one of them, their pids differ, and their parents are among
them. -/
def RingOk (w : World) : Prop :=
  ∃ l, Ring w.sched.next 0 w.sched.taskList l ∧ (∀ a, a ∈ l ↔ a ∈ w.live) ∧
    w.sched.currentTask ∈ l ∧
    (∀ a ∈ l, ∀ b ∈ l, (w.sched.mem a).id = (w.sched.mem b).id → a = b) ∧
    ∀ a ∈ l, (w.sched.mem a).parent ≠ 0 → (w.sched.mem a).parent ∈ l

end World

/-! ## The invariant -/

namespace World

/-- `l` lists the ring from `task_list`. Pids below `next_pid` are what keeps a
new one from being taken, as long as `next_pid` has not wrapped. -/
structure Inv (w : World) (l : List Nat) : Prop where
  ring : Ring w.sched.next 0 w.sched.taskList l
  live : ∀ a, a ∈ l ↔ a ∈ w.live
  nodup : w.live.Nodup
  current : w.sched.currentTask ∈ l
  root : (w.sched.mem w.sched.taskList).parent = 0
  parent : ∀ a ∈ l, (w.sched.mem a).parent ≠ 0 →
    (w.sched.mem a).parent ∈ l ∧ (w.sched.mem a).parent ≠ a
  distinct : ∀ a ∈ l, ∀ b ∈ l, (w.sched.mem a).id = (w.sched.mem b).id → a = b
  pid : ∀ a ∈ l, 0 < w.sched.nextPid → (w.sched.mem a).id < w.sched.nextPid
  range : w.sched.nextPid < 2 ^ 31

variable {w v : World} {l : List Nat}

theorem Inv.ringOk (h : w.Inv l) : w.RingOk :=
  ⟨l, h.ring, h.live, h.current, h.distinct, fun a ha h0 => (h.parent a ha h0).1⟩

variable {addr : Nat} {s : Scheduler}

theorem boot_inv (mem : Nat → Task) (word : Nat → UInt64) (directory : Nat) (h0 : addr ≠ 0) :
    (boot mem word directory addr).Inv [addr] := by
  have hroot : (boot mem word directory addr).sched.mem addr =
      { blankTask with pageDirectory := directory, next := addr } := update_self ..
  refine ⟨⟨⟨rfl, h0, ?_⟩, nodup_singleton _, cons_ne_nil _ _⟩, fun a => Iff.rfl,
    nodup_singleton _, mem_singleton_self _, ?_, ?_, ?_, ?_,
    show (1 : Int) < 2 ^ 31 by decide⟩
  · show ((boot mem word directory addr).sched.mem addr).next = addr
    rw [hroot]
  · show ((boot mem word directory addr).sched.mem addr).parent = 0
    rw [hroot]
    rfl
  · intro a ha hne
    rw [mem_singleton.mp ha, hroot] at hne
    exact absurd rfl hne
  · intro a ha b hb _
    rw [mem_singleton.mp ha, mem_singleton.mp hb]
  · intro a ha _
    rw [mem_singleton.mp ha, hroot]
    exact Int.one_pos

/-- Operations that write states and counters only. -/
theorem Inv.of_links (h : w.Inv l) (hl : SameLinks w.sched s) (hcur : s.currentTask ∈ l) :
    (⟨s, w.live⟩ : World).Inv l := by
  refine ⟨hl.ring h.ring, h.live, h.nodup, hcur, ?_, fun a ha h0 => ?_, fun a ha b hb heq => ?_,
    fun a ha hpos => ?_, ?_⟩
  · show (s.mem s.taskList).parent = 0
    rw [hl.taskList, hl.parent]
    exact h.root
  · change (s.mem a).parent ≠ 0 at h0
    show (s.mem a).parent ∈ l ∧ (s.mem a).parent ≠ a
    rw [hl.parent] at h0 ⊢
    exact h.parent a ha h0
  · change (s.mem a).id = (s.mem b).id at heq
    rw [hl.id, hl.id] at heq
    exact h.distinct a ha b hb heq
  · change 0 < s.nextPid at hpos
    show (s.mem a).id < s.nextPid
    rw [hl.nextPid] at hpos ⊢
    rw [hl.id]
    exact h.pid a ha hpos
  · show s.nextPid < 2 ^ 31
    rw [hl.nextPid]
    exact h.range

/-- The memory after a task was linked in. -/
theorem linkTask_mem (s : Scheduler) (t : Task) (hne : addr ≠ s.taskList) :
    (linkTask s addr t).mem addr = { t with next := s.next s.taskList } ∧
    (linkTask s addr t).mem s.taskList = { s.mem s.taskList with next := addr } ∧
    ∀ a, a ≠ addr → a ≠ s.taskList → (linkTask s addr t).mem a = s.mem a := by
  have hmem : (linkTask s addr t).mem = update
      (update s.mem addr { t with next := s.next s.taskList }) s.taskList
      { s.mem s.taskList with next := addr } := by
    simp only [linkTask, Scheduler.modify, Scheduler.next, update_of_ne hne.symm]
  rw [hmem]
  refine ⟨?_, update_self .., fun a h1 h2 => ?_⟩
  · rw [update_of_ne hne, update_self]
  · rw [update_of_ne h2, update_of_ne h1]

section
variable (h : w.Inv l)
include h

/-- A task of the creation functions joins the ring after its head. -/
theorem Inv.link {t : Task} (hfresh : w.Fresh addr)
    (hpid : 0 < w.sched.nextPid) (hid : t.id = w.sched.nextPid) (hparent : t.parent = w.sched.currentTask) :
    ∃ l', (⟨linkTask w.sched addr t, addr :: w.live⟩ : World).Inv l' ∧
      (t.state = .ready → OnlyCurrentRuns w.sched l → OnlyCurrentRuns (linkTask w.sched addr t) l') ∧
      ((linkTask w.sched addr t).mem addr).rest = t.rest ∧
      ∀ a ∈ w.live, ((linkTask w.sched addr t).mem a).rest = (w.sched.mem a).rest := by
  obtain ⟨rest, rfl, -⟩ := h.ring.eq_cons
  have hnew : addr ∉ w.sched.taskList :: rest := fun hm => hfresh.2 ((h.live addr).mp hm)
  obtain ⟨hself, hroot, hother⟩ := linkTask_mem w.sched t fun heq => hnew (heq ▸ mem_cons_self)
  set m := (linkTask w.sched addr t).mem
  -- links apart, the old tasks are as before
  have hold : ∀ a ∈ w.sched.taskList :: rest,
      (m a).parent = (w.sched.mem a).parent ∧ (m a).id = (w.sched.mem a).id ∧ (m a).rest = (w.sched.mem a).rest := by
    intro a ha
    rcases eq_or_ne a w.sched.taskList with rfl | hne
    · rw [hroot]
      exact ⟨rfl, rfl, rfl⟩
    · rw [hother a (ne_of_mem_of_not_mem ha hnew) hne]
      exact ⟨rfl, rfl, rfl⟩
  have hmem : ∀ a, a ∈ w.sched.taskList :: addr :: rest ↔ a = addr ∨ a ∈ w.sched.taskList :: rest := by
    intro a
    simp only [mem_cons]
    tauto
  have hfreshPid : ∀ a ∈ w.sched.taskList :: rest, (w.sched.mem a).id ≠ w.sched.nextPid := fun a ha =>
    ne_of_lt (h.pid a ha hpid)
  refine ⟨w.sched.taskList :: addr :: rest, ⟨?_, fun a => ?_, ?_, ?_, ?_, ?_, ?_, ?_, ?_⟩, ?_, ?_,
    fun a ha => (hold a ((h.live a).mpr ha)).2.2⟩
  · refine h.ring.insert hnew hfresh.1 ?_ ?_ fun a ha => ?_
    · exact congrArg Task.next hroot
    · have hnext := congrArg Task.next hself
      exact hnext
    · have hne : a ≠ w.sched.taskList := by
        rintro rfl
        exact (nodup_cons.mp h.ring.nodup).1 ha
      exact congrArg Task.next (hother a (ne_of_mem_of_not_mem (mem_cons_of_mem _ ha) hnew) hne)
  · rw [hmem, h.live, mem_cons]
  · exact nodup_cons.mpr ⟨hfresh.2, h.nodup⟩
  · exact (hmem _).mpr (.inr h.current)
  · exact (hold _ mem_cons_self).1.trans h.root
  · intro a ha h0
    show (m a).parent ∈ _ ∧ (m a).parent ≠ a
    change (m a).parent ≠ 0 at h0
    rcases (hmem a).mp ha with rfl | ha
    · rw [hself]
      show t.parent ∈ _ ∧ t.parent ≠ a
      rw [hparent]
      exact ⟨(hmem _).mpr (.inr h.current), fun heq => hnew (heq ▸ h.current)⟩
    · rw [(hold a ha).1] at h0 ⊢
      obtain ⟨h1, h2⟩ := h.parent a ha h0
      exact ⟨(hmem _).mpr (.inr h1), h2⟩
  · intro a ha b hb heq
    change (m a).id = (m b).id at heq
    have hnewId : (m addr).id = w.sched.nextPid := by rw [hself, ← hid]
    rcases (hmem a).mp ha with h1 | h1 <;> rcases (hmem b).mp hb with h2 | h2
    · rw [h1, h2]
    · rw [h1, hnewId, (hold b h2).2.1] at heq
      exact absurd heq.symm (hfreshPid b h2)
    · rw [h2, hnewId, (hold a h1).2.1] at heq
      exact absurd heq (hfreshPid a h1)
    · rw [(hold a h1).2.1, (hold b h2).2.1] at heq
      exact h.distinct a h1 b h2 heq
  · intro a ha hpos
    change 0 < wrapInt (w.sched.nextPid + 1) at hpos
    show (m a).id < wrapInt (w.sched.nextPid + 1)
    have hle : (m a).id ≤ w.sched.nextPid := by
      rcases (hmem a).mp ha with rfl | ha
      · rw [hself]
        exact le_of_eq hid
      · rw [(hold a ha).2.1]
        exact le_of_lt (h.pid a ha hpid)
    have hrange := h.range
    unfold wrapInt at *
    omega
  · show wrapInt (w.sched.nextPid + 1) < 2 ^ 31
    unfold wrapInt
    omega
  · intro hready ho a ha hrun
    rcases (hmem a).mp ha with rfl | ha
    · have hstate : (m a).state = t.state := by rw [hself]
      exact absurd (hready.symm.trans (hstate.symm.trans hrun)) (by decide)
    · have hstate : (m a).state = _ := congrArg (·.1) (hold a ha).2.2
      exact ho a ha (hstate.symm.trans hrun)
  · rw [hself]
    rfl

/-- A reaped task is neither the head of the ring nor the caller. -/
theorem Inv.reapable {t : Nat} (ht : t ∈ l) (hp0 : (w.sched.mem t).parent ≠ 0)
    (hpid : (w.sched.mem (w.sched.mem t).parent).id = w.sched.curr.id) :
    t ≠ w.sched.taskList ∧ t ≠ w.sched.currentTask := by
  refine ⟨fun heq => hp0 (heq ▸ h.root), fun heq => ?_⟩
  obtain ⟨hmem, hne⟩ := h.parent t ht hp0
  have hself := h.distinct _ hmem _ h.current hpid
  exact hne (hself.trans heq.symm)

theorem Inv.reaped {t : Nat} {l' : List Nat} (hr : Reaped w.sched s t l l')
    (ht : t ∈ l) (hroot : t ≠ w.sched.taskList) (hcur : t ≠ w.sched.currentTask) :
    (⟨s, w.live.erase t⟩ : World).Inv l' := by
  have hsub : ∀ a ∈ l', a ∈ l := fun a ha => ((hr.mem a).mp ha).1
  have ht0 : t ≠ 0 := h.ring.ne_nil t ht
  have hhead : w.sched.taskList ∈ l' := (hr.mem _).mpr ⟨h.ring.head_mem, hroot.symm⟩
  refine ⟨hr.ring, fun a => ?_, h.nodup.erase t, ?_, ?_, fun a ha h0 => ?_, fun a ha b hb heq => ?_,
    fun a ha hpos => ?_, ?_⟩
  · rw [hr.mem, h.nodup.mem_erase_iff, h.live, and_comm]
  · show s.currentTask ∈ l'
    rw [hr.currentTask]
    exact (hr.mem _).mpr ⟨h.current, hcur.symm⟩
  · show (s.mem s.taskList).parent = 0
    rw [hr.taskList, hr.parent _ hhead, h.root]
    exact if_neg ht0.symm
  · change (s.mem a).parent ≠ 0 at h0
    show (s.mem a).parent ∈ l' ∧ (s.mem a).parent ≠ a
    rw [hr.parent a ha] at h0 ⊢
    split at h0
    · rename_i hpt
      rw [if_pos hpt]
      refine ⟨hhead, fun heq => ?_⟩
      rw [← heq, h.root] at hpt
      exact ht0 hpt.symm
    · rename_i hpt
      rw [if_neg hpt]
      obtain ⟨h1, h2⟩ := h.parent a (hsub a ha) h0
      exact ⟨(hr.mem _).mpr ⟨h1, hpt⟩, h2⟩
  · change (s.mem a).id = (s.mem b).id at heq
    rw [hr.id a ha, hr.id b hb] at heq
    exact h.distinct a (hsub a ha) b (hsub b hb) heq
  · change 0 < s.nextPid at hpos
    show (s.mem a).id < s.nextPid
    rw [hr.nextPid] at hpos ⊢
    rw [hr.id a ha]
    exact h.pid a (hsub a ha) hpos
  · show s.nextPid < 2 ^ 31
    rw [hr.nextPid]
    exact h.range

/-- The pid a creation would hand out has not wrapped. -/
def PidOk (w : World) : SchedOp → Prop
  | .createTaskNamedStack .. => 0 < w.sched.nextPid
  | .createUserTaskNamed .. => 0 < w.sched.nextPid
  | .createUserTask64Named .. => 0 < w.sched.nextPid
  | _ => True

/-- Whoever the operation wakes because a child ended is the current task. -/
def WakesCurrent (w : World) : SchedOp → Prop
  | .sysKillByPid pid => ∀ t ∈ w.live, (w.sched.mem t).id = pid → (w.sched.mem t).userMode →
      (w.sched.mem t).parent = 0 ∨ (w.sched.mem t).parent = w.sched.currentTask
  | .schedule _ ctrlC => ctrlC → ∀ t ∈ w.live, (w.sched.mem t).id = w.sched.lastForegroundPid →
      (w.sched.mem t).userMode → (w.sched.mem t).parent = 0 ∨ (w.sched.mem t).parent = w.sched.currentTask
  | .sysExitProcess _ => w.sched.curr.parent = 0 ∨ w.sched.curr.parent = w.sched.currentTask
  | _ => True

/-- The operation neither ends nor blocks `a`, and ends no child of `a`. -/
def Spares (w : World) (a : Nat) : SchedOp → Prop
  | .sysKillByPid pid => ∀ t ∈ w.live, (w.sched.mem t).id = pid → (w.sched.mem t).userMode → Sched.Spares w.sched t a
  | .schedule _ ctrlC => ctrlC → ∀ t ∈ w.live, (w.sched.mem t).id = w.sched.lastForegroundPid →
      (w.sched.mem t).userMode → Sched.Spares w.sched t a
  | .sysExitProcess _ => Sched.Spares w.sched w.sched.currentTask a
  | .sysWaitpid _ _ => a ≠ w.sched.currentTask
  | .taskSleepMs _ => a ≠ w.sched.currentTask
  | _ => True

/-- What an operation that spares `a` leaves of it: everything, unless `a` is
due in `schedule`. -/
def Rests (w v : World) (a : Nat) (op : SchedOp) : Prop :=
  w.Spares a op → (op.isSchedule → Resting w.sched.timerTicks (w.sched.mem a)) →
    (v.sched.mem a).rest = (w.sched.mem a).rest

/-- What an operation leaves: the invariant, only the current task RUNNING if
that was so and nobody else is woken, and the tasks at rest that it spares. -/
def Leaves (w v : World) (l : List Nat) (op : SchedOp) : Prop :=
  ∃ l', v.Inv l' ∧ (w.WakesCurrent op → OnlyCurrentRuns w.sched l → OnlyCurrentRuns v.sched l') ∧
    (∀ a ∈ v.live, op.created ≠ some a → a ∈ w.live ∧ Rests w v a op) ∧
    (∀ a ∈ w.live, (w.sched.mem a).state ≠ .zombie → a ∈ v.live) ∧
    (∀ a, op.created = some a → a ∉ w.live ∧ (v.sched.mem a).state = .ready) ∧
    v.sched.timerTicks = op.clock w.sched.timerTicks

variable {op : SchedOp} {fuel : Nat}

theorem Inv.leaves_links (hl : SameLinks w.sched s)
    (hcur : s.currentTask ∈ l) (hop : (op.created, op.clock w.sched.timerTicks) = (none, w.sched.timerTicks))
    (ho : w.WakesCurrent op → OnlyCurrentRuns w.sched l → OnlyCurrentRuns s l)
    (hrest : ∀ a, Rests w ⟨s, w.live⟩ a op) : Leaves w ⟨s, w.live⟩ l op := by
  obtain ⟨hcreated, hclock⟩ := Prod.mk.inj hop
  refine ⟨l, h.of_links hl hcur, ho, fun a ha _ => ⟨ha, hrest a⟩, fun _ ha _ => ha, fun a ha => ?_,
    hl.timerTicks.trans hclock.symm⟩
  rw [hcreated] at ha
  cases ha

theorem Inv.exec_create {t : Task} (hfresh : w.Fresh addr) (hpid : 0 < w.sched.nextPid) (word : Nat → UInt64)
    (hop : (op.created, op.clock w.sched.timerTicks) = (some addr, w.sched.timerTicks))
    (hid : t.id = w.sched.nextPid) (hparent : t.parent = w.sched.currentTask) (hready : t.state = .ready) :
    Leaves w ⟨linkTask { w.sched with word := word } addr t, addr :: w.live⟩ l op := by
  have h' : (⟨{ w.sched with word := word }, w.live⟩ : World).Inv l :=
    h.of_links (.of_links (fun _ => rfl) rfl) h.current
  obtain ⟨l', hinv, ho, hnew, hold⟩ := h'.link hfresh hpid hid hparent
  obtain ⟨hcreated, hclock⟩ := Prod.mk.inj hop
  refine ⟨l', hinv, fun _ => ho hready, fun a ha hne => ?_, fun a ha _ => .tail _ ha, fun a ha => ?_, hclock.symm⟩
  · have hmem := (mem_cons.mp ha).resolve_left fun heq => hne (heq ▸ hcreated)
    exact ⟨hmem, fun _ _ => hold a hmem⟩
  · cases hcreated.symm.trans ha
    exact ⟨hfresh.2, (congrArg (·.1) hnew).trans hready⟩

theorem Inv.exec_schedule {rsp : Nat} {ctrlC : Bool}
    (hv : w.exec fuel (.schedule rsp ctrlC) = some v) : Leaves w v l (.schedule rsp ctrlC) := by
  obtain ⟨o, hset, -, hspec⟩ := schedule_settles h.ring h.current rsp ctrlC
  obtain ⟨o', ho', hv'⟩ := bind_eq_some_iff.mp hv
  cases hset.only fuel o' ho'
  cases o with
  | panic => cases hv'
  | resume r s =>
    cases hv'
    obtain ⟨hl, hcur, honly, hrest⟩ := hspec r s rfl
    exact h.leaves_links hl hcur rfl (fun hw => honly fun hc t ht => hw hc t ((h.live t).mp ht)) fun a hs ha =>
      (hrest a fun hc t ht => hs hc t ((h.live t).mp ht)).1 (ha rfl)

theorem Inv.exec_kill {pid : Int}
    (hv : w.exec fuel (.sysKillByPid pid) = some v) : Leaves w v l (.sysKillByPid pid) := by
  obtain ⟨s, hset, hcases⟩ := kill_settles h.ring pid
  cases hset.map_only _ hv
  rcases hcases with rfl | ⟨t, ht, hid, hu, rfl⟩
  · exact h.leaves_links (SameLinks.refl _) h.current rfl (fun _ => id) fun _ _ _ => rfl
  · refine h.leaves_links (sameLinks_terminate _ t _) ?_ rfl (fun hw ho => ?_) fun a hs _ => ?_
    · rw [terminate_currentTask]
      exact h.current
    · exact ho.terminate _ (hw t ((h.live t).mp ht) hid hu)
    · exact congrArg Task.rest (terminate_spared _ (hs t ((h.live t).mp ht) hid hu))

theorem Inv.exec_waitpid {pid : Int} {junk : Task}
    (hv : w.exec fuel (.sysWaitpid pid junk) = some v) : Leaves w v l (.sysWaitpid pid junk) := by
  obtain ⟨r, s, hset, hcases⟩ := waitpid_settles h.ring h.root pid junk
  cases hset.map_only _ hv
  rcases hcases with ⟨t, l', rfl, ht, hp0, hpid, hz, hreaped⟩ | ⟨hquiet, hl, hcur, ho, hmem⟩
  · obtain ⟨hroot, hnotcur⟩ := h.reapable ht hp0 hpid
    have hinv := h.reaped hreaped ht hroot hnotcur
    refine ⟨l', hinv, fun _ ho a ha hrun => ?_, fun a ha _ => ?_, fun a ha hnz => ?_, nofun,
      hreaped.timerTicks⟩
    · have hstate : (s.mem a).state = _ := congrArg (·.1) (hreaped.rest a ha)
      show a = s.currentTask
      rw [hreaped.currentTask]
      exact ho a ((hreaped.mem a).mp ha).1 (hstate.symm.trans hrun)
    · have ha' := (hinv.live a).mpr ha
      exact ⟨(h.live a).mp ((hreaped.mem a).mp ha').1, fun _ _ => hreaped.rest a ha'⟩
    · exact h.nodup.mem_erase_iff.mpr ⟨fun heq => hnz (heq ▸ hz), ha⟩
  · have hleaves : Leaves w ⟨s, w.live⟩ l (.sysWaitpid pid junk) :=
      h.leaves_links hl (hcur ▸ h.current) rfl (fun _ => ho) fun a hs _ => congrArg Task.rest (hmem a hs)
    cases r with
    | reaped t i c => exact absurd rfl (hquiet t i c)
    | noChild => exact hleaves
    | blocked => exact hleaves

theorem Inv.exec_sleep (ms : Nat) : Leaves w ⟨Sched.taskSleepMs w.sched ms, w.live⟩ l (.taskSleepMs ms) := by
  rw [Sched.taskSleepMs]
  split
  · exact h.leaves_links (SameLinks.refl _) h.current rfl (fun _ => id) fun _ _ _ => rfl
  split
  · exact h.leaves_links (.of_links (fun _ => rfl) rfl) h.current rfl (fun _ => id) fun _ _ _ => rfl
  · obtain ⟨hl, ho, hmem⟩ := block_current (s := w.sched) (l := l) (fun t =>
      { t with
        wakeTick := (w.sched.timerTicks + if (ms + 9) % 2 ^ 32 / 10 = 0 then 1 else (ms + 9) % 2 ^ 32 / 10) % 2 ^ 64
        state := .sleeping }) fun _ => rfl
    exact h.leaves_links hl h.current rfl (fun _ => ho) fun a hs _ => congrArg Task.rest (hmem a hs)

theorem Inv.exec_exit (status : Int) :
    Leaves w ⟨Sched.sysExitProcess w.sched status, w.live⟩ l (.sysExitProcess status) := by
  -- the foreground pid plays no part
  have hend : ∀ s : Scheduler, s.mem = w.sched.mem → SameLinks w.sched s → s.currentTask = w.sched.currentTask →
      Leaves w ⟨{ terminate s s.currentTask status with reschedForce := true }, w.live⟩ l
        (.sysExitProcess status) := by
    intro s hmem hl hcur
    refine h.leaves_links ((hl.trans (sameLinks_terminate s s.currentTask status)).congr rfl rfl) ?_ rfl
      (fun hw ho => ?_) fun a hs _ => ?_
    · show (terminate s s.currentTask status).currentTask ∈ l
      rw [terminate_currentTask, hcur]
      exact h.current
    · have ho' : OnlyCurrentRuns s l := by
        rw [OnlyCurrentRuns, hmem, hcur]
        exact ho
      have hw' : (s.mem s.currentTask).parent = 0 ∨ (s.mem s.currentTask).parent = s.currentTask := by
        rw [hmem, hcur]
        exact hw
      exact ho'.terminate _ hw'
    · have hs' : Sched.Spares s s.currentTask a := by
        rw [Sched.Spares, hmem, hcur]
        exact hs
      exact congrArg Task.rest ((terminate_spared _ hs').trans (congrFun hmem a))
  rw [Sched.sysExitProcess]
  split
  · exact hend _ rfl (.of_links (fun _ => rfl) rfl) rfl
  · exact hend _ rfl (SameLinks.refl _) rfl

theorem Inv.step (hadm : w.Admits op) (hpid : w.PidOk op) (hv : w.exec fuel op = some v) : Leaves w v l op := by
  cases op with
  | createTaskNamedStack addr stackBase priority stackSize =>
    cases hv
    refine h.exec_create hadm hpid _ rfl ?_ ?_ ?_ <;> (dsimp only; split <;> rfl)
  | createUserTaskNamed addr stackBase =>
    cases hv
    exact h.exec_create hadm hpid w.sched.word rfl rfl rfl rfl
  | createUserTask64Named addr stackBase =>
    cases hv
    exact h.exec_create hadm hpid w.sched.word rfl rfl rfl rfl
  | schedule rsp ctrlC => exact h.exec_schedule hv
  | taskSleepMs ms =>
    cases hv
    exact h.exec_sleep ms
  | sysWaitpid pid junk => exact h.exec_waitpid hv
  | sysKillByPid pid => exact h.exec_kill hv
  | sysExitProcess status =>
    cases hv
    exact h.exec_exit status
  | tick =>
    cases hv
    exact ⟨l, ⟨h.ring, h.live, h.nodup, h.current, h.root, h.parent, h.distinct, h.pid, h.range⟩, fun _ => id,
      fun a ha _ => ⟨ha, fun _ _ => rfl⟩, fun _ ha _ => ha, nofun, rfl⟩
  | foreground pid heapStart | store addr x =>
    cases hv
    exact h.leaves_links (.of_links (fun _ => rfl) rfl) h.current rfl (fun _ => id) fun _ _ _ => rfl

end

/-! ## Every run -/

/-- A step that creates no task once `next_pid` has wrapped. -/
def PidStep (w v : World) : Prop := ∃ op fuel, w.Admits op ∧ w.PidOk op ∧ w.exec fuel op = some v

/-- **The task ring is well formed** in every state of every run from
`init_tasking` in which `next_pid` does not wrap. -/
theorem ringOk_of_pids {mem : Nat → Task} {word : Nat → UInt64} {directory addr : Nat} (h0 : addr ≠ 0)
    (hr : ReflTransGen PidStep (boot mem word directory addr) w) : w.RingOk := by
  have hinv : ∃ l, w.Inv l := by
    induction hr with
    | refl => exact ⟨[addr], boot_inv mem word directory h0⟩
    | tail _ hstep ih =>
      obtain ⟨l, hinv⟩ := ih
      obtain ⟨op, fuel, hadm, hpid, hv⟩ := hstep
      obtain ⟨l', hinv', -⟩ := hinv.step hadm hpid hv
      exact ⟨l', hinv'⟩
  obtain ⟨l, hinv⟩ := hinv
  exact hinv.ringOk

/-! ## Concrete machines -/

/-- `init_tasking` on zeroed memory. -/
def zeroBoot : World := boot (fun _ => blankTask) (fun _ => 0) 0 0x10000

instance (op : SchedOp) : Decidable (w.Admits op) := by cases op <;> dsimp only [Admits, Fresh] <;> infer_instance

instance (op : SchedOp) : Decidable (w.PidOk op) := by cases op <;> dsimp only [PidOk] <;> infer_instance

/-- The first task creates a kernel task and is preempted by it. -/
theorem ringOk_zeroBoot : ∃ w, ReflTransGen PidStep zeroBoot w ∧
    w.live = [0x20000, 0x10000] ∧ w.sched.currentTask = 0x20000 ∧ w.RingOk := by
  obtain ⟨w, hr, hlive, hcur⟩ : ∃ w, ReflTransGen PidStep zeroBoot w ∧
      w.live = [0x20000, 0x10000] ∧ w.sched.currentTask = 0x20000 :=
    exists_run exec (fun w op => w.Admits op ∧ w.PidOk op) (fun h hv => ⟨_, _, h.1, h.2, hv⟩)
      [(.createTaskNamedStack 0x20000 0x30000 1 65536, 0), (.schedule 0 false, 3)] (by decide +kernel)
  exact ⟨w, hr, hlive, hcur, ringOk_of_pids (by decide) hr⟩

end World

end LiwusOS.Sched
