import LiwusOS.Sched.TaskRing

/-! # Only the current task is RUNNING

`schedule` picks READY tasks only, so a task left in state RUNNING while
another one is current is never chosen again. A child that ends sets the state
of its parent to RUNNING; that is harmless exactly when the parent is the task
that runs. -/

namespace LiwusOS.Sched
open LiwusOS.Lib Relation Option

namespace World

variable {w : World}

/-- A step with a pid left to hand out that wakes no parent but the current task. -/
def WakeStep (w v : World) : Prop :=
  ∃ op fuel, w.Admits op ∧ w.PidOk op ∧ w.WakesCurrent op ∧ w.exec fuel op = some v

/-- **Only the current task is RUNNING** in every run in which tasks end only as
children of the current task. -/
theorem onlyCurrentRuns_of_wakes {mem : Nat → Task} {word : Nat → UInt64} {directory addr : Nat}
    (h0 : addr ≠ 0) (hr : ReflTransGen WakeStep (boot mem word directory addr) w) :
    ∀ a ∈ w.live, (w.sched.mem a).state = .running → a = w.sched.currentTask := by
  have hinv : ∃ l, w.Inv l ∧ OnlyCurrentRuns w.sched l := by
    induction hr with
    | refl =>
      exact ⟨[addr], boot_inv mem word directory h0, fun a ha _ => List.mem_singleton.mp ha⟩
    | tail _ hstep ih =>
      obtain ⟨l, hinv, honly⟩ := ih
      obtain ⟨op, fuel, hadm, hpid, hwake, hv⟩ := hstep
      obtain ⟨l', hinv', hkeeps, -⟩ := hinv.step hadm hpid hv
      exact ⟨l', hinv', hkeeps hwake honly⟩
  obtain ⟨l, hinv, honly⟩ := hinv
  exact fun a ha => honly a ((hinv.live a).mpr ha)

instance (w : World) (op : SchedOp) : Decidable (w.WakesCurrent op) := by
  apply SchedOp.casesOn (motive := fun op => Decidable (w.WakesCurrent op)) op <;> intros <;>
    dsimp only [WakesCurrent] <;> infer_instance

/-- The first task creates a user task and kills it. -/
theorem onlyCurrentRuns_zeroBoot : ∃ w, ReflTransGen WakeStep zeroBoot w ∧
    w.live = [0x20000, 0x10000] ∧ (w.sched.mem 0x20000).state = .zombie ∧
    ∀ a ∈ w.live, (w.sched.mem a).state = .running → a = w.sched.currentTask := by
  obtain ⟨w, hr, hlive, hstate⟩ : ∃ w, ReflTransGen WakeStep zeroBoot w ∧
      w.live = [0x20000, 0x10000] ∧ (w.sched.mem 0x20000).state = .zombie :=
    exists_run exec (fun w op => w.Admits op ∧ w.PidOk op ∧ w.WakesCurrent op)
      (fun h hv => ⟨_, _, h.1, h.2.1, h.2.2, hv⟩)
      [(.createUserTaskNamed 0x20000 0x30000, 0), (.sysKillByPid 1, 3)] (by decide +kernel)
  exact ⟨w, hr, hlive, hstate, onlyCurrentRuns_of_wakes (by decide) hr⟩

/-- A kernel task ends while its parent, the first task, is READY. The parent is
left RUNNING, and `schedule` stays with the zombie. -/
theorem exit_strands_parent : ∃ w, ReflTransGen Step zeroBoot w ∧
    0x10000 ∈ w.live ∧ (w.sched.mem 0x10000).state = .running ∧ w.sched.currentTask = 0x20000 ∧
    ¬ ∀ a ∈ w.live, (w.sched.mem a).state = .running → a = w.sched.currentTask :=
  exists_run exec Admits (fun h hv => ⟨_, _, h, hv⟩)
    [(.createTaskNamedStack 0x20000 0x30000 1 65536, 0), (.schedule 0 false, 3), (.sysExitProcess 0, 0),
      (.schedule 0x3F000 false, 3)] (by decide +kernel)

end World

end LiwusOS.Sched
