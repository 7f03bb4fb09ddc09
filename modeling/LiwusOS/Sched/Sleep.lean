import LiwusOS.Sched.TaskRing

/-! # `task_sleep_ms`

A sleeper has a deadline in ticks and is woken by `schedule`. The deadline is
kept as long as nobody writes the sleeper's state, which the end of a child
does; it is met as long as neither the number of ticks nor `timer_ticks` wraps
and the sleeper is not the only task. -/

namespace LiwusOS.Sched
open LiwusOS.Lib Relation Option

namespace World

/-- A step of the others while `a` sleeps, with the ticks since: nobody ends `a`
or a child of `a`, and from `wait` ticks on `schedule` is not called. -/
def SleepStep (a wait : Nat) (x y : World × Nat) : Prop :=
  ∃ op fuel, x.1.Admits op ∧ x.1.PidOk op ∧ x.1.Spares a op ∧ (op.isSchedule → x.2 < wait) ∧
    x.1.exec fuel op = some y.1 ∧ y.2 = if op matches .tick then x.2 + 1 else x.2

/-- `a` sleeps until `wake`, and `n` ticks have gone by since `start`. -/
structure Asleep (w : World) (a wake start n : Nat) : Prop where
  inv : ∃ l, w.Inv l
  mem : a ∈ w.live
  state : (w.sched.mem a).state = .sleeping
  wakeTick : (w.sched.mem a).wakeTick = wake
  time : w.sched.timerTicks = (start + n) % 2 ^ 32

variable {w v : World} {l : List Nat} {a wake start n : Nat}

/-- `timer_ticks` stays below a deadline that lies ahead, also when it wraps. -/
theorem not_due (h : start + n < wake) (hwake : wake < 2 ^ 33) : due ((start + n) % 2 ^ 32) wake = false := by
  have hle : (start + n) % 2 ^ 32 ≤ start + n := Nat.mod_le _ _
  rw [due, decide_eq_false_iff_not]
  omega

theorem Asleep.step {wait : Nat} (h : w.Asleep a (start + wait) start n) (hwait : start + wait < 2 ^ 33) {m : Nat}
    (hs : SleepStep a wait (w, n) (v, m)) : v.Asleep a (start + wait) start m := by
  obtain ⟨⟨l, hinv⟩, hmem, hstate, hwake, htime⟩ := h
  obtain ⟨op, fuel, hadm, hpid, hspares, hearly, hv, hm⟩ := hs
  obtain ⟨l', hinv', -, hold, hstays, hnew, hclock⟩ := hinv.step hadm hpid hv
  have hlive := hstays a hmem fun hz => by rw [hstate] at hz; cases hz
  have hrest := (hold a hlive fun hc => (hnew a hc).1 hmem).2 hspares fun hsched => .inr ⟨hstate, .inr ?_⟩
  · refine ⟨⟨l', hinv'⟩, hlive, (congrArg (·.1) hrest).trans hstate, (congrArg (·.2.2) hrest).trans hwake, ?_⟩
    dsimp only at hm
    rw [hclock, hm, htime]
    cases op with
    | tick => exact Nat.mod_add_mod ..
    | _ => rfl
  · have hbefore : n < wait := hearly hsched
    rw [htime, hwake]
    exact not_due (by omega) hwait

theorem Inv.sleeps (h : w.Inv l) (ht : w.sched.timerTicks < 2 ^ 32) {ms : Nat} (hpos : 0 < ms)
    (hms : ms + 9 < 2 ^ 32) : Asleep ⟨taskSleepMs w.sched ms, w.live⟩ w.sched.currentTask
      (w.sched.timerTicks + (ms + 9) / 10) w.sched.timerTicks 0 := by
  obtain ⟨l', hinv, -⟩ := h.exec_sleep ms
  have hticks : (ms + 9) % 2 ^ 32 / 10 = (ms + 9) / 10 := by rw [Nat.mod_eq_of_lt hms]
  have heq : taskSleepMs w.sched ms = { w.sched.modify w.sched.currentTask fun t =>
      { t with wakeTick := w.sched.timerTicks + (ms + 9) / 10, state := .sleeping } with reschedForce := true } := by
    rw [taskSleepMs, if_neg (h.ring.ne_nil _ h.current), if_neg (hpos.ne'), hticks]
    dsimp only
    rw [if_neg (by omega), Nat.mod_eq_of_lt (by omega)]
  refine ⟨⟨l', hinv⟩, (h.live _).mp h.current, ?_, ?_, ?_⟩
  all_goals
    dsimp only
    rw [heq]
  · rw [Scheduler.modify_self]
  · rw [Scheduler.modify_self]
  · exact (Nat.mod_eq_of_lt ht).symm

/-- **A sleep lasts and ends**, as long as neither the sleeper nor a child of it
is made to end: it sleeps on until `schedule` is called after `⌈ms / 10⌉` ticks,
and that call makes it runnable unless the timer has wrapped or the first task
is alone. -/
theorem sleep_lasts (h : w.Inv l) (ht : w.sched.timerTicks < 2 ^ 32) {ms : Nat} (hpos : 0 < ms)
    (hms : ms + 9 < 2 ^ 32) (hrun : ReflTransGen (SleepStep w.sched.currentTask ((ms + 9) / 10))
      (⟨taskSleepMs w.sched ms, w.live⟩, 0) (v, n)) :
    (v.sched.mem w.sched.currentTask).state = .sleeping ∧
    ∀ rsp ctrlC, (ms + 9) / 10 ≤ n → w.sched.timerTicks + n < 2 ^ 32 → stackFault v.sched rsp = false →
      ¬ (v.sched.curr.id = 0 ∧ v.sched.curr.next = v.sched.currentTask) →
      v.Spares w.sched.currentTask (.schedule rsp ctrlC) →
      ∃ r s, Settles (fun fuel => schedule fuel v.sched rsp ctrlC) (.resume r s) ∧
        Runnable (s.mem w.sched.currentTask) := by
  have hasleep : v.Asleep w.sched.currentTask (w.sched.timerTicks + (ms + 9) / 10) w.sched.timerTicks n := by
    have hgen : ∀ x : World × Nat, ReflTransGen (SleepStep w.sched.currentTask ((ms + 9) / 10))
        (⟨taskSleepMs w.sched ms, w.live⟩, 0) x →
        x.1.Asleep w.sched.currentTask (w.sched.timerTicks + (ms + 9) / 10) w.sched.timerTicks x.2 := by
      intro x hx
      induction hx with
      | refl => exact h.sleeps ht hpos hms
      | tail _ hstep ih => exact ih.step (by omega) hstep
    exact hgen (v, n) hrun
  obtain ⟨⟨l', hinv⟩, hmem, hstate, hwake, htime⟩ := hasleep
  refine ⟨hstate, fun rsp ctrlC hn hwrap hfault hfast hspares => ?_⟩
  obtain ⟨o, hset, hpanic, hspec⟩ := schedule_settles hinv.ring hinv.current rsp ctrlC
  cases o with
  | panic => cases hfault.symm.trans (hpanic rfl)
  | resume r s =>
    obtain ⟨-, -, -, hall⟩ := hspec r s rfl
    obtain ⟨-, hwakes⟩ := hall w.sched.currentTask fun hc t ht => hspares hc t ((hinv.live t).mp ht)
    refine ⟨r, s, hset, hwakes hfast ((hinv.live _).mpr hmem) hstate ?_ ?_⟩
    · rw [hwake]
      omega
    · rw [htime, hwake, Nat.mod_eq_of_lt hwrap, due, decide_eq_true_eq]
      omega

/-- The first task creates a kernel task, sleeps for a tick and is preempted by it. -/
theorem sleep_lasts_zeroBoot : ∃ w v : World, w.sched.currentTask = 0x10000 ∧
    ReflTransGen (SleepStep 0x10000 1) (⟨taskSleepMs w.sched 10, w.live⟩, 0) (v, 1) ∧
    (v.sched.mem 0x10000).state = .sleeping ∧
    ∃ r s, Settles (fun fuel => schedule fuel v.sched 0x3F000 false) (.resume r s) ∧ Runnable (s.mem 0x10000) := by
  obtain ⟨a, ha, b, hb, c, hc, hcur, htime, hid, hfault⟩ :
      ∃ a ∈ zeroBoot.exec 0 (.createTaskNamedStack 0x20000 0x30000 1 65536),
      ∃ b ∈ World.exec 3 ⟨taskSleepMs a.sched 10, a.live⟩ (.schedule 0 false), ∃ c ∈ b.exec 0 .tick,
        a.sched.currentTask = 0x10000 ∧ a.sched.timerTicks = 0 ∧ c.sched.curr.id = 1 ∧
        stackFault c.sched 0x3F000 = false := by decide +kernel
  have hadm : zeroBoot.Admits (.createTaskNamedStack 0x20000 0x30000 1 65536) := by unfold Admits Fresh; decide
  obtain ⟨l, hinv, -⟩ :=
    (boot_inv (fun _ => blankTask) (fun _ => 0) 0 (by decide)).step hadm (by unfold PidOk; decide) ha
  have h1 : SleepStep 0x10000 1 (⟨taskSleepMs a.sched 10, a.live⟩, 0) (b, 0) :=
    ⟨.schedule 0 false, 3, trivial, trivial, nofun, fun _ => Nat.one_pos, hb, rfl⟩
  have h2 : SleepStep 0x10000 1 (b, 0) (c, 1) := ⟨.tick, 0, trivial, trivial, trivial, nofun, hc, rfl⟩
  have hr := ReflTransGen.refl.tail h1 |>.tail h2
  have hlasts := sleep_lasts hinv (by rw [htime]; decide) (by decide : 0 < 10) (by decide)
    (v := c) (n := 1) (by rw [hcur]; exact hr)
  rw [hcur] at hlasts
  refine ⟨a, c, hcur, hr, hlasts.1, hlasts.2 0x3F000 false (by decide) (by rw [htime]; decide) hfault ?_ nofun⟩
  rw [hid]
  exact fun h => absurd h.1 (by decide)

/-- The first task creates a user task and sleeps for a second; the end of the
user task ends the sleep before the first tick. -/
theorem exit_ends_sleep : ∃ w v : World, ReflTransGen Step zeroBoot w ∧ w.sched.currentTask = 0x10000 ∧
    ReflTransGen Step ⟨taskSleepMs w.sched 1000, w.live⟩ v ∧
    v.sched.timerTicks = w.sched.timerTicks ∧ (v.sched.mem 0x10000).state = .running := by
  have hstep : ∀ {w op v fuel}, w.Admits op → w.exec fuel op = some v → Step w v := fun h hv => ⟨_, _, h, hv⟩
  obtain ⟨w, hw, hcur, hv⟩ : ∃ w, ReflTransGen Step zeroBoot w ∧ w.sched.currentTask = 0x10000 ∧
      ∃ v ∈ runOps exec Admits [(.schedule 0 false, 3), (.sysExitProcess 0, 0)] ⟨taskSleepMs w.sched 1000, w.live⟩,
        v.sched.timerTicks = w.sched.timerTicks ∧ (v.sched.mem 0x10000).state = .running :=
    exists_run exec Admits hstep [(.createUserTaskNamed 0x20000 0x30000, 0)] (by decide +kernel)
  obtain ⟨v, hr, htime, hstate⟩ := exists_run exec Admits hstep _ hv
  exact ⟨w, v, hw, hcur, hr, htime, hstate⟩

end World

end LiwusOS.Sched
