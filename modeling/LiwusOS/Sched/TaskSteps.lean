import LiwusOS.Sched.Task

/-! # What the scheduler functions do to the ring

Only creation and reaping change links, parents or pids; the other functions
write states and counters, and none of them touches a task that has ended or
sleeps. Each function is shown to return on a well-formed ring, with what it
leaves unchanged and with who may be RUNNING afterwards. -/

namespace LiwusOS.Sched
open LiwusOS.Lib List

/-! ## What is written -/

/-- What ties a task to the others. -/
def Task.links (x : Task) : Nat × Nat × Int := (x.next, x.parent, x.id)

/-- What a task that waits or has ended keeps. -/
def Task.rest (x : Task) : TaskState × Int × Nat := (x.state, x.exitCode, x.wakeTick)

/-- Every task of `l` updated. -/
def modifyAll (s : Scheduler) (l : List Nat) (f : Task → Task) : Scheduler :=
  { s with mem := fun a => if a ∈ l then f (s.mem a) else s.mem a }

section View
variable {κ : Type} {g : Task → κ} {s : Scheduler} {f : Task → Task}

theorem modify_view {a b : Nat} (hf : b = a → g (f (s.mem a)) = g (s.mem a)) :
    g ((s.modify a f).mem b) = g (s.mem b) := by
  rcases eq_or_ne b a with rfl | hne
  · rw [Scheduler.modify_self, hf rfl]
  · rw [Scheduler.modify_ne _ _ hne]

/-- A new task is the one that was given, up to its link. -/
theorem linkTask_view {addr : Nat} {t : Task} (hg : ∀ x n, g { x with next := n } = g x) :
    g ((linkTask s addr t).mem addr) = g t := by
  rw [linkTask]
  dsimp only
  rw [modify_view (g := g) fun _ => hg _ _, Scheduler.modify_self]
  exact hg _ _

theorem modifyAll_view {b : Nat} (l : List Nat) (hf : g (f (s.mem b)) = g (s.mem b)) :
    g ((modifyAll s l f).mem b) = g (s.mem b) := by
  rw [modifyAll]
  dsimp only
  split
  · exact hf
  · rfl

end View

/-! ## Links -/

/-- The links, parents and pids of `s'` are those of `s`, and the time. -/
structure SameLinks (s s' : Scheduler) : Prop where
  next : ∀ a, s'.next a = s.next a
  parent : ∀ a, (s'.mem a).parent = (s.mem a).parent
  id : ∀ a, (s'.mem a).id = (s.mem a).id
  taskList : s'.taskList = s.taskList
  nextPid : s'.nextPid = s.nextPid
  timerTicks : s'.timerTicks = s.timerTicks

variable {s s' s'' : Scheduler} {ticks t : Nat} {x : Task} {f : Task → Task} {l : List Nat}

theorem SameLinks.of_links (h : ∀ a, (s'.mem a).links = (s.mem a).links)
    (hsame : (s'.taskList, s'.nextPid, s'.timerTicks) = (s.taskList, s.nextPid, s.timerTicks)) : SameLinks s s' :=
  ⟨fun a => congrArg (·.1) (h a), fun a => congrArg (·.2.1) (h a), fun a => congrArg (·.2.2) (h a),
    congrArg (·.1) hsame, congrArg (·.2.1) hsame, congrArg (·.2.2) hsame⟩

theorem SameLinks.refl (s : Scheduler) : SameLinks s s := .of_links (fun _ => rfl) rfl

theorem SameLinks.trans (h : SameLinks s s') (h' : SameLinks s' s'') : SameLinks s s'' :=
  ⟨fun a => (h'.next a).trans (h.next a), fun a => (h'.parent a).trans (h.parent a),
    fun a => (h'.id a).trans (h.id a), h'.taskList.trans h.taskList, h'.nextPid.trans h.nextPid,
    h'.timerTicks.trans h.timerTicks⟩

theorem SameLinks.congr (h : SameLinks s s') (hmem : s''.mem = s'.mem)
    (hsame : (s''.taskList, s''.nextPid, s''.timerTicks) = (s'.taskList, s'.nextPid, s'.timerTicks)) :
    SameLinks s s'' := h.trans (.of_links (fun _ => by rw [hmem]) hsame)

theorem sameLinks_modify (s : Scheduler) (a : Nat) (hf : ∀ x, (f x).links = x.links) :
    SameLinks s (s.modify a f) := .of_links (fun _ => modify_view fun _ => hf _) rfl

theorem sameLinks_terminate (s : Scheduler) (t : Nat) (code : Int) : SameLinks s (terminate s t code) := by
  have h1 : SameLinks s (s.modify t fun x => { x with state := .zombie, exitCode := code }) :=
    sameLinks_modify s t fun _ => rfl
  rw [terminate]
  split
  · exact h1.trans (sameLinks_modify _ _ fun _ => rfl)
  · exact h1

theorem terminate_currentTask (s : Scheduler) (t : Nat) (code : Int) :
    (terminate s t code).currentTask = s.currentTask := by
  rw [terminate]
  split <;> rfl

theorem wakeTask_links (ticks : Nat) (x : Task) : (wakeTask ticks x).links = x.links := by
  rw [wakeTask]
  split <;> rfl

theorem sameLinks_run (s : Scheduler) (t : Nat) : SameLinks s (run s t) := sameLinks_modify s t fun _ => rfl

theorem SameLinks.ring (h : SameLinks s s') (hr : Ring s.next 0 s.taskList l) : Ring s'.next 0 s'.taskList l := by
  rw [h.taskList]
  exact hr.congr fun b _ => h.next b

/-! ## Who runs -/

/-- Of the tasks in `l` only the current one is in state RUNNING. -/
def OnlyCurrentRuns (s : Scheduler) (l : List Nat) : Prop :=
  ∀ a ∈ l, (s.mem a).state = .running → a = s.currentTask

theorem modify_state (s : Scheduler) (a b : Nat) (f : Task → Task) :
    ((s.modify a f).mem b).state = if b = a then (f (s.mem a)).state else (s.mem b).state := by
  split
  · rename_i h
    rw [h, Scheduler.modify_self]
  · rename_i h
    rw [Scheduler.modify_ne _ _ h]

theorem OnlyCurrentRuns.modify (h : OnlyCurrentRuns s l) (a : Nat)
    (hf : ∀ x, (f x).state = .running → x.state = .running) : OnlyCurrentRuns (s.modify a f) l := by
  intro b hb hrun
  rw [modify_state] at hrun
  split at hrun
  · rename_i heq
    exact h b hb (heq ▸ hf _ hrun)
  · exact h b hb hrun

theorem OnlyCurrentRuns.modifyCurrent (h : OnlyCurrentRuns s l) (f : Task → Task) :
    OnlyCurrentRuns (s.modify s.currentTask f) l := by
  intro b hb hrun
  rw [modify_state] at hrun
  split at hrun
  · rename_i heq
    exact heq
  · exact h b hb hrun

/-- Terminating a task that has no parent or is a child of the current one. -/
theorem OnlyCurrentRuns.terminate (h : OnlyCurrentRuns s l) (code : Int)
    (hp : (s.mem t).parent = 0 ∨ (s.mem t).parent = s.currentTask) :
    OnlyCurrentRuns (Sched.terminate s t code) l := by
  have h1 : OnlyCurrentRuns (s.modify t fun x => { x with state := .zombie, exitCode := code }) l :=
    h.modify t fun x hx => by cases hx
  have hparent : ((s.modify t fun x => { x with state := .zombie, exitCode := code }).mem t).parent =
      (s.mem t).parent := by rw [Scheduler.modify_self]
  rw [Sched.terminate, hparent]
  rcases hp with hp | hp
  · rw [hp]
    exact h1
  · rw [hp]
    split
    · exact h1.modifyCurrent _
    · exact h1

/-! ## Who rests -/

/-- A task that has ended, or sleeps and is not due. -/
def Resting (ticks : Nat) (x : Task) : Prop :=
  x.state = .zombie ∨ x.state = .sleeping ∧ (x.wakeTick = 0 ∨ due ticks x.wakeTick = false)

theorem Resting.congr {y : Task} (h : Resting ticks x) (heq : y.rest = x.rest) : Resting ticks y := by
  have hstate : y.state = x.state := congrArg (·.1) heq
  have hwake : y.wakeTick = x.wakeTick := congrArg (·.2.2) heq
  rwa [Resting, hstate, hwake]

def Runnable (x : Task) : Prop := x.state = .ready ∨ x.state = .running

theorem Resting.not_runnable (h : Resting ticks x) : ¬ Runnable x := by
  rcases h with h | ⟨h, -⟩ <;> rw [Runnable, h] <;> exact nofun

theorem wakeTask_resting (h : Resting ticks x) : wakeTask ticks x = x := by
  refine if_neg fun ⟨hs, h0, hdue⟩ => ?_
  rcases h with hz | ⟨-, hw | hw⟩
  · rw [hs] at hz
    cases hz
  · exact h0 hw
  · rw [hw] at hdue
    cases hdue

/-- The end of `t` is not the end of `a`, nor of a child of `a`. -/
def Spares (s : Scheduler) (t a : Nat) : Prop := a ≠ t ∧ ((s.mem t).parent = 0 ∨ a ≠ (s.mem t).parent)

theorem terminate_spared {a : Nat} (code : Int) (h : Spares s t a) : (terminate s t code).mem a = s.mem a := by
  rw [terminate, Scheduler.modify_self]
  split
  · rename_i hp
    rw [Scheduler.modify_ne _ _ (h.2.resolve_left hp), Scheduler.modify_ne _ _ h.1]
  · rw [Scheduler.modify_ne _ _ h.1]

/-! ## The loops -/

/-- A visit that updates each task by a function which depends on none of them. -/
theorem visit_modify {κ : Type} {k : Scheduler → κ} {f : κ → Task → Task}
    (hk : ∀ s a g, k (s.modify a g) = k s) (hl : l.Nodup) (s : Scheduler) :
    visit (β := Scheduler) (fun s t => .inl (s.modify t (f (k s)))) s l = .inl (modifyAll s l (f (k s))) := by
  induction l generalizing s with
  | nil => simp [visit, modifyAll]
  | cons t l ih =>
    obtain ⟨ht, hl⟩ := nodup_cons.mp hl
    rw [visit]
    dsimp only
    rw [ih hl, hk]
    simp only [modifyAll, Scheduler.modify, Sum.inl.injEq, Scheduler.mk.injEq, and_true]
    funext a
    rcases eq_or_ne a t with rfl | hne
    · simp [ht]
    · simp [hne]

theorem sameLinks_modifyAll (s : Scheduler) (l : List Nat) (hf : ∀ x, (f x).links = x.links) :
    SameLinks s (modifyAll s l f) := .of_links (fun _ => modifyAll_view l (hf _)) rfl

theorem OnlyCurrentRuns.modifyAll (h : OnlyCurrentRuns s l) (k : List Nat)
    (hf : ∀ x, (f x).state = .running → x.state = .running) : OnlyCurrentRuns (Sched.modifyAll s k f) l := by
  intro b hb hrun
  rw [Sched.modifyAll] at hrun
  dsimp only at hrun
  split at hrun
  · exact h b hb (hf _ hrun)
  · exact h b hb hrun

theorem wakeTask_running (ticks : Nat) (x : Task) (h : (wakeTask ticks x).state = .running) : x.state = .running := by
  rw [wakeTask] at h
  split at h
  · cases h
  · exact h

section Loops
variable {s : Scheduler} {l : List Nat} (hr : Ring s.next 0 s.taskList l)
include hr

theorem kill_settles (pid : Int) : ∃ s', Settles (fun n => sysKillByPid n s pid) s' ∧
    (s' = s ∨ ∃ t ∈ l, (s.mem t).id = pid ∧ (s.mem t).userMode ∧ s' = terminate s t (128 + 2)) := by
  by_cases hneg : pid < 0
  · exact ⟨s, by simpa only [sysKillByPid, if_pos hneg] using .const s, .inl rfl⟩
  · obtain ⟨r, hloop, hcases⟩ := hr.search_settles Scheduler.next (fun s t => (s.mem t).id = pid)
      fun s t => if (s.mem t).userMode then terminate s t (128 + 2) else s
    refine ⟨r.elim id id, (hloop.map (Sum.elim id id)).congr fun n => if_neg hneg, ?_⟩
    rcases hcases with ⟨rfl, -⟩ | ⟨t, ht, hid, rfl⟩
    · exact .inl rfl
    · by_cases hu : (s.mem t).userMode = true
      · exact .inr ⟨t, ht, hid, hu, by simp [hu]⟩
      · exact .inl (by simp [hu])

theorem ctrlC_settles (ctrlC : Bool) : ∃ s', Settles (fun n => handleCtrlC n s ctrlC) s' ∧
    (s' = s ∨ ctrlC ∧ ∃ t ∈ l, (s.mem t).id = s.lastForegroundPid ∧ (s.mem t).userMode ∧
      s' = { terminate s t (128 + 2) with lastForegroundPid := -1 }) := by
  by_cases hc : ctrlC ∧ s.lastForegroundPid > 0
  · obtain ⟨r, hloop, hcases⟩ := hr.search_settles Scheduler.next
      (fun s t => (s.mem t).id = s.lastForegroundPid ∧ (s.mem t).userMode)
      fun s t => { terminate s t (128 + 2) with lastForegroundPid := -1 }
    refine ⟨r.elim id id, (hloop.map (Sum.elim id id)).congr fun n => if_pos hc, ?_⟩
    rcases hcases with ⟨rfl, -⟩ | ⟨t, ht, hid, rfl⟩
    · exact .inl rfl
    · exact .inr ⟨hc.1, t, ht, hid.1, hid.2, rfl⟩
  · exact ⟨s, by simpa only [handleCtrlC, if_neg hc] using .const s, .inl rfl⟩

theorem wake_settles : Settles (fun n => wakeSleepers n s) (modifyAll s l (wakeTask s.timerTicks)) := by
  have hloop := hr.doWhile_settles (β := Scheduler) Scheduler.next
    (fun s t => .inl (s.modify t (wakeTask s.timerTicks))) fun s s' t _ hb c _ => by
      cases hb
      exact (sameLinks_modify s t (wakeTask_links _)).next c
  rw [visit_modify (k := Scheduler.timerTicks) (f := wakeTask) (fun _ _ _ => rfl) hr.nodup] at hloop
  exact hloop.map (Sum.elim id id)

omit hr in
/-- The scan takes the first ready task on the way round to the current one. -/
theorem pick_first {way : List Nat} (hrot : Ring s.next 0 s.currentTask (s.currentTask :: way)) :
    ∃ t, (way ++ [s.currentTask]).find? (fun t => (s.mem t).state = .ready || t = s.currentTask) = some t ∧
      Settles (fun n => pickNext n s) t := by
  obtain ⟨-, hne, hseg⟩ := hrot.seg
  have hway : Seg s.next 0 (s.next s.currentTask) (way ++ [s.currentTask]) (s.next s.currentTask) :=
    hseg.append ⟨rfl, hne, rfl⟩
  have hfound : ∃ t, (way ++ [s.currentTask]).find?
      (fun t => (s.mem t).state = .ready || t = s.currentTask) = some t := by
    rw [← Option.isSome_iff_exists, find?_isSome]
    exact ⟨s.currentTask, by simp, by simp⟩
  obtain ⟨t, ht⟩ := hfound
  exact ⟨t, ht, seek_settles hway ht⟩

/-- The scan ends at a task that is ready, or back at the current one. -/
theorem pick_settles (hcur : s.currentTask ∈ l) : ∃ t ∈ l, Settles (fun n => pickNext n s) t ∧
    ((s.mem t).state = .ready ∨ t = s.currentTask) := by
  obtain ⟨way, hrot, hperm⟩ := hr.rotate hcur
  obtain ⟨t, ht, hset⟩ := pick_first hrot
  refine ⟨t, hperm.mem_iff.mp ?_, hset, ?_⟩
  · have hmem := mem_of_find?_eq_some ht
    rw [mem_append, mem_singleton] at hmem
    exact mem_cons.mpr hmem.symm
  · simpa using find?_some ht

omit hr in
theorem switchTo_ready (h : (s.mem t).state = .ready) : switchTo s t = { run s t with
    currentTask := t, currentDirectory := ((run s t).mem t).pageDirectory } := by
  simp only [switchTo, if_pos h, Scheduler.curr]

/-- The scan and the switch, from a state in which no task is RUNNING. -/
theorem switch_settles (hcur : s.currentTask ∈ l) :
    ∃ s', Settles (fun n => (pickNext n s).map (switchTo s)) s' ∧ SameLinks s s' ∧ s'.currentTask ∈ l ∧
      ((∀ a ∈ l, (s.mem a).state ≠ .running) → OnlyCurrentRuns s' l) ∧
      (∀ a, (s.mem a).state ≠ .ready → s'.mem a = s.mem a) ∧ ∀ a, Runnable (s.mem a) → Runnable (s'.mem a) := by
  obtain ⟨t, ht, hpick, hstate⟩ := pick_settles hr hcur
  refine ⟨_, hpick.map _, ?_⟩
  by_cases hready : (s.mem t).state = .ready
  · rw [switchTo_ready hready]
    refine ⟨(sameLinks_run s t).congr rfl rfl, ht, fun hnone a ha hrun => ?_, fun a ha => ?_, fun a ha => ?_⟩
    · by_contra hne
      change ((run s t).mem a).state = .running at hrun
      rw [run, modify_state, if_neg hne] at hrun
      exact hnone a ha hrun
    · show (run s t).mem a = s.mem a
      exact Scheduler.modify_ne s _ fun heq => ha (heq ▸ hready)
    · show Runnable ((run s t).mem a)
      rw [Runnable, run, modify_state]
      split
      · exact .inr rfl
      · exact ha
  · -- nobody is ready, so the scan came back to the current task
    have ht' : t = s.currentTask := hstate.resolve_left hready
    have hcurr : s.curr.state ≠ .ready := by rwa [Scheduler.curr, ← ht']
    have heq : switchTo s t = { s with currentDirectory := s.curr.pageDirectory } := by
      simp only [switchTo, if_neg hready, if_neg hcurr]
    rw [heq]
    exact ⟨.of_links (fun _ => rfl) rfl, hcur, fun hnone a ha hrun => absurd hrun (hnone a ha), fun _ _ => rfl,
      fun _ => id⟩

/-- `s'` differs from `s` by updates of the current task. -/
structure Touched (s s' : Scheduler) (l : List Nat) : Prop where
  links : SameLinks s s'
  currentTask : s'.currentTask = s.currentTask
  only : OnlyCurrentRuns s l → OnlyCurrentRuns s' l
  rest : ∀ ticks a, Resting ticks (s.mem a) → (s'.mem a).rest = (s.mem a).rest
  runnable : ∀ a, Runnable (s.mem a) → Runnable (s'.mem a)

omit hr in
theorem Touched.trans (h : Touched s s' l) (h' : Touched s' s'' l) : Touched s s'' l :=
  ⟨h.links.trans h'.links, h'.currentTask.trans h.currentTask, fun ho => h'.only (h.only ho), fun ticks a ha =>
    (h'.rest ticks a (ha.congr (h.rest ticks a ha))).trans (h.rest ticks a ha),
    fun a ha => h'.runnable a (h.runnable a ha)⟩

omit hr in
/-- An update of the current task that leaves its links alone. -/
theorem touch_current (f : Task → Task) (hf : ∀ x, (f x).links = x.links)
    (hrest : Runnable s.curr ∧ Runnable (f s.curr) ∨ ∀ x, (f x).rest = x.rest) :
    Touched s (s.modify s.currentTask f) l := by
  refine ⟨sameLinks_modify s _ hf, rfl, fun h => h.modifyCurrent f, fun ticks a ha => modify_view fun heq => ?_,
    fun a ha => ?_⟩
  · rcases hrest with hrun | hrest
    · exact absurd (heq ▸ hrun.1) ha.not_runnable
    · exact hrest _
  · rw [Runnable, modify_state]
    split
    · rename_i heq
      rcases hrest with hrun | hrest
      · exact hrun.2
      · have hstate : (f s.curr).state = s.curr.state := congrArg (·.1) (hrest s.curr)
        rw [Runnable, heq] at ha
        exact hstate ▸ ha
    · exact ha

omit hr in
/-- The current task gives way after such an update. -/
theorem block_current (f : Task → Task) (hf : ∀ x, (f x).links = x.links) :
    SameLinks s { s.modify s.currentTask f with reschedForce := true } ∧
      (OnlyCurrentRuns s l → OnlyCurrentRuns { s.modify s.currentTask f with reschedForce := true } l) ∧
      ∀ a, a ≠ s.currentTask → (s.modify s.currentTask f).mem a = s.mem a :=
  ⟨(sameLinks_modify s _ hf).congr rfl rfl, fun h => h.modifyCurrent f, fun _ ha => Scheduler.modify_ne s _ ha⟩

theorem reschedule_settles (hcur : s.currentTask ∈ l) (forced : Bool) (rsp : Nat) :
    ∃ r s', Settles (fun n => reschedule n s forced rsp) (r, s') ∧ SameLinks s s' ∧
      s'.currentTask ∈ l ∧ (OnlyCurrentRuns s l → OnlyCurrentRuns s' l) ∧
      (∀ ticks a, Resting ticks (s.mem a) → (s'.mem a).rest = (s.mem a).rest) ∧
      ∀ a, Runnable (s.mem a) → Runnable (s'.mem a) := by
  have h1 : Touched s _ l := touch_current (fun c =>
    { c with stackTop := rsp, cpuTicks := (c.cpuTicks + 1) % 2 ^ 64 }) (fun _ => rfl) (.inr fun _ => rfl)
  set s1 := s.modify s.currentTask fun c =>
    { c with stackTop := rsp, cpuTicks := (c.cpuTicks + 1) % 2 ^ 64 } with hs1
  by_cases hslice : !forced ∧ s1.curr.state = .running ∧ s1.curr.timeSlice > 1
  · have h2 := h1.trans (touch_current (fun c => { c with timeSlice := c.timeSlice - 1 }) (fun _ => rfl)
      (.inr fun _ => rfl))
    exact ⟨rsp, _, (Settles.const _).congr fun n => if_pos hslice, h2.links, hcur, h2.only, h2.rest, h2.runnable⟩
  · -- the quantum is over: first the slice, then the state of the current task
    obtain ⟨s2, hs2, h2⟩ : ∃ s2, s2 = (if !forced ∧ s1.curr.state = .running then
        s1.modify s1.currentTask fun c => { c with timeSlice := 0 } else s1) ∧ Touched s s2 l := by
      refine ⟨_, rfl, ?_⟩
      split
      · exact h1.trans (touch_current _ (fun _ => rfl) (.inr fun _ => rfl))
      · exact h1
    obtain ⟨s3, hs3, h3, hnone⟩ : ∃ s3, s3 = (if s2.curr.state = .running then
        s2.modify s2.currentTask fun c => { c with state := .ready } else s2) ∧ Touched s s3 l ∧
        (OnlyCurrentRuns s l → ∀ a ∈ l, (s3.mem a).state ≠ .running) := by
      refine ⟨_, rfl, ?_⟩
      split
      · rename_i hrunning
        refine ⟨h2.trans (touch_current _ (fun _ => rfl) (.inl ⟨.inr hrunning, .inl rfl⟩)), fun h a ha hrun => ?_⟩
        rw [modify_state] at hrun
        split at hrun
        · cases hrun
        · rename_i hne
          exact hne (h2.only h a ha hrun)
      · rename_i hnot
        refine ⟨h2, fun h a ha hrun => hnot ?_⟩
        rw [Scheduler.curr, ← h2.only h a ha hrun]
        exact hrun
    obtain ⟨s4, hset, hl4, hcur4, ho4, hm4, hrun4⟩ := switch_settles (h3.links.ring hr) (h3.currentTask ▸ hcur)
    refine ⟨_, s4, (hset.map fun s => (s.curr.stackTop, s)).congr fun n => ?_, h3.links.trans hl4, hcur4,
      fun h => ho4 (hnone h), fun ticks a ha => ?_, fun a ha => hrun4 a (h3.runnable a ha)⟩
    · rw [reschedule, ← hs1, if_neg hslice, ← hs2]
      dsimp only
      rw [← hs3, Option.map_map]
      rfl
    · have hrest := h3.rest ticks a ha
      rw [hm4 a fun hready => (ha.congr hrest).not_runnable (.inl hready), hrest]

/-- `schedule` returns, with the links as they were. If Ctrl-C may only end a
child of the current task, it keeps the others from being RUNNING. Ctrl-C apart,
it leaves the tasks at rest alone and wakes those that are due. -/
theorem schedule_settles (hcur : s.currentTask ∈ l) (rsp : Nat) (ctrlC : Bool) :
    ∃ o, Settles (fun n => schedule n s rsp ctrlC) o ∧ (o = .panic → stackFault s rsp) ∧ ∀ r s', o = .resume r s' →
      SameLinks s s' ∧ s'.currentTask ∈ l ∧
      ((ctrlC → ∀ t ∈ l, (s.mem t).id = s.lastForegroundPid → (s.mem t).userMode →
          (s.mem t).parent = 0 ∨ (s.mem t).parent = s.currentTask) →
        OnlyCurrentRuns s l → OnlyCurrentRuns s' l) ∧
      ∀ a, (ctrlC → ∀ t ∈ l, (s.mem t).id = s.lastForegroundPid → (s.mem t).userMode → Spares s t a) →
        (Resting s.timerTicks (s.mem a) → (s'.mem a).rest = (s.mem a).rest) ∧
        (¬ (s.curr.id = 0 ∧ s.curr.next = s.currentTask) → a ∈ l → (s.mem a).state = .sleeping →
          (s.mem a).wakeTick ≠ 0 → due s.timerTicks (s.mem a).wakeTick → Runnable (s'.mem a)) := by
  have hne : s.currentTask ≠ 0 := hr.ne_nil _ hcur
  by_cases hfast : s.curr.id = 0 ∧ s.curr.next = s.currentTask
  · refine ⟨.resume rsp s, (Settles.const _).congr fun n => ?_, nofun, fun r s' heq => ?_⟩
    · rw [schedule, if_neg hne, if_pos hfast]
    · cases heq
      exact ⟨SameLinks.refl s, hcur, fun _ h => h, fun _ _ => ⟨fun _ => rfl, fun hnot => absurd hfast hnot⟩⟩
  by_cases hfault : stackFault s rsp = true
  · refine ⟨.panic, (Settles.const _).congr fun n => ?_, fun _ => hfault, nofun⟩
    rw [schedule, if_neg hne, if_neg hfast, if_pos hfault]
  obtain ⟨s1, hset1, hcases⟩ := ctrlC_settles (s := { s with reschedForce := false }) hr ctrlC
  obtain ⟨hcur1, hl1⟩ : s1.currentTask = s.currentTask ∧ SameLinks s s1 := by
    have hstart : SameLinks s { s with reschedForce := false } := .of_links (fun _ => rfl) rfl
    rcases hcases with rfl | ⟨-, t, -, -, -, rfl⟩
    · exact ⟨rfl, hstart⟩
    · exact ⟨terminate_currentTask _ t _, (hstart.trans (sameLinks_terminate _ t _)).congr rfl rfl⟩
  have hset2 := wake_settles (hl1.ring hr)
  have hl2 := sameLinks_modifyAll s1 l (wakeTask_links s1.timerTicks)
  obtain ⟨r, s3, hset3, hl3, hcur3, ho3, hrest3, hrun3⟩ := reschedule_settles ((hl1.trans hl2).ring hr)
    (show s1.currentTask ∈ l from hcur1 ▸ hcur) s.reschedForce rsp
  refine ⟨.resume r s3, ?_, nofun, fun r' s' heq => ?_⟩
  · have hset4 := hset2.bind (g := fun n s2 => (reschedule n s2 s.reschedForce rsp).map fun x =>
      Outcome.resume x.1 x.2) (hset3.map fun x => Outcome.resume x.1 x.2)
    have hset5 := hset1.bind (g := fun n s1 => (wakeSleepers n s1).bind fun s2 =>
      (reschedule n s2 s.reschedForce rsp).map fun x => Outcome.resume x.1 x.2) hset4
    refine hset5.congr fun n => ?_
    rw [schedule, if_neg hne, if_neg hfast, if_neg hfault]
  · cases heq
    refine ⟨(hl1.trans hl2).trans hl3, hcur3,
      fun hctrl ho => ho3 (OnlyCurrentRuns.modifyAll ?_ l (wakeTask_running _)), fun a hspare => ?_⟩
    · rcases hcases with rfl | ⟨hc, t, ht, hid, hu, rfl⟩
      · exact ho
      · exact OnlyCurrentRuns.terminate (s := { s with reschedForce := false }) ho _ (hctrl hc t ht hid hu)
    · have hmem : s1.mem a = s.mem a := by
        rcases hcases with rfl | ⟨hc, t, ht, hid, hu, rfl⟩
        · rfl
        · exact terminate_spared (s := { s with reschedForce := false }) _ (hspare hc t ht hid hu)
      refine ⟨fun ha => ?_, fun _ hal hsleeps h0 hdue => hrun3 a (.inl ?_)⟩
      · have hwake : ((modifyAll s1 l (wakeTask s1.timerTicks)).mem a).rest = (s.mem a).rest := by
          rw [modifyAll_view (g := Task.rest) l (by rw [hl1.timerTicks, hmem, wakeTask_resting ha]), hmem]
        rw [hrest3 s.timerTicks a (ha.congr hwake), hwake]
      · rw [modifyAll]
        dsimp only
        rw [if_pos hal, hmem, hl1.timerTicks, wakeTask, if_pos ⟨hsleeps, h0, hdue⟩]

end Loops

/-! ## Reaping -/

/-- The new parent of the children of `t`. -/
def reparent (t root : Nat) (x : Task) : Task := if x.parent = t then { x with parent := root } else x

/-- What is left of the ring when `t` is gone. -/
structure Reaped (s s' : Scheduler) (t : Nat) (l l' : List Nat) : Prop where
  ring : Ring s'.next 0 s'.taskList l'
  mem : ∀ a, a ∈ l' ↔ a ∈ l ∧ a ≠ t
  parent : ∀ a ∈ l', (s'.mem a).parent = if (s.mem a).parent = t then s.taskList else (s.mem a).parent
  id : ∀ a ∈ l', (s'.mem a).id = (s.mem a).id
  rest : ∀ a ∈ l', (s'.mem a).rest = (s.mem a).rest
  taskList : s'.taskList = s.taskList
  currentTask : s'.currentTask = s.currentTask
  nextPid : s'.nextPid = s.nextPid
  timerTicks : s'.timerTicks = s.timerTicks

theorem reparent_fields (t root : Nat) (x : Task) : (reparent t root x).next = x.next ∧
    (reparent t root x).parent = (if x.parent = t then root else x.parent) ∧
    (reparent t root x).id = x.id ∧ (reparent t root x).rest = x.rest := by
  rw [reparent]
  split <;> exact ⟨rfl, rfl, rfl, rfl⟩

theorem reap_settles (hr : Ring s.next 0 s.taskList l) (ht : t ∈ l)
    (hne : t ≠ s.taskList) (junk : Task) : ∃ s' l', Settles (fun n => reap n s t junk) s' ∧ Reaped s s' t l l' := by
  -- the predecessor the source looks for
  obtain ⟨k1, q, k2, hq⟩ := hr.split_before ht hne
  have hsome : (l.find? fun p => decide (s.next p = t)).isSome := by
    rw [find?_isSome]
    refine ⟨q, by simp [hq], ?_⟩
    rw [hq] at hr
    obtain ⟨m, -, -, -, hs⟩ := hr.seg.split
    exact decide_eq_true hs.1
  obtain ⟨p, hp⟩ := Option.isSome_iff_exists.mp hsome
  have hnext : s.next p = t := by simpa using find?_some hp
  obtain ⟨l1, l2, rfl⟩ := hr.split_after (mem_of_find?_eq_some hp) hnext hne
  obtain ⟨ht1, htp⟩ : t ∉ l1 ∧ t ≠ p := by
    have hnodup := hr.nodup
    rw [nodup_append, nodup_cons] at hnodup
    refine ⟨fun h => hnodup.2.2 t h t (by simp) rfl, ?_⟩
    rintro rfl
    exact hnodup.2.1.1 (.head _)
  have hmem : ∀ a, a ∈ l1 ++ p :: l2 ↔ a ∈ l1 ++ p :: t :: l2 ∧ a ≠ t := by
    have herase : (l1 ++ p :: t :: l2).erase t = l1 ++ p :: l2 := by
      rw [erase_append_right _ ht1, erase_cons_tail (by simpa using htp.symm), erase_cons_head]
    intro a
    rw [← herase, hr.nodup.mem_erase_iff, and_comm]
  -- the ring without `t`
  set s1 := s.modify p fun x => { x with next := s.next t } with hs1
  have hp12 : ∀ c ∈ l1 ++ l2, c ≠ p := by
    have hnodup : (l1 ++ p :: l2).Nodup := hr.nodup.sublist
      (List.Sublist.append_left ((sublist_cons_self t l2).cons_cons p) l1)
    rw [nodup_middle] at hnodup
    exact fun c hc => ne_of_mem_of_not_mem hc (nodup_cons.mp hnodup).1
  have hr1 : Ring s1.next 0 s1.taskList (l1 ++ p :: l2) := by
    refine Ring.remove hr ?_ fun c hc => ?_
    · simp [Scheduler.next, hs1]
    · simp only [Scheduler.next, hs1, Scheduler.modify_ne _ _ (hp12 c hc)]
  have hs1mem : ∀ a, ((s1.mem a).parent, (s1.mem a).id, (s1.mem a).rest) =
      ((s.mem a).parent, (s.mem a).id, (s.mem a).rest) := fun a =>
    modify_view (g := fun x => (x.parent, x.id, x.rest)) fun _ => rfl
  have hloop := hr1.doWhile_settles (β := Scheduler) Scheduler.next
    (fun s c => .inl (s.modify c (reparent t s.taskList))) fun s s' c _ hb d _ => by
      cases hb
      rcases eq_or_ne d c with rfl | hdc
      · simp [Scheduler.next, (reparent_fields t s.taskList _).1]
      · simp [Scheduler.next, Scheduler.modify_ne _ _ hdc]
  rw [visit_modify (k := Scheduler.taskList) (f := fun root => reparent t root) (fun _ _ _ => rfl) hr1.nodup]
    at hloop
  have hmem' : ∀ a ∈ l1 ++ p :: l2, ((modifyAll s1 (l1 ++ p :: l2) (reparent t s1.taskList)).modify t
      fun _ => junk).mem a = reparent t s.taskList (s1.mem a) := by
    intro a ha
    rw [Scheduler.modify_ne _ _ ((hmem a).mp ha).2, modifyAll]
    exact if_pos ha
  refine ⟨(modifyAll s1 (l1 ++ p :: l2) (reparent t s1.taskList)).modify t fun _ => junk, l1 ++ p :: l2,
    ?_, ?_, hmem, fun a ha => ?_, fun a ha => ?_, fun a ha => ?_, rfl, rfl, rfl, rfl⟩
  · have hseek := seek_settles hr.seg hp
    have hrest := hseek.bind (g := fun n prev =>
      (doWhile (β := Scheduler) Scheduler.next s.taskList (fun s c => .inl (s.modify c (reparent t s.taskList))) n
        (s.modify prev fun x => { x with next := s.next t }) s.taskList).map fun r =>
      (r.elim id id).modify t fun _ => junk) (hloop.map fun r => (r.elim id id).modify t fun _ => junk)
    exact hrest.congr fun n => rfl
  · refine hr1.congr fun a ha => ?_
    rw [Scheduler.next, hmem' a ha, (reparent_fields _ _ _).1]
    rfl
  · rw [hmem' a ha, (reparent_fields _ _ _).2.1, (Prod.mk.inj (hs1mem a)).1]
  · rw [hmem' a ha, (reparent_fields _ _ _).2.2.1]
    exact congrArg (·.2.1) (hs1mem a)
  · rw [hmem' a ha, (reparent_fields _ _ _).2.2.2]
    exact congrArg (·.2.2) (hs1mem a)

/-! ## `sys_waitpid` -/

/-- The pass over the ring ends with a zombie child of the caller, or with none. -/
theorem waitScan_settles (hr : Ring s.next 0 s.taskList l) (pid : Int) :
    ∃ r, Settles (fun n => waitScan n s pid) r ∧ ∀ t, r = .inr t → t ∈ l ∧
      (s.mem t).parent ≠ 0 ∧ (s.mem (s.mem t).parent).id = s.curr.id ∧
      (pid = -1 ∨ (s.mem t).id = pid) ∧ (s.mem t).state = .zombie := by
  refine ⟨_, hr.doWhile_settles (σ := Bool × Bool) (fun _ => s.next) _ (s := (false, false))
    (fun _ _ _ _ _ _ _ => rfl), fun t heq => ?_⟩
  obtain ⟨f, t', ht', -, hb⟩ := visit_inr (P := fun _ => True) heq trivial fun _ _ _ _ _ _ => trivial
  split at hb
  · rename_i hchild
    split at hb
    · rename_i hpid
      split at hb
      · rename_i hz
        cases hb
        exact ⟨ht', hchild.1, hchild.2, hpid, hz⟩
      · cases hb
    · cases hb
  · cases hb

/-- A round of `sys_waitpid` reaps a zombie child of the caller, or leaves the
ring alone. -/
theorem waitpid_settles (hr : Ring s.next 0 s.taskList l)
    (hroot : (s.mem s.taskList).parent = 0) (pid : Int) (junk : Task) :
    ∃ r s', Settles (fun n => sysWaitpid n s pid junk) (r, s') ∧
      ((∃ t l', r = .reaped t (s.mem t).id (s.mem t).exitCode ∧ t ∈ l ∧ (s.mem t).parent ≠ 0 ∧
          (s.mem (s.mem t).parent).id = s.curr.id ∧ (s.mem t).state = .zombie ∧ Reaped s s' t l l') ∨
        (∀ t i c, r ≠ .reaped t i c) ∧ SameLinks s s' ∧ s'.currentTask = s.currentTask ∧
          (OnlyCurrentRuns s l → OnlyCurrentRuns s' l) ∧ ∀ a, a ≠ s.currentTask → s'.mem a = s.mem a) := by
  obtain ⟨f, hscan, hfound⟩ := waitScan_settles hr pid
  -- a pass that reaps nobody ends at once
  have hquiet : ∀ {any found : Bool} {r : WaitResult} {s' : Scheduler}, f = .inl (any, found) →
      (∀ n, waitEnd n s pid junk f = some (r, s')) → Settles (fun n => sysWaitpid n s pid junk) (r, s') :=
    fun _ hend => hscan.bind ((Settles.const _).congr hend)
  cases f with
  | inr t =>
    obtain ⟨ht, hp0, hpid, -, hz⟩ := hfound t rfl
    have hne : t ≠ s.taskList := fun heq => hp0 (heq ▸ hroot)
    obtain ⟨s', l', hreap, hreaped⟩ := reap_settles hr ht hne junk
    exact ⟨_, s', hscan.bind (hreap.map fun s' => (WaitResult.reaped t (s.mem t).id (s.mem t).exitCode, s')),
      .inl ⟨t, l', rfl, ht, hp0, hpid, hz, hreaped⟩⟩
  | inl f =>
    obtain ⟨any, found⟩ := f
    by_cases hnone : !any ∨ pid ≠ -1 ∧ !found
    · exact ⟨.noChild, s, hquiet rfl fun n => if_pos hnone, .inr ⟨nofun, .refl s, rfl, id, fun _ _ => rfl⟩⟩
    · obtain ⟨hl, ho, hmem⟩ := block_current (s := s) (l := l) (fun p => { p with state := .sleeping }) fun _ => rfl
      exact ⟨.blocked, _, hquiet rfl fun n => if_neg hnone, .inr ⟨nofun, hl, rfl, ho, hmem⟩⟩

end LiwusOS.Sched
