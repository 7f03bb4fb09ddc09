import LiwusOS.Sched.TaskRing

/-! # The end of a task

Exit, kill and Ctrl-C make a task a zombie and wake its parent by writing its
state; `sys_waitpid` hands out the exit code of a zombie and frees it. Whether a
zombie stays one, with the code it first got, depends on whom they write to. -/

namespace LiwusOS.Sched
open LiwusOS.Lib List Function Relation Option

/-! ## Steps -/

/-- Neither the task nor its parent has ended. -/
def CanEnd (s : Scheduler) (t : Nat) : Prop :=
  (s.mem t).state ≠ .zombie ∧ ((s.mem t).parent = 0 ∨ (s.mem (s.mem t).parent).state ≠ .zombie)

variable {a : Nat} {w : World}

theorem CanEnd.spares {s : Scheduler} {t : Nat} (h : CanEnd s t) (ha : (s.mem a).state = .zombie) : Spares s t a :=
  ⟨fun heq => h.1 (heq ▸ ha), h.2.imp_right fun hp heq => hp (heq ▸ ha)⟩

namespace World

/-- The child that `sys_waitpid` returns, and its status. -/
def answer (fuel : Nat) (w : World) : SchedOp → Option (Nat × Int)
  | .sysWaitpid pid junk => match Sched.sysWaitpid fuel w.sched pid junk with
    | some (.reaped t _ code, _) => some (t, code)
    | _ => none
  | _ => none

/-- Who ends has not ended before and has no parent that has; a task that has
ended does not block. -/
def Orderly (w : World) : SchedOp → Prop
  | .sysKillByPid pid => ∀ t ∈ w.live, (w.sched.mem t).id = pid → (w.sched.mem t).userMode → CanEnd w.sched t
  | .schedule _ ctrlC => ctrlC → ∀ t ∈ w.live, (w.sched.mem t).id = w.sched.lastForegroundPid →
      (w.sched.mem t).userMode → CanEnd w.sched t
  | .sysExitProcess _ => CanEnd w.sched w.sched.currentTask
  | .sysWaitpid _ _ => w.sched.curr.state ≠ .zombie
  | .taskSleepMs _ => w.sched.curr.state ≠ .zombie
  | _ => True

/-- What has ended is spared. -/
theorem Orderly.spares {op : SchedOp} (h : w.Orderly op) (ha : (w.sched.mem a).state = .zombie) : w.Spares a op := by
  have hcurr : w.sched.curr.state ≠ .zombie → a ≠ w.sched.currentTask :=
    fun hne heq => hne (by rwa [Scheduler.curr, ← heq])
  cases op with
  | sysKillByPid pid => exact fun t ht hid hu => (h t ht hid hu).spares ha
  | schedule rsp ctrlC => exact fun hc t ht hid hu => (h hc t ht hid hu).spares ha
  | sysExitProcess status => exact CanEnd.spares h ha
  | sysWaitpid pid junk => exact hcurr h
  | taskSleepMs ms => exact hcurr h
  | _ => trivial

/-- What a step does to the tasks that have ended. -/
structure Outcome (fuel : Nat) (w v : World) (op : SchedOp) : Prop where
  old : ∀ a ∈ v.live, op.created ≠ some a → a ∈ w.live ∧ ((w.sched.mem a).state = .zombie →
    (v.sched.mem a).state = .zombie ∧ (v.sched.mem a).exitCode = (w.sched.mem a).exitCode)
  new : ∀ a, op.created = some a → a ∉ w.live ∧ (v.sched.mem a).state ≠ .zombie
  returned : ∀ t code, w.answer fuel op = some (t, code) → t ∈ w.live ∧ (w.sched.mem t).state = .zombie ∧
    code = (w.sched.mem t).exitCode ∧ t ∉ v.live

variable {w v : World} {l : List Nat} {fuel : Nat} {op : SchedOp}

theorem Inv.answered (h : w.Inv l) (hv : w.exec fuel op = some v) {t : Nat} {code : Int}
    (hans : w.answer fuel op = some (t, code)) : t ∈ w.live ∧ (w.sched.mem t).state = .zombie ∧
      code = (w.sched.mem t).exitCode ∧ t ∉ v.live := by
  cases op with
  | sysWaitpid pid junk =>
    obtain ⟨r, s, hset, hcases⟩ := waitpid_settles h.ring h.root pid junk
    obtain ⟨x, hwait, heq⟩ := map_eq_some_iff.mp hv
    cases hset.only fuel x hwait
    rw [answer, hwait] at hans
    rcases hcases with ⟨t', l', rfl, ht, -, -, hz, -⟩ | ⟨hquiet, -⟩
    · cases hans
      cases heq
      exact ⟨(h.live t).mp ht, hz, rfl, h.nodup.not_mem_erase⟩
    · cases r with
      | reaped t i c => exact absurd rfl (hquiet t i c)
      | noChild | blocked => cases hans
  | _ => cases hans

theorem Inv.outcome (h : w.Inv l) (hadm : w.Admits op) (hpid : w.PidOk op) (ho : w.Orderly op)
    (hv : w.exec fuel op = some v) : Outcome fuel w v op := by
  obtain ⟨l', -, -, hold, -, hnew, -⟩ := h.step hadm hpid hv
  refine ⟨fun a ha hne => ?_, fun a ha => ?_, fun t code => h.answered hv⟩
  · obtain ⟨hmem, hrests⟩ := hold a ha hne
    refine ⟨hmem, fun hz => ?_⟩
    have hrest := hrests (ho.spares hz) fun _ => .inl hz
    exact ⟨(congrArg (·.1) hrest).trans hz, congrArg (·.2.1) hrest⟩
  · obtain ⟨hmem, hready⟩ := hnew a ha
    exact ⟨hmem, by rw [hready]; nofun⟩

end World

/-! ## Runs -/

/-- The machine with a record of how its tasks ended. Tasks are numbered as they
are created, since addresses are used again. -/
structure Register where
  world : World
  born : Nat
  serial : Nat → Nat
  /-- The code of the event that first made a task a zombie. -/
  death : Nat → Option Int
  /-- The children that `sys_waitpid` has returned, with their status. -/
  returned : List (Nat × Int)

namespace Register

/-- The numbers of the tasks after the operation. -/
def numbers (r : Register) (op : SchedOp) : Nat → Nat :=
  op.created.elim r.serial fun a => update r.serial a r.born

/-- The exit code of the zombie numbered `n`. -/
def codeOf (w : World) (serial : Nat → Nat) (n : Nat) : Option Int :=
  (w.live.find? fun a => serial a = n && (w.sched.mem a).state = .zombie).map fun a => (w.sched.mem a).exitCode

def exec (fuel : Nat) (r : Register) (op : SchedOp) : Option Register :=
  (r.world.exec fuel op).map fun w =>
    { world := w
      born := op.created.elim r.born fun _ => r.born + 1
      serial := r.numbers op
      death := fun n => (r.death n).or (codeOf w (r.numbers op) n)
      returned := r.returned ++ (r.world.answer fuel op).toList.map fun (t, code) => (r.serial t, code) }

def boot (mem : Nat → Task) (word : Nat → UInt64) (directory addr : Nat) : Register :=
  ⟨World.boot mem word directory addr, 1, fun _ => 0, fun _ => none, []⟩

def Step (r r' : Register) : Prop := ∃ op fuel, r.world.Admits op ∧ r.exec fuel op = some r'

def OrderlyStep (r r' : Register) : Prop :=
  ∃ op fuel, r.world.Admits op ∧ r.world.PidOk op ∧ r.world.Orderly op ∧ r.exec fuel op = some r'

/-- A task that has ended is a zombie until it is reaped, with the code it first
got, and is returned at most once, with that code. -/
structure Final (r : Register) : Prop where
  zombie : ∀ a ∈ r.world.live, ∀ code, r.death (r.serial a) = some code →
    (r.world.sched.mem a).state = .zombie ∧ (r.world.sched.mem a).exitCode = code
  code : ∀ n code, (n, code) ∈ r.returned → r.death n = some code
  once : (r.returned.map Prod.fst).Nodup

structure Inv (r : Register) : Prop where
  final : r.Final
  recorded : ∀ a ∈ r.world.live, (r.world.sched.mem a).state = .zombie →
    r.death (r.serial a) = some (r.world.sched.mem a).exitCode
  distinct : ∀ a ∈ r.world.live, ∀ b ∈ r.world.live, r.serial a = r.serial b → a = b
  serial_lt : ∀ a ∈ r.world.live, r.serial a < r.born
  unborn : ∀ n, r.born ≤ n → r.death n = none
  /-- What was returned is gone. -/
  gone : ∀ n code, (n, code) ∈ r.returned → n < r.born ∧ ∀ a ∈ r.world.live, r.serial a ≠ n

variable {r r' : Register} {l : List Nat} {fuel : Nat} {op : SchedOp}

theorem codeOf_eq_some {serial : Nat → Nat} {n : Nat} {code : Int} (h : codeOf w serial n = some code) :
    ∃ a ∈ w.live, serial a = n ∧ (w.sched.mem a).state = .zombie ∧ (w.sched.mem a).exitCode = code := by
  obtain ⟨a, ha, rfl⟩ := map_eq_some_iff.mp h
  have hfound := find?_some ha
  rw [Bool.and_eq_true, decide_eq_true_eq, decide_eq_true_eq] at hfound
  exact ⟨a, mem_of_find?_eq_some ha, hfound.1, hfound.2, rfl⟩

theorem codeOf_zombie {serial : Nat → Nat} (ha : a ∈ w.live)
    (hz : (w.sched.mem a).state = .zombie) (hd : ∀ b ∈ w.live, serial b = serial a → b = a) :
    codeOf w serial (serial a) = some (w.sched.mem a).exitCode := by
  have hsome : (codeOf w serial (serial a)).isSome = true := by
    rw [codeOf, isSome_map, find?_isSome]
    exact ⟨a, ha, by simp [hz]⟩
  obtain ⟨code, hcode⟩ := isSome_iff_exists.mp hsome
  obtain ⟨b, hb, hserial, -, rfl⟩ := codeOf_eq_some hcode
  rw [hcode, hd b hb hserial]

/-- The numbers of the tasks that were there before do not change. -/
theorem numbers_old (h : op.created ≠ some a) : r.numbers op a = r.serial a := by
  rw [numbers]
  cases hc : op.created with
  | none => rfl
  | some b =>
    rw [hc] at h
    exact update_of_ne (fun heq => h (congrArg some heq.symm)) _ _

theorem numbers_new (h : op.created = some a) : r.numbers op a = r.born := by
  rw [numbers, h]
  exact update_self ..

theorem born_le (r : Register) (op : SchedOp) : r.born ≤ op.created.elim r.born fun _ => r.born + 1 := by
  cases op.created with
  | none => exact le_rfl
  | some b => exact Nat.le_succ _

/-- Numbers stay distinct and below the count. -/
theorem Inv.numbered (h : r.Inv) {v : World} (ho : World.Outcome fuel r.world v op) :
    (∀ a ∈ v.live, ∀ b ∈ v.live, r.numbers op a = r.numbers op b → a = b) ∧
    ∀ a ∈ v.live, r.numbers op a < op.created.elim r.born fun _ => r.born + 1 := by
  -- the number of the created task is above all others
  have hlt : ∀ a ∈ v.live, op.created ≠ some a → r.numbers op a < r.born := fun a ha hne => by
    rw [numbers_old hne]
    exact h.serial_lt a (ho.old a ha hne).1
  refine ⟨fun a ha b hb heq => ?_, fun a ha => ?_⟩
  · by_cases hca : op.created = some a
    · by_cases hcb : op.created = some b
      · exact some.inj (hca.symm.trans hcb)
      · have := hlt b hb hcb
        rw [← heq, numbers_new hca] at this
        exact absurd this (Nat.lt_irrefl _)
    · by_cases hcb : op.created = some b
      · have := hlt a ha hca
        rw [heq, numbers_new hcb] at this
        exact absurd this (Nat.lt_irrefl _)
      · rw [numbers_old hca, numbers_old hcb] at heq
        exact h.distinct a (ho.old a ha hca).1 b (ho.old b hb hcb).1 heq
  · by_cases hca : op.created = some a
    · rw [numbers_new hca, hca]
      exact Nat.lt_succ_self _
    · exact Nat.lt_of_lt_of_le (hlt a ha hca) (born_le r op)

theorem Inv.step (h : r.Inv) {v : World} (ho : World.Outcome fuel r.world v op) (hv : r.world.exec fuel op = some v)
    (hr : r.exec fuel op = some r') : r'.Inv := by
  obtain ⟨hdistinct, hserial⟩ := h.numbered ho
  rw [exec, hv, map_some, some.injEq] at hr
  subst hr
  have hzombie : ∀ a ∈ v.live, ∀ code,
      (r.death (r.numbers op a)).or (codeOf v (r.numbers op) (r.numbers op a)) = some code →
      (v.sched.mem a).state = .zombie ∧ (v.sched.mem a).exitCode = code := by
    intro a ha code hd
    rcases or_eq_some_iff.mp hd with hd | ⟨-, hd⟩
    · have hca : op.created ≠ some a := fun hca => by
        rw [numbers_new hca, h.unborn _ le_rfl] at hd
        cases hd
      obtain ⟨hmem, hkeep⟩ := ho.old a ha hca
      rw [numbers_old hca] at hd
      obtain ⟨hz, rfl⟩ := h.final.zombie a hmem code hd
      exact hkeep hz
    · obtain ⟨b, hb, heq, hz, hcode⟩ := codeOf_eq_some hd
      rw [← hdistinct b hb a ha heq]
      exact ⟨hz, hcode⟩
  -- what `sys_waitpid` returned in this step
  have hreturned : ∀ n code, (n, code) ∈ (r.world.answer fuel op).toList.map (fun (t, code) => (r.serial t, code)) →
      ∃ t ∈ r.world.live, n = r.serial t ∧ r.death n = some code ∧ t ∉ v.live := by
    intro n code hmem
    obtain ⟨⟨t, code'⟩, hans, heq⟩ := mem_map.mp hmem
    cases heq
    obtain ⟨ht, hz, rfl, hgone⟩ := ho.returned t code (mem_toList.mp hans)
    exact ⟨t, ht, rfl, h.recorded t ht hz, hgone⟩
  refine ⟨⟨hzombie, fun n code hmem => ?_, ?_⟩, fun a ha hz => ?_, hdistinct, hserial, fun n hn => ?_,
    fun n code hmem => ?_⟩
  · rcases mem_append.mp hmem with hmem | hmem
    · exact or_eq_some_iff.mpr (.inl (h.final.code n code hmem))
    · obtain ⟨t, -, -, hd, -⟩ := hreturned n code hmem
      exact or_eq_some_iff.mpr (.inl hd)
  · dsimp only
    rw [map_append]
    refine nodup_append.mpr ⟨h.final.once, ?_, fun n hn m hm heq => ?_⟩
    · cases r.world.answer fuel op with
      | none => exact nodup_nil
      | some x => exact nodup_singleton _
    · obtain ⟨⟨n', code⟩, hold, rfl⟩ := mem_map.mp hn
      obtain ⟨⟨m', code'⟩, hnew, rfl⟩ := mem_map.mp hm
      obtain ⟨t, ht, hnt, -⟩ := hreturned m' code' hnew
      exact (h.gone n' code hold).2 t ht (hnt.symm.trans heq.symm)
  · dsimp only at ha hz ⊢
    have hcode := codeOf_zombie ha hz fun b hb heq => hdistinct b hb a ha heq
    cases hd : r.death (r.numbers op a) with
    | none => rw [none_or, hcode]
    | some code =>
      rw [some_or, (hzombie a ha code (by rw [hd, some_or])).2]
  · dsimp only at hn ⊢
    rw [h.unborn n (Nat.le_trans (born_le r op) hn), none_or]
    by_contra hsome
    obtain ⟨code, hcode⟩ := ne_none_iff_exists'.mp hsome
    obtain ⟨b, hb, heq, -⟩ := codeOf_eq_some hcode
    exact absurd (hserial b hb) (not_lt.mpr (heq ▸ hn))
  · -- a returned number belongs to no live task
    have hother : n < r.born → (∀ a ∈ v.live, op.created ≠ some a → r.serial a ≠ n) →
        n < (op.created.elim r.born fun _ => r.born + 1) ∧ ∀ a ∈ v.live, r.numbers op a ≠ n := by
      intro hlt hne
      refine ⟨hlt.trans_le (born_le r op), fun a ha => ?_⟩
      by_cases hca : op.created = some a
      · rw [numbers_new hca]
        exact hlt.ne'
      · rw [numbers_old hca]
        exact hne a ha hca
    rcases mem_append.mp hmem with hmem | hmem
    · obtain ⟨hlt, hne⟩ := h.gone n code hmem
      exact hother hlt fun a ha hca => hne a (ho.old a ha hca).1
    · obtain ⟨t, ht, rfl, -, hgone⟩ := hreturned n code hmem
      refine hother (h.serial_lt t ht) fun a ha hca heq => hgone ?_
      rw [← h.distinct a (ho.old a ha hca).1 t ht heq]
      exact ha

theorem boot_inv (mem : Nat → Task) (word : Nat → UInt64) (directory addr : Nat) :
    (boot mem word directory addr).Inv := by
  have hroot : ((boot mem word directory addr).world.sched.mem addr).state ≠ .zombie := by
    rw [show (boot mem word directory addr).world.sched.mem addr = _ from update_self ..]
    exact nofun
  refine ⟨⟨nofun, nofun, nodup_nil⟩, fun a ha hz => ?_, fun a ha b hb _ => ?_, fun a ha => Nat.one_pos,
    fun _ _ => rfl, nofun⟩
  · rw [mem_singleton.mp ha] at hz
    exact absurd hz hroot
  · rw [mem_singleton.mp ha, mem_singleton.mp hb]

/-- **The end of a task is final** in every run in which nobody ends twice or
before a child, and no task blocks after its end. -/
theorem final_of_orderly {mem : Nat → Task} {word : Nat → UInt64} {directory addr : Nat} (h0 : addr ≠ 0)
    (hr : ReflTransGen OrderlyStep (boot mem word directory addr) r) : r.Final := by
  have hinv : r.Inv ∧ ∃ l, r.world.Inv l := by
    induction hr with
    | refl => exact ⟨boot_inv mem word directory addr, [addr], World.boot_inv mem word directory h0⟩
    | tail _ hstep ih =>
      obtain ⟨hinv, l, hring⟩ := ih
      obtain ⟨op, fuel, hadm, hpid, horderly, hexec⟩ := hstep
      obtain ⟨v, hv, rfl⟩ := map_eq_some_iff.mp hexec
      obtain ⟨l', hring', -⟩ := hring.step hadm hpid hv
      exact ⟨hinv.step (hring.outcome hadm hpid horderly hv) hv hexec, l', hring'⟩
  exact hinv.1.final

/-! ## Concrete machines -/

def zeroBoot : Register := boot (fun _ => blankTask) (fun _ => 0) 0 0x10000

instance (w : World) (op : SchedOp) : Decidable (w.Orderly op) := by
  apply SchedOp.casesOn (motive := fun op => Decidable (w.Orderly op)) op <;> intros <;>
    dsimp only [World.Orderly, CanEnd] <;> infer_instance

/-- The first task creates a user task, kills it and waits for it. -/
theorem final_zeroBoot : ∃ r, ReflTransGen OrderlyStep zeroBoot r ∧ r.returned = [(1, 130)] ∧ r.Final := by
  obtain ⟨r, hr, hreturned⟩ : ∃ r, ReflTransGen OrderlyStep zeroBoot r ∧ r.returned = [(1, 130)] :=
    exists_run exec (fun r op => r.world.Admits op ∧ r.world.PidOk op ∧ r.world.Orderly op)
      (fun h hv => ⟨_, _, h.1, h.2.1, h.2.2, hv⟩)
      [(.createUserTaskNamed 0x20000 0x30000, 0), (.sysKillByPid 1, 3), (.sysWaitpid (-1) blankTask, 3)]
      (by decide +kernel)
  exact ⟨r, hr, hreturned, final_of_orderly (by decide) hr⟩

/-- A user task that has a child is killed, and then the child, whose end brings
its parent back. -/
theorem kill_resurrects_parent : ∃ r, ReflTransGen Step zeroBoot r ∧ ¬ r.Final := by
  obtain ⟨r, hr, hlive, hdeath, hstate⟩ : ∃ r, ReflTransGen Step zeroBoot r ∧ 0x20000 ∈ r.world.live ∧
      r.death (r.serial 0x20000) = some 130 ∧ (r.world.sched.mem 0x20000).state = .running :=
    exists_run exec (fun r op => r.world.Admits op) (fun h hv => ⟨_, _, h, hv⟩)
      [(.createUserTaskNamed 0x20000 0x30000, 0), (.schedule 0 false, 3), (.createUserTaskNamed 0x40000 0x50000, 0),
        (.sysKillByPid 1, 4), (.sysKillByPid 2, 4)] (by decide +kernel)
  refine ⟨r, hr, fun hf => ?_⟩
  have hz := (hf.zombie 0x20000 hlive 130 hdeath).1
  rw [hstate] at hz
  cases hz

end Register
end LiwusOS.Sched
