import LiwusOS.Lib.Holders
import LiwusOS.Ipc.Descriptors

/-! # The count of a pipe

A pipe counts the descriptors that refer to it, over all tasks that have not
been reaped, and is freed with the last of them. -/

namespace LiwusOS.Ipc
open LiwusOS.Lib LiwusOS.Sched Function List Relation Option

variable {fd : Int} {op : IpcOp} {l : List Nat} {addr count fuel : Nat} {k : Nat × Fin 32} {w : World}

namespace Procs

/-- The descriptors of tasks that have not been reaped. -/
def slots (s : Procs) : List (Nat × Fin 32) := s.tasks ×ˢ List.finRange 32

/-- The pipe that a descriptor refers to. -/
def ref (s : Procs) (k : Nat × Fin 32) : Option Nat :=
  if (s.table k.1 k.2).type = .pipe then some (s.table k.1 k.2).socketPtr else none

/-- The number of descriptors of the pipe at `a`. -/
def holders (s : Procs) (a : Nat) : Nat := Lib.holders s.slots s.ref a

/-- Every pipe that has not been freed knows the number of its descriptors, and
it has not been freed exactly if there are any. -/
def PipesCounted (s : Procs) : Prop := Counted s.pipes (fun a => (s.pipe a).refcount) s.holders

structure Inv (s : Procs) : Prop where
  nodup : s.tasks.Nodup
  current : s.world.sched.currentTask ∈ s.tasks
  nonzero : 0 ∉ s.pipes
  counted : s.PipesCounted

variable {s s' : Procs} {a p : Nat} {i : Fin 32}

/-- The running task's descriptor `i`. -/
def key (s : Procs) (i : Fin 32) : Nat × Fin 32 := (s.world.sched.currentTask, i)

theorem mem_slots : k ∈ s.slots ↔ k.1 ∈ s.tasks := by
  rw [slots, mem_product]
  exact and_iff_left (mem_finRange k.2)

theorem slots_nodup (h : s.tasks.Nodup) : s.slots.Nodup := h.product (nodup_finRange 32)

theorem Inv.key_mem (h : s.Inv) (i : Fin 32) : s.key i ∈ s.slots := mem_slots.mpr h.current

/-- A descriptor refers to a pipe that is there. -/
theorem Inv.ref_mem (h : s.Inv) (hk : k ∈ s.slots) (hr : s.ref k = some a) : a ∈ s.pipes :=
  (h.counted.alive a).mpr (Nat.pos_iff_ne_zero.mp (holders_pos hk hr))

theorem ref_key (s : Procs) (i : Fin 32) :
    s.ref (s.key i) = if (s.files i).type = .pipe then some (s.files i).socketPtr else none := rfl

theorem ref_setFile_self (s : Procs) (i : Fin 32) (f : KFile) :
    (s.setFile i f).ref (s.key i) = if f.type = .pipe then some f.socketPtr else none := by
  simp [ref, setFile, key]

theorem ref_setFile_ne (s : Procs) (i : Fin 32) (f : KFile) (hk : k ≠ s.key i) : (s.setFile i f).ref k = s.ref k := by
  obtain ⟨t, j⟩ := k
  by_cases ht : t = s.world.sched.currentTask
  · subst ht
    have hj : j ≠ i := fun heq => hk (by rw [heq]; rfl)
    simp [ref, setFile, files, hj]
  · simp [ref, setFile, ht]

theorem ref_setFile (s : Procs) (i : Fin 32) (f : KFile) (k : Nat × Fin 32) : (s.setFile i f).ref k =
    if k = s.key i then if f.type = .pipe then some f.socketPtr else none else s.ref k := by
  split
  · rename_i hk
    rw [hk, ref_setFile_self]
  · rename_i hk
    exact ref_setFile_ne s i f hk

theorem key_setFile (s : Procs) (i j : Fin 32) (f : KFile) : (s.setFile i f).key j = s.key j := rfl

/-- One descriptor of the running task is written. -/
theorem holders_setFile (hn : s.tasks.Nodup) (hc : s.world.sched.currentTask ∈ s.tasks) (i : Fin 32) (f : KFile)
    (a : Nat) : (s.setFile i f).holders a + (if s.ref (s.key i) = some a then 1 else 0) =
      s.holders a + if (s.setFile i f).ref (s.key i) = some a then 1 else 0 :=
  holders_update (slots_nodup hn) (mem_slots.mpr hc) (fun _ hk => ref_setFile_ne s i f hk) a

/-! ## Closing and copying -/

theorem refcounts_update (pipe : Nat → Pipe) (p : Nat) (x : Pipe) :
    (fun b => (update pipe p x b).refcount) =
      update (fun b => (pipe b).refcount) p x.refcount := by
  funext b
  rcases eq_or_ne b p with rfl | hne
  · rw [update_self, update_self]
  · rw [update_of_ne hne, update_of_ne hne]

theorem Inv.closeSlot (h : s.Inv) (i : Fin 32) : (s.closeSlot i).Inv := by
  have hupd := holders_setFile h.nodup h.current i { s.files i with type := .free }
  rw [ref_setFile_self, if_neg (show FdType.free ≠ .pipe by nofun)] at hupd
  rw [Procs.closeSlot]
  by_cases hp : (s.files i).type = .pipe
  · have href : s.ref (s.key i) = some (s.files i).socketPtr := by rw [ref_key, if_pos hp]
    have hmem := h.ref_mem (h.key_mem i) href
    have h0 : (s.files i).socketPtr ≠ 0 := fun heq => h.nonzero (heq ▸ hmem)
    rw [href] at hupd
    rw [if_pos hp, dropRef, if_neg h0]
    refine ⟨h.nodup, h.current, fun hz => ?_, ?_⟩
    · dsimp only [setFile] at hz
      split at hz
      · exact h.nonzero (mem_of_mem_erase hz)
      · exact h.nonzero hz
    · rw [PipesCounted, setFile]
      dsimp only
      rw [refcounts_update]
      simp only [reduceCtorEq, if_false, some.injEq] at hupd
      exact h.counted.drop hupd
  · rw [if_neg hp]
    rw [ref_key, if_neg hp] at hupd
    exact ⟨h.nodup, h.current, h.nonzero, h.counted.congr fun b => by simpa using hupd b⟩

/-- A descriptor is copied over one that refers to no pipe. -/
theorem Inv.copySlot (h : s.Inv) {old new : Fin 32} (hnew : (s.files new).type ≠ .pipe) : (s.copySlot old new).Inv := by
  have hupd := holders_setFile h.nodup h.current new (s.files old)
  rw [ref_setFile_self, ref_key, if_neg hnew] at hupd
  have hfile : (s.setFile new (s.files old)).files new = s.files old := by simp [files, setFile]
  rw [Procs.copySlot, pipeAddRef, hfile]
  by_cases hp : (s.files old).type = .pipe
  · have href : s.ref (s.key old) = some (s.files old).socketPtr := by rw [ref_key, if_pos hp]
    have hmem := h.ref_mem (h.key_mem old) href
    have h0 : (s.files old).socketPtr ≠ 0 := fun heq => h.nonzero (heq ▸ hmem)
    rw [if_pos hp] at hupd ⊢
    rw [addRef, if_neg h0]
    refine ⟨h.nodup, h.current, h.nonzero, ?_⟩
    rw [PipesCounted]
    dsimp only
    rw [refcounts_update]
    simp only [reduceCtorEq, if_false, some.injEq] at hupd
    exact h.counted.add ((h.counted.alive _).mp hmem) hupd
  · rw [if_neg hp] at hupd ⊢
    exact ⟨h.nodup, h.current, h.nonzero, h.counted.congr fun b => by simpa using hupd b⟩

@[simp] theorem addRef_world (s : Procs) (p : Nat) : (s.addRef p).world = s.world := by
  rw [addRef]
  split <;> rfl

@[simp] theorem closeSlot_world (s : Procs) (i : Fin 32) : (s.closeSlot i).world = s.world := by
  show (if (s.files i).type = .pipe then s.dropRef (s.files i).socketPtr else s).world = _
  rw [dropRef]
  split
  · split <;> rfl
  · rfl

@[simp] theorem copySlot_world (s : Procs) (old new : Fin 32) : (s.copySlot old new).world = s.world := by
  rw [copySlot, pipeAddRef]
  split
  · rw [addRef_world]
    rfl
  · rfl

/-- A call on descriptors keeps the invariant and does not touch the scheduler. -/
structure Calm (s s' : Procs) : Prop where
  inv : s'.Inv
  world : s'.world = s.world

theorem Inv.calm (h : s.Inv) : Calm s s := ⟨h, rfl⟩

theorem Inv.sysClose (h : s.Inv) (fd : Int) : Calm s (s.sysClose fd).2 := by
  rw [Procs.sysClose]
  split
  · exact h.calm
  · exact ⟨h.closeSlot _, closeSlot_world ..⟩

theorem firstFree_free {t : FdTable} {lo : Nat} (h : firstFree t lo = some i) : lo ≤ i.val ∧ (t i).type = .free := by
  have hfound := find?_some h
  rwa [Bool.and_eq_true, decide_eq_true_eq, decide_eq_true_eq] at hfound

theorem Inv.sysDup (h : s.Inv) (oldfd : Int) : Calm s (s.sysDup oldfd).2 := by
  rw [Procs.sysDup]
  split
  · exact h.calm
  split
  · exact h.calm
  split
  · exact h.calm
  · rename_i j hj
    refine ⟨h.copySlot fun hp => ?_, copySlot_world ..⟩
    rw [(firstFree_free hj).2] at hp
    cases hp

theorem files_closeSlot (s : Procs) (i : Fin 32) : ((s.closeSlot i).files i).type = .free := by
  rw [Procs.closeSlot]
  simp [files, setFile]

theorem Inv.sysDup2 (h : s.Inv) (oldfd newfd : Int) : Calm s (s.sysDup2 oldfd newfd).2 := by
  rw [Procs.sysDup2]
  split
  · rename_i old new _ _
    split
    · exact h.calm
    split
    · exact h.calm
    · by_cases hfree : (s.files new).type = .free
      · simp only [hfree, ne_eq, not_true_eq_false, if_false]
        exact ⟨h.copySlot (by rw [hfree]; nofun), copySlot_world ..⟩
      · simp only [ne_eq, hfree, not_false_eq_true, if_true]
        exact ⟨(h.closeSlot new).copySlot (by rw [files_closeSlot]; nofun),
          (copySlot_world ..).trans (closeSlot_world ..)⟩
  · exact h.calm

/-! ## New pipes -/

/-- Where no descriptor changes what it refers to, nor any pipe its count. -/
theorem Inv.same (h : s.Inv) (htasks : s'.tasks = s.tasks) (hcur : s'.world.sched.currentTask ∈ s.tasks)
    (hpipes : s'.pipes = s.pipes) (href : ∀ k ∈ s.slots, s'.ref k = s.ref k)
    (hcount : ∀ a ∈ s.pipes, (s'.pipe a).refcount = (s.pipe a).refcount) : s'.Inv := by
  have hslots : s'.slots = s.slots := by rw [slots, htasks, slots]
  have hheld : ∀ a, s'.holders a = s.holders a := fun a => by
    rw [holders, hslots]
    exact holders_congr href
  refine ⟨htasks ▸ h.nodup, htasks ▸ hcur, hpipes ▸ h.nonzero, ?_⟩
  rw [PipesCounted, hpipes]
  refine ⟨h.counted.nodup, fun a ha => ?_, fun a => ?_⟩
  · rw [hcount a ha, h.counted.exact_count a ha, hheld]
  · rw [h.counted.alive, hheld]

theorem ref_freeSlot (s : Procs) (i : Fin 32) (k : Nat × Fin 32) :
    (s.freeSlot i).ref k = if k = s.key i then none else s.ref k := ref_setFile s i _ k

theorem ref_freePipe (s : Procs) (p : Nat) (k : Nat × Fin 32) : (s.freePipe p).ref k = s.ref k := rfl

theorem ref_of_free (h : (s.files i).type = .free) : s.ref (s.key i) = none := by
  rw [ref_key, if_neg (by rw [h]; nofun)]

/-- Two free descriptors that are written and freed again refer to nothing, as
before. -/
theorem ref_reopened (s : Procs) (k : Nat × Fin 32) {r w : Fin 32} (hr : (s.files r).type = .free)
    (hw : (s.files w).type = .free) (f g : KFile) :
    ((((s.setFile r f).setFile w g).freeSlot r).freeSlot w).ref k = s.ref k := by
  have hkey : ∀ s : Procs, ∀ i j, (s.freeSlot i).key j = s.key j := fun _ _ _ => rfl
  simp only [ref_freeSlot, ref_setFile, hkey, key_setFile]
  by_cases hkw : k = s.key w
  · rw [if_pos hkw, hkw, ref_of_free hw]
  · by_cases hkr : k = s.key r
    · rw [if_neg hkw, if_pos hkr, hkr, ref_of_free hr]
    · rw [if_neg hkw, if_neg hkr, if_neg hkw, if_neg hkr]

/-- Two free descriptors become the ends of a new pipe. -/
theorem Inv.openEnds (h : s.Inv) {r w : Fin 32} (hp0 : p ≠ 0) (hnew : p ∉ s.pipes)
    (hr : (s.files r).type = .free) (hw : (s.files w).type = .free) (hne : r ≠ w) (f g : KFile) :
    (((s.addPipe p).setFile r (pipeEnd f p 1)).setFile w (pipeEnd g p 2)).Inv := by
  have hheld : ∀ a, (((s.addPipe p).setFile r (pipeEnd f p 1)).setFile w (pipeEnd g p 2)).holders a =
      s.holders a + if p = a then 2 else 0 := fun a => by
    have hkey : (s.addPipe p).key w ≠ (s.addPipe p).key r := fun heq => hne (Prod.mk.inj heq).2.symm
    have hrnone : (s.addPipe p).ref ((s.addPipe p).key r) = none := ref_of_free hr
    have hwnone : ((s.addPipe p).setFile r (pipeEnd f p 1)).ref ((s.addPipe p).key w) = none :=
      (ref_setFile_ne _ r _ hkey).trans (ref_of_free hw)
    have h1 := holders_setFile (s := s.addPipe p) h.nodup h.current r (pipeEnd f p 1) a
    have h2 := holders_setFile (s := (s.addPipe p).setFile r (pipeEnd f p 1)) h.nodup h.current w (pipeEnd g p 2) a
    rw [hrnone, ref_setFile_self, if_neg nofun, Nat.add_zero] at h1
    rw [key_setFile, hwnone, ← key_setFile _ r w, ref_setFile_self, if_neg nofun, Nat.add_zero, h1] at h2
    have hbase : (s.addPipe p).holders a = s.holders a := rfl
    rw [h2, hbase]
    by_cases hp : p = a <;> simp [hp, pipeEnd]
  have hzero : s.holders p = 0 := by
    by_contra hn
    exact hnew ((h.counted.alive p).mpr hn)
  refine ⟨h.nodup, h.current, fun hz => ?_, ?_⟩
  · exact (mem_cons.mp hz).elim (fun heq => hp0 heq.symm) h.nonzero
  · have hcreate := h.counted.create hzero two_ne_zero hheld
    rw [PipesCounted]
    have hcounts := refcounts_update s.pipe p newPipe
    exact hcounts ▸ hcreate

theorem Inv.sysPipe (h : s.Inv) {valid copied : Bool} {addr : Option Nat}
    (hadm : s.Admits (.sysPipe valid copied addr)) : Calm s (s.sysPipe valid copied addr).2 := by
  unfold Procs.sysPipe
  split
  · exact h.calm
  cases addr with
  | none => exact h.calm
  | some p =>
    obtain ⟨hp0, hnew⟩ := hadm p rfl
    have hpipes : (s.addPipe p).pipes.erase p = s.pipes := erase_cons_head ..
    have hcount : ∀ a ∈ s.pipes, ((s.addPipe p).pipe a).refcount = (s.pipe a).refcount := fun a ha =>
      congrArg Pipe.refcount (update_of_ne (fun heq : a = p => hnew (heq ▸ ha)) _ _)
    dsimp only
    split
    · rename_i r w hr hw
      rw [hr, bind_some] at hw
      have hfr : (s.files r).type = .free := (firstFree_free hr).2
      obtain ⟨hlt, hfw⟩ := firstFree_free hw
      have hne : r ≠ w := fun heq => by
        rw [heq] at hlt
        omega
      split
      · exact ⟨h.openEnds hp0 hnew hfr hfw hne _ _, rfl⟩
      · -- the ends are closed again and the pipe is freed
        refine ⟨h.same rfl h.current hpipes (fun k _ => ?_) hcount, rfl⟩
        rw [ref_freePipe, ref_reopened (s.addPipe p) k hfr hfw]
        rfl
    · exact ⟨h.same rfl h.current hpipes (fun _ _ => rfl) hcount, rfl⟩

/-! ## Forks -/

/-- The references of a copied table are counted one by one. -/
theorem addRefs_fold (addr : Nat) {held : Nat → Nat} (hc : Counted s.pipes (fun a => (s.pipe a).refcount) held)
    (href : ∀ i a, s.ref (addr, i) = some a → a ≠ 0 ∧ held a ≠ 0) (L : List (Fin 32)) :
    ∃ pipe, L.foldl (fun s i => if (s.table addr i).type = .pipe then s.addRef (s.table addr i).socketPtr else s) s =
        { s with pipe := pipe } ∧
      Counted s.pipes (fun a => (pipe a).refcount) fun a => held a + Lib.holders L (fun i => s.ref (addr, i)) a := by
  induction L using List.reverseRecOn with
  | nil => exact ⟨s.pipe, rfl, hc⟩
  | append_singleton L i ih =>
    obtain ⟨pipe, hfold, hcounted⟩ := ih
    have hsplit : ∀ a, Lib.holders (L ++ [i]) (fun i => s.ref (addr, i)) a =
        Lib.holders L (fun i => s.ref (addr, i)) a + if s.ref (addr, i) = some a then 1 else 0 := fun a => by
      rw [holders_append]
      simp [Lib.holders]
    rw [foldl_append, hfold, foldl_cons, foldl_nil]
    by_cases hp : (s.table addr i).type = .pipe
    · have hr : s.ref (addr, i) = some (s.table addr i).socketPtr := if_pos hp
      obtain ⟨h0, hheld⟩ := href i _ hr
      rw [if_pos hp, addRef, if_neg h0]
      refine ⟨_, rfl, ?_⟩
      rw [refcounts_update]
      refine hcounted.add (Nat.ne_of_gt (Nat.add_pos_left (Nat.pos_of_ne_zero hheld) _)) fun b => ?_
      rw [hsplit, hr, Nat.add_assoc]
      simp only [some.injEq]
    · have hr : s.ref (addr, i) = none := if_neg hp
      rw [if_neg hp]
      refine ⟨pipe, rfl, hcounted.congr fun a => ?_⟩
      rw [hsplit, hr, if_neg (by simp), Nat.add_zero]

/-- A task joins, with descriptors that are counted. -/
theorem holders_join (hperm : s'.tasks.Perm (addr :: s.tasks)) (href : ∀ k ∈ s.slots, s'.ref k = s.ref k) (a : Nat) :
    s'.holders a = s.holders a + Lib.holders (List.finRange 32) (fun i => s'.ref (addr, i)) a := by
  have hslots : s'.slots.Perm ((List.finRange 32).map (Prod.mk addr) ++ s.slots) := by
    rw [slots, slots, ← product_cons]
    exact hperm.product_right _
  rw [holders, holders_perm hslots, holders_append, holders_map, holders_congr href, Nat.add_comm]
  rfl

/-- Without pipes of its own it changes no count. -/
theorem holders_join_none (hperm : s'.tasks.Perm (addr :: s.tasks)) (href : ∀ k ∈ s.slots, s'.ref k = s.ref k)
    (hnone : ∀ i, s'.ref (addr, i) = none) (a : Nat) : s'.holders a = s.holders a := by
  rw [holders_join hperm href, holders_eq_zero.mpr fun i _ => by rw [hnone]; nofun, Nat.add_zero]

/-- Its table is written, and no other. -/
theorem ref_join {t : FdTable} (htable : s'.table = update s.table addr t) (hnew : addr ∉ s.tasks) :
    ∀ k ∈ s.slots, s'.ref k = s.ref k := fun k hk => by
  have hne : k.1 ≠ addr := fun heq => hnew (heq ▸ mem_slots.mp hk)
  simp [ref, htable, hne]

theorem Inv.forkProcess (h : s.Inv) {stackBase directory : Nat}
    (hadm : s.Admits (.forkProcess addr stackBase directory)) : (s.forkProcess addr stackBase directory).2.Inv := by
  obtain ⟨-, hnew⟩ := hadm
  rw [Procs.forkProcess, addRefs]
  dsimp only
  generalize hs : ({ s with
    world := { s.world with sched :=
      { s.world.sched.modify addr fun _ => forkTask s.world.sched stackBase directory with
        nextPid := wrapInt (s.world.sched.nextPid + 1) } }
    forked := addr :: s.forked
    table := update s.table addr s.files } : Procs) = s₁
  have hperm : s₁.tasks.Perm (addr :: s.tasks) := by
    rw [← hs]
    exact perm_middle
  have hself : ∀ i, s₁.ref (addr, i) = s.ref (s.key i) := fun i => by
    rw [← hs]
    simp only [ref, update_self]
    rfl
  have hother := ref_join (show s₁.table = _ by rw [← hs]) hnew
  have hcounted : Counted s₁.pipes (fun a => (s₁.pipe a).refcount) s.holders := by
    rw [← hs]
    exact h.counted
  obtain ⟨pipe, hfold, hresult⟩ := addRefs_fold addr hcounted (fun i a hr => by
    rw [hself] at hr
    have hmem := h.ref_mem (h.key_mem i) hr
    exact ⟨fun heq => h.nonzero (heq ▸ hmem), (h.counted.alive a).mp hmem⟩) (List.finRange 32)
  rw [hfold]
  refine ⟨hperm.nodup_iff.mpr (nodup_cons.mpr ⟨hnew, h.nodup⟩), hperm.mem_iff.mpr ?_, ?_, ?_⟩
  · rw [← hs]
    exact .tail _ h.current
  · rw [← hs]
    exact h.nonzero
  · exact hresult.congr fun a => holders_join hperm hother a

/-! ## The scheduler -/

/-- What the scheduler's operations do to the list of tasks. -/
theorem exec_live {v : World} {op : SchedOp} (hv : w.exec fuel op = some v) :
    (∃ a, op.created = some a ∧ v.live = a :: w.live) ∨ op.created = none ∧
      ((∃ t code, w.answer fuel op = some (t, code) ∧ v.live = w.live.erase t) ∨ v.live = w.live) := by
  cases op with
  | createTaskNamedStack addr stackBase priority stackSize =>
    cases hv
    exact .inl ⟨addr, rfl, rfl⟩
  | createUserTaskNamed addr stackBase =>
    cases hv
    exact .inl ⟨addr, rfl, rfl⟩
  | createUserTask64Named addr stackBase =>
    cases hv
    exact .inl ⟨addr, rfl, rfl⟩
  | schedule rsp ctrlC =>
    obtain ⟨o, -, hv⟩ := bind_eq_some_iff.mp hv
    cases o with
    | panic => cases hv
    | resume r s =>
      cases hv
      exact .inr ⟨rfl, .inr rfl⟩
  | sysWaitpid pid junk =>
    obtain ⟨⟨r, s⟩, hwait, heq⟩ := map_eq_some_iff.mp hv
    refine .inr ⟨rfl, ?_⟩
    cases r with
    | reaped t i code =>
      cases heq
      exact .inl ⟨t, code, by simp only [World.answer, hwait], rfl⟩
    | noChild =>
      cases heq
      exact .inr rfl
    | blocked =>
      cases heq
      exact .inr rfl
  | sysKillByPid pid =>
    obtain ⟨s, -, heq⟩ := map_eq_some_iff.mp hv
    cases heq
    exact .inr ⟨rfl, .inr rfl⟩
  | taskSleepMs ms | sysExitProcess status | tick | foreground pid heapStart | store addr x =>
    cases hv
    exact .inr ⟨rfl, .inr rfl⟩

/-- The zombies that a call of `sys_waitpid` may reap have closed their pipes. -/
def Closed (s : Procs) : IpcOp → Prop
  | .sched (.sysWaitpid pid _) => ∀ t ∈ s.world.live, (s.world.sched.mem t).parent ≠ 0 →
      (s.world.sched.mem (s.world.sched.mem t).parent).id = s.world.sched.curr.id →
      (pid = -1 ∨ (s.world.sched.mem t).id = pid) → (s.world.sched.mem t).state = .zombie →
      ∀ i, (s.table t i).type ≠ .pipe
  | _ => True

theorem answer_child {t : Nat} {pid code : Int} {junk : Task} (h : w.Inv l)
    (hans : w.answer fuel (.sysWaitpid pid junk) = some (t, code)) :
    t ∈ w.live ∧ (w.sched.mem t).parent ≠ 0 ∧ (w.sched.mem (w.sched.mem t).parent).id = w.sched.curr.id ∧
      (pid = -1 ∨ (w.sched.mem t).id = pid) ∧ (w.sched.mem t).state = .zombie := by
  rw [World.answer] at hans
  split at hans
  · rename_i t' i code' s' hwait
    cases hans
    obtain ⟨f, hscan, hend⟩ := bind_eq_some_iff.mp hwait
    obtain ⟨f', hset, hfound⟩ := waitScan_settles h.ring pid
    cases hset.only fuel f hscan
    cases f with
    | inr t'' =>
      obtain ⟨s'', -, heq⟩ := map_eq_some_iff.mp hend
      cases heq
      obtain ⟨ht, h1, h2, h3, h4⟩ := hfound t rfl
      exact ⟨(h.live t).mp ht, h1, h2, h3, h4⟩
    | inl f =>
      rw [waitEnd] at hend
      split at hend <;> cases hend
  · cases hans

theorem Inv.sched (h : s.Inv) {l' : List Nat} {v : World} {op : SchedOp} (hw : s.world.Inv l) (hw' : v.Inv l')
    (hadm : s.Admits (.sched op)) (hclosed : s.Closed (.sched op)) (hv : s.world.exec fuel op = some v) :
    ({ s with
      world := v
      table := op.created.elim s.table fun a => update s.table a fun _ => noFile } : Procs).Inv := by
  have hcur : v.sched.currentTask ∈ v.live ++ s.forked := mem_append_left _ ((hw'.live _).mp hw'.current)
  rcases exec_live hv with ⟨a, hc, hlive⟩ | ⟨hc, ⟨t, code, hans, hlive⟩ | hlive⟩
  · -- a new task, without descriptors
    have hnew : a ∉ s.tasks := fun hmem => by
      rcases mem_append.mp hmem with hm | hm
      · have hnodup := hw'.nodup
        rw [hlive] at hnodup
        exact (nodup_cons.mp hnodup).1 hm
      · exact hadm.2 a hc hm
    rw [hc, elim_some]
    generalize hs : ({ s with world := v, table := update s.table a fun _ => noFile } : Procs) = s₁
    have hperm : s₁.tasks.Perm (a :: s.tasks) := by
      rw [← hs, tasks, hlive]
      exact .refl _
    have hself : ∀ i, s₁.ref (a, i) = none := fun i => by
      rw [← hs]
      simp [ref, noFile]
    have hother := ref_join (show s₁.table = _ by rw [← hs]) hnew
    refine ⟨hperm.nodup_iff.mpr (nodup_cons.mpr ⟨hnew, h.nodup⟩), ?_, ?_, ?_⟩
    · rw [← hs]
      exact hcur
    · rw [← hs]
      exact h.nonzero
    · have hcounted := h.counted.congr (holders_join_none hperm hother hself)
      rw [← hs] at hcounted ⊢
      exact hcounted
  · rw [hc]
    have hop : ∃ pid junk, op = .sysWaitpid pid junk := by
      cases op with
      | sysWaitpid pid junk => exact ⟨pid, junk, rfl⟩
      | _ => cases hans
    obtain ⟨pid, junk, rfl⟩ := hop
    obtain ⟨ht, h1, h2, h3, h4⟩ := answer_child hw hans
    have hperm : s.tasks.Perm (t :: ({ s with world := v } : Procs).tasks) := by
      rw [tasks, tasks, hlive]
      exact (perm_cons_erase ht).append_right _
    have hnodup := hperm.nodup_iff.mp h.nodup
    have hnone : ∀ i, s.ref (t, i) = none := fun i => if_neg (hclosed t ht h1 h2 h3 h4 i)
    -- read backwards, a task without pipes joins
    exact ⟨(nodup_cons.mp hnodup).2, hcur, h.nonzero,
      h.counted.congr fun b => (holders_join_none hperm (fun _ _ => rfl) hnone b).symm⟩
  · rw [hc]
    have htasks : ({ s with world := v } : Procs).tasks = s.tasks := by
      show v.live ++ s.forked = _
      rw [hlive]
      rfl
    refine h.same htasks ?_ rfl (fun _ _ => rfl) fun _ _ => rfl
    rw [← htasks]
    exact hcur

/-! ## Reading and writing -/

theorem Inv.setPipe (h : s.Inv) {x : Pipe} (hx : x.refcount = (s.pipe p).refcount) : (s.setPipe p x).Inv := by
  refine h.same rfl h.current rfl (fun _ _ => rfl) fun a _ => ?_
  rcases eq_or_ne a p with rfl | hne
  · exact (congrArg Pipe.refcount (update_self ..)).trans hx
  · exact congrArg Pipe.refcount (update_of_ne hne _ _)

theorem sysReadPipe_refcount {x x' : Pipe} {o : Option (List UInt8)} (h : sysReadPipe x count = (o, x')) :
    x'.refcount = x.refcount := by
  rcases sysReadPipe_cases x count with ⟨heq, -⟩ | ⟨bytes, y, heq, hr⟩
  · cases heq.symm.trans h
    rfl
  · cases heq.symm.trans h
    exact hr.refcount

theorem writeLoop_refcount (x : Pipe) (data : List UInt8) : (writeLoop x data).refcount = x.refcount := by
  fun_induction writeLoop x data with
  | case1 => rfl
  | case2 x b data tmp stored ih => exact ih

theorem sysWritePipe_refcount (x : Pipe) (data : List UInt8) : (sysWritePipe x data).2.refcount = x.refcount := by
  rw [sysWritePipe]
  split
  · rfl
  · exact writeLoop_refcount _ _

/-- A read that waits gives up the processor. -/
theorem Inv.sysRead (h : s.Inv) {r : ReadResult} (hr : s.sysRead fd count = some (r, s')) :
    s'.Inv ∧ (s'.world = s.world ∨ s'.world = s.yield.world) := by
  obtain ⟨i, -, hr⟩ := bind_eq_some_iff.mp hr
  dsimp only at hr
  split at hr
  · cases hr
  split at hr
  · cases hr
    exact ⟨h, .inl rfl⟩
  split at hr
  · rename_i data x hread
    cases hr
    exact ⟨h.setPipe (sysReadPipe_refcount hread), .inl rfl⟩
  · rename_i x hread
    cases hr
    have h' := h.setPipe (sysReadPipe_refcount hread)
    exact ⟨h'.same rfl h'.current rfl (fun _ _ => rfl) fun _ _ => rfl, .inr rfl⟩

theorem Inv.sysWrite (h : s.Inv) {r : Int} {data : List UInt8} (hr : s.sysWrite fd data = some (r, s')) :
    Calm s s' := by
  rw [Procs.sysWrite] at hr
  split at hr
  · cases hr
  obtain ⟨i, -, hr⟩ := bind_eq_some_iff.mp hr
  dsimp only at hr
  split at hr
  · cases hr
  split at hr
  · cases hr
    exact h.calm
  · cases hr
    exact ⟨h.setPipe (sysWritePipe_refcount _ _), rfl⟩

/-! ## Every run -/

/-- A task outside the ring takes a pid. -/
theorem ring_fork (h : w.Inv l) (t : Task) (hnew : addr ∉ w.live) (hpid : 0 < w.sched.nextPid) :
    ({ w with sched := { w.sched.modify addr (fun _ => t) with
        nextPid := wrapInt (w.sched.nextPid + 1) } } : World).Inv l := by
  have hmem : ∀ a ∈ l, (w.sched.modify addr fun _ => t).mem a = w.sched.mem a := fun a ha =>
    Scheduler.modify_ne _ _ fun heq => hnew (heq ▸ (h.live a).mp ha)
  refine ⟨h.ring.congr fun a ha => congrArg Task.next (hmem a ha), h.live, h.nodup, h.current, ?_, ?_, ?_, ?_, ?_⟩
  · exact (congrArg Task.parent (hmem _ h.ring.head_mem)).trans h.root
  · intro a ha
    dsimp only
    rw [hmem a ha]
    exact h.parent a ha
  · intro a ha b hb
    dsimp only
    rw [hmem a ha, hmem b hb]
    exact h.distinct a ha b hb
  · intro a ha
    dsimp only
    rw [hmem a ha]
    have hlt := h.pid a ha hpid
    have hrange := h.range
    unfold wrapInt
    omega
  · show wrapInt (w.sched.nextPid + 1) < 2 ^ 31
    unfold wrapInt
    omega

theorem addRefs_world (s : Procs) (addr : Nat) : (s.addRefs addr).world = s.world := by
  refine List.foldlRecOn (motive := fun x : Procs => x.world = s.world) _ _ rfl fun x hx i _ => ?_
  split
  · rw [addRef_world, hx]
  · exact hx

/-- A task that gets a pid gets a new one. -/
def PidOk (s : Procs) : IpcOp → Prop
  | .sched op => s.world.PidOk op
  | .forkProcess .. => 0 < s.world.sched.nextPid
  | _ => True

theorem Calm.ring (h : Calm s s') : s'.Inv ∧ ∀ l, s.world.Inv l → s.PidOk op → s'.world.Inv l :=
  ⟨h.inv, fun _ hw _ => h.world.symm ▸ hw⟩

/-- The pipes and the ring of tasks after a system call on descriptors. -/
theorem Inv.call (h : s.Inv) (hcall : ∀ o, op ≠ .sched o) (hadm : s.Admits op) (hv : s.exec fuel op = some s') :
    s'.Inv ∧ ∀ l, s.world.Inv l → s.PidOk op → s'.world.Inv l := by
  cases op with
  | sched op => exact absurd rfl (hcall op)
  | forkProcess addr stackBase directory =>
    obtain rfl := some.inj hv
    refine ⟨h.forkProcess hadm, fun l hw hpid => ?_⟩
    rw [Procs.forkProcess, addRefs_world]
    exact ring_fork hw _ (fun hm => hadm.2 (mem_append_left _ hm)) hpid
  | sysPipe valid copied addr =>
    obtain rfl := some.inj hv
    exact (h.sysPipe hadm).ring
  | sysDup oldfd =>
    obtain rfl := some.inj hv
    exact (h.sysDup oldfd).ring
  | sysDup2 oldfd newfd =>
    obtain rfl := some.inj hv
    exact (h.sysDup2 oldfd newfd).ring
  | sysClose fd =>
    obtain rfl := some.inj hv
    exact (h.sysClose fd).ring
  | sysRead fd count =>
    obtain ⟨⟨r, x⟩, hread, rfl⟩ := map_eq_some_iff.mp hv
    obtain ⟨hinv, heq | heq⟩ := h.sysRead hread
    · exact ⟨hinv, fun l hw _ => heq.symm ▸ hw⟩
    · exact ⟨hinv, fun l hw _ =>
        heq.symm ▸ hw.of_links (.of_links (fun _ => rfl) rfl) hw.current⟩
  | sysWrite fd data =>
    obtain ⟨⟨r, x⟩, hwrite, rfl⟩ := map_eq_some_iff.mp hv
    exact (h.sysWrite hwrite).ring

theorem Inv.step (h : s.Inv) (hw : s.world.Inv l) (hadm : s.Admits op) (hpid : s.PidOk op)
    (hclosed : s.Closed op) (hv : s.exec fuel op = some s') : s'.Inv ∧ ∃ l', s'.world.Inv l' := by
  by_cases hsched : ∃ o, op = .sched o
  · obtain ⟨o, rfl⟩ := hsched
    obtain ⟨v, hexec, rfl⟩ := map_eq_some_iff.mp hv
    obtain ⟨l', hw', -⟩ := hw.step hadm.1 hpid hexec
    exact ⟨h.sched hw hw' hadm hclosed hexec, l', hw'⟩
  · have hcall := not_exists.mp hsched
    obtain ⟨hinv, hring⟩ := h.call hcall hadm hv
    exact ⟨hinv, l, hring l hw hpid⟩

theorem boot_inv (mem : Nat → Task) (word : Nat → UInt64) (directory addr : Nat) (table : Nat → FdTable)
    (pipe : Nat → Pipe) : (boot mem word directory addr table pipe).Inv := by
  have hnone : ∀ a, (boot mem word directory addr table pipe).holders a = 0 := fun a => by
    refine holders_eq_zero.mpr fun k hk => ?_
    have haddr : k.1 = addr := mem_singleton.mp (mem_slots.mp hk)
    simp [ref, boot, haddr, noFile]
  refine ⟨nodup_singleton _, mem_singleton_self _, not_mem_nil, ⟨nodup_nil, nofun, fun a => ?_⟩⟩
  rw [hnone]
  exact iff_of_false not_mem_nil (not_not.mpr rfl)

/-- A step in which nobody is reaped who still has a pipe open. -/
def ClosedStep (s s' : Procs) : Prop :=
  ∃ op fuel, s.Admits op ∧ s.PidOk op ∧ s.Closed op ∧ s.exec fuel op = some s'

theorem inv_of_closed {mem : Nat → Task} {word : Nat → UInt64} {directory : Nat} {table : Nat → FdTable}
    {pipe : Nat → Pipe} (h0 : addr ≠ 0)
    (hr : ReflTransGen ClosedStep (boot mem word directory addr table pipe) s) : s.Inv := by
  have hinv : s.Inv ∧ ∃ l, s.world.Inv l := by
    induction hr with
    | refl => exact ⟨boot_inv mem word directory addr table pipe, [addr], World.boot_inv mem word directory h0⟩
    | tail _ hstep ih =>
      obtain ⟨hinv, l, hw⟩ := ih
      obtain ⟨op, fuel, hadm, hpid, hclosed, hexec⟩ := hstep
      exact hinv.step hw hadm hpid hclosed hexec
  exact hinv.1

/-- **A pipe counts its descriptors** in every state of every run in which the
tasks that are reaped have closed their pipes. -/
theorem pipesCounted_of_closed {mem : Nat → Task} {word : Nat → UInt64} {directory addr : Nat}
    {table : Nat → FdTable} {pipe : Nat → Pipe} (h0 : addr ≠ 0)
    (hr : ReflTransGen ClosedStep (boot mem word directory addr table pipe) s) : s.PipesCounted :=
  (inv_of_closed h0 hr).counted

/-! ## Concrete machines -/

def zeroBoot : Procs := boot (fun _ => blankTask) (fun _ => 0) 0 0x10000 (fun _ _ => noFile) fun _ => newPipe

instance (op : IpcOp) : Decidable (s.Admits op) := by
  cases op
  case sched op => exact inferInstanceAs (Decidable (_ ∧ ∀ a ∈ op.created, a ∉ s.forked))
  case sysPipe addr => exact inferInstanceAs (Decidable (∀ p ∈ addr, p ≠ 0 ∧ p ∉ s.pipes))
  all_goals
    dsimp only [Admits]
    infer_instance

instance (op : IpcOp) : Decidable (s.PidOk op) := by cases op <;> dsimp only [PidOk] <;> infer_instance

instance (op : IpcOp) : Decidable (s.Closed op) := by
  cases op
  case sched op =>
    apply SchedOp.casesOn (motive := fun op => Decidable (s.Closed (.sched op))) op <;> intros <;>
      dsimp only [Closed] <;> infer_instance
  all_goals exact .isTrue trivial

/-- The first task opens a pipe, replaces its read end by a copy, and forks. -/
theorem pipesCounted_zeroBoot : ∃ s, ReflTransGen ClosedStep zeroBoot s ∧ s.pipes = [0x60000] ∧
    (s.pipe 0x60000).refcount = 4 ∧ s.PipesCounted := by
  obtain ⟨s, hr, hpipes, hcount⟩ : ∃ s, ReflTransGen ClosedStep zeroBoot s ∧ s.pipes = [0x60000] ∧
      (s.pipe 0x60000).refcount = 4 :=
    exists_run exec (fun s op => s.Admits op ∧ s.PidOk op ∧ s.Closed op)
      (fun h hv => ⟨_, _, h.1, h.2.1, h.2.2, hv⟩)
      [(.sysPipe true true (some 0x60000), 0), (.sysDup 3, 0), (.sysClose 3, 0), (.forkProcess 0x20000 0x30000 0, 0)]
      (by decide +kernel)
  exact ⟨s, hr, hpipes, hcount, pipesCounted_of_closed (by decide) hr⟩

/-- Nobody writes the canary of a user task's stack, which `schedule` checks;
here the memory still has one. -/
def canaryBoot : Procs :=
  boot (fun _ => blankTask) (fun _ => stackMagic) 0 0x10000 (fun _ _ => noFile) fun _ => newPipe

/-- A user task opens a pipe. -/
def opensPipe : List (IpcOp × Nat) :=
  [(.sched (.createUserTaskNamed 0x20000 0x30000), 0), (.sched (.schedule 0 false), 3),
    (.sysPipe true true (some 0x60000), 0)]

/-- Nobody closes the descriptors of a task that ends: without descriptors in a
task that is not a zombie, and later in any task, the pipe is still there. First
the task exits, then it waits for data and its parent kills it and reaps it. -/
theorem exit_leaks_pipe :
    (∃ s, ReflTransGen Step canaryBoot s ∧ 0x60000 ∈ s.pipes ∧
      ∀ k ∈ s.slots, (s.world.sched.mem k.1).state ≠ .zombie → s.ref k ≠ some 0x60000) ∧
    ∃ s, ReflTransGen Step canaryBoot s ∧ ¬ s.PipesCounted := by
  constructor
  · exact exists_run exec Admits (fun h hv => ⟨_, _, h, hv⟩) (opensPipe ++ [(.sched (.sysExitProcess 0), 0)])
      (by decide +kernel)
  · obtain ⟨s, hr, hmem, hnone⟩ : ∃ s, ReflTransGen Step canaryBoot s ∧ 0x60000 ∈ s.pipes ∧ s.holders 0x60000 = 0 :=
      exists_run exec Admits (fun h hv => ⟨_, _, h, hv⟩)
        (opensPipe ++ [(.sysRead 3 1, 0), (.sched (.schedule 0x31000 false), 3), (.sched (.sysKillByPid 1), 3),
          (.sched (.sysWaitpid 1 blankTask), 3)]) (by decide +kernel)
    exact ⟨s, hr, fun hcounted => (hcounted.alive _).mp hmem hnone⟩

end Procs
end LiwusOS.Ipc
