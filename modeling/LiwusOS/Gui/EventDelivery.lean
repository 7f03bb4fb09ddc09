import LiwusOS.Gui.EventBus

/-! # Delivery by the event bus

The ring holds the events that have been accepted and not processed yet. A dispatch
takes them all out before it calls a handler, so what handlers post is in the ring
when it ends. -/

namespace LiwusOS.Gui
open LiwusOS.Lib List Function Relation

namespace Bus

/-- The events in the ring, the oldest first. -/
def queue (b : Bus) : List Event := window ringCapacity b.ring b.tail b.count

/-- The write position is behind the last event. -/
structure RingOk (b : Bus) : Prop where
  tail : b.tail < ringCapacity
  count : b.count ≤ ringCapacity
  head : b.head = (b.tail + b.count) % ringCapacity

/-- Only the ring changes, and only by events put into it. -/
structure Posts (b b' : Bus) (accepted : List Event) : Prop where
  ring : b'.RingOk
  queue : b'.queue = b.queue ++ accepted
  subs : b'.subs = b.subs
  pending : b'.pending = b.pending

variable {b b' b'' : Bus} {acc acc' : List Event}

theorem Posts.refl (h : b.RingOk) : Posts b b [] := ⟨h, (append_nil _).symm, rfl, rfl⟩

theorem Posts.trans (h : Posts b b' acc) (h' : Posts b' b'' acc') : Posts b b'' (acc ++ acc') where
  ring := h'.ring
  queue := by rw [h'.queue, h.queue, append_assoc]
  subs := h'.subs.trans h.subs
  pending := h'.pending.trans h.pending

theorem post_posts (h : b.RingOk) (e : Event) :
    Posts b (b.eventBusPost e).2 (if (b.eventBusPost e).1 then [e] else []) ∧
      (b.eventBusPost e).2.stopPropagation = b.stopPropagation := by
  rw [eventBusPost]
  split
  · exact ⟨.refl h, rfl⟩
  · rename_i hroom
    refine ⟨⟨⟨h.tail, not_le.mp hroom, ?_⟩, ?_, rfl, rfl⟩, rfl⟩
    · dsimp only
      rw [h.head, Nat.mod_add_mod, Nat.add_assoc]
    · simp only [queue, if_true, h.head]
      rw [window_push (not_le.mp hroom)]

theorem runHandler_posts (acts : List HandlerAct) (h : b.RingOk) :
    Posts b (runHandler acts b).1 (runHandler acts b).2 ∧
      (runHandler acts b).1.stopPropagation = (b.stopPropagation || decide (.stop ∈ acts)) := by
  induction acts generalizing b with
  | nil => exact ⟨.refl h, by simp [runHandler]⟩
  | cons act rest ih =>
    cases act with
    | post e =>
      obtain ⟨hpost, hstop⟩ := post_posts h e
      obtain ⟨hrest, hstop'⟩ := ih hpost.ring
      rw [runHandler]
      exact ⟨hpost.trans hrest, by simp [hstop', hstop]⟩
    | stop =>
      have hring : b.eventStopPropagation.RingOk := ⟨h.tail, h.count, h.head⟩
      obtain ⟨hrest, hstop'⟩ := ih hring
      refine ⟨⟨hrest.ring, hrest.queue, hrest.subs, hrest.pending⟩, hstop'.trans ?_⟩
      simp [eventStopPropagation]

/-! ## One event -/

/-- A subscriber that an event is for. -/
def wants (subs : Nat → Subscriber) (ev : Event) (si : Nat) : Bool :=
  (subs si).active && ((subs si).filter = .none || (subs si).filter = ev.type)

/-- The calls go to the slots of a list, up to the first whose handler stops the
propagation. -/
def UpToStop : List Nat → List Call → Prop
  | [], calls => calls = []
  | si :: rest, calls => ∃ acts later, calls = ⟨si, acts⟩ :: later ∧
      if .stop ∈ acts then later = [] else UpToStop rest later

theorem deliver_spec (behave : Nat → List HandlerAct) (ev : Event) (slots : List Nat) (n : Nat) (h : b.RingOk)
    (hstop : b.stopPropagation = false) :
    Posts b (deliver behave ev slots n b).bus (deliver behave ev slots n b).accepted ∧
      UpToStop (slots.filter (wants b.subs ev)) (deliver behave ev slots n b).calls := by
  induction slots generalizing n b with
  | nil => exact ⟨.refl h, rfl⟩
  | cons si rest ih =>
    rw [deliver]
    dsimp only
    split
    · -- the slot is free
      rename_i hactive
      have hwants : ¬ wants b.subs ev si := by
        rw [Bool.not_eq_true'] at hactive
        simp [wants, hactive]
      rw [filter_cons_of_neg hwants]
      exact ih n h hstop
    · rename_i hactive
      rw [Bool.not_eq_true', Bool.not_eq_false] at hactive
      split
      · rename_i hfilter
        have hwants : ¬ wants b.subs ev si := by simp [wants, hactive, hfilter]
        rw [filter_cons_of_neg hwants]
        exact ih n h hstop
      · rename_i hfilter
        have hwants : wants b.subs ev si := by
          have hmatch : (b.subs si).filter = .none ∨ (b.subs si).filter = ev.type := by
            by_contra hno
            exact hfilter (not_or.mp hno)
          simp [wants, hactive, hmatch]
        rw [filter_cons_of_pos hwants]
        obtain ⟨hposts, hflag⟩ := runHandler_posts (behave n) h
        rw [hstop, Bool.false_or] at hflag
        split
        · rename_i hstopped
          rw [hflag, decide_eq_true_eq] at hstopped
          exact ⟨hposts, behave n, [], rfl, by rw [if_pos hstopped]⟩
        · rename_i hgoesOn
          have hflag' := Bool.eq_false_iff.mpr hgoesOn
          have hnot : .stop ∉ behave n := by rwa [hflag', eq_comm, decide_eq_false_iff_not] at hflag
          obtain ⟨hrest, hcalls⟩ := ih (n + 1) hposts.ring hflag'
          rw [hposts.subs] at hcalls
          exact ⟨hposts.trans hrest, behave n, _, rfl, by rwa [if_neg hnot]⟩

/-- All slots that want an event. -/
def wanting (subs : Nat → Subscriber) (ev : Event) : List Nat := (List.range maxSubscribers).filter (wants subs ev)

theorem processPending_spec (behave : Nat → List HandlerAct) (es : List Nat) (n : Nat) (h : b.RingOk) :
    Posts b (processPending behave es n b).bus (processPending behave es n b).accepted ∧
      (processPending behave es n b).log.map Prod.fst = es.map b.pending ∧
      ∀ entry ∈ (processPending behave es n b).log, UpToStop (wanting b.subs entry.1) entry.2 := by
  induction es generalizing n b with
  | nil =>
    rw [processPending]
    exact ⟨.refl h, rfl, forall_mem_nil _⟩
  | cons ei rest ih =>
    have hring : RingOk { b with stopPropagation := false } := ⟨h.tail, h.count, h.head⟩
    obtain ⟨hone, hcalls⟩ := deliver_spec behave (b.pending ei) (List.range maxSubscribers) n hring rfl
    rw [processPending]
    dsimp only
    generalize deliver behave (b.pending ei) (List.range maxSubscribers) n { b with stopPropagation := false } = d
      at hone hcalls
    obtain ⟨hrest, hlog, hall⟩ := ih (n + d.calls.length) hone.ring
    rw [hone.pending] at hlog
    rw [hone.subs] at hall
    have hfirst : Posts b d.bus d.accepted := ⟨hone.ring, hone.queue, hone.subs, hone.pending⟩
    refine ⟨hfirst.trans hrest, ?_, forall_mem_cons.mpr ⟨hcalls, hall⟩⟩
    rw [map_cons, map_cons, hlog]

/-! ## A dispatch -/

/-- The oldest event is at the read position. -/
theorem queue_cons (h : b.RingOk) (hne : 0 < b.count) :
    b.queue = b.ring b.tail :: window ringCapacity b.ring ((b.tail + 1) % ringCapacity) (b.count - 1) := by
  have hsplit : b.count = 1 + (b.count - 1) := by omega
  rw [queue, hsplit, window_append, window_mod, Nat.add_sub_cancel_left]
  simp [window, Nat.mod_eq_of_lt h.tail]

/-- The ring is emptied into the array. -/
theorem drain_spec (fuel : Nat) (h : b.RingOk) (hfit : b.pendingCount + b.count ≤ ringCapacity)
    (hfuel : b.count ≤ fuel) :
    (drain fuel b).RingOk ∧ (drain fuel b).count = 0 ∧ (drain fuel b).subs = b.subs ∧
      slice (drain fuel b).pending (drain fuel b).pendingCount = slice b.pending b.pendingCount ++ b.queue := by
  induction fuel generalizing b with
  | zero =>
    have hzero : b.count = 0 := Nat.le_zero.mp hfuel
    refine ⟨h, hzero, rfl, ?_⟩
    simp [drain, queue, hzero, window]
  | succ fuel ih =>
    rw [drain]
    split
    · rename_i hmore
      have hring : RingOk { b with
          pending := update b.pending b.pendingCount (b.ring b.tail)
          pendingCount := b.pendingCount + 1
          tail := (b.tail + 1) % ringCapacity
          count := b.count - 1 } := by
        refine ⟨Nat.mod_lt _ (by decide), (Nat.sub_le ..).trans h.count, ?_⟩
        have hsum : b.tail + 1 + (b.count - 1) = b.tail + b.count := by omega
        dsimp only
        rw [h.head, Nat.mod_add_mod, hsum]
      obtain ⟨h1, h2, h3, h4⟩ := ih hring (by dsimp only; omega) (by dsimp only; omega)
      refine ⟨h1, h2, h3, h4.trans ?_⟩
      dsimp only
      rw [slice_succ, slice_update le_rfl, update_self, queue_cons h hmore.1, append_assoc]
      rfl
    · rename_i hdone
      have hzero : b.count = 0 := by omega
      refine ⟨h, hzero, rfl, ?_⟩
      simp [queue, hzero, window]

theorem sortPending_succ (arr : Nat → Event) (n : Nat) :
    sortPending arr (n + 1) = insertDown Event.key (sortPending arr n n) (sortPending arr n) n := by
  cases n with
  | zero => exact (update_eq_self 0 arr).symm
  | succ n =>
    rw [sortPending, sortPending, Nat.add_sub_cancel, Nat.add_sub_cancel, range'_1_concat, foldl_append,
      Nat.add_comm 1 n]
    rfl

theorem sortPending_above {arr : Nat → Event} {n m : Nat} (h : n ≤ m) : sortPending arr n m = arr m := by
  induction n with
  | zero => rfl
  | succ n ih => rw [sortPending_succ, insertDown_above h, ih (Nat.le_of_succ_le h)]

theorem sortPending_spec (arr : Nat → Event) (n : Nat) :
    StableSort Event.key (slice arr n) (slice (sortPending arr n) n) := by
  induction n with
  | zero => exact .nil _
  | succ n ih =>
    rw [sortPending_succ, slice_insertDown ih.sorted, sortPending_above (Nat.le_refl n), slice_succ arr n]
    exact ih.insert (arr n)

/-- What a dispatch processes is what was in the ring; what its handlers post is
there when it ends. -/
theorem dispatch_spec (h : b.RingOk) (behave : Nat → List HandlerAct) :
    (b.eventBusDispatch behave).bus.RingOk ∧
      (b.eventBusDispatch behave).bus.queue = (b.eventBusDispatch behave).accepted ∧
      StableSort Event.key b.queue ((b.eventBusDispatch behave).log.map Prod.fst) ∧
      ∀ entry ∈ (b.eventBusDispatch behave).log, UpToStop (wanting b.subs entry.1) entry.2 := by
  have hring : RingOk { b with pendingCount := 0 } := ⟨h.tail, h.count, h.head⟩
  obtain ⟨hring', hcount, hsubs, hslice⟩ := drain_spec ringCapacity hring (by simpa using h.count) h.count
  rw [eventBusDispatch]
  generalize drain ringCapacity { b with pendingCount := 0 } = d at hring' hcount hsubs hslice
  have hqueue : d.queue = [] := by simp [queue, hcount, window]
  have hslice : slice d.pending d.pendingCount = b.queue := hslice
  split
  · rename_i hnone
    rw [hnone] at hslice
    rw [← hslice]
    exact ⟨hring', hqueue, .nil _, forall_mem_nil _⟩
  · have hsorted := sortPending_spec d.pending d.pendingCount
    have hring'' : RingOk { d with pending := sortPending d.pending d.pendingCount } :=
      ⟨hring'.tail, hring'.count, hring'.head⟩
    obtain ⟨hposts, hlog, hall⟩ := processPending_spec behave (List.range d.pendingCount) 0 hring''
    refine ⟨hposts.ring, ?_, ?_, hsubs ▸ hall⟩
    · have hempty : queue { d with pending := sortPending d.pending d.pendingCount } = [] := hqueue
      rw [hposts.queue, hempty, nil_append]
    · rw [hlog, ← hslice]
      exact hsorted

end Bus

/-! ## Histories -/

namespace History

/-- How many events had been accepted when the last dispatch began. -/
def seen : List Round → Nat
  | [] => 0
  | rd :: _ => rd.upto

/-- Every dispatch has processed, in the order of priority and then of acceptance,
the events accepted since the one before it began, and has offered each to the
subscribers in the order of the slots. -/
def Delivered (accepted : List Event) : List Round → Prop
  | [] => True
  | rd :: older => seen older ≤ rd.upto ∧ rd.upto ≤ accepted.length ∧
      StableSort Event.key ((accepted.take rd.upto).drop (seen older)) (rd.log.map Prod.fst) ∧
      (∀ entry ∈ rd.log, Bus.UpToStop (Bus.wanting rd.subs entry.1) entry.2) ∧
      Delivered accepted older

/-- The events that wait for the next dispatch are in the ring. -/
structure Inv (h : History) : Prop where
  ring : h.bus.RingOk
  seen : seen h.rounds ≤ h.accepted.length
  waiting : h.bus.queue = h.accepted.drop (History.seen h.rounds)
  delivered : Delivered h.accepted h.rounds

variable {h h' : History}

/-- Later posts do not change what a dispatch had to process. -/
theorem Delivered.append {accepted : List Event} {rounds : List Round} (hd : Delivered accepted rounds)
    (more : List Event) : Delivered (accepted ++ more) rounds := by
  induction rounds with
  | nil => trivial
  | cons rd older ih =>
    obtain ⟨h1, h2, h3, h4, h5⟩ := hd
    refine ⟨h1, h2.trans (by simp), ?_, h4, ih h5⟩
    rwa [take_append_of_le_length h2]

/-- Subscriptions do not reach the ring. -/
theorem Inv.subscriptions (hi : h.Inv) {bus : Bus} (hring : bus.ring = h.bus.ring) (hhead : bus.head = h.bus.head)
    (htail : bus.tail = h.bus.tail) (hcount : bus.count = h.bus.count) : Inv { h with bus := bus } where
  ring := ⟨htail ▸ hi.ring.tail, hcount ▸ hi.ring.count, by rw [hhead, htail, hcount, hi.ring.head]⟩
  seen := hi.seen
  waiting := by
    have hqueue : bus.queue = h.bus.queue := by rw [Bus.queue, hring, htail, hcount, ← Bus.queue]
    exact hqueue.trans hi.waiting
  delivered := hi.delivered

theorem Inv.post (hi : h.Inv) (e : Event) : (h.exec (.post e)).Inv := by
  obtain ⟨hposts, -⟩ := Bus.post_posts hi.ring e
  refine ⟨hposts.ring, hi.seen.trans (by simp [exec]), ?_, hi.delivered.append _⟩
  rw [exec, hposts.queue, hi.waiting, drop_append_of_le_length hi.seen]

theorem Inv.dispatch (hi : h.Inv) (behave : Nat → List HandlerAct) : (h.exec (.dispatch behave)).Inv := by
  obtain ⟨hring, hqueue, hsorted, hcalls⟩ := Bus.dispatch_spec hi.ring behave
  refine ⟨hring, by simp [exec, History.seen], ?_, hi.seen, by simp [exec], ?_, hcalls, hi.delivered.append _⟩
  · rw [exec, hqueue, History.seen, drop_left]
  · rw [exec, take_left, ← hi.waiting]
    exact hsorted

theorem Inv.step (hi : h.Inv) (hs : Step h h') : h'.Inv := by
  obtain ⟨op, rfl⟩ := hs
  cases op with
  | subscribe type handler userdata =>
    rw [exec, Bus.eventBusSubscribe]
    split
    · exact hi
    split
    · exact hi
    split
    · exact hi
    · exact hi.subscriptions rfl rfl rfl rfl
  | unsubscribe id =>
    rw [exec, Bus.eventBusUnsubscribe]
    split
    · exact hi
    split
    · exact hi
    · exact hi.subscriptions rfl rfl rfl rfl
  | post e => exact hi.post e
  | dispatch behave => exact hi.dispatch behave

theorem create_inv : create.Inv where
  ring := ⟨by decide, by decide, rfl⟩
  seen := Nat.le_refl 0
  waiting := rfl
  delivered := trivial

/-- **Every accepted event is processed by the first dispatch that begins after it
was accepted, and by no other**, in the order of the priorities and of acceptance,
and reaches the subscribers that want it up to the first that stops it. -/
theorem delivered_of_history (hr : ReflTransGen Step create h) : Delivered h.accepted h.rounds := by
  have hinv : h.Inv := by
    induction hr with
    | refl => exact create_inv
    | tail _ hs ih => exact ih.step hs
  exact hinv.delivered

/-- A key and a mouse movement are posted and dispatched; the handler answers the
first event it sees with a posting of its own. -/
def keyChar : Event := ⟨.keyChar, .normal, 0, true, .key 30 0 97 0⟩
def mouseMove : Event := ⟨.mouseMove, .high, 0, true, .mouse 1 2 1 2 0⟩
def nodeDirty : Event := ⟨.nodeDirty, .normal, 7, false, .generic 7 0 0 0⟩

def twoEvents : History :=
  (((create.exec (.subscribe .none 1 0)).exec (.post keyChar)).exec (.post mouseMove)).exec
    (.dispatch fun n => if n = 0 then [.post nodeDirty] else [])

theorem delivered_twoEvents : ReflTransGen Step create twoEvents ∧
    (twoEvents.rounds.map fun rd => rd.log.map Prod.fst) = [[mouseMove, keyChar]] ∧
    twoEvents.accepted = [keyChar, mouseMove, nodeDirty] ∧ Delivered twoEvents.accepted twoEvents.rounds := by
  have hr : ReflTransGen Step create twoEvents :=
    ReflTransGen.refl |>.tail ⟨_, rfl⟩ |>.tail ⟨_, rfl⟩ |>.tail ⟨_, rfl⟩ |>.tail ⟨_, rfl⟩
  exact ⟨hr, by decide +kernel, by decide +kernel, delivered_of_history hr⟩

end History
end LiwusOS.Gui
