import LiwusOS.Lib.RingBuffer
import LiwusOS.Lib.StableSort

/-! # The event bus (`gui/core/event_bus.c`)

A handler is known by its address. What it does when it is called is up to it: a
list of posts and requests to stop the propagation, given for each call. -/

namespace LiwusOS.Gui
open LiwusOS.Lib Function

/-- `gui_event_type_t`. -/
inductive EventType where
  | none
  | mouseMove
  | mouseDown
  | mouseUp
  | mouseScroll
  | keyDown
  | keyUp
  | keyChar
  | mouseEnter
  | mouseLeave
  | winFocus
  | winBlur
  | winClose
  | winMove
  | winResize
  | canvasPan
  | canvasZoom
  | nodeDirty
  | nodeAdded
  | nodeRemoved
  | frameBegin
  | frameEnd
deriving DecidableEq

/-- `gui_event_priority_t`. -/
inductive EventPriority where
  | critical
  | high
  | normal
  | low
deriving DecidableEq

def EventPriority.value : EventPriority → Nat
  | .critical => 0
  | .high => 1
  | .normal => 2
  | .low => 3

inductive Payload where
  | mouse (x y dx dy : Int32) (button : UInt8)
  | key (scancode : UInt8) (keycode unicode : UInt32) (modifiers : UInt8)
  | generic (a b c d : UInt64)
deriving DecidableEq

/-- `gui_event_t`. -/
structure Event where
  type : EventType
  priority : EventPriority
  targetId : UInt32
  propagating : Bool
  payload : Payload
deriving DecidableEq

/-- The order of `sort_pending`. -/
def Event.key (e : Event) : Nat := e.priority.value

/-- `subscriber_t`. -/
structure Subscriber where
  id : UInt32
  filter : EventType
  handler : Nat
  userdata : Nat
  active : Bool

def maxSubscribers : Nat := 64
def ringCapacity : Nat := 256

/-- `gui_event_bus`. -/
structure Bus where
  ring : Nat → Event
  head : Nat
  tail : Nat
  count : Nat
  pending : Nat → Event
  pendingCount : Nat
  subs : Nat → Subscriber
  subCount : Nat
  nextSubId : UInt32
  stopPropagation : Bool

def blankEvent : Event := ⟨.none, .critical, 0, false, .generic 0 0 0 0⟩

/-- `event_bus_create`. -/
def eventBusCreate : Bus where
  ring := fun _ => blankEvent
  head := 0
  tail := 0
  count := 0
  pending := fun _ => blankEvent
  pendingCount := 0
  subs := fun _ => ⟨0, .none, 0, 0, false⟩
  subCount := 0
  nextSubId := 1
  stopPropagation := false

/-- What a handler does. -/
inductive HandlerAct where
  | post (e : Event)
  | stop
deriving DecidableEq

/-- The call of a handler: the slot of the subscriber and what the handler did. -/
structure Call where
  slot : Nat
  acts : List HandlerAct

namespace Bus

def eventBusSubscribe (bus : Bus) (type : EventType) (handler userdata : Nat) : UInt32 × Bus :=
  if handler = 0 then (0, bus)
  else if bus.subCount ≥ maxSubscribers then (0, bus)
  else match (List.range maxSubscribers).find? fun i => !(bus.subs i).active with
    | none => (0, bus)
    | some i => (bus.nextSubId,
        { bus with
          subs := update bus.subs i ⟨bus.nextSubId, type, handler, userdata, true⟩
          nextSubId := bus.nextSubId + 1
          subCount := bus.subCount + 1 })

def eventBusUnsubscribe (bus : Bus) (id : UInt32) : Bus :=
  if id = 0 then bus
  else match (List.range maxSubscribers).find? fun i => (bus.subs i).active && (bus.subs i).id = id with
    | none => bus
    | some i =>
      { bus with
        subs := update bus.subs i { bus.subs i with active := false }
        subCount := bus.subCount - 1 }

def eventBusPost (bus : Bus) (event : Event) : Bool × Bus :=
  if bus.count ≥ ringCapacity then (false, bus)
  else (true,
    { bus with
      ring := update bus.ring bus.head event
      head := (bus.head + 1) % ringCapacity
      count := bus.count + 1 })

def eventStopPropagation (bus : Bus) : Bus := { bus with stopPropagation := true }

/-! ## Dispatch -/

/-- The loop that drains the ring; `pending_count` bounds it. -/
def drain : Nat → Bus → Bus
  | 0, bus => bus
  | fuel + 1, bus =>
    if bus.count > 0 ∧ bus.pendingCount < ringCapacity then
      drain fuel
        { bus with
          pending := update bus.pending bus.pendingCount (bus.ring bus.tail)
          pendingCount := bus.pendingCount + 1
          tail := (bus.tail + 1) % ringCapacity
          count := bus.count - 1 }
    else bus

/-- `sort_pending`: the elements from the second on are moved down one by one. -/
def sortPending (arr : Nat → Event) (n : Nat) : Nat → Event :=
  (List.range' 1 (n - 1)).foldl (fun arr i => insertDown Event.key (arr i) arr i) arr

/-- A handler runs. The events whose post returned true are listed. -/
def runHandler : List HandlerAct → Bus → Bus × List Event
  | [], bus => (bus, [])
  | .post e :: rest, bus =>
    let posted := bus.eventBusPost e
    let r := runHandler rest posted.2
    (r.1, (if posted.1 then [e] else []) ++ r.2)
  | .stop :: rest, bus => runHandler rest bus.eventStopPropagation

/-- An event has been offered to subscribers. -/
structure Delivered where
  bus : Bus
  calls : List Call
  accepted : List Event

/-- The loop over the slots for one event; `n` handlers have been called before,
and the next one does what `behave n` says. -/
def deliver (behave : Nat → List HandlerAct) (ev : Event) : List Nat → Nat → Bus → Delivered
  | [], _, bus => ⟨bus, [], []⟩
  | si :: rest, n, bus =>
    let s := bus.subs si
    if !s.active then deliver behave ev rest n bus
    else if s.filter ≠ .none ∧ s.filter ≠ ev.type then deliver behave ev rest n bus
    else
      let r := runHandler (behave n) bus
      if r.1.stopPropagation then ⟨r.1, [⟨si, behave n⟩], r.2⟩
      else
        let d := deliver behave ev rest (n + 1) r.1
        ⟨d.bus, ⟨si, behave n⟩ :: d.calls, r.2 ++ d.accepted⟩

/-- Events have been processed, each with the calls made for it. -/
structure Processed where
  bus : Bus
  log : List (Event × List Call)
  accepted : List Event

/-- The loop over the pending events. -/
def processPending (behave : Nat → List HandlerAct) : List Nat → Nat → Bus → Processed
  | [], _, bus => ⟨bus, [], []⟩
  | ei :: rest, n, bus =>
    let ev := bus.pending ei
    let d := deliver behave ev (List.range maxSubscribers) n { bus with stopPropagation := false }
    let p := processPending behave rest (n + d.calls.length) d.bus
    ⟨p.bus, (ev, d.calls) :: p.log, d.accepted ++ p.accepted⟩

/-- `event_bus_dispatch`. -/
def eventBusDispatch (bus : Bus) (behave : Nat → List HandlerAct) : Processed :=
  let bus := drain ringCapacity { bus with pendingCount := 0 }
  if bus.pendingCount = 0 then ⟨bus, [], []⟩
  else
    processPending behave (List.range bus.pendingCount) 0
      { bus with pending := sortPending bus.pending bus.pendingCount }

end Bus

/-! ## Histories -/

inductive BusOp where
  | subscribe (type : EventType) (handler userdata : Nat)
  | unsubscribe (id : UInt32)
  | post (e : Event)
  | dispatch (behave : Nat → List HandlerAct)

/-- A call of `event_bus_dispatch`: the subscribers, how many events had been
accepted before it, and what it processed. -/
structure Round where
  subs : Nat → Subscriber
  upto : Nat
  log : List (Event × List Call)

/-- The bus with the events whose post returned true, and the dispatches, the last
one first. -/
structure History where
  bus : Bus
  accepted : List Event
  rounds : List Round

namespace History

def exec (h : History) : BusOp → History
  | .subscribe type handler userdata => { h with bus := (h.bus.eventBusSubscribe type handler userdata).2 }
  | .unsubscribe id => { h with bus := h.bus.eventBusUnsubscribe id }
  | .post e =>
    { h with
      bus := (h.bus.eventBusPost e).2
      accepted := h.accepted ++ if (h.bus.eventBusPost e).1 then [e] else [] }
  | .dispatch behave =>
    let p := h.bus.eventBusDispatch behave
    { bus := p.bus
      accepted := h.accepted ++ p.accepted
      rounds := ⟨h.bus.subs, h.accepted.length, p.log⟩ :: h.rounds }

def create : History := ⟨eventBusCreate, [], []⟩

def Step (h h' : History) : Prop := ∃ op, h' = h.exec op

end History
end LiwusOS.Gui
