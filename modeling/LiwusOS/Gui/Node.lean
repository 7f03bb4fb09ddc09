import LiwusOS.Gui.Transform

/-! # The scene graph (`gui/scene/node.c`)

Nodes lie in memory by address, and address 0 is NULL. The array of children is the
list of its first `child_count` entries. The walks of the source call themselves for
every child, so they have fuel here and no answer when it runs out. -/

namespace LiwusOS.Gui
open Function

abbrev Ptr := Nat

/-- `node_type_t`. -/
inductive NodeType where
  | generic
  | canvas
  | group
  | window
  | panel
  | button
  | label
  | image
  | terminal
  | overlay
  | debug
  | checkbox
  | radio
  | scrollbar
deriving DecidableEq

/-- The bits of `dirty`. -/
structure Dirty where
  transform : Bool
  layout : Bool
  paint : Bool
deriving DecidableEq

namespace Dirty

def all : Dirty := ⟨true, true, true⟩
def onlyTransform : Dirty := ⟨true, false, false⟩
def onlyPaint : Dirty := ⟨false, false, true⟩
def placement : Dirty := ⟨true, true, false⟩

/-- `d | flags`. -/
def or (d flags : Dirty) : Dirty :=
  ⟨d.transform || flags.transform, d.layout || flags.layout, d.paint || flags.paint⟩

end Dirty

/-- `node_t`. An image has its pixels. -/
structure Node where
  id : UInt32
  type : NodeType
  localX : Int32
  localY : Int32
  width : Int32
  height : Int32
  worldTransform : Transform
  parent : Ptr
  children : List Ptr
  prevSibling : Ptr
  nextSibling : Ptr
  visible : Bool
  interactive : Bool
  dirty : Dirty
  pixels : List UInt32
deriving DecidableEq

def nodeMaxChildren : Nat := 64

/-- A node as `node_create` leaves it. -/
def blankNode (id : UInt32) (type : NodeType) : Node where
  id := id
  type := type
  localX := 0
  localY := 0
  width := 0
  height := 0
  worldTransform := transformIdentity
  parent := 0
  children := []
  prevSibling := 0
  nextSibling := 0
  visible := true
  interactive := true
  dirty := .all
  pixels := []

abbrev Mem := Ptr → Node

/-- A node is changed in place. -/
def Mem.modify (m : Mem) (p : Ptr) (f : Node → Node) : Mem := update m p (f (m p))

/-! ## Marking -/

/-- `node->dirty |= flags`. -/
def Mem.orDirty (m : Mem) (p : Ptr) (flags : Dirty) : Mem :=
  m.modify p fun n => { n with dirty := n.dirty.or flags }

/-- `node_mark_dirty`. -/
def nodeMarkDirty : Nat → Mem → Ptr → Dirty → Option Mem
  | 0, _, _, _ => none
  | fuel + 1, m, node, flags =>
    if node = 0 then some m
    else
      let m := m.orDirty node flags
      -- TRANSFORM goes down to all children
      if flags.transform then
        (m node).children.foldlM (fun m c => nodeMarkDirty fuel m c .onlyTransform) m
      else some m

/-! ## Hierarchy -/

/-- The list of siblings when a child is put behind the last one. -/
def linkLast (m : Mem) (parent child : Ptr) : Mem :=
  match (m parent).children.getLast? with
  | none => m
  | some last =>
    (m.modify last fun n => { n with nextSibling := child }).modify child fun n => { n with prevSibling := last }

/-- A child becomes the last one of its parent. -/
def attach (m : Mem) (parent child : Ptr) : Mem :=
  let m := m.modify child fun n => { n with parent := parent }
  let m := linkLast m parent child
  let m := m.modify child fun n => { n with nextSibling := 0 }
  m.modify parent fun n => { n with children := n.children ++ [child] }

/-- `node_add_child`. -/
def nodeAddChild (fuel : Nat) (m : Mem) (parent child : Ptr) : Option (Bool × Mem) :=
  if parent = 0 ∨ child = 0 then some (false, m)
  else if (m parent).children.length ≥ nodeMaxChildren then some (false, m)
  else if (m child).parent ≠ 0 then some (false, m)
  else (nodeMarkDirty fuel (attach m parent child) child .placement).map fun m => (true, m)

/-- The list of siblings is closed over a child. -/
def patchSiblings (m : Mem) (child : Ptr) : Mem :=
  let m := if (m child).prevSibling ≠ 0 then
      m.modify (m child).prevSibling fun n => { n with nextSibling := (m child).nextSibling }
    else m
  if (m child).nextSibling ≠ 0 then
    m.modify (m child).nextSibling fun n => { n with prevSibling := (m child).prevSibling }
  else m

/-- A child is taken from its parent. -/
def detach (m : Mem) (parent child : Ptr) : Mem :=
  let m := patchSiblings m child
  let m := m.modify parent fun n => { n with children := n.children.erase child }
  m.modify child fun n => { n with parent := 0, prevSibling := 0, nextSibling := 0 }

/-- `node_remove_child`. -/
def nodeRemoveChild (m : Mem) (parent child : Ptr) : Mem :=
  if parent = 0 ∨ child = 0 then m
  else if child ∈ (m parent).children then detach m parent child
  else m

/-- `window_manager_bring_to_front`. -/
def windowManagerBringToFront (m : Mem) (node : Ptr) : Mem :=
  if node = 0 ∨ (m node).parent = 0 then m
  else
    let parent := (m node).parent
    let idx := (m parent).children.idxOf node
    if node ∈ (m parent).children ∧ idx + 1 < (m parent).children.length then
      let m := m.modify parent fun n => { n with children := n.children.erase node ++ [node] }
      m.orDirty parent .onlyPaint
    else m

/-! ## Search and position -/

/-- The first answer other than NULL. -/
def firstFound (find : Ptr → Option Ptr) : List Ptr → Option Ptr
  | [] => some 0
  | c :: rest => (find c).bind fun found => if found ≠ 0 then some found else firstFound find rest

/-- `node_find_by_id`. -/
def nodeFindById : Nat → Mem → Ptr → UInt32 → Option Ptr
  | 0, _, _, _ => none
  | fuel + 1, m, root, id =>
    if root = 0 then some 0
    else if (m root).id = id then some root
    else firstFound (fun c => nodeFindById fuel m c id) (m root).children

/-- `node_set_position`. -/
def nodeSetPosition (fuel : Nat) (m : Mem) (node : Ptr) (x y : Int32) : Option Mem :=
  if node = 0 then some m
  else if (m node).localX = x ∧ (m node).localY = y then some m
  else nodeMarkDirty fuel (m.modify node fun n => { n with localX := x, localY := y }) node .onlyTransform

/-! ## Transforms -/

abbrev StackEntry := Ptr × Transform

/-- The children of a node are pushed, the last one on top. The flag says whether
there was room for all of them. -/
def pushChildren (world : Transform) : List Ptr → List StackEntry → List StackEntry × Bool
  | [], stack => (stack, true)
  | c :: rest, stack =>
    if stack.length < 1024 then pushChildren world rest ((c, world) :: stack)
    else ((pushChildren world rest stack).1, false)

/-- The node on top of the stack is brought up to date. -/
def refresh (m : Mem) (n : Ptr) (pw : Transform) : Mem :=
  if (m n).dirty.transform then
    m.modify n fun node =>
      { node with
        worldTransform := transformConcat (transformTranslation node.localX node.localY) pw
        dirty := { node.dirty with transform := false } }
  else m

/-- The loop of `node_update_transforms`, with whether the stack was large enough. -/
def updateLoop : Nat → Mem → List StackEntry → Option (Mem × Bool)
  | 0, _, _ => none
  | _ + 1, m, [] => some (m, true)
  | fuel + 1, m, (n, pw) :: stack =>
    if n = 0 then updateLoop fuel m stack
    else
      let m := refresh m n pw
      let pushed := pushChildren (m n).worldTransform (m n).children stack
      (updateLoop fuel m pushed.1).map fun r => (r.1, pushed.2 && r.2)

/-- `node_update_transforms`. -/
def nodeUpdateTransforms (fuel : Nat) (m : Mem) (node : Ptr) (parentWorld : Transform) : Option (Mem × Bool) :=
  if node = 0 then some (m, true) else updateLoop fuel m [(node, parentWorld)]

/-! ## Creation and destruction -/

/-- The nodes in memory and the root of the scene; `live` are the nodes that have
been allocated and not freed. -/
structure Scene where
  mem : Mem
  live : Ptr → Bool
  root : Ptr
  nextId : UInt32

namespace Scene

/-- `node_create` in memory at `addr`, which is 0 when there is none. -/
def nodeCreate (s : Scene) (addr : Ptr) (type : NodeType) : Ptr × Scene :=
  if addr = 0 then (0, s)
  else (addr,
    { s with
      mem := update s.mem addr (blankNode s.nextId type)
      live := update s.live addr true
      nextId := s.nextId + 1 })

/-- The end of `node_destroy`: the entries for the children are NULL, and the node is
freed. -/
def release (s : Scene) (node : Ptr) : Scene :=
  { s with
    mem := s.mem.modify node fun n => { n with children := n.children.map fun _ => 0 }
    live := update s.live node false }

/-- `node_destroy`. -/
def nodeDestroy : Nat → Scene → Ptr → Option Scene
  | 0, _, _ => none
  | fuel + 1, s, node =>
    if node = 0 then some s
    else ((s.mem node).children.foldlM (nodeDestroy fuel) s).map fun s => s.release node

end Scene
end LiwusOS.Gui
