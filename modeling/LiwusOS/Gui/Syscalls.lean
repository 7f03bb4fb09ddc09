import LiwusOS.Gui.Node

/-! # GUI system calls (`gui/gui_syscalls.c`)

A handle is the id of a node. Every task has a table of the handles it was given,
and only `sys_gui_cleanup_task` reads it. What `kmalloc` gives a call is an argument
of the call here. -/

namespace LiwusOS.Gui
open Function

abbrev Task := Nat

def guiMaxHandlesPerTask : Nat := 128

/-- What a call gets from `kmalloc`: the address of a node or NULL, and whether there
was memory for the data of the widget, for the pixels and for the table of handles. -/
structure Memory where
  node : Ptr
  data : Bool
  pixels : Bool
  table : Bool

/-- For every task, the handles of `task_t.gui`. -/
abbrev Tables := Task → Option (List UInt32)

structure GuiState where
  scene : Scene
  tables : Tables

/-- The memory at a pointer to pixels that a program passes. -/
inductive Buffer where
  | null
  | unreadable
  | words (word : Nat → UInt32)

def Buffer.isNull : Buffer → Bool
  | .null => true
  | _ => false

/-- `(uint64_t)-1`. -/
def guiFailed : UInt64 := -1

/-- `(int)x`. -/
def toInt (x : UInt64) : Int32 := x.toUInt32.toInt32

/-! ## Handles -/

/-- `gui_state_for_current_task`. -/
def Tables.stateForCurrentTask (tables : Tables) (task : Task) (memory : Memory) : Tables :=
  match tables task with
  | some _ => tables
  | none => if memory.table then update tables task (some []) else tables

/-- `gui_track_handle`. -/
def Tables.trackHandle (tables : Tables) (task : Task) (memory : Memory) (handle : UInt32) : Tables :=
  let tables := stateForCurrentTask tables task memory
  match tables task with
  | none => tables
  | some handles =>
    if handle = 0 then tables
    else if handles.length ≥ guiMaxHandlesPerTask then tables
    else if handle ∈ handles then tables
    else update tables task (some (handles ++ [handle]))

/-- `gui_find_node`. -/
def Scene.findNode (fuel : Nat) (s : Scene) (handle : UInt32) : Option Ptr :=
  if s.root = 0 ∨ handle = 0 then some 0 else nodeFindById fuel s.mem s.root handle

/-! ## Widgets -/

/-- A node with the data of a widget; without memory for the data it is destroyed. -/
def Scene.widgetCreate (fuel : Nat) (s : Scene) (memory : Memory) (type : NodeType) (init : Node → Node) :
    Option (Ptr × Scene) :=
  let (n, s) := s.nodeCreate memory.node type
  if n = 0 then some (0, s)
  else if memory.data then some (n, { s with mem := s.mem.modify n init })
  else (s.nodeDestroy fuel n).map fun s => (0, s)

/-- The place and the size of a new widget. -/
def Node.placeAt (x y width height : Int32) (n : Node) : Node :=
  { n with localX := x, localY := y, width := width, height := height }

/-- `window_node_create`. -/
def Scene.windowNodeCreate (fuel : Nat) (s : Scene) (memory : Memory) (x y width height : Int32) :=
  s.widgetCreate fuel memory .window (Node.placeAt x y width height)

/-- `label_create`. -/
def Scene.labelCreate (fuel : Nat) (s : Scene) (memory : Memory) (x y : Int32) (text : List UInt8) :=
  s.widgetCreate fuel memory .label (Node.placeAt x y (Int32.ofNat (text.length * 8)) 16)

/-- `button_create`. -/
def Scene.buttonCreate (fuel : Nat) (s : Scene) (memory : Memory) (x y width height : Int32) :=
  s.widgetCreate fuel memory .button (Node.placeAt x y width height)

/-- `panel_create`. -/
def Scene.panelCreate (fuel : Nat) (s : Scene) (memory : Memory) (x y width height : Int32) :=
  s.widgetCreate fuel memory .panel (Node.placeAt x y width height)

/-- `image_node_create`, which frees the node itself when there is no memory for its
state. -/
def Scene.imageNodeCreate (s : Scene) (memory : Memory) (width height : Int32) (pixels : List UInt32) : Ptr × Scene :=
  let (n, s) := s.nodeCreate memory.node .image
  if n = 0 then (0, s)
  else if memory.data then
    (n, { s with mem := s.mem.modify n fun node => { node with width := width, height := height, pixels := pixels } })
  else (0, { s with live := update s.live n false })

/-! ## Calls -/

/-- A new node is added to a parent and its handle is kept; if it cannot be added it
is destroyed. -/
def GuiState.addNew (fuel : Nat) (g : GuiState) (task : Task) (memory : Memory) (parent n : Ptr) :
    Option (Option UInt32 × GuiState) :=
  (nodeAddChild fuel g.scene.mem parent n).bind fun r =>
    let s := { g.scene with mem := r.2 }
    if r.1 then
      let handle := (s.mem n).id
      some (some handle, { scene := s, tables := Tables.trackHandle g.tables task memory handle })
    else (s.nodeDestroy fuel n).map fun s => (none, { g with scene := s })

/-- The end of `sys_gui_canvas_create`: the new window gets to the front of the scene. -/
def GuiState.showCanvas (fuel : Nat) (g : GuiState) (task : Task) (memory : Memory) (win : Ptr) :
    Option (UInt64 × GuiState) :=
  (g.addNew fuel task memory g.scene.root win).map fun r =>
    match r.1 with
    | none => (0, r.2)
    | some handle => (handle.toUInt64,
      { r.2 with scene := { r.2.scene with mem := windowManagerBringToFront r.2.scene.mem win } })

/-- `sys_gui_canvas_create` with the copy of the title, if there is one. -/
def GuiState.canvasCreate (fuel : Nat) (g : GuiState) (task : Task) (memory : Memory) (width height : UInt64)
    (title : Option (List UInt8)) : Option (UInt64 × GuiState) :=
  if g.scene.root = 0 then some (0, g)
  else if width = 0 ∨ width > 4096 then some (0, g)
  else if height = 0 ∨ height > 4096 then some (0, g)
  else if title.isNone then some (0, g)
  else
    (g.scene.windowNodeCreate fuel memory 100 100 (toInt width) (toInt height)).bind fun created =>
      if created.1 = 0 then some (0, { g with scene := created.2 })
      else { g with scene := created.2 }.showCanvas fuel task memory created.1

/-- `sys_gui_node_create` with the copy of the text, if there is one. -/
def GuiState.nodeCreate (fuel : Nat) (g : GuiState) (task : Task) (memory : Memory) (type : UInt64)
    (text : Option (List UInt8)) : Option (UInt64 × GuiState) :=
  let create :=
    if type = 6 then g.scene.labelCreate fuel memory 0 0 (text.getD [])
    else if type = 5 then g.scene.buttonCreate fuel memory 0 0 120 28
    else if type = 4 then g.scene.panelCreate fuel memory 0 0 200 120
    else some (0, g.scene)
  create.map fun created =>
    if created.1 = 0 then (0, { g with scene := created.2 })
    else
      let handle := (created.2.mem created.1).id
      (handle.toUInt64, { scene := created.2, tables := Tables.trackHandle g.tables task memory handle })

/-- A child is taken from its parent, if it has one, and added to another. -/
def reattach (fuel : Nat) (m : Mem) (parent child : Ptr) : Option (Bool × Mem) :=
  let m := if (m child).parent ≠ 0 then nodeRemoveChild m (m child).parent child else m
  nodeAddChild fuel m parent child

/-- `sys_gui_node_add_child`. -/
def GuiState.nodeAddChild (fuel : Nat) (g : GuiState) (parentHandle childHandle : UInt64) :
    Option (UInt64 × GuiState) :=
  (g.scene.findNode fuel parentHandle.toUInt32).bind fun parent =>
  (g.scene.findNode fuel childHandle.toUInt32).bind fun child =>
    if parent = 0 ∨ child = 0 then some (guiFailed, g)
    else (reattach fuel g.scene.mem parent child).map fun r =>
      (if r.1 then 0 else guiFailed, { g with scene := { g.scene with mem := r.2 } })

/-- `sys_gui_node_move`. -/
def GuiState.nodeMove (fuel : Nat) (g : GuiState) (handle x y : UInt64) : Option (UInt64 × GuiState) :=
  (g.scene.findNode fuel handle.toUInt32).bind fun n =>
    if n = 0 then some (guiFailed, g)
    else (nodeSetPosition fuel g.scene.mem n (toInt x) (toInt y)).map fun m =>
      (0, { g with scene := { g.scene with mem := m } })

/-- `gui_copy_pixels`. -/
def guiCopyPixels (buffer : Buffer) (words : Nat) : Option (List UInt32) :=
  match buffer with
  | .words word => some ((List.range words).map word)
  | _ => none

/-- The pixels of a new image: those that are passed, or zeros. -/
def imagePixels (buffer : Buffer) (words : Nat) : Option (List UInt32) :=
  match buffer with
  | .null => some (List.replicate words 0)
  | buffer => guiCopyPixels buffer words

/-- `sys_gui_image_create`. -/
def GuiState.imageCreate (fuel : Nat) (g : GuiState) (task : Task) (memory : Memory)
    (canvasHandle width height : UInt64) (buffer : Buffer) : Option (UInt64 × GuiState) :=
  (g.scene.findNode fuel canvasHandle.toUInt32).bind fun canvas =>
    if canvas = 0 then some (0, g)
    else if width = 0 ∨ height = 0 ∨ width > 2048 ∨ height > 2048 then some (0, g)
    else if !memory.pixels then some (0, g)
    else match imagePixels buffer (width.toNat * height.toNat) with
      | none => some (0, g)
      | some pixels =>
        let created := g.scene.imageNodeCreate memory (toInt width) (toInt height) pixels
        let g := { g with scene := created.2 }
        if created.1 = 0 then some (0, g)
        else (g.addNew fuel task memory canvas created.1).map fun r => ((r.1.getD 0).toUInt64, r.2)

/-- `image_state_copy_safe`. -/
def imageStateCopySafe (fuel : Nat) (m : Mem) (n : Ptr) (buffer : Buffer) (size : Int32) : Option Mem :=
  let capacity := (m n).pixels.length
  if capacity = 0 ∨ size ≤ 0 then some m
  else
    let words := min size.toInt.toNat capacity
    match guiCopyPixels buffer words with
    | none => some m
    | some pixels =>
      nodeMarkDirty fuel (m.modify n fun node => { node with pixels := pixels ++ node.pixels.drop words }) n .onlyPaint

/-- `sys_gui_image_update`. -/
def GuiState.imageUpdate (fuel : Nat) (g : GuiState) (handle : UInt64) (buffer : Buffer) (size : UInt64) :
    Option (UInt64 × GuiState) :=
  (g.scene.findNode fuel handle.toUInt32).bind fun n =>
    if n = 0 ∨ (g.scene.mem n).type ≠ .image then some (guiFailed, g)
    else if buffer.isNull ∨ size = 0 then some (guiFailed, g)
    else (imageStateCopySafe fuel g.scene.mem n buffer (toInt size)).map fun m =>
      (0, { g with scene := { g.scene with mem := m } })

/-- The node of one handle is destroyed, if it is in the scene and not its root. -/
def Scene.cleanupHandle (fuel : Nat) (s : Scene) (handle : UInt32) : Option Scene :=
  (nodeFindById fuel s.mem s.root handle).bind fun n =>
    if n ≠ 0 ∧ (s.mem n).parent ≠ 0 then
      { s with mem := nodeRemoveChild s.mem (s.mem n).parent n }.nodeDestroy fuel n
    else some s

/-- `sys_gui_cleanup_task`. -/
def GuiState.cleanupTask (fuel : Nat) (g : GuiState) (task : Task) : Option GuiState :=
  match g.tables task with
  | none => some g
  | some handles =>
    let tables := update g.tables task none
    if g.scene.root = 0 then some { g with tables }
    else (handles.foldlM (Scene.cleanupHandle fuel) g.scene).map fun scene => { scene, tables }

inductive GuiCall where
  | canvasCreate (width height : UInt64) (title : Option (List UInt8))
  | nodeCreate (type : UInt64) (text : Option (List UInt8))
  | nodeAddChild (parent child : UInt64)
  | nodeMove (node x y : UInt64)
  | imageCreate (canvas width height : UInt64) (buffer : Buffer)
  | imageUpdate (image : UInt64) (buffer : Buffer) (size : UInt64)
  | cleanupTask

/-- A call of a task, with its result. -/
def GuiState.call (fuel : Nat) (g : GuiState) (task : Task) (memory : Memory) : GuiCall → Option (UInt64 × GuiState)
  | .canvasCreate width height title => g.canvasCreate fuel task memory width height title
  | .nodeCreate type text => g.nodeCreate fuel task memory type text
  | .nodeAddChild parent child => g.nodeAddChild fuel parent child
  | .nodeMove node x y => g.nodeMove fuel node x y
  | .imageCreate canvas width height buffer => g.imageCreate fuel task memory canvas width height buffer
  | .imageUpdate image buffer size => g.imageUpdate fuel image buffer size
  | .cleanupTask => (g.cleanupTask fuel task).map fun g => (0, g)

end LiwusOS.Gui
