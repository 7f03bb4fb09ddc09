import Mathlib.Tactic.Common

/-! # The layout pass (`layout_engine_compute`)

A pass goes from a container to its children: it writes their boxes and then
lays out each of them. Dirty flags and layout callbacks are left out. -/

namespace LiwusOS.Gui.Layout

inductive LayoutType where
  | absolute | vbox | hbox

inductive LayoutAlign where
  | start | center | atEnd | stretch
  deriving DecidableEq

inductive Axis where
  | x | y
  deriving DecidableEq

def Axis.other : Axis → Axis
  | x => y
  | y => x

/-- Margin or padding: top, right, bottom, left. -/
abbrev Edges := Fin 4 → Int32

namespace Edges

def before (e : Edges) : Axis → Int32
  | .x => e 3
  | .y => e 0

def after (e : Edges) : Axis → Int32
  | .x => e 1
  | .y => e 2

def sum (e : Edges) (a : Axis) : Int32 := before e a + after e a

end Edges

/-- `local_x` and `width` are at `x`, `local_y` and `height` at `y`. -/
structure Box where
  pos : Axis → Int32
  size : Axis → Int32
  visible : Bool
  layoutType : LayoutType
  layoutAlign : LayoutAlign
  margin : Edges
  padding : Edges
  flexWeight : Int32

inductive Node where
  | mk (box : Box) (children : List Node)

def Node.box : Node → Box
  | mk box _ => box

def clamp (n : Int32) : Int32 := if n < 0 then 0 else n

/-- `total_flex`, and `fixed_h` or `fixed_w`. -/
structure Totals where
  flex : Int32
  fixed : Int32

/-- A round of the first loop. -/
def addChild (a : Axis) (t : Totals) (child : Box) : Totals :=
  if !child.visible then t
  else if 0 < child.flexWeight then { t with flex := t.flex + child.flexWeight }
  else { t with fixed := t.fixed + (child.size a + child.margin.sum a) }

namespace Box

/-- `available_w`, `available_h`. -/
def available (node : Box) (a : Axis) : Int32 := node.size a - node.padding.sum a

/-- The size of a child along the axis. -/
def mainSize (node : Box) (a : Axis) (t : Totals) (child : Box) : Int32 :=
  if 0 < child.flexWeight ∧ 0 < t.flex then
    clamp (clamp (node.available a - t.fixed) * child.flexWeight / t.flex - child.margin.sum a)
  else child.size a

/-- The size of a child across the axis. -/
def crossSize (node : Box) (a : Axis) (child : Box) : Int32 :=
  if child.layoutAlign = .stretch then clamp (node.available a - child.margin.sum a) else child.size a

def crossPos (node : Box) (a : Axis) (child : Box) (size : Int32) : Int32 :=
  match child.layoutAlign with
  | .center => node.padding.before a + (node.available a - size) / 2
  | .atEnd => node.size a - node.padding.after a - child.margin.after a - size
  | _ => node.padding.before a + child.margin.before a

/-- A round of the second loop: the child's box and the next `current_x` or `current_y`. -/
def place (node : Box) (a : Axis) (t : Totals) (current : Int32) (child : Box) : Box × Int32 :=
  let main := node.mainSize a t child
  let cross := node.crossSize a.other child
  let start := current + child.margin.before a
  let placed := { child with
    size := fun b => if b = a then main else cross
    pos := fun b => if b = a then start else node.crossPos a.other child cross }
  (placed, start + main + child.margin.after a)

def layoutVbox (node : Box) := node.place .y

def layoutHbox (node : Box) := node.place .x

/-- What a container does to the box of a child. -/
def layoutChild (node : Box) (t : Totals) (current : Int32) (child : Box) : Box × Int32 :=
  if !child.visible then (child, current)
  else match node.layoutType with
    | .absolute => (child, current)
    | .vbox => node.layoutVbox t current child
    | .hbox => node.layoutHbox t current child

end Box

def LayoutType.axis : LayoutType → Axis
  | vbox => .y
  | _ => .x

mutual

/-- A node whose box is already placed. -/
def layoutNode (box : Box) : Node → Node
  | .mk _ children =>
    if !box.visible then .mk box children
    else
      let a := box.layoutType.axis
      let t := (children.map Node.box).foldl (addChild a) ⟨0, 0⟩
      .mk box (layoutChildren box t (box.padding.before a) children)

def layoutChildren (node : Box) (t : Totals) (current : Int32) : List Node → List Node
  | [] => []
  | child :: rest =>
    let (box, next) := node.layoutChild t current child.box
    layoutNode box child :: layoutChildren node t next rest

end

def layoutEngineCompute (node : Node) : Node := layoutNode node.box node

/-! ## A second pass -/

variable {node : Box} {t : Totals} {current : Int32}

@[simp] theorem Axis.other_ne (a : Axis) : a.other ≠ a := by
  cases a <;> nofun

/-- The pass does not read what it writes of a child. -/
theorem place_again (a : Axis) (child : Box) :
    node.place a t current (node.place a t current child).1 = node.place a t current child := by
  have hmain : node.mainSize a t (node.place a t current child).1 = node.mainSize a t child := by
    simp only [Box.mainSize, Box.place, if_true]
    split <;> rfl
  have hcross : node.crossSize a.other (node.place a t current child).1 = node.crossSize a.other child := by
    simp only [Box.crossSize, Box.place, Axis.other_ne, if_false]
    split <;> rfl
  have hpos : node.crossPos a.other (node.place a t current child).1 = node.crossPos a.other child := rfl
  rw [Box.place, hmain, hcross, hpos]
  rfl

theorem addChild_place (a : Axis) (t' : Totals) (child : Box) :
    addChild a t' (node.place a t current child).1 = addChild a t' child := by
  simp only [addChild, Box.place, Box.mainSize, if_true]
  split
  · rfl
  · split
    · rfl
    · rename_i hflex
      rw [if_neg fun h => hflex h.1]

theorem layoutChild_visible (child : Box) : (node.layoutChild t current child).1.visible = child.visible := by
  rw [Box.layoutChild]
  split
  · rfl
  · split <;> rfl

theorem layoutChild_again (child : Box) :
    node.layoutChild t current (node.layoutChild t current child).1 = node.layoutChild t current child := by
  rw [Box.layoutChild, layoutChild_visible, Box.layoutChild]
  split
  · rfl
  · split
    · rfl
    · exact place_again .y child
    · exact place_again .x child

theorem addChild_layoutChild (t' : Totals) (child : Box) :
    addChild node.layoutType.axis t' (node.layoutChild t current child).1 =
      addChild node.layoutType.axis t' child := by
  rw [Box.layoutChild]
  split
  · rfl
  · split
    · rfl
    · rename_i h
      rw [h]
      exact addChild_place .y t' child
    · rename_i h
      rw [h]
      exact addChild_place .x t' child

theorem layoutNode_box (box : Box) (n : Node) : (layoutNode box n).box = box := by
  cases n
  rw [layoutNode]
  split <;> rfl

theorem foldl_layoutChildren (t' : Totals) (children : List Node) :
    ((layoutChildren node t current children).map Node.box).foldl (addChild node.layoutType.axis) t' =
      (children.map Node.box).foldl (addChild node.layoutType.axis) t' := by
  induction children generalizing t' current with
  | nil => rfl
  | cons child rest ih =>
    simp only [layoutChildren, List.map_cons, List.foldl_cons, layoutNode_box, addChild_layoutChild, ih]

mutual

theorem layoutNode_again : ∀ box n, layoutNode box (layoutNode box n) = layoutNode box n
  | box, .mk _ children => by
    by_cases hv : box.visible = true
    · simp only [layoutNode, hv, Bool.not_true, Bool.false_eq_true, if_false, foldl_layoutChildren]
      rw [layoutChildren_again]
    · simp only [layoutNode, hv, Bool.not_false, if_true]

theorem layoutChildren_again : ∀ node t current children, layoutChildren node t current
    (layoutChildren node t current children) = layoutChildren node t current children
  | _, _, _, [] => rfl
  | _, _, _, child :: rest => by
    simp only [layoutChildren, layoutNode_box, layoutChild_again]
    rw [layoutNode_again, layoutChildren_again]

end

/-- **Layout is idempotent**: a second pass changes no box of the tree. -/
theorem layout_idempotent (root : Node) :
    layoutEngineCompute (layoutEngineCompute root) = layoutEngineCompute root := by
  rw [layoutEngineCompute, layoutEngineCompute, layoutNode_box]
  exact layoutNode_again root.box root

end LiwusOS.Gui.Layout
