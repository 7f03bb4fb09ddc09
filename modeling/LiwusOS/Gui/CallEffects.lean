import LiwusOS.Gui.SceneTree
import LiwusOS.Gui.Syscalls

/-! # What the GUI system calls do to a tree

For every call: it ends, and how the scene it leaves differs from the one before. -/

namespace LiwusOS.Gui
open LiwusOS.Lib Relation Function

variable {s s' s1 : Scene} {g g' : GuiState} {m m' : Mem} {p c q n canvas : Ptr} {memory : Memory} {task : Task}
  {handle : UInt32}

/-- The memory of a new node is not that of a live one. -/
def Memory.Fresh (memory : Memory) (s : Scene) : Prop := memory.node ≠ 0 → s.live memory.node = false

/-- `gui_find_node` answers `n`. -/
def Scene.Finds (s : Scene) (handle : UInt32) (n : Ptr) : Prop := Settles (s.findNode · handle) n

/-! ## Searching and destroying in a tree -/

namespace Scene.Tree

theorem findNode (h : s.Tree) (handle : UInt32) :
    ∃ n, s.Finds handle n ∧ (n ≠ 0 → s.Reach n ∧ (s.mem n).id = handle) ∧
      (n = 0 → handle ≠ 0 → ∀ q, s.Reach q → (s.mem q).id ≠ handle) := by
  have hroot : s.root ≠ 0 := h.ne_zero h.rootLive
  by_cases hnull : handle = 0
  · refine ⟨0, .congr (fun fuel => ?_) (.const 0), fun h0 => absurd rfl h0, fun _ h0 => absurd hnull h0⟩
    rw [Scene.findNode, if_pos (.inr hnull)]
  · obtain ⟨n, hn, hfound⟩ := nodeFindById_settles h.toForest h.rootLive (h.grounded h.rootLive) handle
    refine ⟨n, .congr (fun fuel => ?_) hn, hfound.found, fun h0 _ => hfound.missing h0⟩
    rw [Scene.findNode, if_neg (not_or.mpr ⟨hroot, hnull⟩)]

theorem found (h : s.Tree) (hn : s.Finds handle n) (h0 : n ≠ 0) : s.Reach n ∧ (s.mem n).id = handle := by
  obtain ⟨n', hn', hfound, -⟩ := h.findNode handle
  rw [hn.unique hn'] at h0 ⊢
  exact hfound h0

theorem nodeDestroy (h : s.Tree) (hn : s.live n = true) :
    Settles (s.nodeDestroy · n) (s.without (s.mem.subtree n)) := by
  have hempty : s.without ∅ = s := by simp [Scene.without]
  have hs := Scene.nodeDestroy_settles (D := ∅) h.toForest hn (h.grounded hn) fun q hq => absurd hq (Set.notMem_empty q)
  rwa [hempty, Set.empty_union] at hs

/-- Below a node that has been taken from its parent is what was below it. -/
theorem detach_below_iff (h : s.Tree) (hn : s.live n = true) (p : Ptr) :
    (Gui.detach s.mem p n).Below n q ↔ s.mem.Below n q :=
  ⟨fun hq => .mono (fun _ _ => child_of_detach) _ _ hq,
    fun hq => below_of_below (fun _ _ hab hb => detach_child hab hb) (h.grounded hn) hq⟩

/-- `node_add_child` of a node without a parent. -/
theorem nodeAddChild (h : s.Tree) (hp : s.live p = true) (hc : s.live c = true) (hfree : (s.mem c).parent = 0)
    (hroot : c ≠ s.root) (hout : ¬ s.mem.Below c p) :
    ∃ r, Settles (nodeAddChild · s.mem p c) r ∧
      (nodeMaxChildren ≤ (s.mem p).children.length ∧ r = (false, s.mem) ∨
        (s.mem p).children.length < nodeMaxChildren ∧ r.1 = true ∧
          Alike (fun _ => False) (Gui.attach s.mem p c) r.2) := by
  have hnull : ¬ (p = 0 ∨ c = 0) := not_or.mpr ⟨h.ne_zero hp, h.ne_zero hc⟩
  by_cases hfull : (s.mem p).children.length ≥ nodeMaxChildren
  · refine ⟨(false, s.mem), .congr (fun fuel => ?_) (.const _), .inl ⟨hfull, rfl⟩⟩
    rw [Gui.nodeAddChild, if_neg hnull, if_pos hfull]
  · obtain ⟨m', hm'⟩ := nodeMarkDirty_settles
      ((h.attach hp hc hfree hroot hout (not_le.mp hfull)).grounded hc) .placement
    refine ⟨(true, m'), .congr (fun fuel => ?_) (hm'.map fun m => (true, m)), .inr ⟨not_le.mp hfull, rfl, ?_⟩⟩
    · rw [Gui.nodeAddChild, if_neg hnull, if_neg hfull, if_neg (not_not.mpr hfree)]
    · obtain ⟨N, hN⟩ := hm'.enough
      exact (nodeMarkDirty_onlyDirty (hN N (Nat.le_refl N))).alike _

end Scene.Tree

/-! ## New nodes -/

theorem nodeCreate_new (hfresh : s.live n = false) (hnull : n ≠ 0) (type : NodeType) :
    (s.nodeCreate n type).1 = n ∧ NewNode s (s.nodeCreate n type).2 n := by
  rw [Scene.nodeCreate, if_neg hnull]
  have hself : update s.mem n (blankNode s.nextId type) n = blankNode s.nextId type := update_self ..
  refine ⟨rfl, hnull, hfresh, congrArg Node.parent hself, congrArg Node.children hself, congrArg Node.id hself,
    fun hq => update_of_ne hq .., fun q => ?_, rfl, rfl⟩
  by_cases hq : q = n <;> simp [hq]

section
variable (h : NewNode s s1 n)
include h

/-- The place and the size of a new node do not matter to its links. -/
theorem NewNode.modify {f : Node → Node}
    (hf : ∀ node, (f node).parent = node.parent ∧ (f node).children = node.children ∧ (f node).id = node.id) :
    NewNode s { s1 with mem := s1.mem.modify n f } n := by
  have hself : s1.mem.modify n f n = f (s1.mem n) := by rw [Mem.modify_apply, if_pos rfl]
  obtain ⟨hparent, hchildren, hid⟩ := hf (s1.mem n)
  have hother : ∀ {q}, q ≠ n → s1.mem.modify n f q = s.mem q := fun hq => by
    rw [Mem.modify_apply, if_neg hq, h.mem hq]
  exact ⟨h.null, h.fresh, (congrArg Node.parent hself).trans (hparent.trans h.parent),
    (congrArg Node.children hself).trans (hchildren.trans h.children), (congrArg Node.id hself).trans (hid.trans h.id),
    hother, h.live, h.root, h.nextId⟩

/-- Nothing lies below a new node. -/
theorem NewNode.subtree_eq : s1.mem.subtree n = {n} := by
  rw [Mem.subtree_eq, h.children]
  simp

/-- The old nodes are others, and none of them lies below the new one. -/
theorem NewNode.ne_live (hp : s.live p = true) : p ≠ n := by
  rintro rfl
  rw [h.fresh] at hp
  cases hp

theorem NewNode.ne_root (hs : s.Tree) : n ≠ s1.root := by
  rw [h.root]
  exact (h.ne_live hs.rootLive).symm

theorem NewNode.not_below (hp : s.live p = true) : ¬ s1.mem.Below n p := by
  intro hbelow
  have hmem : p ∈ s1.mem.subtree n := hbelow
  rw [h.subtree_eq] at hmem
  exact h.ne_live hp hmem

/-- A new node that is freed again. -/
theorem NewNode.freed (hmem : ∀ {q}, q ≠ n → s'.mem q = s1.mem q)
    (hlive : ∀ q, s'.live q = true ↔ q ≠ n ∧ s1.live q = true) (hroot : s'.root = s1.root)
    (hid : s'.nextId = s1.nextId) : Quiet s s' where
  mem {q} hq := by
    have hqn := h.ne_live hq
    rw [hmem hqn, h.mem hqn]
  live := by
    funext q
    have hiff : s'.live q = true ↔ s.live q = true := by
      rw [hlive, h.live]
      by_cases hq : q = n
      · simp [hq, h.fresh]
      · simp [hq]
    exact Bool.eq_iff_iff.mpr hiff
  root := hroot.trans h.root
  nextId := .inr (hid.trans h.nextId)

theorem NewNode.destroyed : Quiet s (s1.without (s1.mem.subtree n)) := by
  rw [h.subtree_eq]
  exact h.freed (fun hq => Scene.without_mem_of_notMem hq) (fun q => Scene.without_live) rfl rfl

end

theorem Scene.Tree.widgetCreate (h : s.Tree) (hfresh : memory.Fresh s) (type : NodeType) {init : Node → Node}
    (hinit : ∀ node, (init node).parent = node.parent ∧ (init node).children = node.children ∧
      (init node).id = node.id) :
    ∃ r, Settles (s.widgetCreate · memory type init) r ∧
      (r.1 = 0 ∧ Quiet s r.2 ∨ r.1 = memory.node ∧ NewNode s r.2 memory.node) := by
  by_cases hnull : memory.node = 0
  · refine ⟨(0, s), .congr (fun fuel => ?_) (.const _), .inl ⟨rfl, .refl s⟩⟩
    rw [Scene.widgetCreate, Scene.nodeCreate, if_pos hnull]
    exact if_pos rfl
  obtain ⟨hfst, hnew⟩ := nodeCreate_new (hfresh hnull) hnull type
  by_cases hdata : memory.data
  · refine ⟨(memory.node, _), .congr (fun fuel => ?_) (.const _), .inr ⟨rfl, hnew.modify hinit⟩⟩
    rw [Scene.widgetCreate]
    dsimp only
    rw [hfst, if_neg hnull, if_pos hdata]
  · have htree := h.newNode hnew
    have hdestroy := htree.nodeDestroy ((hnew.live _).mpr (.inl rfl))
    refine ⟨_, .congr (fun fuel => ?_) (hdestroy.map fun s => (0, s)), .inl ⟨rfl, hnew.destroyed⟩⟩
    rw [Scene.widgetCreate]
    dsimp only
    rw [hfst, if_neg hnull, if_neg hdata]

theorem imageNodeCreate_cases (hfresh : memory.Fresh s) (width height : Int32) (pixels : List UInt32) :
    (s.imageNodeCreate memory width height pixels).1 = 0 ∧ Quiet s (s.imageNodeCreate memory width height pixels).2 ∨
      (s.imageNodeCreate memory width height pixels).1 = memory.node ∧
        NewNode s (s.imageNodeCreate memory width height pixels).2 memory.node := by
  rw [Scene.imageNodeCreate]
  dsimp only
  by_cases hnull : memory.node = 0
  · rw [Scene.nodeCreate, if_pos hnull]
    exact .inl ⟨rfl, .refl s⟩
  obtain ⟨hfst, hnew⟩ := nodeCreate_new (hfresh hnull) hnull .image
  rw [hfst, if_neg hnull]
  split
  · exact .inr ⟨rfl, hnew.modify fun node => ⟨rfl, rfl, rfl⟩⟩
  · refine .inl ⟨rfl, hnew.freed (fun _ => rfl) (fun q => ?_) rfl rfl⟩
    by_cases hq : q = memory.node <;> simp [hq]

/-- Nothing is left of the call. -/
def Refused (g g' : GuiState) : Prop := Quiet g.scene g'.scene ∧ g'.tables = g.tables

/-- A new node hangs under `p`, and the task has its handle. -/
def CreatedUnder (g g' : GuiState) (task : Task) (memory : Memory) (p : Ptr) : Prop :=
  ∃ s1 m', NewNode g.scene s1 memory.node ∧ (s1.mem p).children.length < nodeMaxChildren ∧
    Alike (fun _ => False) (attach s1.mem p memory.node) m' ∧
      g' = ⟨{ s1 with mem := m' }, Tables.trackHandle g.tables task memory g.scene.nextId⟩

/-- The new node is added to a live one, or destroyed. -/
theorem addNew_settles (h : g.scene.Tree) (hnew : NewNode g.scene s1 memory.node) (hp : g.scene.live p = true)
    (task : Task) :
    ∃ r g', Settles (fun fuel => { g with scene := s1 }.addNew fuel task memory p memory.node) (r, g') ∧
      (r = none ∧ Refused g g' ∨ r = some g.scene.nextId ∧ CreatedUnder g g' task memory p) := by
  have htree := h.newNode hnew
  have hn := (hnew.live _).mpr (.inl rfl)
  obtain ⟨r, hr, hcases⟩ := htree.nodeAddChild ((hnew.live p).mpr (.inr hp)) hn hnew.parent (hnew.ne_root h)
    (hnew.not_below hp)
  rcases hcases with ⟨hfull, rfl⟩ | ⟨hroom, hok, halike⟩
  · have hdestroy := (htree.nodeDestroy hn).map fun s => ((none : Option UInt32), { g with scene := s })
    exact ⟨none, _, hr.bind hdestroy, .inl ⟨rfl, hnew.destroyed, rfl⟩⟩
  · have hid : (r.2 memory.node).id = g.scene.nextId := by
      rw [halike.id, attach_apply]
      exact hnew.id
    refine ⟨some g.scene.nextId, _, hr.bind (.congr (fun fuel => ?_) (.const _)),
      .inr ⟨rfl, s1, r.2, hnew, hroom, halike, rfl⟩⟩
    dsimp only
    rw [if_pos hok, hid]

/-! ## The calls -/

/-- The new node is brought to the front in the end. -/
theorem CreatedUnder.bringToFront (h : CreatedUnder g g' task memory p) :
    CreatedUnder g { g' with scene := { g'.scene with mem := windowManagerBringToFront g'.scene.mem memory.node } }
      task memory p := by
  obtain ⟨s1, m', hnew, hroom, halike, rfl⟩ := h
  exact ⟨s1, _, hnew, hroom, halike.trans (bringToFront_alike m' memory.node), rfl⟩

section
variable (h : g.scene.Tree)
include h

/-- The new window is shown, or destroyed. -/
theorem showCanvas_settles (hnew : NewNode g.scene s1 memory.node) (task : Task) :
    ∃ r g', Settles (fun fuel => { g with scene := s1 }.showCanvas fuel task memory memory.node) (r, g') ∧
      (Refused g g' ∨ CreatedUnder g g' task memory g.scene.root) := by
  obtain ⟨r, g', hadd, hadded⟩ := addNew_settles h hnew h.rootLive task
  rw [← hnew.root] at hadd
  rcases hadded with ⟨rfl, hrefused⟩ | ⟨rfl, hunder⟩
  · exact ⟨0, g', hadd.map _, .inl hrefused⟩
  · exact ⟨_, _, hadd.map _, .inr hunder.bringToFront⟩

theorem canvasCreate_settles (hfresh : memory.Fresh g.scene) (task : Task) (width height : UInt64)
    (title : Option (List UInt8)) :
    ∃ r g', Settles (g.canvasCreate · task memory width height title) (r, g') ∧
      (Refused g g' ∨ CreatedUnder g g' task memory g.scene.root) := by
  have hroot := h.ne_zero h.rootLive
  by_cases hbad : (width = 0 ∨ width > 4096) ∨ (height = 0 ∨ height > 4096) ∨ title.isNone
  · refine ⟨0, g, .congr (fun fuel => ?_) (.const _), .inl ⟨.refl _, rfl⟩⟩
    rw [GuiState.canvasCreate]
    grind
  obtain ⟨hwidth, hrest⟩ := not_or.mp hbad
  obtain ⟨hheight, htitle⟩ := not_or.mp hrest
  have hcall : ∀ fuel, g.canvasCreate fuel task memory width height title =
      (g.scene.windowNodeCreate fuel memory 100 100 (toInt width) (toInt height)).bind fun created =>
        if created.1 = 0 then some (0, { g with scene := created.2 })
        else { g with scene := created.2 }.showCanvas fuel task memory created.1 := fun fuel => by
    rw [GuiState.canvasCreate, if_neg hroot, if_neg hwidth, if_neg hheight, if_neg htitle]
  have hwindow : ∀ node : Node, (node.placeAt 100 100 (toInt width) (toInt height)).parent = node.parent ∧
      (node.placeAt 100 100 (toInt width) (toInt height)).children = node.children ∧
        (node.placeAt 100 100 (toInt width) (toInt height)).id = node.id := fun node => ⟨rfl, rfl, rfl⟩
  obtain ⟨⟨n, s1⟩, hcreate, ⟨hn, hquiet⟩ | ⟨hn, hnew⟩⟩ := h.widgetCreate hfresh .window hwindow
  · exact ⟨0, _, .congr hcall (hcreate.bind (.pos hn (.const _))), .inl ⟨hquiet, rfl⟩⟩
  · dsimp only at hn hnew
    subst hn
    obtain ⟨r, g', hshow, hshown⟩ := showCanvas_settles h hnew task
    exact ⟨r, g', .congr hcall (hcreate.bind (.neg hnew.null hshow)), hshown⟩

theorem nodeCreate_settles (hfresh : memory.Fresh g.scene) (task : Task) (type : UInt64)
    (text : Option (List UInt8)) :
    ∃ r g', Settles (g.nodeCreate · task memory type text) (r, g') ∧
      (r = 0 ∧ Refused g g' ∨ r = g.scene.nextId.toUInt64 ∧ ∃ s1, NewNode g.scene s1 memory.node ∧
        g' = ⟨s1, Tables.trackHandle g.tables task memory g.scene.nextId⟩) := by
  -- the three kinds of widgets differ in their size only
  have hwidget : ∃ r, Settles (fun fuel =>
      if type = 6 then g.scene.labelCreate fuel memory 0 0 (text.getD [])
      else if type = 5 then g.scene.buttonCreate fuel memory 0 0 120 28
      else if type = 4 then g.scene.panelCreate fuel memory 0 0 200 120
      else some (0, g.scene)) r ∧
        (r.1 = 0 ∧ Quiet g.scene r.2 ∨ r.1 = memory.node ∧ NewNode g.scene r.2 memory.node) := by
    split
    · exact h.widgetCreate hfresh _ fun node => ⟨rfl, rfl, rfl⟩
    · split
      · exact h.widgetCreate hfresh _ fun node => ⟨rfl, rfl, rfl⟩
      · split
        · exact h.widgetCreate hfresh _ fun node => ⟨rfl, rfl, rfl⟩
        · exact ⟨(0, g.scene), .const _, .inl ⟨rfl, .refl _⟩⟩
  obtain ⟨⟨n, s1⟩, hcreate, hcases⟩ := hwidget
  have hs := hcreate.map fun created : Ptr × Scene =>
    if created.1 = 0 then ((0 : UInt64), { g with scene := created.2 })
    else ((created.2.mem created.1).id.toUInt64,
      ⟨created.2, Tables.trackHandle g.tables task memory (created.2.mem created.1).id⟩)
  dsimp only at hs hcases
  rcases hcases with ⟨hn, hquiet⟩ | ⟨hn, hnew⟩
  · refine ⟨0, { g with scene := s1 }, ?_, .inl ⟨rfl, hquiet, rfl⟩⟩
    rw [if_pos hn] at hs
    exact hs
  · refine ⟨g.scene.nextId.toUInt64, ⟨s1, Tables.trackHandle g.tables task memory g.scene.nextId⟩, ?_,
      .inr ⟨rfl, s1, hnew, rfl⟩⟩
    subst hn
    rw [if_neg hnew.null, hnew.id] at hs
    exact hs

theorem imageCreate_settles (hfresh : memory.Fresh g.scene) (task : Task)
    (canvasHandle width height : UInt64) (buffer : Buffer) (hcanvas : g.scene.Finds canvasHandle.toUInt32 canvas) :
    ∃ r g', Settles (g.imageCreate · task memory canvasHandle width height buffer) (r, g') ∧
      (Refused g g' ∨ canvas ≠ 0 ∧ CreatedUnder g g' task memory canvas) := by
  have hrefused : Refused g g := ⟨.refl _, rfl⟩
  by_cases hnull : canvas = 0
  · exact ⟨0, g, hcanvas.bind (.pos hnull (.const _)), .inl hrefused⟩
  by_cases hsize : width = 0 ∨ height = 0 ∨ width > 2048 ∨ height > 2048
  · refine ⟨0, g, hcanvas.bind (.congr (fun fuel => ?_) (.const _)), .inl hrefused⟩
    rw [if_neg hnull, if_pos hsize]
  by_cases hpixels : memory.pixels
  swap
  · refine ⟨0, g, hcanvas.bind (.congr (fun fuel => ?_) (.const _)), .inl hrefused⟩
    rw [if_neg hnull, if_neg hsize, if_pos (by simp [hpixels])]
  cases hcopy : imagePixels buffer (width.toNat * height.toNat) with
  | none =>
    refine ⟨0, g, hcanvas.bind (.congr (fun fuel => ?_) (.const _)), .inl hrefused⟩
    rw [if_neg hnull, if_neg hsize, if_neg (by simp [hpixels]), hcopy]
  | some pixels =>
    have hlive := h.reach_live (h.found hcanvas hnull).1
    rcases imageNodeCreate_cases hfresh (toInt width) (toInt height) pixels with ⟨hn, hquiet⟩ | ⟨hn, hnew⟩
    · refine ⟨0, { g with scene := (g.scene.imageNodeCreate memory (toInt width) (toInt height) pixels).2 },
        hcanvas.bind (.congr (fun fuel => ?_) (.const _)), .inl ⟨hquiet, rfl⟩⟩
      rw [if_neg hnull, if_neg hsize, if_neg (by simp [hpixels]), hcopy]
      exact if_pos hn
    · obtain ⟨r, g', hadd, hadded⟩ := addNew_settles h hnew hlive task
      refine ⟨_, g', hcanvas.bind (.congr (fun fuel => ?_) (hadd.map fun r => ((r.1.getD 0).toUInt64, r.2))), ?_⟩
      · rw [if_neg hnull, if_neg hsize, if_neg (by simp [hpixels]), hcopy]
        dsimp only
        rw [hn, if_neg hnew.null]
      · exact hadded.imp And.right fun hunder => ⟨hnull, hunder.2⟩

theorem nodeMove_settles (handle x y : UInt64) (hn : g.scene.Finds handle.toUInt32 n) :
    ∃ r m', Settles (g.nodeMove · handle x y) (r, { g with scene := { g.scene with mem := m' } }) ∧
      (n = 0 ∧ m' = g.scene.mem ∨ n ≠ 0 ∧ Alike (· = n) g.scene.mem m') := by
  by_cases hnull : n = 0
  · exact ⟨guiFailed, g.scene.mem, hn.bind (.pos hnull (.const _)), .inl ⟨hnull, rfl⟩⟩
  have hmove : ∃ m', Settles (nodeSetPosition · g.scene.mem n (toInt x) (toInt y)) m' ∧
      Alike (· = n) g.scene.mem m' := by
    by_cases hsame : (g.scene.mem n).localX = toInt x ∧ (g.scene.mem n).localY = toInt y
    · refine ⟨g.scene.mem, .congr (fun fuel => ?_) (.const _), .refl _ _⟩
      rw [nodeSetPosition, if_neg hnull, if_pos hsame]
    · have halike : Alike (· = n) g.scene.mem
          (g.scene.mem.modify n fun node => { node with localX := toInt x, localY := toInt y }) :=
        .modify _ _ rfl rfl rfl rfl
      have hground := halike.grounded (h.grounded (h.reach_live (h.found hn hnull).1))
      obtain ⟨m', hm'⟩ := nodeMarkDirty_settles hground .onlyTransform
      obtain ⟨N, hN⟩ := hm'.enough
      refine ⟨m', .congr (fun fuel => ?_) hm', halike.trans ((nodeMarkDirty_onlyDirty (hN N (Nat.le_refl N))).alike _)⟩
      rw [nodeSetPosition, if_neg hnull, if_neg hsame]
  obtain ⟨m', hm', halike⟩ := hmove
  exact ⟨0, m', hn.bind (.neg hnull (hm'.map _)), .inr ⟨hnull, halike⟩⟩

end

end LiwusOS.Gui
