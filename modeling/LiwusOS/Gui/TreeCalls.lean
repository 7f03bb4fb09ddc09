import LiwusOS.Gui.CallEffects

/-! # The scene under GUI system calls

`sys_gui_node_add_child` takes any two nodes of the scene, and it takes the child from
its parent before it knows whether the new parent takes it. Where it is given the root,
a node and one below it, or a parent that is full, the scene does not stay a tree or
loses a part; all other calls keep it. -/

namespace LiwusOS.Gui
open LiwusOS.Lib Relation List Option

variable {s s' s1 : Scene} {g g' g₀ : GuiState} {m m' : Mem} {p c q n : Ptr} {memory : Memory} {task : Task}

/-- The end of the `i`-th entry of `children[]`. -/
def childAt (m : Mem) (p : Ptr) (i : Nat) : Option Ptr := (m p).children[i]?

/-- The nodes that are reached from the root form a tree, and walks over it end. -/
structure Scene.IsTree (s : Scene) : Prop where
  root : (s.mem s.root).parent = 0
  path : ∀ {is js n}, walk (childAt s.mem) s.root is = some n → walk (childAt s.mem) s.root js = some n → is = js
  parent : ∀ {p c}, s.Reach p → c ∈ (s.mem p).children → (s.mem c).parent = p
  mark : ∀ {n}, s.Reach n → ∀ flags, ∃ m', Settles (nodeMarkDirty · s.mem n flags) m'
  find : ∀ {n}, s.Reach n → ∀ id, ∃ r, Settles (nodeFindById · s.mem n id) r

namespace Scene.Tree

/-- The entries of the live nodes are the edges of a tree. -/
theorem rooted (h : s.Tree) : Rooted (fun p i => if s.live p then childAt s.mem p i else none) s.root where
  unique {b b' i i' c} hb hb' := by
    obtain ⟨hlive, hi⟩ := ite_none_right_eq_some.mp hb
    obtain ⟨hlive', hi'⟩ := ite_none_right_eq_some.mp hb'
    obtain rfl := h.toForest.parent_unique hlive hlive' (mem_of_getElem? hi) (mem_of_getElem? hi')
    obtain ⟨hlt, -⟩ := List.getElem?_eq_some_iff.mp hi
    have hii : (s.mem b).children[i]? = (s.mem b).children[i']? := hi.trans hi'.symm
    exact ⟨rfl, (getElem?_inj hlt (h.nodup hlive)).mp hii⟩
  root {b i} hb := by
    obtain ⟨hlive, hi⟩ := ite_none_right_eq_some.mp hb
    exact h.ne_root hlive (mem_of_getElem? hi) rfl

/-- From a live node only live ones are reached. -/
theorem walk_live (h : s.Tree) (hp : s.live p = true) (is : List Nat) :
    walk (fun p i => if s.live p then childAt s.mem p i else none) p is = walk (childAt s.mem) p is := by
  induction is generalizing p with
  | nil => rfl
  | cons i is ih =>
    rw [walk, walk, if_pos hp]
    exact bind_congr fun c hc => ih (h.child hp (mem_of_getElem? hc)).1

theorem isTree (h : s.Tree) : s.IsTree where
  root := h.rootParent
  path hi hj := by
    rw [← h.walk_live h.rootLive] at hi hj
    exact h.rooted.walk_inj hi hj
  parent hp hc := (h.child (h.reach_live hp) hc).2
  mark hn flags := nodeMarkDirty_settles (h.grounded (h.reach_live hn)) flags
  find hn id := by
    obtain ⟨r, hr, -⟩ := nodeFindById_settles h.toForest (h.reach_live hn) (h.grounded (h.reach_live hn)) id
    exact ⟨r, hr⟩

end Scene.Tree

/-! ## Calls that keep the tree -/

/-- The scene is still a tree, and everything in it still is. -/
structure Kept (s s' : Scene) : Prop where
  tree : s'.Tree
  root : s'.root = s.root
  reach : ∀ {n}, s.Reach n → s'.Reach n

theorem kept_quiet (h : s.Tree) (hq : Quiet s s') : Kept s s' := ⟨h.quiet hq, hq.root, h.quiet_reach hq⟩

theorem kept_newNode (h : s.Tree) (hn : NewNode s s' n) : Kept s s' := ⟨h.newNode hn, hn.root, h.newNode_reach hn⟩

theorem kept_alike {t : Ptr → Prop} (h : s.Tree) (ha : Alike t s.mem m') : Kept s { s with mem := m' } where
  tree := ha.tree h
  root := rfl
  reach hn := by
    rw [Scene.Reach, ha.below_eq]
    exact hn

theorem Kept.trans (h : Kept s s1) (h' : Kept s1 s') : Kept s s' :=
  ⟨h'.tree, h'.root.trans h.root, fun hn => h'.reach (h.reach hn)⟩

/-- A node that hangs under no other is added to one outside of its subtree. -/
theorem kept_attach (h : { s with mem := attach s.mem p c }.Tree) : Kept s { s with mem := attach s.mem p c } where
  tree := h
  root := rfl
  reach hn := .mono (fun _ _ hab => attach_child.mpr (.inl hab)) _ _ hn

theorem kept_created (h : g.scene.Tree) (hp : g.scene.live p = true) (hc : CreatedUnder g g' task memory p) :
    Kept g.scene g'.scene := by
  obtain ⟨s1, m', hnew, hroom, halike, rfl⟩ := hc
  have hattach := kept_attach ((h.newNode hnew).attach ((hnew.live p).mpr (.inr hp)) ((hnew.live _).mpr (.inl rfl))
    hnew.parent (hnew.ne_root h) (hnew.not_below hp) hroom)
  exact ((kept_newNode h hnew).trans hattach).trans (kept_alike hattach.tree halike)

/-! ## Moving a node -/

/-- The child hangs under its new parent. -/
def moveUnder (m : Mem) (p c : Ptr) : Mem := attach (detach m (m c).parent c) p c

variable {fuel : Nat}

namespace Scene.Tree

/-- A node of the scene is taken from its parent first. -/
theorem reattach_eq (h : s.Tree) (hc : s.Reach c) (hroot : c ≠ s.root) (fuel : Nat) (p : Ptr) :
    reattach fuel s.mem p c = Gui.nodeAddChild fuel (Gui.detach s.mem (s.mem c).parent c) p c := by
  obtain ⟨hpar, -, hchild⟩ := h.parent_reach hc hroot
  have hmem : c ∈ (s.mem (s.mem c).parent).children := hchild
  rw [reattach, if_pos hpar, nodeRemoveChild, if_neg (not_or.mpr ⟨hpar, h.ne_zero (h.reach_live hc)⟩), if_pos hmem]

theorem reattach_root (h : s.Tree) (fuel : Nat) (p : Ptr) :
    reattach fuel s.mem p s.root = Gui.nodeAddChild fuel s.mem p s.root := by
  rw [reattach, if_neg (not_not.mpr h.rootParent)]

/-- There is more room in the array of a parent that has lost a child. -/
theorem detach_length (h : s.Tree) (hc : s.Reach c) (hroot : c ≠ s.root) :
    (Gui.detach s.mem (s.mem c).parent c p).children.length < nodeMaxChildren ↔
      p = (s.mem c).parent ∨ (s.mem p).children.length < nodeMaxChildren := by
  obtain ⟨-, hreach, hmem⟩ := h.parent_reach hc hroot
  have hlen : ((s.mem (s.mem c).parent).children.erase c).length + 1 = (s.mem (s.mem c).parent).children.length :=
    length_erase_add_one hmem
  have hroom := h.room (h.reach_live hreach)
  rw [detach_apply]
  dsimp only
  split
  · rename_i heq
    simp only [heq, true_or, iff_true]
    omega
  · rename_i hne
    simp [hne]

theorem moveUnder (h : s.Tree) (hp : s.Reach p) (hc : s.Reach c) (hroot : c ≠ s.root) (hout : ¬ s.mem.Below c p)
    (hroom : p = (s.mem c).parent ∨ (s.mem p).children.length < nodeMaxChildren) :
    ∃ m', Settles (reattach · s.mem p c) (true, m') ∧ Alike (fun _ => False) (Gui.moveUnder s.mem p c) m' ∧
      Kept s { s with mem := m' } := by
  obtain ⟨-, hreach, hmem⟩ := h.parent_reach hc hroot
  have hdetached := h.detach (h.reach_live hreach) hmem
  have hfree : (Gui.detach s.mem (s.mem c).parent c c).parent = 0 := by
    rw [detach_apply]
    exact if_pos rfl
  have hout' : ¬ (Gui.detach s.mem (s.mem c).parent c).Below c p :=
    (h.detach_below_iff (h.reach_live hc) _).not.mpr hout
  have hroom' := (h.detach_length hc hroot).mpr hroom
  obtain ⟨r, hr, hcases⟩ := hdetached.nodeAddChild (h.reach_live hp) (h.reach_live hc) hfree hroot hout'
  rcases hcases with ⟨hfull, -⟩ | ⟨-, hok, halike⟩
  · exact absurd hfull (not_le.mpr hroom')
  obtain ⟨ok, m'⟩ := r
  dsimp only at hok halike
  subst hok
  refine ⟨m', .congr (h.reattach_eq hc hroot · p) hr, halike, ?_⟩
  have htree : { s with mem := Gui.moveUnder s.mem p c }.Tree :=
    hdetached.attach (h.reach_live hp) (h.reach_live hc) hfree hroot hout' hroom'
  refine ⟨(kept_alike htree halike).tree, rfl, fun hn => ?_⟩
  rw [Scene.Reach, halike.below_eq]
  exact below_of_moved (fun _ _ hab hb => attach_child.mpr (.inl (detach_child hab hb)))
    (h.grounded (h.reach_live hc)) hp
    hout (attach_child.mpr (.inr ⟨rfl, rfl⟩)) hn

/-- A node that is added below itself: the marking of its subtree does not end. -/
theorem not_cycle (h : s.Tree) (hp : s.live p = true) (hc : s.live c = true) (hfree : (s.mem c).parent = 0)
    (hcp : s.mem.Below c p) {m' : Mem} : Gui.nodeAddChild fuel s.mem p c ≠ some (true, m') := by
  intro hadd
  rcases nodeAddChild_cases hadd with ⟨hfalse, -, -⟩ | ⟨-, -, -, -, -, hmark⟩
  · cases hfalse
  have hmarked := nodeMarkDirty_marked (h.toForest.attach hp hc hfree) hc rfl hmark
  have hway : (Gui.attach s.mem p c).Below c p := .mono (fun _ _ hab => attach_child.mpr (.inl hab)) _ _ hcp
  exact not_below_of_acc (acc_below hmarked.grounded hway) (attach_child.mpr (.inr ⟨rfl, rfl⟩)) hway

/-- The root is nobody's child. -/
theorem reach_detached (h : s.Tree) (hc : s.Reach c) (hroot : c ≠ s.root) :
    ¬ { s with mem := Gui.detach s.mem (s.mem c).parent c }.Reach c := by
  intro hreach
  obtain ⟨-, hpar, hmem⟩ := h.parent_reach hc hroot
  have hfree : (Gui.detach s.mem (s.mem c).parent c c).parent = 0 := by
    rw [detach_apply]
    exact if_pos rfl
  exact ((h.detach (h.reach_live hpar) hmem).parent_reach hreach hroot).1 hfree

end Scene.Tree

/-! ## The calls -/

inductive GuiCall.Builds : GuiCall → Prop
  | canvasCreate (width height title) : Builds (.canvasCreate width height title)
  | nodeCreate (type text) : Builds (.nodeCreate type text)
  | nodeAddChild (parent child) : Builds (.nodeAddChild parent child)
  | nodeMove (node x y) : Builds (.nodeMove node x y)
  | imageCreate (canvas width height buffer) : Builds (.imageCreate canvas width height buffer)

/-- `sys_gui_node_add_child` leaves the root alone, and takes other nodes to a parent
outside of their subtree that has room for them. -/
def GuiCall.Safe (s : Scene) : GuiCall → Prop
  | .nodeAddChild parent child => ∀ p c, s.Finds parent.toUInt32 p → s.Finds child.toUInt32 c → p ≠ 0 → c ≠ 0 →
    (c = s.root → nodeMaxChildren ≤ (s.mem p).children.length) ∧
      (c ≠ s.root → ¬ s.mem.Below c p ∧ (p = (s.mem c).parent ∨ (s.mem p).children.length < nodeMaxChildren))
  | _ => True

/-- The call ends with a tree, and with everything in it that was. -/
def GuiState.KeepsTree (g : GuiState) (task : Task) (memory : Memory) (call : GuiCall) : Prop :=
  ∃ r g', Settles (g.call · task memory call) (r, g') ∧ g'.scene.IsTree ∧
    ∀ n, g.scene.Reach n → g'.scene.Reach n

variable {parent child : UInt64}

theorem nodeAddChild_kept (h : g.scene.Tree) (hsafe : (GuiCall.nodeAddChild parent child).Safe g.scene) :
    ∃ r g', Settles (g.nodeAddChild · parent child) (r, g') ∧ Kept g.scene g'.scene := by
  obtain ⟨p, hp, hpfound, -⟩ := h.findNode parent.toUInt32
  obtain ⟨c, hc, hcfound, -⟩ := h.findNode child.toUInt32
  have hself : Kept g.scene g.scene := ⟨h, rfl, fun hn => hn⟩
  by_cases hnull : p = 0 ∨ c = 0
  · exact ⟨guiFailed, g, hp.bind (hc.bind (.pos hnull (.const _))), hself⟩
  obtain ⟨hp0, hc0⟩ := not_or.mp hnull
  obtain ⟨hrootFull, hinside⟩ := hsafe p c hp hc hp0 hc0
  have hpreach := (hpfound hp0).1
  have hcreach := (hcfound hc0).1
  by_cases hroot : c = g.scene.root
  · have hadd : Settles (reattach · g.scene.mem p c) (false, g.scene.mem) := by
      refine .congr (fun fuel => ?_) (.const _)
      rw [hroot, h.reattach_root, nodeAddChild, if_neg (hroot ▸ hnull), if_pos (hrootFull hroot)]
    exact ⟨_, _, hp.bind (hc.bind (.neg hnull (hadd.map _))), hself⟩
  · obtain ⟨hout, hroom⟩ := hinside hroot
    obtain ⟨m', hmove, -, hkept⟩ := h.moveUnder hpreach hcreach hroot hout hroom
    exact ⟨_, _, hp.bind (hc.bind (.neg hnull (hmove.map _))), hkept⟩

theorem call_kept (h : g.scene.Tree) (hfresh : memory.Fresh g.scene) (task : Task) {call : GuiCall}
    (hbuilds : call.Builds)
    (hsafe : call.Safe g.scene) : ∃ r g', Settles (g.call · task memory call) (r, g') ∧ Kept g.scene g'.scene := by
  cases hbuilds with
  | canvasCreate width height title =>
    obtain ⟨r, g', hcall, hrefused | hcreated⟩ := canvasCreate_settles h hfresh task width height title
    · exact ⟨r, g', hcall, kept_quiet h hrefused.1⟩
    · exact ⟨r, g', hcall, kept_created h h.rootLive hcreated⟩
  | nodeCreate type text =>
    obtain ⟨r, g', hcall, ⟨-, hrefused⟩ | ⟨-, s1, hnew, rfl⟩⟩ := nodeCreate_settles h hfresh task type text
    · exact ⟨r, g', hcall, kept_quiet h hrefused.1⟩
    · exact ⟨r, _, hcall, kept_newNode h hnew⟩
  | nodeAddChild parent child => exact nodeAddChild_kept h hsafe
  | nodeMove node x y =>
    obtain ⟨n, hn, -⟩ := h.findNode node.toUInt32
    obtain ⟨r, m', hcall, ⟨-, rfl⟩ | ⟨-, halike⟩⟩ := nodeMove_settles h node x y hn
    · exact ⟨r, _, hcall, h, rfl, fun hn => hn⟩
    · exact ⟨r, _, hcall, kept_alike h halike⟩
  | imageCreate canvas width height buffer =>
    obtain ⟨n, hn, hfound, -⟩ := h.findNode canvas.toUInt32
    obtain ⟨r, g', hcall, hrefused | ⟨h0, hcreated⟩⟩ := imageCreate_settles h hfresh task canvas width height buffer hn
    · exact ⟨r, g', hcall, kept_quiet h hrefused.1⟩
    · exact ⟨r, g', hcall, kept_created h (h.reach_live (hfound h0).1) hcreated⟩

variable {r : UInt64}

/-- The call does nothing, or it tries to move the node it found. -/
theorem nodeAddChild_ends {p c : Ptr} (hp : g.scene.Finds parent.toUInt32 p) (hc : g.scene.Finds child.toUInt32 c)
    (hcall : g.nodeAddChild fuel parent child = some (r, g')) :
    (p = 0 ∨ c = 0) ∧ r = guiFailed ∧ g' = g ∨
      p ≠ 0 ∧ c ≠ 0 ∧ ∃ ok m', reattach fuel g.scene.mem p c = some (ok, m') ∧ r = (if ok then 0 else guiFailed) ∧
        g' = { g with scene := { g.scene with mem := m' } } := by
  obtain ⟨p', hp', hrun⟩ := bind_eq_some_iff.mp hcall
  obtain ⟨c', hc', hrun⟩ := bind_eq_some_iff.mp hrun
  rw [hp.only fuel p' hp', hc.only fuel c' hc'] at hrun
  split at hrun
  · rename_i hnull
    cases hrun
    exact .inl ⟨hnull, rfl, rfl⟩
  · rename_i hnull
    obtain ⟨⟨ok, m'⟩, hmove, heq⟩ := map_eq_some_iff.mp hrun
    obtain ⟨hp0, hc0⟩ := not_or.mp hnull
    obtain ⟨rfl, rfl⟩ := Prod.mk.inj heq
    exact .inr ⟨hp0, hc0, ok, m', hmove, rfl, rfl⟩

/-- Where `sys_gui_node_add_child` is not safe it does not end, or the child is lost. -/
theorem nodeAddChild_safe (h : g.scene.Tree) (hcall : Settles (g.nodeAddChild · parent child) (r, g'))
    (hreach : ∀ n, g.scene.Reach n → g'.scene.Reach n) : (GuiCall.nodeAddChild parent child).Safe g.scene := by
  intro p c hp hc hp0 hc0
  have hnull : ¬ (p = 0 ∨ c = 0) := not_or.mpr ⟨hp0, hc0⟩
  have hpreach := (h.found hp hp0).1
  have hcreach := (h.found hc hc0).1
  obtain ⟨N, hN⟩ := hcall.enough
  rcases nodeAddChild_ends hp hc (hN N (Nat.le_refl N)) with ⟨hnull', -⟩ | ⟨-, -, ok, m', hmove, -, rfl⟩
  · exact absurd hnull' hnull
  constructor
  · rintro rfl
    rw [h.reattach_root] at hmove
    by_contra hroom
    rcases nodeAddChild_cases hmove with ⟨-, -, hp0' | hc0' | hfull | hpar⟩ | ⟨rfl, -⟩
    · exact hp0 hp0'
    · exact hc0 hc0'
    · exact hroom hfull
    · exact hpar h.rootParent
    · exact h.not_cycle (h.reach_live hpreach) h.rootLive h.rootParent hpreach hmove
  · intro hroot
    obtain ⟨-, hpar, hmem⟩ := h.parent_reach hcreach hroot
    have hdetached := h.detach (h.reach_live hpar) hmem
    have hfree : (detach g.scene.mem (g.scene.mem c).parent c c).parent = 0 := by
      rw [detach_apply]
      exact if_pos rfl
    rw [h.reattach_eq hcreach hroot] at hmove
    rcases nodeAddChild_cases hmove with ⟨-, rfl, -⟩ | ⟨rfl, -, -, hroom, -⟩
    · exact absurd (hreach c hcreach) (h.reach_detached hcreach hroot)
    · refine ⟨fun hcp => ?_, (h.detach_length hcreach hroot).mp hroom⟩
      exact hdetached.not_cycle (h.reach_live hpreach) (h.reach_live hcreach) hfree
        ((h.detach_below_iff (h.reach_live hcreach) _).mpr hcp) hmove

/-- A call that builds the scene and is safe. -/
def SafeCall (g g' : GuiState) : Prop := ∃ task memory call, memory.Fresh g.scene ∧ call.Builds ∧ call.Safe g.scene ∧
  ∃ fuel r, g.call fuel task memory call = some (r, g')

def BuildingCall (g g' : GuiState) : Prop := ∃ task memory call, memory.Fresh g.scene ∧ call.Builds ∧
  ∃ fuel r, g.call fuel task memory call = some (r, g')

theorem tree_of_safeCalls (h : g₀.scene.Tree) (hr : ReflTransGen SafeCall g₀ g) : g.scene.Tree := by
  induction hr with
  | refl => exact h
  | tail _ hs ih =>
    obtain ⟨task, memory, call, hfresh, hbuilds, hsafe, fuel, r, hcall⟩ := hs
    obtain ⟨r', g', hsettles, hkept⟩ := call_kept ih hfresh task hbuilds hsafe
    rw [(Prod.mk.inj (hsettles.only fuel _ hcall)).2]
    exact hkept.tree

/-- **The scene stays a tree and loses nothing** in every run of calls that are safe,
and a call keeps it so exactly when it is. -/
theorem scene_stays_tree (h : g₀.scene.Tree) (hr : ReflTransGen SafeCall g₀ g) :
    g.scene.IsTree ∧ ∀ task memory call, memory.Fresh g.scene → call.Builds →
      (g.KeepsTree task memory call ↔ call.Safe g.scene) := by
  have htree := tree_of_safeCalls h hr
  refine ⟨htree.isTree, fun task memory call hfresh hbuilds => ⟨?_, fun hsafe => ?_⟩⟩
  · rintro ⟨r, g', hcall, -, hreach⟩
    cases hbuilds with
    | nodeAddChild parent child => exact nodeAddChild_safe htree hcall hreach
    | _ => trivial
  · obtain ⟨r, g', hcall, hkept⟩ := call_kept htree hfresh task hbuilds hsafe
    exact ⟨r, g', hcall, hkept.tree.isTree, fun n => hkept.reach⟩

/-! ## What `sys_gui_node_add_child` shows -/

/-- The child is taken from its parent and does not fit into the new one. -/
def GuiState.Loses (g : GuiState) (parent child : UInt64) : Prop :=
  ∃ p c, g.scene.Finds parent.toUInt32 p ∧ g.scene.Finds child.toUInt32 c ∧ p ≠ 0 ∧ c ≠ 0 ∧
    (g.scene.mem c).parent ≠ 0 ∧ p ≠ (g.scene.mem c).parent ∧ nodeMaxChildren ≤ (g.scene.mem p).children.length

/-- Where `sys_gui_node_add_child` fails, the scene is unchanged unless the child is lost. -/
theorem nodeAddChild_failed (h : g.scene.Tree) (hcall : g.nodeAddChild fuel parent child = some (guiFailed, g')) :
    g'.scene = g.scene ↔ ¬ g.Loses parent child := by
  obtain ⟨p, hp, hpfound, -⟩ := h.findNode parent.toUInt32
  obtain ⟨c, hc, hcfound, -⟩ := h.findNode child.toUInt32
  have hloses : g.Loses parent child ↔ p ≠ 0 ∧ c ≠ 0 ∧ (g.scene.mem c).parent ≠ 0 ∧ p ≠ (g.scene.mem c).parent ∧
      nodeMaxChildren ≤ (g.scene.mem p).children.length := by
    constructor
    · rintro ⟨p', c', hp', hc', hrest⟩
      rw [hp'.unique hp, hc'.unique hc] at hrest
      exact hrest
    · exact fun hrest => ⟨p, c, hp, hc, hrest⟩
  rw [hloses]
  rcases nodeAddChild_ends hp hc hcall with ⟨hnull, -, rfl⟩ | ⟨hp0, hc0, ok, m', hmove, hr, rfl⟩
  · refine ⟨fun _ hlost => ?_, fun _ => rfl⟩
    exact not_or.mpr ⟨hlost.1, hlost.2.1⟩ hnull
  have hok : ok = false := by
    cases ok with
    | false => rfl
    | true => exact absurd hr (by decide)
  subst hok
  by_cases hroot : c = g.scene.root
  · -- the root has no parent to be taken from
    subst hroot
    rw [h.reattach_root] at hmove
    rcases nodeAddChild_cases hmove with ⟨-, rfl, -⟩ | ⟨htrue, -⟩
    · exact ⟨fun _ hlost => hlost.2.2.1 h.rootParent, fun _ => rfl⟩
    · cases htrue
  · obtain ⟨hpar, -, -⟩ := h.parent_reach (hcfound hc0).1 hroot
    rw [h.reattach_eq (hcfound hc0).1 hroot] at hmove
    have hfree : (detach g.scene.mem (g.scene.mem c).parent c c).parent = 0 := by
      rw [detach_apply]
      exact if_pos rfl
    rcases nodeAddChild_cases hmove with ⟨-, rfl, hwhy⟩ | ⟨htrue, -⟩
    · have hfull := (hwhy.resolve_left hp0).resolve_left hc0 |>.resolve_right (not_not.mpr hfree)
      have hlost := (h.detach_length (hcfound hc0).1 hroot).not.mp (not_lt.mpr hfull)
      obtain ⟨hne, hroom⟩ := not_or.mp hlost
      refine ⟨fun heq => ?_, fun hkept => absurd ⟨hp0, hc0, hpar, hne, not_lt.mp hroom⟩ hkept⟩
      have hsame : detach g.scene.mem (g.scene.mem c).parent c = g.scene.mem := congrArg Scene.mem heq
      rw [hsame] at hfree
      exact absurd hfree hpar
    · cases htrue

/-- A move adds no edge but those to the node that is moved. -/
theorem reattach_child {ok : Bool} {a b : Ptr} (hmove : reattach fuel m p c = some (ok, m'))
    (hab : m'.Child a b) : m.Child a b ∨ b = c := by
  have htaken : ∀ {a b},
      (if (m c).parent ≠ 0 then nodeRemoveChild m (m c).parent c else m).Child a b → m.Child a b := by
    intro a b hab
    split at hab
    · rcases nodeRemoveChild_cases m (m c).parent c with heq | ⟨-, -, -, heq⟩
      · rwa [heq] at hab
      · rw [heq] at hab
        exact child_of_detach hab
    · exact hab
  rcases nodeAddChild_cases hmove with ⟨-, rfl, -⟩ | ⟨-, -, -, -, -, hmark⟩
  · exact .inl (htaken hab)
  · rw [(nodeMarkDirty_onlyDirty hmark).child_eq] at hab
    exact (attach_child.mp hab).imp htaken And.right

/-- A node from `sys_gui_node_create` is not in the scene, so its handle adds nothing or
another node. -/
theorem created_unattached (h : g.scene.Tree) (hnew : NewNode g.scene s1 n) (tables : Tables)
    (hcall : GuiState.nodeAddChild fuel ⟨s1, tables⟩ parent child = some (r, g')) (hp : g'.scene.live p = true) :
    n ∉ (g'.scene.mem p).children := by
  have htree := h.newNode hnew
  have hout : ¬ s1.Reach n := fun hreach => (htree.parent_reach hreach (hnew.ne_root h)).1 hnew.parent
  obtain ⟨a, ha, -⟩ := htree.findNode parent.toUInt32
  obtain ⟨c, hc, hcfound, -⟩ := htree.findNode child.toUInt32
  rcases nodeAddChild_ends ha hc hcall with ⟨-, -, rfl⟩ | ⟨-, hc0, ok, m', hmove, -, rfl⟩
  · exact htree.toForest.notMem hnew.parent hp
  · intro hmem
    rcases reattach_child hmove hmem with hold | rfl
    · exact htree.toForest.notMem hnew.parent hp hold
    · exact hout (hcfound hc0).1

/-- **What comes of adding children.** A node that `sys_gui_node_create` has created is
never added under any parent by its handle; and when `sys_gui_node_add_child` fails the
scene is as before exactly when the child is not lost. -/
theorem add_child_exact (h : g.scene.Tree) :
    (∀ {task memory type text fuel r g1}, memory.Fresh g.scene →
      g.nodeCreate fuel task memory type text = some (r, g1) →
      r ≠ 0 → (g1.scene.mem memory.node).id.toUInt64 = r ∧
        ∀ {parent fuel' r' g2}, g1.nodeAddChild fuel' parent r = some (r', g2) →
          ∀ p, g2.scene.live p = true → memory.node ∉ (g2.scene.mem p).children) ∧
      ∀ {parent child fuel g'}, g.nodeAddChild fuel parent child = some (guiFailed, g') →
        (g'.scene = g.scene ↔ ¬ g.Loses parent child) := by
  refine ⟨fun {task memory type text fuel r g1} hfresh hcreate hr => ?_, fun hcall => nodeAddChild_failed h hcall⟩
  obtain ⟨r', g', hsettles, ⟨hr', -⟩ | ⟨hr', s1, hnew, rfl⟩⟩ := nodeCreate_settles h hfresh task type text
  · exact absurd ((Prod.mk.inj (hsettles.only fuel _ hcreate)).1.trans hr') hr
  · obtain ⟨rfl, rfl⟩ := Prod.mk.inj (hsettles.only fuel _ hcreate)
    refine ⟨?_, fun hcall p hp => created_unattached h hnew _ hcall hp⟩
    rw [hnew.id, hr']

/-! ## Concrete scenes -/

/-- Memory is there, at address `n`. -/
def plenty (n : Ptr) : Memory := ⟨n, true, true, true⟩

/-- A scene with a root and nothing else. -/
def rootOnly : GuiState :=
  ⟨⟨fun p => blankNode (if p = 1 then 1 else 0) .canvas, fun p => p == 1, 1, 2⟩, fun _ => none⟩

theorem rootOnly_tree : rootOnly.scene.Tree where
  null := by decide
  child _ hc := absurd hc not_mem_nil
  listed _ hpar := absurd rfl hpar
  nodup _ := nodup_nil
  grounded _ := .intro _ fun _ hc => absurd hc not_mem_nil
  room _ := Nat.zero_le _
  rootLive := rfl
  rootParent := rfl

/-- Task 7 has created a canvas, node 2. -/
def oneCanvas : GuiState := ((rootOnly.canvasCreate 2 7 (plenty 2) 100 100 (some [])).map Prod.snd).getD rootOnly

theorem oneCanvas_call : rootOnly.call 2 7 (plenty 2) (.canvasCreate 100 100 (some [])) = some (2, oneCanvas) := rfl

theorem oneCanvas_run : ReflTransGen SafeCall rootOnly oneCanvas :=
  .single ⟨7, plenty 2, .canvasCreate 100 100 (some []), fun _ => rfl, .canvasCreate 100 100 (some []), trivial, 2, 2,
    oneCanvas_call⟩

theorem oneCanvas_tree : oneCanvas.scene.Tree := tree_of_safeCalls rootOnly_tree oneCanvas_run

/-- And a second one, node 3. -/
def twoCanvases : GuiState := ((oneCanvas.canvasCreate 3 7 (plenty 3) 100 100 (some [])).map Prod.snd).getD oneCanvas

/-- The second canvas has been added to the first. -/
def nested : GuiState := ((twoCanvases.nodeAddChild 4 2 3).map Prod.snd).getD twoCanvases

theorem nested_run : ReflTransGen SafeCall rootOnly nested := by
  have htwo : ReflTransGen SafeCall rootOnly twoCanvases :=
    oneCanvas_run.tail ⟨7, plenty 3, .canvasCreate 100 100 (some []), fun _ => rfl, .canvasCreate 100 100 (some []),
      trivial, 3, 3, rfl⟩
  refine htwo.tail ⟨7, plenty 4, .nodeAddChild 2 3, fun _ => rfl, .nodeAddChild 2 3, ?_, 4, _, rfl⟩
  intro p c hp hc _ _
  obtain rfl : p = 2 := (hp.only 4 2 rfl).symm
  obtain rfl : c = 3 := (hc.only 4 3 rfl).symm
  refine ⟨fun hroot => absurd hroot (by decide), fun _ => ⟨fun hbelow => ?_, .inr (by decide)⟩⟩
  obtain heq | ⟨x, hx, -⟩ := hbelow.cases_head
  · cases heq
  · exact absurd (show x ∈ [] from hx) not_mem_nil

theorem scene_stays_tree_nested : ReflTransGen SafeCall rootOnly nested ∧ (nested.scene.mem 1).children = [2] ∧
    (nested.scene.mem 2).children = [3] ∧ nested.scene.IsTree :=
  ⟨nested_run, rfl, rfl, (scene_stays_tree rootOnly_tree nested_run).1⟩

/-- **A canvas is added to itself:** the call does not come to an end. -/
theorem add_to_itself_never_ends : ∃ g, ReflTransGen BuildingCall rootOnly g ∧
    ∃ task memory call, memory.Fresh g.scene ∧ call.Builds ∧ ¬ g.KeepsTree task memory call := by
  have hrun : ReflTransGen BuildingCall rootOnly oneCanvas :=
    .single ⟨7, plenty 2, .canvasCreate 100 100 (some []), fun _ => rfl, .canvasCreate 100 100 (some []), 2, 2,
      oneCanvas_call⟩
  refine ⟨oneCanvas, hrun, 7, plenty 3, .nodeAddChild 2 2, fun _ => rfl, .nodeAddChild 2 2, ?_⟩
  rintro ⟨r, g', hcall, -, hreach⟩
  have htree := oneCanvas_tree
  obtain ⟨n, hn, -⟩ := htree.findNode (UInt64.toUInt32 2)
  rw [← hn.only 2 2 rfl] at hn
  have hsafe := nodeAddChild_safe htree hcall hreach 2 2 hn hn (by decide) (by decide)
  exact (hsafe.2 (by decide)).1 .refl

/-- Task 7 has a label as well, node 3. -/
def label : GuiState := ((oneCanvas.nodeCreate 1 7 (plenty 3) 6 none).map Prod.snd).getD oneCanvas

theorem label_call : oneCanvas.nodeCreate 1 7 (plenty 3) 6 none = some (3, label) := rfl

/-- Nodes 2 and 3 are below the root, and node 2 has all the children it can have. -/
def fullParent : GuiState :=
  ⟨⟨fun p : Nat => { blankNode (UInt32.ofNat p) .canvas with
      parent := if p ≤ 1 then 0 else if p ≤ 3 then 1 else 2
      children := if p = 1 then [2, 3] else if p = 2 then range' 4 nodeMaxChildren else [] },
    fun p : Nat => 1 ≤ p && p < 68, 1, 68⟩, fun _ => none⟩

theorem fullParent_nodes : ∀ p < 68,
    (∀ c ∈ (fullParent.scene.mem p).children, p < c ∧ c < 68 ∧ fullParent.scene.live c = true ∧
      (fullParent.scene.mem c).parent = p) ∧
    (fullParent.scene.live p = true → (fullParent.scene.mem p).parent ≠ 0 →
      fullParent.scene.live (fullParent.scene.mem p).parent = true ∧
      p ∈ (fullParent.scene.mem (fullParent.scene.mem p).parent).children) ∧
    (fullParent.scene.mem p).children.Nodup ∧ (fullParent.scene.mem p).children.length ≤ nodeMaxChildren := by
  decide +kernel

theorem fullParent_lt {p : Nat} (h : fullParent.scene.live p = true) : p < 68 := by
  simp only [fullParent, Bool.and_eq_true, decide_eq_true_eq] at h
  exact h.2

theorem fullParent_tree : fullParent.scene.Tree where
  null := by decide
  child {p c} hp hc := ((fullParent_nodes p (fullParent_lt hp)).1 c hc).2.2
  listed {c} hlive := (fullParent_nodes c (fullParent_lt hlive)).2.1 hlive
  nodup {p} hp := (fullParent_nodes p (fullParent_lt hp)).2.2.1
  grounded {p} hp := by
    -- children have larger numbers than their parent
    have hground : ∀ n p, p < 68 → 68 - p ≤ n → fullParent.scene.mem.Grounded p := by
      intro n
      induction n with
      | zero => exact fun p hp hn => absurd hn (Nat.not_le_of_gt (Nat.sub_pos_of_lt hp))
      | succ n ih =>
        refine fun p hp hn => .intro _ fun c hc => ?_
        obtain ⟨hlt, hc68, -⟩ := (fullParent_nodes p hp).1 c hc
        exact ih c hc68 (Nat.le_of_lt_succ (Nat.lt_of_lt_of_le (Nat.sub_lt_sub_left hp hlt) hn))
    exact hground 68 p (fullParent_lt hp) (Nat.sub_le 68 p)
  room {p} hp := (fullParent_nodes p (fullParent_lt hp)).2.2.2
  rootLive := rfl
  rootParent := rfl

theorem add_child_exact_label : oneCanvas.nodeCreate 1 7 (plenty 3) 6 none = some (3, label) ∧
    (∀ parent fuel r g, label.nodeAddChild fuel parent 3 = some (r, g) →
      ∀ p, g.scene.live p = true → 3 ∉ (g.scene.mem p).children) ∧
    ∃ g, fullParent.nodeAddChild 3 2 3 = some (guiFailed, g) ∧ g.scene ≠ fullParent.scene := by
  have hlabel := (add_child_exact oneCanvas_tree).1 (fun _ => rfl) label_call (by decide)
  obtain ⟨g, hg⟩ : ∃ g, fullParent.nodeAddChild 3 2 3 = some (guiFailed, g) := ⟨_, rfl⟩
  obtain ⟨p, hp, -⟩ := fullParent_tree.findNode (UInt64.toUInt32 2)
  obtain ⟨c, hc, -⟩ := fullParent_tree.findNode (UInt64.toUInt32 3)
  rw [← hp.only 3 2 rfl] at hp
  rw [← hc.only 3 3 rfl] at hc
  have hloses : fullParent.Loses 2 3 := ⟨2, 3, hp, hc, by decide, by decide, by decide, by decide, by decide⟩
  exact ⟨label_call, fun parent fuel r g hcall => hlabel.2 hcall, g, hg,
    fun hsame => ((add_child_exact fullParent_tree).2 hg).mp hsame hloses⟩

/-- **The label cannot be added to the canvas,** which has no children. -/
theorem label_not_added : oneCanvas.nodeCreate 1 7 (plenty 3) 6 none = some (3, label) ∧
    (label.scene.mem 2).children = [] ∧ ∃ g', label.nodeAddChild 3 2 3 = some (guiFailed, g') ∧
      (g'.scene.mem 2).children = [] :=
  ⟨label_call, rfl, label, rfl, rfl⟩

end LiwusOS.Gui
