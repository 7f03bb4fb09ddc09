import LiwusOS.Gui.Subtree
import LiwusOS.Lib.Walk

/-! # The scene as a tree

What the changes of the scene graph do to the tree below the root: a node is created,
linked, unlinked or destroyed, and other changes leave the links between the nodes
alone. -/

namespace LiwusOS.Gui
open LiwusOS.Lib Relation

/-- The nodes are a forest without cycles, in which the root has no parent and no array
of children is overfull. -/
structure Scene.Tree (s : Scene) : Prop extends Forest (s.live ·) s.mem where
  grounded : ∀ {p}, s.live p = true → s.mem.Grounded p
  room : ∀ {p}, s.live p = true → (s.mem p).children.length ≤ nodeMaxChildren
  rootLive : s.live s.root = true
  rootParent : (s.mem s.root).parent = 0

/-- A node is in the scene. -/
abbrev Scene.Reach (s : Scene) (n : Ptr) : Prop := s.mem.Below s.root n

variable {s s' : Scene} {m m' m'' : Mem} {p c q n : Ptr} {t : Ptr → Prop} {live : Ptr → Prop} {fuel : Nat}

/-- The nodes have the same ids, types, parents and children, perhaps in another order;
those outside `t` have the same positions and pixels. -/
structure Alike (t : Ptr → Prop) (m m' : Mem) : Prop where
  child : m'.Child = m.Child
  nodup : ∀ {p}, (m p).children.Nodup → (m' p).children.Nodup
  length : ∀ p, (m' p).children.length = (m p).children.length
  parent : ∀ q, (m' q).parent = (m q).parent
  id : ∀ q, (m' q).id = (m q).id
  type : ∀ q, (m' q).type = (m q).type
  body : ∀ q, ¬ t q → (m' q).localX = (m q).localX ∧ (m' q).localY = (m q).localY ∧ (m' q).pixels = (m q).pixels

namespace Alike

theorem refl (t : Ptr → Prop) (m : Mem) : Alike t m m :=
  ⟨rfl, fun h => h, fun _ => rfl, fun _ => rfl, fun _ => rfl, fun _ => rfl, fun _ _ => ⟨rfl, rfl, rfl⟩⟩

theorem trans (h : Alike t m m') (h' : Alike t m' m'') : Alike t m m'' where
  child := h'.child.trans h.child
  nodup hp := h'.nodup (h.nodup hp)
  length p := (h'.length p).trans (h.length p)
  parent q := (h'.parent q).trans (h.parent q)
  id q := (h'.id q).trans (h.id q)
  type q := (h'.type q).trans (h.type q)
  body q hq := by
    obtain ⟨hx, hy, hpix⟩ := h.body q hq
    obtain ⟨hx', hy', hpix'⟩ := h'.body q hq
    exact ⟨hx'.trans hx, hy'.trans hy, hpix'.trans hpix⟩

/-- A change of one node other than its links. -/
theorem modify (m : Mem) (n : Ptr) {f : Node → Node} (hchildren : (f (m n)).children = (m n).children)
    (hparent : (f (m n)).parent = (m n).parent) (hid : (f (m n)).id = (m n).id) (htype : (f (m n)).type = (m n).type) :
    Alike (· = n) m (m.modify n f) := by
  have hne : ∀ {q}, q ≠ n → m.modify n f q = m q := fun hq => by rw [Mem.modify_apply, if_neg hq]
  have heq : m.modify n f n = f (m n) := by rw [Mem.modify_apply, if_pos rfl]
  have hsame : ∀ q, (m.modify n f q).children = (m q).children := fun q => by
    by_cases hq : q = n
    · rw [hq, heq, hchildren]
    · rw [hne hq]
  refine ⟨Mem.child_congr hsame, fun {q} h => (hsame q).symm ▸ h, fun q => congrArg List.length (hsame q), fun q => ?_,
    fun q => ?_, fun q => ?_, fun q hq => ?_⟩
  · by_cases hq : q = n
    · rw [hq, heq, hparent]
    · rw [hne hq]
  · by_cases hq : q = n
    · rw [hq, heq, hid]
    · rw [hne hq]
  · by_cases hq : q = n
    · rw [hq, heq, htype]
    · rw [hne hq]
  · rw [hne hq]
    exact ⟨rfl, rfl, rfl⟩

theorem below_eq (h : Alike t m m') : m'.Below = m.Below := by rw [Mem.Below, h.child]

theorem grounded (h : Alike t m m') (hp : m.Grounded p) : m'.Grounded p := by
  rw [Mem.Grounded, h.child]
  exact hp

theorem forest (h : Alike t m m') (hm : Forest live m) : Forest live m' where
  null := hm.null
  child {p c} hp hc := by
    have hpc : m'.Child p c := hc
    rw [h.child] at hpc
    rw [h.parent]
    exact hm.child hp hpc
  listed {c} hc hpar := by
    rw [h.parent] at hpar ⊢
    obtain ⟨hlive, hmem⟩ := hm.listed hc hpar
    have hpc : m.Child (m c).parent c := hmem
    rw [← h.child] at hpc
    exact ⟨hlive, hpc⟩
  nodup hp := h.nodup (hm.nodup hp)

theorem tree (h : Alike t s.mem m') (hs : s.Tree) : { s with mem := m' }.Tree where
  toForest := h.forest hs.toForest
  grounded hp := h.grounded (hs.grounded hp)
  room {p} hp := (h.length p).trans_le (hs.room hp)
  rootLive := hs.rootLive
  rootParent := (h.parent s.root).trans hs.rootParent

end Alike

theorem OnlyDirty.alike (h : OnlyDirty m m') (t : Ptr → Prop) : Alike t m m' where
  child := h.child_eq
  nodup {p} hp := (h.children p).symm ▸ hp
  length p := congrArg List.length (h.children p)
  parent := h.parent
  id q := by rw [h q]
  type q := by rw [h q]
  body q _ := by
    rw [h q]
    exact ⟨rfl, rfl, rfl⟩

/-- Bringing a node to the front changes the order of the children. -/
theorem bringToFront_alike (m : Mem) (n : Ptr) : Alike t m (windowManagerBringToFront m n) := by
  rw [windowManagerBringToFront]
  split
  · exact .refl t m
  dsimp only
  split
  swap
  · exact .refl t m
  rename_i hmove
  obtain ⟨hmem, -⟩ := hmove
  refine Alike.trans ?_ ((OnlyDirty.orDirty _ _ _).alike t)
  have hperm : ((m (m n).parent).children.erase n ++ [n]).Perm (m (m n).parent).children :=
    (List.perm_append_singleton n _).trans (List.perm_cons_erase hmem).symm
  have hperms : ∀ q,
      (m.modify (m n).parent (fun node => { node with children := node.children.erase n ++ [n] }) q).children.Perm
      (m q).children := by
    intro q
    rw [Mem.modify_apply]
    split
    · rename_i heq
      rw [heq]
      exact hperm
    · exact .refl _
  have hsame : ∀ q, m.modify (m n).parent (fun node => { node with children := node.children.erase n ++ [n] }) q =
      { m q with children :=
        (m.modify (m n).parent (fun node => { node with children := node.children.erase n ++ [n] }) q).children } := by
    intro q
    rw [Mem.modify_apply]
    split
    · rename_i heq
      rw [heq]
    · rfl
  refine ⟨?_, fun {q} h => (hperms q).nodup_iff.mpr h, fun q => (hperms q).length_eq, fun q => ?_, fun q => ?_,
    fun q => ?_, fun q _ => ?_⟩
  · funext a b
    exact propext (hperms a).mem_iff
  all_goals rw [hsame q]
  exact ⟨rfl, rfl, rfl⟩

/-! ## Linking -/

namespace Scene.Tree

/-- Only children have parents. -/
theorem ne_root (h : s.Tree) (hp : s.live p = true) (hpc : s.mem.Child p c) : c ≠ s.root := by
  rintro rfl
  exact h.toForest.notMem h.rootParent hp hpc

theorem reach_live (h : s.Tree) (hn : s.Reach n) : s.live n = true := h.toForest.below h.rootLive hn

/-- A node of the scene other than the root has a parent, which is in the scene. -/
theorem parent_reach (h : s.Tree) (hn : s.Reach n) (hroot : n ≠ s.root) :
    (s.mem n).parent ≠ 0 ∧ s.Reach (s.mem n).parent ∧ s.mem.Child (s.mem n).parent n := by
  rcases ReflTransGen.cases_tail hn with heq | ⟨p, hp, hpn⟩
  · exact absurd heq hroot
  · have hlive := h.reach_live hp
    rw [(h.child hlive hpn).2]
    exact ⟨h.ne_zero hlive, hp, hpn⟩

theorem attach (h : s.Tree) (hp : s.live p = true) (hc : s.live c = true) (hfree : (s.mem c).parent = 0)
    (hroot : c ≠ s.root) (hout : ¬ s.mem.Below c p) (hroom : (s.mem p).children.length < nodeMaxChildren) :
    { s with mem := attach s.mem p c }.Tree where
  toForest := h.toForest.attach hp hc hfree
  grounded ha := by
    have hground : (Gui.attach s.mem p c).Grounded c := by
      refine acc_of_below (h.grounded hc) fun a hca b hab => (attach_child.mp hab).resolve_right ?_
      rintro ⟨rfl, -⟩
      exact hout hca
    exact acc_of_link hground (fun a b hab => (attach_child.mp hab).imp id And.right) (h.grounded ha)
  room {a} ha := by
    dsimp only
    rw [attach_apply]
    dsimp only
    split
    · rw [List.length_append, List.length_singleton]
      exact hroom
    · exact h.room ha
  rootLive := h.rootLive
  rootParent := by
    dsimp only
    rw [attach_apply]
    exact (if_neg hroot.symm).trans h.rootParent

theorem detach (h : s.Tree) (hp : s.live p = true) (hpc : s.mem.Child p c) :
    { s with mem := detach s.mem p c }.Tree where
  toForest := h.toForest.detach hp hpc
  grounded ha := acc_of_below (h.grounded ha) fun _ _ _ => child_of_detach
  room {a} ha := by
    dsimp only
    rw [detach_apply]
    dsimp only
    split
    · exact (List.length_erase_le ..).trans (h.room hp)
    · exact h.room ha
  rootLive := h.rootLive
  rootParent := by
    dsimp only
    rw [detach_apply]
    exact (if_neg (h.ne_root hp hpc).symm).trans h.rootParent

/-! ## Creating and destroying -/

end Scene.Tree

/-- The live nodes are as before. -/
structure Quiet (s s' : Scene) : Prop where
  mem : ∀ {q}, s.live q = true → s'.mem q = s.mem q
  live : s'.live = s.live
  root : s'.root = s.root
  nextId : s'.nextId = s.nextId ∨ s'.nextId = s.nextId + 1

/-- There is a new node, which is linked to no other. -/
structure NewNode (s s' : Scene) (n : Ptr) : Prop where
  null : n ≠ 0
  fresh : s.live n = false
  parent : (s'.mem n).parent = 0
  children : (s'.mem n).children = []
  id : (s'.mem n).id = s.nextId
  mem : ∀ {q}, q ≠ n → s'.mem q = s.mem q
  live : ∀ q, s'.live q = true ↔ q = n ∨ s.live q = true
  root : s'.root = s.root
  nextId : s'.nextId = s.nextId + 1

theorem Quiet.refl (s : Scene) : Quiet s s := ⟨fun _ => rfl, rfl, rfl, .inl rfl⟩

/-- Edges between live nodes are enough to go down from one. -/
theorem below_of_live (hm : Forest live m) (hp : live p) (hold : ∀ {q}, live q → m' q = m q) (hpq : m.Below p q) :
    m'.Below p q := by
  induction hpq with
  | refl => exact .refl
  | tail hpa hab ih =>
    refine ih.tail ?_
    rw [Mem.Child, hold (hm.below hp hpa)]
    exact hab

namespace Scene.Tree

theorem quiet (h : s.Tree) (hq : Quiet s s') : s'.Tree where
  toForest := by
    rw [hq.live]
    exact h.toForest.congr (fun q hlive => by rw [hq.mem hlive]) fun q hlive => by rw [hq.mem hlive]
  grounded {p} hp := by
    rw [hq.live] at hp
    refine acc_of_below (h.grounded hp) fun x hx y hxy => ?_
    rwa [Mem.Child, hq.mem (h.toForest.below hp hx)] at hxy
  room {p} hp := by
    rw [hq.live] at hp
    rw [hq.mem hp]
    exact h.room hp
  rootLive := by
    rw [hq.live, hq.root]
    exact h.rootLive
  rootParent := by
    rw [hq.root, hq.mem h.rootLive]
    exact h.rootParent

theorem quiet_reach (h : s.Tree) (hq : Quiet s s') (hn : s.Reach n) : s'.Reach n := by
  rw [Scene.Reach, hq.root]
  exact below_of_live h.toForest h.rootLive hq.mem hn

theorem old_mem (hn : NewNode s s' n) (hq : s.live q = true) : s'.mem q = s.mem q := by
  refine hn.mem ?_
  rintro rfl
  rw [hn.fresh] at hq
  cases hq

theorem newNode (h : s.Tree) (hn : NewNode s s' n) : s'.Tree := by
  have hlive : (fun q => s'.live q = true) = fun q => q = n ∨ s.live q = true := funext fun q => propext (hn.live q)
  refine { toForest := ?_, grounded := fun {q} hq => ?_, room := fun {q} hq => ?_, rootLive := ?_, rootParent := ?_ }
  · rw [hlive]
    exact h.toForest.create hn.children (old_mem hn) hn.null hn.parent
  · exact h.toForest.create_grounded hn.children (old_mem hn) h.grounded ((hn.live q).mp hq)
  · rcases (hn.live q).mp hq with rfl | hq
    · rw [hn.children]
      exact Nat.zero_le _
    · rw [old_mem hn hq]
      exact h.room hq
  · rw [hn.root]
    exact (hn.live _).mpr (.inr h.rootLive)
  · rw [hn.root, old_mem hn h.rootLive]
    exact h.rootParent

theorem newNode_reach (h : s.Tree) (hn : NewNode s s' n) (hq : s.Reach q) : s'.Reach q := by
  rw [Scene.Reach, hn.root]
  exact below_of_live h.toForest h.rootLive (old_mem hn) hq

end Scene.Tree

end LiwusOS.Gui
