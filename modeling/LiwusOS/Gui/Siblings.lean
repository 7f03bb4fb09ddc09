import LiwusOS.Gui.NodeOps
import LiwusOS.Lib.Doubly

/-! # Sibling links

The children of a node are in its array and in a doubly linked list.
`window_manager_bring_to_front` changes the array only. -/

namespace LiwusOS.Gui
open LiwusOS.Lib List Relation

/-- For every parent the links of its children are the neighbours in its array. -/
def SiblingsMirror (live : Ptr → Prop) (m : Mem) : Prop := ∀ p i (h : i < (m p).children.length), live p →
  (m (m p).children[i]).nextSibling = (m p).children.getD (i + 1) 0 ∧
    (m (m p).children[i]).prevSibling = (0 :: (m p).children).getD i 0

/-- The children of a node as a doubly linked list. -/
def Mem.Mirrors (m : Mem) (p : Ptr) : Prop :=
  Doubly (fun c => (m c).nextSibling) (fun c => (m c).prevSibling) 0 0 (m p).children

/-- A forest of nodes whose links mirror the arrays; a node without a parent has no
siblings. -/
structure Linked (live : Ptr → Prop) (m : Mem) : Prop extends Forest live m where
  detached : ∀ {c}, live c → (m c).parent = 0 → (m c).prevSibling = 0 ∧ (m c).nextSibling = 0
  mirrors : ∀ {p}, live p → m.Mirrors p

inductive NodeOp where
  | addChild (parent child : Ptr)
  | removeChild (parent child : Ptr)
  | bringToFront (node : Ptr)

/-- The pointers passed are nodes or NULL. -/
def NodeOp.On (live : Ptr → Prop) : NodeOp → Prop
  | .addChild parent child | .removeChild parent child => (parent ≠ 0 → live parent) ∧ (child ≠ 0 → live child)
  | .bringToFront node => node ≠ 0 → live node

/-- An operation ends with the memory `m'`. -/
def NodeOp.Ends (m m' : Mem) : NodeOp → Prop
  | .addChild parent child => ∃ fuel added, nodeAddChild fuel m parent child = some (added, m')
  | .removeChild parent child => m' = nodeRemoveChild m parent child
  | .bringToFront node => m' = windowManagerBringToFront m node

/-- A node is brought to the front only if it is there already. -/
def NodeOp.KeepsOrder (m : Mem) : NodeOp → Prop
  | .bringToFront node =>
    (m node).parent ≠ 0 → node ∈ (m (m node).parent).children → (m (m node).parent).children.getLast? = some node
  | _ => True

def NodeStep (live : Ptr → Prop) (m m' : Mem) : Prop := ∃ op : NodeOp, op.On live ∧ op.Ends m m'

def OrderedStep (live : Ptr → Prop) (m m' : Mem) : Prop :=
  ∃ op : NodeOp, op.On live ∧ op.KeepsOrder m ∧ op.Ends m m'

namespace Linked

variable {live : Ptr → Prop} {m m' : Mem} {p c q n : Ptr}

section
variable (h : Linked live m)
include h

theorem siblingsMirror : SiblingsMirror live m := fun _ _ hi hp => (h.mirrors hp).getElem hi

/-- Flags are not links. -/
theorem onlyDirty (hd : OnlyDirty m m') : Linked live m' where
  toForest := h.toForest.congr (fun q _ => hd.children q) fun q _ => hd.parent q
  detached {c} hlive hc := by
    rw [hd.parent] at hc
    rw [hd.prevSibling, hd.nextSibling]
    exact h.detached hlive hc
  mirrors hp := by
    rw [Mem.Mirrors, hd.children]
    exact (h.mirrors hp).congr (fun c _ => hd.nextSibling c) fun c _ => hd.prevSibling c

/-- The children of different nodes are different. -/
theorem ne_of_mem (hp : live p) (hq : live q) (hc : c ∈ (m p).children) (hd : n ∈ (m q).children)
    (hpq : q ≠ p) : n ≠ c := by
  rintro rfl
  exact hpq (h.parent_unique hq hp hd hc)

theorem attach (hp : live p) (hc : live c) (hfree : (m c).parent = 0) :
    Linked live (attach m p c) where
  toForest := h.toForest.attach hp hc hfree
  detached {d} hlive hd := by
    rw [attach_apply] at hd ⊢
    dsimp only at hd ⊢
    split at hd
    · exact absurd hd (h.ne_zero hp)
    · rename_i hdc
      have hlast : (m p).children.getLast? ≠ some d := fun heq => h.notMem hd hp (mem_of_getLast? heq)
      rw [if_neg hdc, if_neg hdc, if_neg hlast]
      exact h.detached hlive hd
  mirrors {q} hlive := by
    have hne : ∀ {d}, d ∈ (m q).children → d ≠ c := fun hd heq => h.notMem hfree hlive (heq ▸ hd)
    have hchildren : (Gui.attach m p c q).children = if q = p then (m p).children ++ [c] else (m q).children := by
      rw [attach_apply]
    rw [Mem.Mirrors, hchildren]
    split
    · rename_i hq
      subst hq
      refine (h.mirrors hlive).snoc (h.nodup hlive) (fun d hd => ?_) (fun d hd => ?_) ?_ ?_ <;>
        rw [attach_apply] <;> dsimp only
      · rw [if_neg (hne hd)]
      · rw [if_neg (hne hd)]
      · rw [if_pos rfl]
      · rw [if_pos rfl, (h.detached hc hfree).1]
    · rename_i hq
      refine (h.mirrors hlive).congr (fun d hd => ?_) fun d hd => ?_ <;> rw [attach_apply] <;> dsimp only
      · -- the last child of `p` is not a child of `q`
        have hlast : (m p).children.getLast? ≠ some d := fun heq =>
          h.ne_of_mem hp hlive (mem_of_getLast? heq) hd hq rfl
        rw [if_neg (hne hd), if_neg hlast]
      · rw [if_neg (hne hd)]

/-- The neighbours of a child in the array are the ones its links name. -/
theorem neighbours (hp : live p) {xs ys : List Ptr} (hsplit : (m p).children = xs ++ c :: ys) :
    (m c).prevSibling = xs.getLastD 0 ∧ (m c).nextSibling = ys.headD 0 := by
  have hmirror := h.mirrors hp
  rw [Mem.Mirrors, hsplit] at hmirror
  exact hmirror.middle

/-- The links after a child has been taken out, in terms of the array. -/
theorem detach_links (hp : live p) {xs ys : List Ptr} (hsplit : (m p).children = xs ++ c :: ys)
    {d : Ptr} (hd : d ≠ c) :
    (Gui.detach m p c d).nextSibling = (if xs.getLast? = some d then ys.headD 0 else (m d).nextSibling) ∧
      (Gui.detach m p c d).prevSibling = (if ys.head? = some d then xs.getLastD 0 else (m d).prevSibling) := by
  obtain ⟨hprev, hnext⟩ := h.neighbours hp hsplit
  have h0 : ∀ a ∈ xs ++ c :: ys, a ≠ 0 := fun a ha => h.ne_zero (h.child hp (hsplit ▸ ha)).1
  -- NULL stands for no neighbour
  have hlast : (xs.getLastD 0 ≠ 0 ∧ d = xs.getLastD 0) ↔ xs.getLast? = some d := by
    rcases xs.eq_nil_or_concat' with rfl | ⟨xs, a, rfl⟩
    · simp
    · have ha : a ≠ 0 := h0 a (by simp)
      simp [ha, eq_comm]
  have hhead : (ys.headD 0 ≠ 0 ∧ d = ys.headD 0) ↔ ys.head? = some d := by
    cases ys with
    | nil => simp
    | cons a ys =>
      have ha : a ≠ 0 := h0 a (by simp)
      simp [ha, eq_comm]
  rw [detach_apply, hprev, hnext]
  dsimp only
  simp only [if_neg hd, hlast, hhead, and_self]

theorem detach (hp : live p) (hmem : c ∈ (m p).children) : Linked live (detach m p c) := by
  obtain ⟨xs, ys, hsplit⟩ := append_of_mem hmem
  have hxs : ∀ {d}, xs.getLast? = some d → d ∈ (m p).children := fun hd => by
    rw [hsplit]
    exact mem_append_left _ (mem_of_getLast? hd)
  have hys : ∀ {d}, ys.head? = some d → d ∈ (m p).children := fun hd => by
    rw [hsplit]
    exact mem_append_right _ (.tail _ (mem_of_head? hd))
  have hnodup : (xs ++ c :: ys).Nodup := hsplit ▸ h.nodup hp
  refine ⟨h.toForest.detach hp hmem, fun {d} hlive hd => ?_, fun {q} hlive => ?_⟩
  · by_cases hdc : d = c
    · rw [detach_apply]
      exact ⟨if_pos hdc, if_pos hdc⟩
    · obtain ⟨hnext, hprev⟩ := h.detach_links hp hsplit hdc
      have hparent : (m d).parent = 0 := by
        rw [detach_apply] at hd
        exact (if_neg hdc).symm.trans hd
      rw [hnext, hprev, if_neg fun heq => h.notMem hparent hp (hxs heq),
        if_neg fun heq => h.notMem hparent hp (hys heq)]
      exact h.detached hlive hparent
  · have hchildren : (Gui.detach m p c q).children = if q = p then (m p).children.erase c else (m q).children := by
      rw [detach_apply]
    rw [Mem.Mirrors, hchildren]
    split
    · rename_i hq
      subst hq
      have hapart : ∀ {d e}, d ∈ xs → e ∈ c :: ys → d ≠ e := fun hd he => (nodup_append.mp hnodup).2.2 _ hd _ he
      have hcx : c ∉ xs := fun hc => hapart hc mem_cons_self rfl
      have hcy : c ∉ ys := (nodup_cons.mp (nodup_append.mp hnodup).2.1).1
      have hmirror := h.mirrors hlive
      rw [Mem.Mirrors, hsplit] at hmirror
      rw [hsplit, erase_append_right _ hcx, erase_cons_head]
      refine hmirror.erase hnodup (fun d hd => ?_) (fun d hd => ?_) (fun d hd => ?_) fun d hd => ?_
      · exact (h.detach_links hp hsplit fun heq => hcx (heq ▸ hd)).1
      · rw [(h.detach_links hp hsplit fun heq => hcx (heq ▸ hd)).2, if_neg fun heq =>
          hapart hd (.tail _ (mem_of_head? heq)) rfl]
      · rw [(h.detach_links hp hsplit fun heq => hcy (heq ▸ hd)).1, if_neg fun heq =>
          hapart (mem_of_getLast? heq) (.tail _ hd) rfl]
      · exact (h.detach_links hp hsplit fun heq => hcy (heq ▸ hd)).2
    · rename_i hq
      refine (h.mirrors hlive).congr (fun d hd => ?_) fun d hd => ?_
      · have hdc := h.ne_of_mem hp hlive hmem hd hq
        rw [(h.detach_links hp hsplit hdc).1, if_neg fun heq => h.ne_of_mem hp hlive (hxs heq) hd hq rfl]
      · have hdc := h.ne_of_mem hp hlive hmem hd hq
        rw [(h.detach_links hp hsplit hdc).2, if_neg fun heq => h.ne_of_mem hp hlive (hys heq) hd hq rfl]

/-- The node that is brought to the front is in front already. -/
theorem bringToFront_eq (hlive : n ≠ 0 → live n) (hn : (NodeOp.bringToFront n).KeepsOrder m) :
    windowManagerBringToFront m n = m := by
  rw [windowManagerBringToFront]
  split
  · rfl
  rename_i hnull
  obtain ⟨hn0, hpar⟩ := not_or.mp hnull
  dsimp only
  split
  · rename_i hmove
    obtain ⟨hmem, hidx⟩ := hmove
    obtain ⟨xs, hxs⟩ := getLast?_eq_some_iff.mp (hn hpar hmem)
    have hnx : n ∉ xs := by
      have hnodup := h.nodup (h.listed (hlive hn0) hpar).1
      rw [hxs] at hnodup
      exact fun hmem => (nodup_append.mp hnodup).2.2 n hmem n (mem_singleton_self n) rfl
    rw [hxs, idxOf_append_of_notMem hnx, length_append] at hidx
    simp at hidx
  · rfl

/-- What is brought to the front, in the array. -/
theorem bringToFront_moved (hlive : live n) (hpar : (m n).parent ≠ 0) {xs ys : List Ptr}
    (hsplit : (m (m n).parent).children = xs ++ n :: ys) (hys : ys ≠ []) :
    (windowManagerBringToFront m n (m n).parent).children = (xs ++ ys) ++ [n] ∧
      (windowManagerBringToFront m n n).nextSibling = (m n).nextSibling := by
  have hmem : n ∈ (m (m n).parent).children := by simp [hsplit]
  have hnx : n ∉ xs := by
    have hnodup := h.nodup (h.listed hlive hpar).1
    rw [hsplit] at hnodup
    exact fun hmem => (nodup_append.mp hnodup).2.2 n hmem n mem_cons_self rfl
  have hidx : (m (m n).parent).children.idxOf n + 1 < (m (m n).parent).children.length := by
    rw [hsplit, idxOf_append_of_notMem hnx, idxOf_cons_self, length_append, length_cons]
    have := length_pos_of_ne_nil hys
    omega
  rw [windowManagerBringToFront, if_neg (not_or.mpr ⟨h.ne_zero hlive, hpar⟩)]
  dsimp only
  rw [if_pos ⟨hmem, hidx⟩, (OnlyDirty.orDirty _ _ _).children, (OnlyDirty.orDirty _ _ _).nextSibling]
  constructor
  · rw [Mem.modify_apply, if_pos rfl, hsplit, erase_append_right _ hnx, erase_cons_head]
  · rw [Mem.modify_apply]
    split
    · rename_i heq
      rw [← heq]
    · rfl

/-- A node in front of others gets behind them in the array, but not in the list. -/
theorem keepsOrder_of_mirror (hlive : live n)
    (hmirror : SiblingsMirror live (windowManagerBringToFront m n)) : (NodeOp.bringToFront n).KeepsOrder m := by
  intro hpar hmem
  by_contra hlast
  obtain ⟨xs, ys, hsplit⟩ := append_of_mem hmem
  have hys : ys ≠ [] := by
    rintro rfl
    exact hlast (by simp [hsplit])
  obtain ⟨hchildren, hnext⟩ := h.bringToFront_moved hlive hpar hsplit hys
  have hplive := (h.listed hlive hpar).1
  -- the last one in the array still has a next sibling
  have hend := (hmirror (m n).parent (xs ++ ys).length (by simp [hchildren]) hplive).1
  simp only [hchildren] at hend
  rw [getElem_concat_length rfl, hnext, (h.neighbours hplive hsplit).2,
    getD_eq_default _ _ (by simp [Nat.add_assoc])] at hend
  obtain ⟨a, zs, rfl⟩ := exists_cons_of_ne_nil hys
  have ha : a ∈ (m (m n).parent).children := by simp [hsplit]
  exact h.ne_zero (h.child hplive ha).1 hend

theorem step (hs : OrderedStep live m m') : Linked live m' := by
  obtain ⟨op, hon, hkeeps, hends⟩ := hs
  cases op with
  | addChild parent child =>
    obtain ⟨fuel, added, hadd⟩ := hends
    rcases nodeAddChild_cases hadd with ⟨-, rfl, -⟩ | ⟨-, hp, hc, -, hfree, hmark⟩
    · exact h
    · exact (h.attach (hon.1 hp) (hon.2 hc) hfree).onlyDirty (nodeMarkDirty_onlyDirty hmark)
  | removeChild parent child =>
    rcases nodeRemoveChild_cases m parent child with heq | ⟨hp, -, hmem, heq⟩
    · rw [hends, heq]
      exact h
    · rw [hends, heq]
      exact h.detach (hon.1 hp) hmem
  | bringToFront node =>
    rw [hends, h.bringToFront_eq hon hkeeps]
    exact h

end

/-- **The sibling links mirror the arrays of children** in every run in which nodes
are brought to the front only where they are; bringing any other one there breaks
the links. -/
theorem siblings_mirror (h : Linked live m) (hr : ReflTransGen (OrderedStep live) m m') :
    SiblingsMirror live m' ∧ ∀ n, live n →
      (SiblingsMirror live (windowManagerBringToFront m' n) ↔ (NodeOp.bringToFront n).KeepsOrder m') := by
  have hlinked : Linked live m' := by
    induction hr with
    | refl => exact h
    | tail _ hs ih => exact ih.step hs
  refine ⟨hlinked.siblingsMirror, fun n hn => ⟨hlinked.keepsOrder_of_mirror hn, fun hkeeps => ?_⟩⟩
  rw [hlinked.bringToFront_eq (fun _ => hn) hkeeps]
  exact hlinked.siblingsMirror

/-! ## Concrete memories -/

/-- Nodes that are not linked to each other. -/
def blankMem : Mem := fun _ => blankNode 0 .generic

theorem blankMem_linked : Linked (· ≠ 0) blankMem where
  null := fun h => h rfl
  child _ h := absurd h not_mem_nil
  listed _ h := absurd rfl h
  nodup _ := nodup_nil
  detached _ _ := ⟨rfl, rfl⟩
  mirrors _ := trivial

/-- Node 2 becomes a child of node 1, and then node 3. -/
def oneChild : Mem := ((nodeAddChild 2 blankMem 1 2).map Prod.snd).getD blankMem
def twoChildren : Mem := ((nodeAddChild 2 oneChild 1 3).map Prod.snd).getD blankMem

theorem twoChildren_run : ReflTransGen (OrderedStep (· ≠ 0)) blankMem twoChildren :=
  ReflTransGen.refl.tail ⟨.addChild 1 2, ⟨id, id⟩, trivial, 2, true, rfl⟩
    |>.tail ⟨.addChild 1 3, ⟨id, id⟩, trivial, 2, true, rfl⟩

theorem siblings_mirror_twoChildren : ReflTransGen (OrderedStep (· ≠ 0)) blankMem twoChildren ∧
    (twoChildren 1).children = [2, 3] ∧ SiblingsMirror (· ≠ 0) twoChildren :=
  ⟨twoChildren_run, by decide, (siblings_mirror blankMem_linked twoChildren_run).1⟩

/-- **Node 2 is brought in front of node 3, whose link still ends the list.** -/
theorem bring_to_front_breaks : ∃ m', ReflTransGen (NodeStep (· ≠ 0)) blankMem m' ∧ ¬ SiblingsMirror (· ≠ 0) m' := by
  have hrun : ReflTransGen (NodeStep (· ≠ 0)) blankMem twoChildren :=
    ReflTransGen.refl.tail ⟨.addChild 1 2, ⟨id, id⟩, 2, true, rfl⟩
      |>.tail ⟨.addChild 1 3, ⟨id, id⟩, 2, true, rfl⟩
  refine ⟨windowManagerBringToFront twoChildren 2, hrun.tail ⟨.bringToFront 2, id, rfl⟩, fun hmirror => ?_⟩
  have hlinks : (windowManagerBringToFront twoChildren 2 1).children = [3, 2] ∧
      (windowManagerBringToFront twoChildren 2 3).nextSibling = 0 := by decide
  have hend := (hmirror 1 0 (by rw [hlinks.1]; decide) (by decide)).1
  simp [hlinks.1, hlinks.2] at hend

end Linked

end LiwusOS.Gui
