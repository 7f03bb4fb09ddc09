import LiwusOS.Gui.Subtree

/-! # Lazy transforms

A node whose TRANSFORM flag is not set has the right world transform, provided
its ancestors have; a node whose flag is set has only such nodes below it. Every
change keeps both, so `node_update_transforms` may leave out what is not marked. -/

namespace LiwusOS.Gui
open LiwusOS.Lib Relation List Function

/-- The world transform of a node under a parent that has the transform `pw`. -/
def Node.placed (n : Node) (pw : Transform) : Transform := transformConcat (transformTranslation n.localX n.localY) pw

/-- The world transforms that are not marked agree with the positions, except for
the nodes that are `stale`. -/
structure Lazy (root : Ptr) (w : Transform) (live stale : Ptr → Prop) (m : Mem) : Prop extends Forest live m where
  grounded : ∀ {p}, live p → m.Grounded p
  down : ∀ {p c}, live p → m.Child p c → c ≠ root → ¬ stale c →
    (m p).dirty.transform = true → (m c).dirty.transform = true
  current : ∀ {p c}, live p → m.Child p c → c ≠ root → ¬ stale c →
    (m c).dirty.transform = false → (m c).worldTransform = (m c).placed (m p).worldTransform
  top : live root → ¬ stale root → (m root).dirty.transform = false → (m root).worldTransform = (m root).placed w

/-- Nothing is stale. -/
abbrev UpToDate (root : Ptr) (w : Transform) (live : Ptr → Prop) (m : Mem) : Prop :=
  Lazy root w live (fun _ => False) m

variable {root : Ptr} {w pw : Transform} {live stale : Ptr → Prop} {m m' m1 : Mem} {p c q n : Ptr} {fuel : Nat}
  {stack : List StackEntry} {x y : Int32}

/-- Marking the subtree of what is stale. -/
theorem Lazy.marked (h : Lazy root w live stale m) (hd : OnlyDirty m m') (hmark : Marked m m' n)
    (hstale : ∀ q, stale q → m.Below n q) : UpToDate root w live m' where
  toForest := h.toForest.onlyDirty hd
  grounded hp := by
    rw [hd.grounded_eq]
    exact h.grounded hp
  down {p c} hp hpc hroot _ hdirty := by
    rw [hd.child_eq] at hpc
    by_cases hc : m.Below n c
    · exact hmark.marks c hc
    · -- neither of the two was marked
      rw [hmark.elsewhere p fun hp => hc (hp.tail hpc)] at hdirty
      exact hmark.mono (h.down hp hpc hroot (fun hs => hc (hstale c hs)) hdirty)
  current {p c} hp hpc hroot _ hclean := by
    rw [hd.child_eq] at hpc
    have hc : ¬ m.Below n c := fun hc => by simp [hmark.marks c hc] at hclean
    rw [hmark.elsewhere c hc] at hclean ⊢
    rw [hmark.elsewhere p fun hp => hc (hp.tail hpc)]
    exact h.current hp hpc hroot (fun hs => hc (hstale c hs)) hclean
  top hlive _ hclean := by
    have hr : ¬ m.Below n root := fun hr => by simp [hmark.marks root hr] at hclean
    rw [hmark.elsewhere root hr] at hclean ⊢
    exact h.top hlive (fun hs => hr (hstale root hs)) hclean

namespace UpToDate

/-! ## Building the tree -/

section
variable (h : UpToDate root w live m)
include h

/-- Links and positions change only where nodes become stale. -/
theorem lazy_of_kept {live' : Ptr → Prop} (hforest : Forest live' m1) (hground : ∀ {p}, live' p → m1.Grounded p)
    (hedge : ∀ {a b}, live' a → m1.Child a b → ¬ stale b → live a ∧ m.Child a b)
    (htop : live' root → live root ∨ (m1 root).dirty.transform = true)
    (hkept : ∀ {q}, live q → (m1 q).dirty = (m q).dirty ∧ (m1 q).worldTransform = (m q).worldTransform ∧
      (¬ stale q → (m1 q).placed = (m q).placed)) : Lazy root w live' stale m1 where
  toForest := hforest
  grounded := hground
  down ha hab hroot hs hdirty := by
    obtain ⟨ha, hab⟩ := hedge ha hab hs
    rw [(hkept ha).1] at hdirty
    rw [(hkept (h.child ha hab).1).1]
    exact h.down ha hab hroot not_false hdirty
  current ha hab hroot hs hclean := by
    obtain ⟨ha, hab⟩ := hedge ha hab hs
    obtain ⟨hdirty, hworld, hplaced⟩ := hkept (h.child ha hab).1
    rw [hdirty] at hclean
    rw [hworld, hplaced hs, (hkept ha).2.1]
    exact h.current ha hab hroot not_false hclean
  top hr hs hclean := by
    rcases htop hr with hr | hd
    · obtain ⟨hdirty, hworld, hplaced⟩ := hkept hr
      rw [hdirty] at hclean
      rw [hworld, hplaced hs]
      exact h.top hr not_false hclean
    · rw [hd] at hclean
      cases hclean

theorem create {addr : Ptr} {id : UInt32} {type : NodeType} (hnull : addr ≠ 0)
    (hnew : m' addr = blankNode id type) (hold : ∀ {p}, live p → m' p = m p) :
    UpToDate root w (fun p => p = addr ∨ live p) m' := by
  have hchildren := congrArg Node.children hnew
  refine h.lazy_of_kept (h.toForest.create hchildren hold hnull (congrArg Node.parent hnew))
    (h.toForest.create_grounded hchildren hold h.grounded) (fun hp hpc _ => ?_) (Or.symm ∘ Or.imp_left ?_)
    fun hq => by rw [hold hq]; exact ⟨rfl, rfl, fun _ => rfl⟩
  · obtain ⟨hp, -, hpc⟩ := h.create_edge hchildren hold hp hpc
    exact ⟨hp, hpc⟩
  · rintro rfl
    rw [hnew]
    rfl

theorem addChild (hp : live p) (hc : live c) (hfree : (m c).parent = 0)
    (hmark : nodeMarkDirty fuel (attach m p c) c .placement = some m') : UpToDate root w live m' := by
  have hforest := h.toForest.attach hp hc hfree
  have hmarked := nodeMarkDirty_marked hforest hc rfl hmark
  have hedge : ∀ {a b}, (attach m p c).Child a b → m.Child a b ∨ b = c := fun hab =>
    (attach_child.mp hab).imp id And.right
  have hlazy : Lazy root w live (· = c) (attach m p c) := h.lazy_of_kept hforest
    (fun ha => acc_of_link hmarked.grounded (fun _ _ => hedge) (h.grounded ha))
    (fun ha hab hne => ⟨ha, (hedge hab).resolve_right hne⟩) .inl fun _ => by
      rw [attach_apply]
      exact ⟨rfl, rfl, fun _ => rfl⟩
  refine hlazy.marked (nodeMarkDirty_onlyDirty hmark) hmarked fun q hq => ?_
  rw [hq]

theorem removeChild (hp : live p) (hmem : c ∈ (m p).children) : UpToDate root w live (detach m p c) :=
  h.lazy_of_kept (h.toForest.detach hp hmem) (fun ha => acc_of_below (h.grounded ha) fun _ _ _ => child_of_detach)
    (fun ha hab _ => ⟨ha, child_of_detach hab⟩) .inl fun _ => by
      rw [detach_apply]
      exact ⟨rfl, rfl, fun _ => rfl⟩

theorem setPosition (hn : live n)
    (hmark : nodeMarkDirty fuel (m.modify n fun node => { node with localX := x, localY := y }) n .onlyTransform =
      some m') : UpToDate root w live m' := by
  set m1 := m.modify n fun node => { node with localX := x, localY := y } with hm1
  have hsame : ∀ q, (m1 q).children = (m q).children ∧ (m1 q).parent = (m q).parent ∧
      (m1 q).dirty = (m q).dirty ∧ (m1 q).worldTransform = (m q).worldTransform ∧
      (q ≠ n → (m1 q).placed = (m q).placed) := by
    intro q
    rw [hm1, Mem.modify_apply]
    split
    · rename_i hq
      rw [hq]
      exact ⟨rfl, rfl, rfl, rfl, absurd rfl⟩
    · exact ⟨rfl, rfl, rfl, rfl, fun _ => rfl⟩
  have hchild : m1.Child = m.Child := Mem.child_congr fun q => (hsame q).1
  have hforest : Forest live m1 := h.toForest.congr (fun q _ => (hsame q).1) fun q _ => (hsame q).2.1
  have hlazy : Lazy root w live (· = n) m1 := by
    refine h.lazy_of_kept hforest (fun ha => ?_) (fun ha hab _ => ⟨ha, hchild ▸ hab⟩) .inl fun _ => (hsame _).2.2
    rw [Mem.Grounded, hchild]
    exact h.grounded ha
  refine hlazy.marked (nodeMarkDirty_onlyDirty hmark) (nodeMarkDirty_marked hforest hn rfl hmark) fun q hq => ?_
  rw [hq]

end

end UpToDate

/-! ## The loop -/

theorem refresh_clean (h : (m n).dirty.transform = false) : refresh m n pw = m := by
  rw [refresh, h]
  rfl

theorem refresh_self (h : (m n).dirty.transform = true) :
    refresh m n pw n = { m n with
      worldTransform := (m n).placed pw
      dirty := { (m n).dirty with transform := false } } := by
  rw [refresh, if_pos h, Mem.modify_apply, if_pos rfl, Node.placed]

theorem refresh_ne (h : q ≠ n) : refresh m n pw q = m q := by
  rw [refresh]
  split
  · rw [Mem.modify_apply, if_neg h]
  · rfl

/-- A node that is brought up to date keeps its links and its position. -/
theorem refresh_links (m : Mem) (n : Ptr) (pw : Transform) (q : Ptr) :
    (refresh m n pw q).children = (m q).children ∧ (refresh m n pw q).parent = (m q).parent := by
  by_cases hq : q = n
  · by_cases hd : (m n).dirty.transform = true
    · rw [hq, refresh_self hd]
      exact ⟨rfl, rfl⟩
    · rw [refresh_clean (eq_false_of_ne_true hd)]
      exact ⟨rfl, rfl⟩
  · rw [refresh_ne hq]
    exact ⟨rfl, rfl⟩

theorem refresh_child (m : Mem) (n : Ptr) (pw : Transform) : (refresh m n pw).Child = m.Child :=
  Mem.child_congr fun q => (refresh_links m n pw q).1

theorem refresh_below (m : Mem) (n : Ptr) (pw : Transform) : (refresh m n pw).Below = m.Below := by
  rw [Mem.Below, refresh_child]

/-- The node is clean then, and no flag has been set. -/
theorem refresh_cleans (m : Mem) (n : Ptr) (pw : Transform) : (refresh m n pw n).dirty.transform = false := by
  by_cases hd : (m n).dirty.transform = true
  · rw [refresh_self hd]
  · rw [refresh_clean (eq_false_of_ne_true hd)]
    exact eq_false_of_ne_true hd

theorem refresh_keeps (hq : (m q).dirty.transform = false) : refresh m n pw q = m q := by
  by_cases hqn : q = n
  · rw [refresh_clean (hqn ▸ hq)]
  · exact refresh_ne hqn

/-- What is pushed comes to lie on the stack. -/
theorem pushChildren_subset (pw : Transform) (cs : List Ptr) (stack : List StackEntry) :
    ∃ pushed, (pushChildren pw cs stack).1 = pushed ++ stack ∧ ∀ e ∈ pushed, e.1 ∈ cs := by
  induction cs generalizing stack with
  | nil => exact ⟨[], rfl, fun e he => absurd he not_mem_nil⟩
  | cons c rest ih =>
    rw [pushChildren]
    split
    · obtain ⟨pushed, heq, hmem⟩ := ih ((c, pw) :: stack)
      refine ⟨pushed ++ [(c, pw)], by rw [heq, append_assoc, singleton_append], fun e he => ?_⟩
      rcases mem_append.mp he with he | he
      · exact .tail _ (hmem e he)
      · rw [mem_singleton.mp he]
        exact .head _
    · obtain ⟨pushed, heq, hmem⟩ := ih stack
      exact ⟨pushed, heq, fun e he => .tail _ (hmem e he)⟩

/-- With room for all of them, the children are pushed. -/
theorem mem_pushChildren {cs : List Ptr} (h : (pushChildren pw cs stack).2 = true) {e : StackEntry} :
    e ∈ (pushChildren pw cs stack).1 ↔ e ∈ stack ∨ e.1 ∈ cs ∧ e.2 = pw := by
  induction cs generalizing stack with
  | nil => simp [pushChildren]
  | cons c rest ih =>
    rw [pushChildren] at h ⊢
    split at h
    · rename_i hroom
      rw [if_pos hroom, ih h, mem_cons, mem_cons, Prod.ext_iff]
      grind
    · cases h

/-- The loop ends when it ends on the rest of the stack, whatever was refreshed. -/
theorem updateLoop_settles (hn : m.Grounded n) (hm1 : m1.Child = m.Child)
    (hrest : ∀ m2 : Mem, m2.Child = m.Child → ∃ r, Settles (updateLoop · m2 stack) r) :
    ∃ r, Settles (updateLoop · m1 ((n, pw) :: stack)) r := by
  induction hn generalizing m1 stack pw with
  | intro n _ ih =>
    by_cases hnull : n = 0
    · obtain ⟨r, hr⟩ := hrest m1 hm1
      exact ⟨r, .succ rfl (fun fuel => by rw [updateLoop, if_pos hnull]) hr⟩
    obtain ⟨pushed, hpushed, hmem⟩ :=
      pushChildren_subset (refresh m1 n pw n).worldTransform (refresh m1 n pw n).children stack
    have hchild : (refresh m1 n pw).Child = m.Child := (refresh_child m1 n pw).trans hm1
    have hall : ∀ m2 : Mem, m2.Child = m.Child → ∃ r, Settles (fun fuel => updateLoop fuel m2 (pushed ++ stack)) r := by
      clear hpushed
      induction pushed with
      | nil => exact hrest
      | cons e pushed ihp =>
        intro m2 hm2
        have he : m.Child n e.1 := by
          rw [← hchild]
          exact hmem e (.head _)
        exact ih e.1 he hm2 (ihp fun e he => hmem e (.tail _ he))
    obtain ⟨r, hr⟩ := hall _ hchild
    rw [← hpushed] at hr
    exact ⟨_, .succ rfl (fun fuel => by rw [updateLoop, if_neg hnull]) (hr.map _)⟩

/-- The nodes on the stack have parents that are up to date, and the nodes that are
still marked lie below one of them. -/
structure Updating (root : Ptr) (w : Transform) (live : Ptr → Prop) (m : Mem) (stack : List StackEntry) : Prop
    extends Lazy root w live (fun _ => False) m where
  below : ∀ e ∈ stack, m.Below root e.1
  source : ∀ e ∈ stack, e.1 = root ∧ e.2 = w ∨ e.1 ≠ root ∧ ∃ p, live p ∧ m.Child p e.1 ∧
    (m p).worldTransform = e.2 ∧ (m p).dirty.transform = false
  pending : ∀ q, m.Below root q → (m q).dirty.transform = false ∨ ∃ e ∈ stack, m.Below e.1 q

namespace Updating

variable (hroot : live root)
include hroot

/-- The node on top is brought up to date. -/
theorem refresh_upToDate (h : Updating root w live m ((n, pw) :: stack)) : UpToDate root w live (refresh m n pw) := by
  by_cases hd : (m n).dirty.transform = true
  swap
  · rw [refresh_clean (eq_false_of_ne_true hd)]
    exact h.toLazy
  have hsource := h.source (n, pw) (.head _)
  have hn : live n := h.toForest.below hroot (h.below (n, pw) (.head _))
  refine
    { toForest := h.toForest.congr (fun q _ => (refresh_links m n pw q).1) fun q _ => (refresh_links m n pw q).2
      grounded := fun hp => ?_, down := fun {p c} hp hpc hne _ hdirty => ?_,
      current := fun {p c} hp hpc hne _ hclean => ?_, top := fun hr _ hclean => ?_ }
  · rw [Mem.Grounded, refresh_child]
    exact h.grounded hp
  · rw [refresh_child] at hpc
    have hpn : p ≠ n := by
      rintro rfl
      rw [refresh_cleans] at hdirty
      cases hdirty
    rw [refresh_ne hpn] at hdirty
    have hcn : c ≠ n := by
      rintro rfl
      rcases hsource with ⟨heq, -⟩ | ⟨-, p', hp', hpc', -, hclean⟩
      · exact hne heq
      · rw [h.parent_unique hp' hp hpc' hpc, hdirty] at hclean
        cases hclean
    rw [refresh_ne hcn]
    exact h.down hp hpc hne not_false hdirty
  · rw [refresh_child] at hpc
    by_cases hcn : c = n
    · subst hcn
      have hpc' : p ≠ c := by
        rintro rfl
        exact not_below_of_acc (h.grounded hp) hpc .refl
      rcases hsource with ⟨heq, -⟩ | ⟨-, p', hp', hchild, hworld, -⟩
      · exact absurd heq hne
      · rw [refresh_ne hpc', refresh_self hd, ← h.parent_unique hp' hp hchild hpc, hworld]
        rfl
    · rw [refresh_ne hcn] at hclean ⊢
      have hpn : p ≠ n := by
        rintro rfl
        rw [h.down hp hpc hne not_false hd] at hclean
        cases hclean
      rw [refresh_ne hpn]
      exact h.current hp hpc hne not_false hclean
  · by_cases hrn : root = n
    · subst hrn
      rcases hsource with ⟨-, hw⟩ | ⟨hne, -⟩
      · rw [refresh_self hd, ← hw]
        rfl
      · exact absurd rfl hne
    · rw [refresh_ne hrn] at hclean ⊢
      exact h.top hr not_false hclean

/-- One round of the loop. -/
theorem step (h : Updating root w live m ((n, pw) :: stack))
    (hroom : (pushChildren (refresh m n pw n).worldTransform (refresh m n pw n).children stack).2 = true) :
    Updating root w live (refresh m n pw)
      (pushChildren (refresh m n pw n).worldTransform (refresh m n pw n).children stack).1 := by
  have hbelow := h.below (n, pw) mem_cons_self
  have hn : live n := h.toForest.below hroot hbelow
  refine { toLazy := h.refresh_upToDate hroot, below := fun e he => ?_, source := fun e he => ?_,
           pending := fun q hq => ?_ }
  · rw [refresh_below]
    rcases (mem_pushChildren hroom).mp he with he | ⟨he, -⟩
    · exact h.below e (mem_cons_of_mem _ he)
    · rw [(refresh_links m n pw n).1] at he
      exact hbelow.tail he
  · rcases (mem_pushChildren hroom).mp he with he | ⟨he, hw⟩
    · rcases h.source e (mem_cons_of_mem _ he) with hr | ⟨hne, p, hp, hpc, hworld, hclean⟩
      · exact .inl hr
      · refine .inr ⟨hne, p, hp, by rwa [refresh_child], ?_, ?_⟩ <;> rw [refresh_keeps hclean] <;> assumption
    · rw [(refresh_links m n pw n).1] at he
      have hne : e.1 ≠ root := by
        intro heq
        rw [heq] at he
        exact not_below_of_acc (h.grounded hn) he hbelow
      exact .inr ⟨hne, n, hn, by rwa [refresh_child], hw.symm, refresh_cleans m n pw⟩
  · rw [refresh_below] at hq
    rcases h.pending q hq with hclean | ⟨e, he, heq⟩
    · rw [refresh_keeps hclean]
      exact .inl hclean
    rcases mem_cons.mp he with rfl | he
    · rcases ReflTransGen.cases_head heq with rfl | ⟨c, hc, hcq⟩
      · exact .inl (refresh_cleans m n pw)
      · refine .inr ⟨(c, (refresh m n pw n).worldTransform), (mem_pushChildren hroom).mpr (.inr ⟨?_, rfl⟩), ?_⟩
        · rw [(refresh_links m n pw n).1]
          exact hc
        · rwa [refresh_below]
    · refine .inr ⟨e, (mem_pushChildren hroom).mpr (.inl he), ?_⟩
      rwa [refresh_below]

theorem loop (h : Updating root w live m stack) (hrun : updateLoop fuel m stack = some (m', true)) :
    UpToDate root w live m' ∧ ∀ q, m'.Below root q → (m' q).dirty.transform = false := by
  induction fuel generalizing m stack with
  | zero => cases hrun
  | succ fuel ih =>
    match stack with
    | [] =>
      cases hrun
      refine ⟨h.toLazy, fun q hq => (h.pending q hq).resolve_right ?_⟩
      rintro ⟨e, he, -⟩
      exact absurd he not_mem_nil
    | (n, pw) :: stack =>
      have hn : live n := h.toForest.below hroot (h.below (n, pw) (.head _))
      rw [updateLoop, if_neg (h.ne_zero hn)] at hrun
      obtain ⟨⟨m1, ok⟩, hrest, heq⟩ := Option.map_eq_some_iff.mp hrun
      obtain ⟨rfl, hok⟩ := Prod.mk.inj heq
      obtain ⟨hroom, rfl⟩ := (Bool.and_eq_true _ _).mp hok
      exact ih (h.step hroot hroom) hrest

end Updating

/-! ## Runs -/

inductive TreeOp where
  | create (addr : Ptr) (type : NodeType)
  | addChild (parent child : Ptr)
  | removeChild (parent child : Ptr)
  | setPosition (node : Ptr) (x y : Int32)
  | updateTransforms

/-- An operation on nodes or NULL ends in the scene `s'`; `node_create` gets fresh
memory or none, and the stack of an update is large enough. -/
def TreeOp.Ends (root : Ptr) (w : Transform) (s s' : Scene) : TreeOp → Prop
  | .create addr type => s.live addr = false ∧ s' = (s.nodeCreate addr type).2
  | .addChild parent child => (parent ≠ 0 → s.live parent) ∧ (child ≠ 0 → s.live child) ∧
    ∃ fuel added m', nodeAddChild fuel s.mem parent child = some (added, m') ∧ s' = { s with mem := m' }
  | .removeChild parent child => (parent ≠ 0 → s.live parent) ∧
    s' = { s with mem := nodeRemoveChild s.mem parent child }
  | .setPosition node x y => (node ≠ 0 → s.live node) ∧
    ∃ fuel m', nodeSetPosition fuel s.mem node x y = some m' ∧ s' = { s with mem := m' }
  | .updateTransforms => (root ≠ 0 → s.live root) ∧
    ∃ fuel m', nodeUpdateTransforms fuel s.mem root w = some (m', true) ∧ s' = { s with mem := m' }

def TreeStep (root : Ptr) (w : Transform) (s s' : Scene) : Prop := ∃ op : TreeOp, op.Ends root w s s'

/-- What holds of the nodes of a scene. -/
def Scene.UpToDate (s : Scene) (root : Ptr) (w : Transform) : Prop := Gui.UpToDate root w (s.live ·) s.mem

variable {s s' s₀ : Scene}

/-- What an update leaves behind. -/
theorem UpToDate.updateTransforms (h : UpToDate root w live m) (hroot : live root)
    (hrun : nodeUpdateTransforms fuel m root w = some (m', true)) :
    UpToDate root w live m' ∧ ∀ q, m'.Below root q → (m' q).dirty.transform = false := by
  rw [nodeUpdateTransforms, if_neg (h.ne_zero hroot)] at hrun
  have hstart : Updating root w live m [(root, w)] :=
    { toLazy := h
      below := fun e he => by
        rw [mem_singleton.mp he]
      source := fun e he => by
        rw [mem_singleton.mp he]
        exact .inl ⟨rfl, rfl⟩
      pending := fun q hq => .inr ⟨(root, w), mem_singleton_self _, hq⟩ }
  exact hstart.loop hroot hrun

theorem Scene.UpToDate.step (h : s.UpToDate root w) (hs : TreeStep root w s s') : s'.UpToDate root w := by
  obtain ⟨op, hends⟩ := hs
  cases op with
  | create addr type =>
    obtain ⟨hfresh, rfl⟩ := hends
    rw [Scene.nodeCreate]
    split
    · exact h
    rename_i hnull
    have hlive : (fun p => update s.live addr true p = true) = fun p => p = addr ∨ s.live p = true := by
      funext p
      by_cases hp : p = addr <;> simp [hp]
    rw [Scene.UpToDate]
    dsimp only
    rw [hlive]
    refine Gui.UpToDate.create h hnull (update_self ..) fun {p} hp => update_of_ne ?_ ..
    rintro rfl
    rw [hfresh] at hp
    cases hp
  | addChild parent child =>
    obtain ⟨hp, hc, fuel, added, m', hadd, rfl⟩ := hends
    rcases nodeAddChild_cases hadd with ⟨-, rfl, -⟩ | ⟨-, hp0, hc0, -, hfree, hmark⟩
    · exact h
    · exact Gui.UpToDate.addChild h (hp hp0) (hc hc0) hfree hmark
  | removeChild parent child =>
    obtain ⟨hp, rfl⟩ := hends
    rcases nodeRemoveChild_cases s.mem parent child with heq | ⟨hp0, -, hmem, heq⟩
    · rw [heq]
      exact h
    · rw [heq]
      exact Gui.UpToDate.removeChild h (hp hp0) hmem
  | setPosition node x y =>
    obtain ⟨hn, fuel, m', hset, rfl⟩ := hends
    rw [nodeSetPosition] at hset
    split at hset
    · cases hset
      exact h
    rename_i hn0
    split at hset
    · cases hset
      exact h
    · exact Gui.UpToDate.setPosition h (hn hn0) hset
  | updateTransforms =>
    obtain ⟨hroot, fuel, m', hrun, rfl⟩ := hends
    by_cases hr0 : root = 0
    · rw [nodeUpdateTransforms, if_pos hr0] at hrun
      cases hrun
      exact h
    · exact (Gui.UpToDate.updateTransforms h (hroot hr0) hrun).1

/-- The local positions along a path down from a node add up to `x` and `y`. -/
inductive Mem.PathSum (m : Mem) (root : Ptr) : Ptr → Int → Int → Prop where
  | root : m.PathSum root root (m root).localX.toInt (m root).localY.toInt
  | child {p c : Ptr} {x y : Int} : m.PathSum root p x y → m.Child p c →
    m.PathSum root c (x + (m c).localX.toInt) (y + (m c).localY.toInt)

/-- A translation in wrapping arithmetic. -/
def IsTranslation (t : Transform) (x y : Int) : Prop :=
  ∃ tx ty : Int32, t = transformTranslation tx ty ∧ tx.toInt = x.bmod (2 ^ 32) ∧ ty.toInt = y.bmod (2 ^ 32)

theorem Mem.PathSum.reached {x y : Int} (h : m.PathSum root n x y) : m.Below root n := by
  induction h with
  | root => exact .refl
  | child _ hc ih => exact ih.tail hc

/-- One more position. -/
theorem IsTranslation.placed {t : Transform} {x y : Int} (h : IsTranslation t x y) (node : Node) :
    IsTranslation (node.placed t) (x + node.localX.toInt) (y + node.localY.toInt) := by
  obtain ⟨tx, ty, rfl, hx, hy⟩ := h
  refine ⟨node.localX + tx, node.localY + ty, transformConcat_translation .., ?_, ?_⟩
  · rw [Int32.toInt_add, hx, Int.add_bmod_bmod, Int.add_comm]
  · rw [Int32.toInt_add, hy, Int.add_bmod_bmod, Int.add_comm]

/-- Without flags the world transforms are the sums. -/
theorem UpToDate.world {wx wy : Int32} (h : UpToDate root (transformTranslation wx wy) live m) (hroot : live root)
    (hclean : ∀ q, m.Below root q → (m q).dirty.transform = false) {x y : Int} (hn : m.PathSum root n x y) :
    IsTranslation (m n).worldTransform (wx.toInt + x) (wy.toInt + y) := by
  induction hn with
  | root =>
    have hw : IsTranslation (transformTranslation wx wy) wx.toInt wy.toInt :=
      ⟨wx, wy, rfl, (Int.bmod_eq_of_le (by have := wx.le_toInt; omega) (by have := wx.toInt_lt; omega)).symm,
        (Int.bmod_eq_of_le (by have := wy.le_toInt; omega) (by have := wy.toInt_lt; omega)).symm⟩
    rw [h.top hroot not_false (hclean root .refl)]
    exact hw.placed _
  | @child p c x y hp hpc ih =>
    have hlive := h.toForest.below hroot hp.reached
    have hne : c ≠ root := by
      rintro rfl
      exact not_below_of_acc (h.grounded hlive) hpc hp.reached
    rw [h.current hlive hpc hne not_false (hclean c (hp.reached.tail hpc)), ← Int.add_assoc, ← Int.add_assoc]
    exact ih.placed _

/-- Before any node has been created. -/
theorem Scene.UpToDate.empty (h : ∀ p, s.live p = false) : s.UpToDate root w := by
  have hnone : ∀ {p}, ¬ s.live p = true := fun {p} hp => by simp [h p] at hp
  exact
    { null := hnone
      child := fun hp => absurd hp hnone
      listed := fun hp => absurd hp hnone
      nodup := fun hp => absurd hp hnone
      grounded := fun hp => absurd hp hnone
      down := fun hp => absurd hp hnone
      current := fun hp => absurd hp hnone
      top := fun hp => absurd hp hnone }

theorem Scene.UpToDate.run (h : s₀.UpToDate root w) (hr : ReflTransGen (TreeStep root w) s₀ s) :
    s.UpToDate root w := by
  induction hr with
  | refl => exact h
  | tail _ hs ih => exact ih.step hs

/-- **Lazy transforms are eager ones.** However the tree was built, moved about and
updated before, an update ends, and with room on the stack it leaves every node of
the tree unmarked and with the translation by `wx`, `wy` and the local positions on
its path. -/
theorem lazy_eq_eager {wx wy : Int32} (hempty : ∀ p, s₀.live p = false)
    (hr : ReflTransGen (TreeStep root (transformTranslation wx wy)) s₀ s) (hroot : s.live root = true) :
    (∃ r, Settles (fun fuel => nodeUpdateTransforms fuel s.mem root (transformTranslation wx wy)) r) ∧
      ∀ fuel m', nodeUpdateTransforms fuel s.mem root (transformTranslation wx wy) = some (m', true) →
        ∀ n x y, m'.PathSum root n x y → (m' n).dirty.transform = false ∧
          (FitsInt (wx.toInt + x) → FitsInt (wy.toInt + y) → ∃ tx ty,
            (m' n).worldTransform = transformTranslation tx ty ∧
            tx.toInt = wx.toInt + x ∧ ty.toInt = wy.toInt + y) := by
  have hup := (Scene.UpToDate.empty hempty).run hr
  refine ⟨?_, fun fuel m' hrun n x y hn => ?_⟩
  · have hend : ∃ r, Settles (fun fuel => updateLoop fuel s.mem [(root, transformTranslation wx wy)]) r :=
      updateLoop_settles (hup.grounded hroot) rfl fun m2 _ =>
        ⟨(m2, true), .succ rfl (fun fuel => by rw [updateLoop]) (.const _)⟩
    obtain ⟨r, hsettles⟩ := hend
    refine ⟨r, .congr (fun fuel => ?_) hsettles⟩
    rw [nodeUpdateTransforms, if_neg (hup.ne_zero hroot)]
  · obtain ⟨hup', hclean⟩ := Gui.UpToDate.updateTransforms hup hroot hrun
    refine ⟨hclean n hn.reached, fun hx hy => ?_⟩
    obtain ⟨tx, ty, hworld, htx, hty⟩ := hup'.world hroot hclean hn
    exact ⟨tx, ty, hworld, htx.trans hx.bmod_eq, hty.trans hy.bmod_eq⟩

/-! ## A concrete run -/

def noNodes : Scene := ⟨fun _ => blankNode 0 .generic, fun _ => false, 1, 1⟩

/-- A node with a child at (3, 4). -/
def twoNodes : Scene := ((noNodes.nodeCreate 1 .generic).2.nodeCreate 2 .generic).2
def attached : Scene :=
  { twoNodes with mem := ((nodeAddChild 2 twoNodes.mem 1 2).map Prod.snd).getD twoNodes.mem }
def moved : Scene := { attached with mem := (nodeSetPosition 2 attached.mem 2 3 4).getD attached.mem }

/-- The nodes after an update under a translation by (10, 20). -/
def updated : Mem :=
  ((nodeUpdateTransforms 4 moved.mem 1 (transformTranslation 10 20)).map Prod.fst).getD moved.mem

theorem moved_run : ReflTransGen (TreeStep 1 (transformTranslation 10 20)) noNodes moved :=
  ReflTransGen.refl.tail ⟨.create 1 .generic, rfl, rfl⟩
    |>.tail ⟨.create 2 .generic, rfl, rfl⟩
    |>.tail ⟨.addChild 1 2, fun _ => rfl, fun _ => rfl, 2, true, attached.mem, rfl, rfl⟩
    |>.tail ⟨.setPosition 2 3 4, fun _ => rfl, 2, moved.mem, rfl, rfl⟩

theorem lazy_eq_eager_moved : ReflTransGen (TreeStep 1 (transformTranslation 10 20)) noNodes moved ∧
    (updated 2).dirty.transform = false ∧
      ∃ tx ty, (updated 2).worldTransform = transformTranslation tx ty ∧ tx.toInt = 13 ∧ ty.toInt = 24 := by
  obtain ⟨-, hupdate⟩ := lazy_eq_eager (fun _ => rfl) moved_run rfl
  have hchild : updated.Child 1 2 := by
    rw [Mem.Child]
    decide
  obtain ⟨hclean, hworld⟩ := hupdate 4 updated rfl 2 _ _ (.child .root hchild)
  refine ⟨moved_run, hclean, hworld ?_ ?_⟩ <;> rw [FitsInt] <;> decide

end LiwusOS.Gui
