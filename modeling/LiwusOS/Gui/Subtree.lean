import LiwusOS.Gui.NodeOps
import LiwusOS.Lib.Descent
import LiwusOS.Lib.Fuel

/-! # Walks over a subtree

The recursive walks of the scene graph end where every way down the arrays of
children ends, and they visit what lies below their first node. -/

namespace LiwusOS.Gui
open LiwusOS.Lib Relation List Set

/-- `p` lists `c`. -/
def Mem.Child (m : Mem) (p c : Ptr) : Prop := c ∈ (m p).children

/-- The nodes of a subtree. -/
abbrev Mem.Below (m : Mem) : Ptr → Ptr → Prop := ReflTransGen m.Child

/-- Every way down from a node ends. -/
abbrev Mem.Grounded (m : Mem) (p : Ptr) : Prop := Acc (flip m.Child) p

variable {live : Ptr → Prop} {m m' m1 : Mem} {p c q n : Ptr} {fuel : Nat} {flags : Dirty}

theorem Mem.child_congr (h : ∀ q, (m' q).children = (m q).children) : m'.Child = m.Child := by
  funext p c
  rw [Mem.Child, Mem.Child, h]

section

variable (h : OnlyDirty m m')
include h

theorem OnlyDirty.child_eq : m'.Child = m.Child := Mem.child_congr h.children
theorem OnlyDirty.below_eq : m'.Below = m.Below := by rw [Mem.Below, h.child_eq]
theorem OnlyDirty.grounded_eq : m'.Grounded = m.Grounded := by funext p; rw [Mem.Grounded, h.child_eq]

end

theorem Forest.below (h : Forest live m) (hp : live p) (hpq : m.Below p q) : live q := by
  induction hpq with
  | refl => exact hp
  | tail _ hc ih => exact (h.child ih hc).1

theorem Forest.onlyDirty (h : Forest live m) (hd : OnlyDirty m m') : Forest live m' :=
  h.congr (fun q _ => hd.children q) fun q _ => hd.parent q

/-! ## Edges -/

theorem attach_child {a b : Ptr} : (attach m p c).Child a b ↔ m.Child a b ∨ a = p ∧ b = c := by
  rw [Mem.Child, Mem.Child, attach_apply]
  dsimp only
  split
  · rename_i heq
    subst heq
    simp
  · rename_i hne
    simp [hne]

theorem child_of_detach {a b : Ptr} (h : (detach m p c).Child a b) : m.Child a b := by
  rw [Mem.Child, detach_apply] at h
  dsimp only at h
  split at h
  · rename_i heq
    exact heq ▸ mem_of_mem_erase h
  · exact h

theorem detach_child {a b : Ptr} (h : m.Child a b) (hb : b ≠ c) : (detach m p c).Child a b := by
  rw [Mem.Child, detach_apply]
  dsimp only
  split
  · rename_i heq
    exact (mem_erase_of_ne hb).mpr (heq ▸ h)
  · exact h

/-! ## A new node -/

section Create

variable {addr : Ptr} (hchildren : (m' addr).children = []) (hold : ∀ {p}, live p → m' p = m p)
include hchildren hold

/-- The edges are those between the old nodes. -/
theorem Forest.create_edge (h : Forest live m) (hp : p = addr ∨ live p) (hpc : m'.Child p c) :
    live p ∧ live c ∧ m.Child p c := by
  rcases hp with rfl | hp
  · rw [Mem.Child, hchildren] at hpc
    exact absurd hpc not_mem_nil
  · rw [Mem.Child, hold hp] at hpc
    exact ⟨hp, (h.child hp hpc).1, hpc⟩

theorem Forest.create (h : Forest live m) (hnull : addr ≠ 0) (hparent : (m' addr).parent = 0) :
    Forest (fun p => p = addr ∨ live p) m' where
  null := by
    rintro (heq | h0)
    · exact hnull heq.symm
    · exact h.null h0
  child {p c} hp hc := by
    obtain ⟨hp, hclive, hpc⟩ := h.create_edge hchildren hold hp hc
    rw [hold hclive]
    exact ⟨.inr hclive, (h.child hp hpc).2⟩
  listed {c} hc hpar := by
    rcases hc with rfl | hc
    · exact absurd hparent hpar
    · rw [hold hc] at hpar ⊢
      obtain ⟨hp, hmem⟩ := h.listed hc hpar
      rw [hold hp]
      exact ⟨.inr hp, hmem⟩
  nodup {p} hp := by
    rcases hp with rfl | hp
    · rw [hchildren]
      exact nodup_nil
    · rw [hold hp]
      exact h.nodup hp

theorem Forest.create_grounded (h : Forest live m) (hground : ∀ {p}, live p → m.Grounded p)
    (hp : p = addr ∨ live p) : m'.Grounded p := by
  rcases hp with rfl | hp
  · refine .intro _ fun c hc => ?_
    rw [flip, Mem.Child, hchildren] at hc
    exact absurd hc not_mem_nil
  · exact acc_of_below (hground hp) fun q hq c hc => (h.create_edge hchildren hold (.inr (h.below hp hq)) hc).2.2

end Create

/-! ## Marking -/

theorem nodeMarkDirty_settles (h : m.Grounded p) (flags : Dirty) : ∃ m', Settles (nodeMarkDirty · m p flags) m' := by
  -- the flags that are set on the way do not change the children
  suffices ∀ m1, m1.Child = m.Child → ∀ flags, ∃ m', OnlyDirty m1 m' ∧
      Settles (nodeMarkDirty · m1 p flags) m' by
    obtain ⟨m', -, hs⟩ := this m rfl flags
    exact ⟨m', hs⟩
  induction h with
  | intro p _ ih =>
    intro m1 hm1 flags
    by_cases hp : p = 0
    · exact ⟨m1, .refl m1, .succ rfl (fun n => by rw [nodeMarkDirty, if_pos hp]) (.const m1)⟩
    have hset := OnlyDirty.orDirty m1 p flags
    by_cases ht : flags.transform
    · obtain ⟨m', hm', hs⟩ := Settles.foldlM (f := fun n m c => nodeMarkDirty n m c .onlyTransform)
        (I := OnlyDirty (m1.orDirty p flags)) (l := ((m1.orDirty p flags) p).children) (.refl _) fun c hc m2 hm2 => by
          have hchild : m.Child p c := by
            rw [← hm1, ← hset.child_eq]
            exact hc
          obtain ⟨m3, hm3, hs⟩ := ih c hchild m2 (hm2.child_eq.trans (hset.child_eq.trans hm1)) .onlyTransform
          exact ⟨m3, hm2.trans hm3, hs⟩
      exact ⟨m', hset.trans hm', .succ rfl (fun n => by rw [nodeMarkDirty, if_neg hp]; exact if_pos ht) hs⟩
    · exact ⟨_, hset, .succ rfl (fun n => by rw [nodeMarkDirty, if_neg hp]; exact if_neg ht) (.const _)⟩

/-- A subtree is marked, and it is one. -/
structure Marked (m m' : Mem) (p : Ptr) : Prop where
  marks : ∀ q, m.Below p q → (m' q).dirty.transform = true
  elsewhere : ∀ q, ¬ m.Below p q → m' q = m q
  grounded : m.Grounded p

/-- Flags that are set stay set. -/
theorem Marked.mono (h : Marked m m' p) (hq : (m q).dirty.transform = true) : (m' q).dirty.transform = true := by
  by_cases hpq : m.Below p q
  · exact h.marks q hpq
  · rw [h.elsewhere q hpq]
    exact hq

/-- The loop over the children marks the subtree of each. -/
theorem foldlM_marked {f : Mem → Ptr → Option Mem} {l : List Ptr} (hl : ∀ c ∈ l, live c) (hm : Forest live m)
    (hf : ∀ m c m', Forest live m → live c → f m c = some m' → OnlyDirty m m' ∧ Marked m m' c)
    (h : l.foldlM f m = some m') :
    (∀ c ∈ l, ∀ q, m.Below c q → (m' q).dirty.transform = true) ∧
      (∀ q, (∀ c ∈ l, ¬ m.Below c q) → m' q = m q) ∧ (∀ c ∈ l, m.Grounded c) ∧
      ∀ q, (m q).dirty.transform = true → (m' q).dirty.transform = true := by
  induction l generalizing m with
  | nil =>
    cases h
    exact ⟨fun c hc => absurd hc not_mem_nil, fun q _ => rfl, fun c hc => absurd hc not_mem_nil, fun q hq => hq⟩
  | cons c rest ih =>
    rw [foldlM_cons] at h
    obtain ⟨m1, h1, h2⟩ := Option.bind_eq_some_iff.mp h
    obtain ⟨hd, hmark⟩ := hf m c m1 hm (hl c (.head _)) h1
    obtain ⟨hmarks, helse, hground, hmono⟩ := ih (fun c hc => hl c (.tail _ hc)) (hm.onlyDirty hd) h2
    rw [hd.below_eq] at hmarks helse
    rw [hd.grounded_eq] at hground
    refine ⟨fun d hd q hq => ?_, fun q hq => ?_, fun d hd => ?_, fun q hq => hmono q (hmark.mono hq)⟩
    · rcases mem_cons.mp hd with rfl | hd
      · exact hmono q (hmark.marks q hq)
      · exact hmarks d hd q hq
    · rw [helse q fun d hd => hq d (.tail _ hd)]
      exact hmark.elsewhere q (hq c (.head _))
    · rcases mem_cons.mp hd with rfl | hd
      · exact hmark.grounded
      · exact hground d hd

/-- `node_mark_dirty` with TRANSFORM marks exactly a subtree. -/
theorem nodeMarkDirty_marked (hm : Forest live m) (hp : live p) (ht : flags.transform = true)
    (h : nodeMarkDirty fuel m p flags = some m') : Marked m m' p := by
  induction fuel generalizing m p flags m' with
  | zero => cases h
  | succ fuel ih =>
    rw [nodeMarkDirty, if_neg (hm.ne_zero hp)] at h
    dsimp only at h
    rw [if_pos ht] at h
    have hset := OnlyDirty.orDirty m p flags
    have hchildren : ∀ c ∈ ((m.orDirty p flags) p).children, m.Child p c := fun c hc => by
      rw [hset.children] at hc
      exact hc
    obtain ⟨hmarks, helse, hground, hmono⟩ := foldlM_marked (fun c hc => (hm.child hp (hchildren c hc)).1)
      (hm.onlyDirty hset) (fun m1 c m2 hm1 hc h => ⟨nodeMarkDirty_onlyDirty h, ih hm1 hc rfl h⟩) h
    rw [hset.below_eq, hset.children] at hmarks helse
    rw [hset.grounded_eq, hset.children] at hground
    refine ⟨fun q hq => ?_, fun q hq => ?_, .intro p fun c hc => hground c hc⟩
    · rcases ReflTransGen.cases_head hq with rfl | ⟨c, hc, hcq⟩
      · apply hmono
        simp [Mem.orDirty, Dirty.or, ht]
      · exact hmarks c hc q hcq
    · have hqp : q ≠ p := by
        rintro rfl
        exact hq .refl
      rw [helse q fun c hc hcq => hq (.head hc hcq), Mem.orDirty, Mem.modify_apply, if_neg hqp]

/-! ## Searching -/

/-- What a search below `p` answers. -/
structure Found (m : Mem) (p : Ptr) (id : UInt32) (r : Ptr) : Prop where
  found : r ≠ 0 → m.Below p r ∧ (m r).id = id
  missing : r = 0 → ∀ q, m.Below p q → (m q).id ≠ id

/-- The search goes on until a child has an answer. -/
theorem firstFound_settles {id : UInt32} {l : List Ptr}
    (h : ∀ c ∈ l, ∃ r, Settles (nodeFindById · m c id) r ∧ Found m c id r) :
    ∃ r, Settles (fun fuel => firstFound (fun c => nodeFindById fuel m c id) l) r ∧
      (r ≠ 0 → ∃ c ∈ l, m.Below c r ∧ (m r).id = id) ∧ (r = 0 → ∀ c ∈ l, ∀ q, m.Below c q → (m q).id ≠ id) := by
  induction l with
  | nil => exact ⟨0, .const 0, fun h => absurd rfl h, fun _ c hc => absurd hc not_mem_nil⟩
  | cons c rest ih =>
    obtain ⟨r, hr, hfound⟩ := h c (.head _)
    by_cases hr0 : r = 0
    · obtain ⟨r', hr', hsome, hnone⟩ := ih fun c hc => h c (.tail _ hc)
      refine ⟨r', hr.bind (.neg (not_not.mpr hr0) hr'), fun hne => ?_, fun heq d hd => ?_⟩
      · obtain ⟨d, hd, hdr⟩ := hsome hne
        exact ⟨d, .tail _ hd, hdr⟩
      · rcases mem_cons.mp hd with rfl | hd
        · exact hfound.missing hr0
        · exact hnone heq d hd
    · exact ⟨r, hr.bind (.pos hr0 (.const r)), fun _ => ⟨c, .head _, hfound.found hr0⟩,
        fun heq => absurd heq hr0⟩

/-- `node_find_by_id` finds a node of the subtree with the id, if there is one. -/
theorem nodeFindById_settles (hm : Forest live m) (hp : live p) (hground : m.Grounded p) (id : UInt32) :
    ∃ r, Settles (nodeFindById · m p id) r ∧ Found m p id r := by
  induction hground with
  | intro p _ ih =>
    have hp0 := hm.ne_zero hp
    by_cases hid : (m p).id = id
    · refine ⟨p, .succ rfl (fun fuel => ?_) (.const p), fun _ => ⟨.refl, hid⟩, fun heq => absurd heq hp0⟩
      rw [nodeFindById, if_neg hp0, if_pos hid]
    · obtain ⟨r, hr, hsome, hnone⟩ := firstFound_settles fun c hc => ih c hc (hm.child hp hc).1
      refine ⟨r, .succ rfl (fun fuel => ?_) hr, fun hne => ?_, fun heq q hq => ?_⟩
      · rw [nodeFindById, if_neg hp0, if_neg hid]
      · obtain ⟨c, hc, hcr, hrid⟩ := hsome hne
        exact ⟨.head hc hcr, hrid⟩
      · rcases ReflTransGen.cases_head hq with rfl | ⟨c, hc, hcq⟩
        · exact hid
        · exact hnone heq c hc q hcq

/-! ## Destroying -/

open Classical in
/-- A scene without the nodes of `D`. -/
noncomputable def Scene.without (s : Scene) (D : Set Ptr) : Scene :=
  { s with
    mem := fun q => if q ∈ D then { s.mem q with children := (s.mem q).children.map fun _ => 0 } else s.mem q
    live := fun q => if q ∈ D then false else s.live q }

/-- The nodes of the subtree of `p`. -/
def Mem.subtree (m : Mem) (p : Ptr) : Set Ptr := { q | m.Below p q }

theorem Mem.subtree_eq (m : Mem) (p : Ptr) : m.subtree p = {p} ∪ ⋃ c ∈ (m p).children, m.subtree c := by
  ext q
  simp only [Mem.subtree, mem_ofPred_eq, singleton_union, mem_insert_iff, mem_iUnion, exists_prop]
  exact ReflTransGen.cases_head_iff.trans (or_congr eq_comm .rfl)

namespace Scene

variable {s : Scene} {D : Set Ptr}

theorem without_mem_of_notMem (h : q ∉ D) : (s.without D).mem q = s.mem q := if_neg h

theorem without_live : (s.without D).live q = true ↔ q ∉ D ∧ s.live q = true := by
  by_cases h : q ∈ D <;> simp [without, h]

/-- The node itself is the last one of its subtree. -/
theorem without_insert (s : Scene) (D : Set Ptr) (p : Ptr) : (s.without D).release p = s.without ({p} ∪ D) := by
  simp only [release, without, Scene.mk.injEq, and_true]
  constructor <;> funext q <;> by_cases hq : q = p
  · subst hq
    by_cases hD : q ∈ D <;> simp [hD]
  · have hmem : q ∈ ({p} ∪ D : Set Ptr) ↔ q ∈ D := or_iff_right hq
    rw [Mem.modify_apply, if_neg hq]
    by_cases hD : q ∈ D
    · rw [if_pos hD, if_pos (hmem.mpr hD)]
    · rw [if_neg hD, if_neg (mt hmem.mp hD)]
  · subst hq
    rw [Function.update_self, if_pos (mem_union_left D (mem_singleton q))]
  · have hmem : q ∈ ({p} ∪ D : Set Ptr) ↔ q ∈ D := or_iff_right hq
    rw [Function.update_of_ne hq]
    by_cases hD : q ∈ D
    · rw [if_pos hD, if_pos (hmem.mpr hD)]
    · rw [if_neg hD, if_neg (mt hmem.mp hD)]

/-- Entries that are NULL. -/
theorem nodeDestroy_nulls (s : Scene) (l : List Ptr) :
    Settles (fun fuel => (l.map fun _ => 0).foldlM (nodeDestroy fuel) s) s := by
  induction l with
  | nil => exact .const s
  | cons c rest ih =>
    have hnull : Settles (nodeDestroy · s 0) s := .succ rfl (fun fuel => by rw [nodeDestroy, if_pos rfl]) (.const s)
    exact .congr (fun fuel => foldlM_cons) (hnull.bind ih)

/-- `node_destroy` frees a subtree, of which parts may be gone already. -/
theorem nodeDestroy_settles (hm : Forest live s.mem) (hp : live p) (hground : s.mem.Grounded p)
    (hD : ∀ q ∈ D, s.mem.subtree q ⊆ D) :
    Settles ((s.without D).nodeDestroy · p) (s.without (D ∪ s.mem.subtree p)) := by
  induction hground generalizing D with
  | intro p _ ih =>
    have hp0 := hm.ne_zero hp
    by_cases hpD : p ∈ D
    · -- its children have been replaced by NULL
      have hself : ((s.without D).mem p).children = (s.mem p).children.map fun _ => 0 := by
        rw [without]
        exact congrArg Node.children (if_pos hpD)
      have hsame : {p} ∪ D = D ∪ s.mem.subtree p := by
        rw [union_eq_self_of_subset_right (hD p hpD), union_eq_self_of_subset_left (singleton_subset_iff.mpr hpD)]
      rw [← hsame, ← without_insert]
      refine .succ rfl (fun fuel => ?_) ((nodeDestroy_nulls (s.without D) (s.mem p).children).map (release · p))
      rw [nodeDestroy, if_neg hp0, hself]
    · have hself : ((s.without D).mem p).children = (s.mem p).children := by rw [without_mem_of_notMem hpD]
      -- the children are destroyed one after the other
      have hloop : ∀ l : List Ptr, (∀ c ∈ l, s.mem.Child p c) → ∀ D : Set Ptr, (∀ q ∈ D, s.mem.subtree q ⊆ D) →
          Settles (fun fuel => l.foldlM (nodeDestroy fuel) (s.without D))
            (s.without (D ∪ ⋃ c ∈ l, s.mem.subtree c)) := by
        intro l
        induction l with
        | nil =>
          intro _ D _
          simpa using .const (s.without D)
        | cons c rest ihl =>
          intro hl D hD
          have hc := hl c (.head _)
          have hrest := ihl (fun c hc => hl c (.tail _ hc)) (D ∪ s.mem.subtree c) (by
            rintro q (hq | hq)
            · exact (hD q hq).trans subset_union_left
            · exact fun x hx => .inr (.trans hq hx))
          have hset : D ∪ ⋃ d ∈ c :: rest, s.mem.subtree d = (D ∪ s.mem.subtree c) ∪ ⋃ d ∈ rest, s.mem.subtree d := by
            ext q
            simp [or_assoc]
          rw [hset]
          exact .congr (fun fuel => foldlM_cons) ((ih c hc (hm.child hp hc).1 hD).bind hrest)
      have hset : {p} ∪ (D ∪ ⋃ c ∈ (s.mem p).children, s.mem.subtree c) = D ∪ s.mem.subtree p := by
        rw [Mem.subtree_eq s.mem p, union_left_comm]
      rw [← hset, ← without_insert]
      refine .succ rfl (fun fuel => ?_) ((hloop (s.mem p).children (fun c hc => hc) D hD).map (release · p))
      rw [nodeDestroy, if_neg hp0, hself]

end Scene

end LiwusOS.Gui
