import LiwusOS.Gui.Node

/-! # What the operations on nodes change

The links between nodes, the flags and the rest of a node are changed by different
operations. -/

namespace LiwusOS.Gui
open List

variable {m m' : Mem} {p c q : Ptr} {fuel : Nat} {flags : Dirty}

@[simp] theorem Mem.modify_apply (m : Mem) (p q : Ptr) (f : Node → Node) :
    m.modify p f q = if q = p then f (m p) else m q := Function.update_apply ..

/-! ## Marking -/

/-- Only flags differ. -/
def OnlyDirty (m m' : Mem) : Prop := ∀ q, m' q = { m q with dirty := (m' q).dirty }

namespace OnlyDirty

theorem refl (m : Mem) : OnlyDirty m m := fun _ => rfl

theorem trans {m'' : Mem} (h : OnlyDirty m m') (h' : OnlyDirty m' m'') : OnlyDirty m m'' := by
  intro q
  rw [h' q, h q]

theorem orDirty (m : Mem) (p : Ptr) (flags : Dirty) : OnlyDirty m (m.orDirty p flags) := by
  intro q
  rw [Mem.orDirty, Mem.modify_apply]
  split
  · rename_i heq
    rw [heq]
  · rfl

variable (h : OnlyDirty m m')
include h

theorem children (q : Ptr) : (m' q).children = (m q).children := by rw [h q]
theorem parent (q : Ptr) : (m' q).parent = (m q).parent := by rw [h q]
theorem nextSibling (q : Ptr) : (m' q).nextSibling = (m q).nextSibling := by rw [h q]
theorem prevSibling (q : Ptr) : (m' q).prevSibling = (m q).prevSibling := by rw [h q]

end OnlyDirty

/-- A loop over the children. -/
theorem foldlM_onlyDirty {f : Mem → Ptr → Option Mem} (hf : ∀ m c m', f m c = some m' → OnlyDirty m m')
    {l : List Ptr} (h : l.foldlM f m = some m') : OnlyDirty m m' := by
  induction l generalizing m with
  | nil =>
    cases h
    exact .refl _
  | cons c rest ih =>
    rw [foldlM_cons] at h
    obtain ⟨m1, h1, h2⟩ := Option.bind_eq_some_iff.mp h
    exact (hf m c m1 h1).trans (ih h2)

theorem nodeMarkDirty_onlyDirty (h : nodeMarkDirty fuel m p flags = some m') : OnlyDirty m m' := by
  induction fuel generalizing m p flags m' with
  | zero => cases h
  | succ fuel ih =>
    rw [nodeMarkDirty] at h
    split at h
    · cases h
      exact .refl m
    dsimp only at h
    split at h
    · exact (OnlyDirty.orDirty m p flags).trans (foldlM_onlyDirty (fun _ _ _ => ih) h)
    · cases h
      exact .orDirty m p flags

/-! ## Links -/

/-- The child and the one that was last before it are linked. -/
theorem attach_apply (m : Mem) (p c q : Ptr) : attach m p c q =
    { m q with
      parent := if q = c then p else (m q).parent
      children := if q = p then (m p).children ++ [c] else (m q).children
      nextSibling := if q = c then 0 else if (m p).children.getLast? = some q then c else (m q).nextSibling
      prevSibling := if q = c then (m p).children.getLastD (m c).prevSibling else (m q).prevSibling } := by
  have hchildren : ((m.modify c fun n => { n with parent := p }) p).children = (m p).children := by
    rw [Mem.modify_apply]
    split
    · rename_i heq
      rw [heq]
    · rfl
  rw [attach, linkLast, hchildren]
  cases hlast : (m p).children.getLast? with
  | none =>
    have hnil : (m p).children = [] := getLast?_eq_none_iff.mp hlast
    simp only [Mem.modify_apply, hnil]
    by_cases hqc : q = c <;> by_cases hqp : q = p <;> by_cases hpc : p = c <;> simp_all
  | some last =>
    have hd : (m p).children.getLastD (m c).prevSibling = last := by
      rw [getLastD_eq_getLast?, hlast]
      rfl
    simp only [Mem.modify_apply, hd, Option.some_inj, @eq_comm _ last q]
    by_cases hqc : q = c <;> by_cases hqp : q = p <;> by_cases hpc : p = c <;> by_cases hql : q = last <;> simp_all

theorem patchSiblings_apply (m : Mem) (c q : Ptr) : patchSiblings m c q =
    { m q with
      nextSibling := if (m c).prevSibling ≠ 0 ∧ q = (m c).prevSibling then (m c).nextSibling else (m q).nextSibling
      prevSibling := if (m c).nextSibling ≠ 0 ∧ q = (m c).nextSibling then (m c).prevSibling
        else (m q).prevSibling } := by
  -- the first write does not reach what the second one reads
  have hfirst :
      let m1 := if (m c).prevSibling ≠ 0 then
          m.modify (m c).prevSibling fun n => { n with nextSibling := (m c).nextSibling }
        else m
      (m1 c).nextSibling = (m c).nextSibling ∧ (m1 c).prevSibling = (m c).prevSibling := by
    dsimp only
    split
    · rw [Mem.modify_apply]
      split
      · rename_i heq
        exact ⟨rfl, by simp [← heq]⟩
      · exact ⟨rfl, rfl⟩
    · exact ⟨rfl, rfl⟩
  obtain ⟨hnext, hprev⟩ := hfirst
  rw [patchSiblings]
  dsimp only
  rw [hnext, hprev]
  generalize (m c).prevSibling = a
  generalize (m c).nextSibling = b
  by_cases ha : a = 0 <;> by_cases hb : b = 0 <;> by_cases hqa : q = a <;> by_cases hqb : q = b <;> simp_all

/-- The neighbours of a child are linked to each other. -/
theorem detach_apply (m : Mem) (p c q : Ptr) : detach m p c q =
    { m q with
      parent := if q = c then 0 else (m q).parent
      children := if q = p then (m p).children.erase c else (m q).children
      nextSibling := if q = c then 0
        else if (m c).prevSibling ≠ 0 ∧ q = (m c).prevSibling then (m c).nextSibling else (m q).nextSibling
      prevSibling := if q = c then 0
        else if (m c).nextSibling ≠ 0 ∧ q = (m c).nextSibling then (m c).prevSibling else (m q).prevSibling } := by
  simp only [detach, Mem.modify_apply, patchSiblings_apply]
  by_cases hqc : q = c
  · subst hqc
    by_cases hqp : q = p
    · subst hqp
      simp
    · simp [hqp]
  · by_cases hqp : q = p
    · subst hqp
      simp [hqc]
    · simp [hqc, hqp]

/-- The parents and the arrays of children of the nodes agree: a child names the
one node that lists it, once. -/
structure Forest (live : Ptr → Prop) (m : Mem) : Prop where
  null : ¬ live 0
  child : ∀ {p c}, live p → c ∈ (m p).children → live c ∧ (m c).parent = p
  listed : ∀ {c}, live c → (m c).parent ≠ 0 → live (m c).parent ∧ c ∈ (m (m c).parent).children
  nodup : ∀ {p}, live p → (m p).children.Nodup

namespace Forest

variable {live : Ptr → Prop}

section
variable (h : Forest live m)
include h

theorem ne_zero (hp : live p) : p ≠ 0 := by
  rintro rfl
  exact h.null hp

/-- A node without a parent is nobody's child. -/
theorem notMem (hfree : (m c).parent = 0) (hp : live p) : c ∉ (m p).children := by
  intro hmem
  exact h.ne_zero hp ((h.child hp hmem).2.symm.trans hfree)

/-- Nodes have one parent. -/
theorem parent_unique (hp : live p) (hq : live q) (hcp : c ∈ (m p).children)
    (hcq : c ∈ (m q).children) : p = q := (h.child hp hcp).2.symm.trans (h.child hq hcq).2

/-- Only the parents and the arrays of children matter. -/
theorem congr (hchildren : ∀ q, live q → (m' q).children = (m q).children)
    (hparent : ∀ q, live q → (m' q).parent = (m q).parent) : Forest live m' where
  null := h.null
  child {p c} hp hc := by
    rw [hchildren p hp] at hc
    obtain ⟨hlive, hpar⟩ := h.child hp hc
    exact ⟨hlive, (hparent c hlive).trans hpar⟩
  listed {c} hc hpar := by
    rw [hparent c hc] at hpar ⊢
    obtain ⟨hlive, hmem⟩ := h.listed hc hpar
    exact ⟨hlive, hchildren _ hlive ▸ hmem⟩
  nodup {p} hp := by
    rw [hchildren p hp]
    exact h.nodup hp

theorem attach (hp : live p) (hc : live c) (hfree : (m c).parent = 0) :
    Forest live (attach m p c) where
  null := h.null
  child {q d} hq hd := by
    have hdc : d ∈ (m q).children → d ≠ c := fun hd heq => h.notMem hfree hq (heq ▸ hd)
    rw [attach_apply] at hd ⊢
    dsimp only at hd ⊢
    split at hd
    · rename_i heq
      subst heq
      rcases mem_append.mp hd with hd | hd
      · rw [if_neg (hdc hd)]
        exact h.child hq hd
      · rw [mem_singleton.mp hd, if_pos rfl]
        exact ⟨hc, rfl⟩
    · rw [if_neg (hdc hd)]
      exact h.child hq hd
  listed {d} hd hpar := by
    simp only [attach_apply] at hpar ⊢
    by_cases hdc : d = c
    · rw [if_pos hdc, if_pos rfl, hdc]
      exact ⟨hp, mem_append_right _ (mem_singleton_self c)⟩
    · rw [if_neg hdc] at hpar ⊢
      obtain ⟨hlive, hmem⟩ := h.listed hd hpar
      refine ⟨hlive, ?_⟩
      split
      · rename_i heq
        exact mem_append_left _ (heq ▸ hmem)
      · exact hmem
  nodup {q} hq := by
    rw [attach_apply]
    dsimp only
    split
    · have hcons : (c :: (m p).children).Nodup := nodup_cons.mpr ⟨h.notMem hfree hp, h.nodup hp⟩
      exact (perm_append_singleton c _).nodup_iff.mpr hcons
    · exact h.nodup hq

theorem detach (hp : live p) (hmem : c ∈ (m p).children) : Forest live (detach m p c) where
  null := h.null
  child {q d} hq hd := by
    rw [detach_apply] at hd ⊢
    dsimp only at hd ⊢
    split at hd
    · rename_i heq
      subst heq
      obtain ⟨hdc, hd⟩ := (h.nodup hq).mem_erase_iff.mp hd
      rw [if_neg hdc]
      exact h.child hq hd
    · rename_i hqp
      have hdc : d ≠ c := fun heq => hqp (h.parent_unique hq hp (heq ▸ hd) hmem)
      rw [if_neg hdc]
      exact h.child hq hd
  listed {d} hd hpar := by
    simp only [detach_apply] at hpar ⊢
    by_cases hdc : d = c
    · rw [if_pos hdc] at hpar
      exact absurd rfl hpar
    · rw [if_neg hdc] at hpar ⊢
      obtain ⟨hlive, hlisted⟩ := h.listed hd hpar
      refine ⟨hlive, ?_⟩
      split
      · rename_i heq
        exact (h.nodup hp).mem_erase_iff.mpr ⟨hdc, heq ▸ hlisted⟩
      · exact hlisted
  nodup {q} hq := by
    rw [detach_apply]
    dsimp only
    split
    · exact (h.nodup hp).erase c
    · exact h.nodup hq

end

end Forest

/-- A child that is added: what was refused changed nothing. -/
theorem nodeAddChild_cases {b : Bool} (h : nodeAddChild fuel m p c = some (b, m')) :
    b = false ∧ m' = m ∧ (p = 0 ∨ c = 0 ∨ nodeMaxChildren ≤ (m p).children.length ∨ (m c).parent ≠ 0) ∨
      b = true ∧ p ≠ 0 ∧ c ≠ 0 ∧ (m p).children.length < nodeMaxChildren ∧ (m c).parent = 0 ∧
        nodeMarkDirty fuel (attach m p c) c .placement = some m' := by
  rw [nodeAddChild] at h
  split at h
  · rename_i hnull
    cases h
    exact .inl ⟨rfl, rfl, hnull.imp id .inl⟩
  rename_i hnull
  split at h
  · rename_i hfull
    cases h
    exact .inl ⟨rfl, rfl, .inr (.inr (.inl hfull))⟩
  rename_i hroom
  split at h
  · rename_i hparent
    cases h
    exact .inl ⟨rfl, rfl, .inr (.inr (.inr hparent))⟩
  rename_i hparent
  obtain ⟨m1, hm1, heq⟩ := Option.map_eq_some_iff.mp h
  cases heq
  obtain ⟨hp, hc⟩ := not_or.mp hnull
  exact .inr ⟨rfl, hp, hc, Nat.not_le.mp hroom, not_not.mp hparent, hm1⟩

theorem nodeRemoveChild_cases (m : Mem) (p c : Ptr) :
    nodeRemoveChild m p c = m ∨
      p ≠ 0 ∧ c ≠ 0 ∧ c ∈ (m p).children ∧ nodeRemoveChild m p c = detach m p c := by
  rw [nodeRemoveChild]
  split
  · exact .inl rfl
  rename_i hnull
  obtain ⟨hp, hc⟩ := not_or.mp hnull
  split
  · rename_i hmem
    exact .inr ⟨hp, hc, hmem, rfl⟩
  · exact .inl rfl

end LiwusOS.Gui
