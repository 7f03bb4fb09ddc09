/-! # Radix trees of tables

Tables of entries in memory, by frame number. An entry may lead to a table one
level down; `n` is the number of levels below a table. In a tree no table is
used twice, so a change below one entry does not show below another. -/

namespace LiwusOS.Lib

section Radix
variable {ι E : Type} (child : E → Option Nat)

/-- `x` is the table `t` or lies at most `n` levels below it. -/
def Reaches (m : Nat → ι → E) : Nat → Nat → Nat → Prop
  | 0, t, x => x = t
  | n + 1, t, x => x = t ∨ ∃ i t', child (m t i) = some t' ∧ Reaches m n t' x

/-- The tables that a walk along the indices passes. -/
def Visits (m : Nat → ι → E) : Nat → List ι → Nat → Prop
  | _, [], _ => False
  | t, i :: r, x => x = t ∨ ∃ t', child (m t i) = some t' ∧ Visits m t' r x

/-- No table below `t` is used twice. -/
def Tree (m : Nat → ι → E) : Nat → Nat → Prop
  | 0, _ => True
  | n + 1, t => ∀ i t', child (m t i) = some t' → Tree m n t' ∧ ¬ Reaches child m n t' t ∧
      ∀ j t'', j ≠ i → child (m t j) = some t'' → ∀ x, Reaches child m n t' x → ¬ Reaches child m n t'' x

variable {child} {m m' : Nat → ι → E} {n t x : Nat}

theorem Reaches.self : Reaches child m n t t := by
  cases n with
  | zero => rfl
  | succ n => exact .inl rfl

theorem Reaches.below {i : ι} {t' : Nat} (hc : child (m t i) = some t') (h : Reaches child m n t' x) :
    Reaches child m (n + 1) t x := .inr ⟨i, t', hc, h⟩

theorem Visits.reaches {r : List ι} (h : Visits child m t r x) (hr : r.length ≤ n + 1) : Reaches child m n t x := by
  induction r generalizing n t with
  | nil => exact h.elim
  | cons i r ih =>
    rcases h with rfl | ⟨t', hc, h⟩
    · exact .self
    · cases n with
      | zero =>
        have hr0 : r = [] := List.eq_nil_of_length_eq_zero (by simpa using hr)
        subst hr0
        exact h.elim
      | succ n => exact .below hc (ih h (by simpa using hr))

theorem Visits.congr {r : List ι} (h : ∀ x, Visits child m t r x → m' x = m x) :
    Visits child m' t r x ↔ Visits child m t r x := by
  induction r generalizing t with
  | nil => exact Iff.rfl
  | cons i r ih =>
    simp only [Visits, h t (.inl rfl)]
    refine or_congr_right (exists_congr fun t' => and_congr_right fun hc => ?_)
    exact ih fun x hx => h x (.inr ⟨t', hc, hx⟩)

/-- What lies below a table depends on the tables below it only. -/
theorem Reaches.congr (h : ∀ x, Reaches child m n t x → m' x = m x) :
    Reaches child m' n t x ↔ Reaches child m n t x := by
  induction n generalizing t with
  | zero => exact Iff.rfl
  | succ n ih =>
    have ht : m' t = m t := h t .self
    simp only [Reaches, ht]
    refine or_congr_right (exists_congr fun i => exists_congr fun t' => and_congr_right fun hc => ?_)
    exact ih fun x hx => h x (.below hc hx)

/-- Below a table `f` with the entries of `t` nothing has changed. -/
theorem Tree.copy {f : Nat} (heq : m' f = m t) (ht : Tree child m (n + 1) t)
    (hsub : ∀ {i t'}, child (m t i) = some t' → ∀ x, Reaches child m n t' x → m' x = m x)
    (hnew : ∀ {i t'}, child (m t i) = some t' → Tree child m' n t' ∧ ¬ Reaches child m n t' f) :
    Tree child m' (n + 1) f := by
  intro i t' hc
  rw [heq] at hc
  refine ⟨(hnew hc).1, fun hr => (hnew hc).2 ((Reaches.congr (hsub hc)).mp hr), ?_⟩
  intro j t'' hj hc' x hx hx'
  rw [heq] at hc'
  exact (ht i t' hc).2.2 j t'' hj hc' x ((Reaches.congr (hsub hc)).mp hx) ((Reaches.congr (hsub hc')).mp hx')

theorem Tree.congr (h : ∀ x, Reaches child m n t x → m' x = m x) (ht : Tree child m n t) : Tree child m' n t := by
  induction n generalizing t with
  | zero => trivial
  | succ n ih =>
    refine .copy (h t .self) ht (fun hc x hx => h x (.below hc hx)) fun {i t'} hc => ?_
    exact ⟨ih (fun x hx => h x (.below hc hx)) (ht i t' hc).1, (ht i t' hc).2.1⟩

/-- A table with the entries of `t` but not below it has the same tables below. -/
theorem Reaches.reroot {f : Nat} (hm : ∀ x, x ≠ f → m' x = m x) (hf : ¬ Reaches child m (n + 1) t f)
    (hcopy : m' f = m t) (h : Reaches child m' (n + 1) f x) :
    x = f ∨ ∃ i t', child (m t i) = some t' ∧ Reaches child m n t' x := by
  refine h.imp_right fun ⟨i, t', hc, hx⟩ => ?_
  rw [hcopy] at hc
  exact ⟨i, t', hc, (Reaches.congr fun y hy => hm y fun h => hf (.below hc (h ▸ hy))).mp hx⟩

theorem Tree.reroot {f : Nat} (hm : ∀ x, x ≠ f → m' x = m x) (hf : ¬ Reaches child m (n + 1) t f)
    (hcopy : m' f = m t) (ht : Tree child m (n + 1) t) : Tree child m' (n + 1) f := by
  have hsub : ∀ {i t'}, child (m t i) = some t' → ∀ x, Reaches child m n t' x → m' x = m x :=
    fun hc x hx => hm x fun h => hf (.below hc (h ▸ hx))
  exact .copy hcopy ht hsub fun {i t'} hc => ⟨(ht i t' hc).1.congr (hsub hc), fun hr => hf (.below hc hr)⟩

/-- The entry `i` of `t` and the tables below it are replaced. -/
structure Regrown (child : E → Option Nat) (fresh : Nat → Prop) (m m' : Nat → ι → E) (n t : Nat) (i : ι) :
    Prop where
  same : ∀ j, j ≠ i → m' t j = m t j
  /-- Nothing changes but `t`, fresh tables and those below the entry. -/
  frame : ∀ x, x ≠ t → ¬ fresh x →
    (∀ t₀, child (m t i) = some t₀ → ¬ Reaches child m n t₀ x) → m' x = m x
  below : ∀ t₁, child (m' t i) = some t₁ → ∀ x, Reaches child m' n t₁ x →
    (∃ t₀, child (m t i) = some t₀ ∧ Reaches child m n t₀ x) ∨ fresh x

namespace Regrown
variable {fresh : Nat → Prop} {i : ι}

section
variable (h : Regrown child fresh m m' n t i)
include h

/-- The tables below the other entries stay as they were. -/
theorem sibling (ht : Tree child m (n + 1) t)
    (hfresh : ∀ x, fresh x → ¬ Reaches child m (n + 1) t x) {j : ι} (hj : j ≠ i) {t' : Nat}
    (hc : child (m t j) = some t') {x : Nat} (hx : Reaches child m n t' x) : m' x = m x := by
  refine h.frame x ?_ (fun hf => hfresh x hf (.below hc hx)) fun t₀ h0 => (ht j t' hc).2.2 i t₀ hj.symm h0 x hx
  rintro rfl
  exact (ht j t' hc).2.1 hx

theorem reaches (ht : Tree child m (n + 1) t)
    (hfresh : ∀ x, fresh x → ¬ Reaches child m (n + 1) t x) (hx : Reaches child m' (n + 1) t x) :
    Reaches child m (n + 1) t x ∨ fresh x := by
  rcases hx with rfl | ⟨j, t', hc, hx⟩
  · exact .inl .self
  · by_cases hj : j = i
    · subst hj
      exact (h.below t' hc x hx).imp_left fun ⟨t₀, h0, hx0⟩ => .below h0 hx0
    · rw [h.same j hj] at hc
      exact .inl (.below hc ((Reaches.congr fun x hx => h.sibling ht hfresh hj hc hx).mp hx))

theorem tree (ht : Tree child m (n + 1) t) (hfresh : ∀ x, fresh x → ¬ Reaches child m (n + 1) t x)
    (hsub : ∀ t₁, child (m' t i) = some t₁ → Tree child m' n t₁) : Tree child m' (n + 1) t := by
  have hsib : ∀ {j t'}, j ≠ i → child (m t j) = some t' →
      ∀ x, Reaches child m' n t' x ↔ Reaches child m n t' x :=
    fun hj hc x => Reaches.congr fun x hx => h.sibling ht hfresh hj hc hx
  -- nothing is below both the entry and another one
  have hcross : ∀ {j t' t₁}, j ≠ i → child (m t j) = some t' → child (m' t i) = some t₁ →
      ∀ x, Reaches child m n t' x → ¬ Reaches child m' n t₁ x := by
    intro j t' t₁ hj hc hc1 x hx hx1
    rcases h.below t₁ hc1 x hx1 with ⟨t₀, h0, hx0⟩ | hf
    · exact (ht j t' hc).2.2 i t₀ hj.symm h0 x hx hx0
    · exact hfresh x hf (.below hc hx)
  intro j t' hc
  by_cases hj : j = i
  · subst hj
    refine ⟨hsub t' hc, fun hr => ?_, fun k t'' hk hc' x hx hx' => ?_⟩
    · rcases h.below t' hc t hr with ⟨t₀, h0, hx0⟩ | hf
      · exact (ht j t₀ h0).2.1 hx0
      · exact hfresh t hf .self
    · rw [h.same k hk] at hc'
      exact hcross hk hc' hc x ((hsib hk hc' x).mp hx') hx
  · rw [h.same j hj] at hc
    have htr : Tree child m' n t' := Tree.congr (fun x hx => h.sibling ht hfresh hj hc hx) (ht j t' hc).1
    refine ⟨htr, fun hr => (ht j t' hc).2.1 ((hsib hj hc t).mp hr), fun k t'' hk hc' x hx hx' => ?_⟩
    rw [hsib hj hc] at hx
    by_cases hki : k = i
    · subst hki
      exact hcross hj hc hc' x hx hx'
    · rw [h.same k hki] at hc'
      exact (ht j t' hc).2.2 k t'' hk hc' x hx ((hsib hki hc' x).mp hx')

end

end Regrown
end Radix
end LiwusOS.Lib
