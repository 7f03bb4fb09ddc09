import Mathlib.Logic.Relation

/-! # Descent along edges

`E a b`: there is an edge from `a` down to `b`. What lies below a node is what
`ReflTransGen E` reaches, and `Acc (flip E)` says that every way down ends. -/

namespace LiwusOS.Lib

open Relation

variable {α : Type} {E E' : α → α → Prop} {a b c p : α}

/-- Only the edges below a node matter for the ways down from it. -/
theorem acc_of_below (hac : Acc (flip E) a) (h : ∀ x, ReflTransGen E a x → ∀ y, E' x y → E x y) :
    Acc (flip E') a := by
  induction hac with
  | intro a _ ih =>
    refine .intro a fun b hb => ?_
    have hab : E a b := h a .refl b hb
    exact ih b hab fun x hx => h x (.head hab hx)

/-- New edges all lead to one node, from which every way down ends. -/
theorem acc_of_link (hc : Acc (flip E') c) (h : ∀ x y, E' x y → E x y ∨ y = c) (hac : Acc (flip E) a) :
    Acc (flip E') a := by
  induction hac with
  | intro a _ ih =>
    refine .intro a fun b hb => ?_
    rcases h a b hb with hab | rfl
    · exact ih b hab
    · exact hc

/-- No edge leads back up. -/
theorem not_below_of_acc (hac : Acc (flip E) a) (hab : E a b) : ¬ ReflTransGen E b a := by
  induction hac generalizing b with
  | intro a _ ih =>
    intro hba
    obtain ⟨c, hbc, hcb⟩ := TransGen.head'_iff.mp (TransGen.tail' hba hab)
    exact ih b hab hbc hcb

theorem acc_below (hac : Acc (flip E) a) (hab : ReflTransGen E a b) : Acc (flip E) b := by
  induction hab with
  | refl => exact hac
  | tail _ hbc ih => exact ih.inv hbc

section Cut

/- The edges that lead to `c` are cut. -/
variable (hcut : ∀ x y, E x y → y ≠ c → E' x y)
include hcut

/-- Outside of what lies below `c` the ways stay. -/
theorem below_of_outside (hab : ReflTransGen E a b) (hout : ¬ ReflTransGen E c b) : ReflTransGen E' a b := by
  induction hab with
  | refl => exact .refl
  | @tail x y _ hxy ih =>
    have hy : y ≠ c := by
      rintro rfl
      exact hout .refl
    exact (ih fun hcx => hout (hcx.tail hxy)).tail (hcut x y hxy hy)

/-- Below `c` the ways stay. -/
theorem below_of_below (hac : Acc (flip E) c) (hcb : ReflTransGen E c b) : ReflTransGen E' c b := by
  induction hcb with
  | refl => exact .refl
  | @tail x y hcx hxy ih =>
    have hy : y ≠ c := by
      rintro rfl
      exact not_below_of_acc (acc_below hac hcx) hxy hcx
    exact ih.tail (hcut x y hxy hy)

/-- With a new edge to `c` from outside, everything is reached that was. -/
theorem below_of_moved (hac : Acc (flip E) c) (hap : ReflTransGen E a p) (hout : ¬ ReflTransGen E c p)
    (hlink : E' p c) (hab : ReflTransGen E a b) : ReflTransGen E' a b := by
  by_cases hcb : ReflTransGen E c b
  · exact ((below_of_outside hcut hap hout).tail hlink).trans (below_of_below hcut hac hcb)
  · exact below_of_outside hcut hab hcb

end Cut

end LiwusOS.Lib
