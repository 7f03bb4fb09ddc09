import Mathlib.Logic.Relation

/-! # Runs that are computed

A machine makes an operation with some fuel, under a condition that can be
decided. A list of operations is run by evaluation, and what it reaches the
machine's own steps reach. -/

namespace LiwusOS

open Relation

variable {σ α : Type*} (exec : Nat → σ → α → Option σ) (P : σ → α → Prop) [∀ s a, Decidable (P s a)]

/-- Each operation with its fuel, as long as the condition holds. -/
def runOps : List (α × Nat) → σ → Option σ
  | [], s => some s
  | (a, fuel) :: l, s => if P s a then (exec fuel s a).bind (runOps l) else none

theorem exists_run {R : σ → σ → Prop} (hR : ∀ {s a t fuel}, P s a → exec fuel s a = some t → R s t)
    {s : σ} {Q : σ → Prop} (l : List (α × Nat)) (h : ∃ t ∈ runOps exec P l s, Q t) :
    ∃ t, ReflTransGen R s t ∧ Q t := by
  induction l generalizing s with
  | nil =>
    obtain ⟨t, ht, hq⟩ := h
    cases ht
    exact ⟨s, .refl, hq⟩
  | cons x l ih =>
    obtain ⟨u, hu, hq⟩ := h
    obtain ⟨hp, hu⟩ := Option.ite_none_right_eq_some.mp hu
    obtain ⟨s', hs', hu⟩ := Option.bind_eq_some_iff.mp hu
    obtain ⟨t, ht, hq⟩ := ih ⟨u, hu, hq⟩
    exact ⟨t, .head (hR hp hs') ht, hq⟩

end LiwusOS
