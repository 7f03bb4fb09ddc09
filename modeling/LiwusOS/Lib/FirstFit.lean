import Mathlib.Order.Fin.Basic
import Mathlib.Order.Bounds.Defs

/-! # First fit

At step `i` the least element is taken that is available, `A i`, and not taken
yet. Elements become unavailable as the steps go on and never come back. First
fit takes increasing elements, and it gets as far as any increasing choice. -/

namespace LiwusOS.Lib

variable {α : Type} [LinearOrder α] {A : Nat → α → Prop} {xs : List α} {x : α}

/-- First fit has taken `xs`. -/
def FirstFit (A : Nat → α → Prop) (xs : List α) : Prop :=
  ∀ i (h : i < xs.length), IsLeast {x | A i x ∧ x ∉ xs.take i} xs[i]

/-- An increasing choice for `n` steps. -/
def Increasing (A : Nat → α → Prop) (n : Nat) : Prop := ∃ g : Fin n → α, StrictMono g ∧ ∀ i : Fin n, A i (g i)

theorem Increasing.mono {n m : Nat} (h : Increasing A m) (hn : n ≤ m) : Increasing A n := by
  obtain ⟨g, hg, hA⟩ := h
  exact ⟨g ∘ Fin.castLE hn, hg.comp (Fin.strictMono_castLE hn), fun i => hA (Fin.castLE hn i)⟩

namespace FirstFit

theorem nil : FirstFit A [] := nofun

theorem snoc (h : FirstFit A xs) (hx : IsLeast {x | A xs.length x ∧ x ∉ xs} x) : FirstFit A (xs ++ [x]) := by
  intro i hi
  rw [List.length_append, List.length_singleton] at hi
  rcases Nat.lt_or_eq_of_le (Nat.le_of_lt_succ hi) with hlt | rfl
  · rw [List.take_append_of_le_length hlt.le, List.getElem_append_left hlt]
    exact h i hlt
  · rw [List.take_left, List.getElem_concat_length rfl]
    exact hx

variable (h : FirstFit A xs) (hA : Antitone A)
include h hA

theorem getElem_lt {i j : Nat} (hij : i < j) (hj : j < xs.length) : xs[i] < xs[j] := by
  obtain ⟨⟨havail, hnew⟩, -⟩ := h j hj
  have hmem : xs[i] ∈ xs.take j := List.mem_take_iff_getElem.mpr ⟨i, by omega, rfl⟩
  refine lt_of_le_of_ne ((h i (hij.trans hj)).2 ⟨hA hij.le _ havail, fun hm => hnew ?_⟩) fun heq => hnew (heq ▸ hmem)
  exact (List.take_sublist_take_left hij.le).subset hm

theorem nodup : xs.Nodup := List.pairwise_iff_getElem.mpr fun _ _ _ hj hij => (h.getElem_lt hA hij hj).ne

omit hA in
/-- Where an increasing choice has one more step, so has first fit: what it has taken
lies below that choice. -/
theorem next (hinc : Increasing A (xs.length + 1)) : ∃ x, A xs.length x ∧ x ∉ xs := by
  obtain ⟨g, hg, hA⟩ := hinc
  have hbelow : ∀ i (hi : i < xs.length + 1), ∀ x ∈ xs.take i, x < g ⟨i, hi⟩ := by
    intro i
    induction i with
    | zero => simp
    | succ i ih =>
      intro hi x hx
      have hstep : g ⟨i, by omega⟩ < g ⟨i + 1, hi⟩ := hg (Nat.lt_succ_self i)
      rw [List.take_succ_eq_append_getElem (by omega), List.mem_append, List.mem_singleton] at hx
      rcases hx with hx | rfl
      · exact (ih (by omega) x hx).trans hstep
      · have hle := (h i (by omega)).2 ⟨hA ⟨i, by omega⟩, fun hm => (ih (by omega) _ hm).false⟩
        exact lt_of_le_of_lt hle hstep
  refine ⟨g ⟨xs.length, by omega⟩, hA ⟨xs.length, by omega⟩, fun hm => ?_⟩
  exact (hbelow xs.length (by omega) _ (by rwa [List.take_length])).false

end FirstFit
end LiwusOS.Lib
