import Mathlib.Data.List.Basic
import Mathlib.Data.List.GetD

/-! # Doubly linked lists

A list of cells in which every cell names the one before and the one behind it. An
element is put at the end or taken out by changing the links of its neighbours. -/

namespace LiwusOS.Lib
open List

variable {α : Type} {next prev next' prev' : α → α} {nil before x : α} {l xs ys : List α}

/-- The links of the cells of a list that follows the cell `before`. -/
def Doubly (next prev : α → α) (nil : α) : α → List α → Prop
  | _, [] => True
  | before, a :: rest => prev a = before ∧ next a = rest.headD nil ∧ Doubly next prev nil a rest

namespace Doubly

theorem congr (h : Doubly next prev nil before l) (hn : ∀ a ∈ l, next' a = next a) (hp : ∀ a ∈ l, prev' a = prev a) :
    Doubly next' prev' nil before l := by
  induction l generalizing before with
  | nil => trivial
  | cons a rest ih =>
    obtain ⟨h1, h2, h3⟩ := h
    refine ⟨(hp a (.head _)).trans h1, (hn a (.head _)).trans h2, ih h3 ?_ ?_⟩
    · exact fun b hb => hn b (.tail _ hb)
    · exact fun b hb => hp b (.tail _ hb)

/-- The links of a cell by its position. -/
theorem getElem (h : Doubly next prev nil before l) {i : Nat} (hi : i < l.length) :
    next l[i] = l.getD (i + 1) nil ∧ prev l[i] = (before :: l).getD i nil := by
  induction l generalizing before i with
  | nil => exact absurd hi (Nat.not_lt_zero i)
  | cons a rest ih =>
    obtain ⟨h1, h2, h3⟩ := h
    cases i with
    | zero => exact ⟨h2.trans (by cases rest <;> rfl), h1⟩
    | succ i => exact ih h3 (Nat.lt_of_succ_lt_succ hi)

/-- The neighbours of a cell. -/
theorem middle (h : Doubly next prev nil before (xs ++ x :: ys)) :
    prev x = xs.getLastD before ∧ next x = ys.headD nil := by
  induction xs generalizing before with
  | nil => exact ⟨h.1, h.2.1⟩
  | cons a xs ih =>
    rw [getLastD_cons]
    exact ih h.2.2

variable [DecidableEq α]

/-- A link changed at the last cell only, as the first cell and the others see it. -/
theorem relinked {a y : α} (hn : ∀ b ∈ a :: l, next' b = if (a :: l).getLast? = some b then y else next b)
    (ha : a ∉ l) : (∀ b ∈ l, next' b = if l.getLast? = some b then y else next b) ∧
      next' a = if l = [] then y else next a := by
  cases l with
  | nil => exact ⟨nofun, (hn a (.head _)).trans (if_pos rfl)⟩
  | cons c l =>
    rw [getLast?_cons_cons] at hn
    refine ⟨fun b hb => hn b (.tail _ hb), (hn a (.head _)).trans ?_⟩
    rw [if_neg fun heq => ha (mem_of_getLast? heq), if_neg (cons_ne_nil _ _)]

/-- A cell is put at the end. -/
theorem snoc (h : Doubly next prev nil before l) (hl : l.Nodup)
    (hn : ∀ a ∈ l, next' a = if l.getLast? = some a then x else next a) (hp : ∀ a ∈ l, prev' a = prev a)
    (hnx : next' x = nil) (hpx : prev' x = l.getLastD before) : Doubly next' prev' nil before (l ++ [x]) := by
  induction l generalizing before with
  | nil => exact ⟨hpx, hnx, trivial⟩
  | cons a rest ih =>
    obtain ⟨h1, h2, h3⟩ := h
    obtain ⟨ha, hrest⟩ := nodup_cons.mp hl
    obtain ⟨hothers, hfirst⟩ := relinked hn ha
    refine ⟨(hp a (.head _)).trans h1, ?_, ih h3 hrest hothers (fun b hb => hp b (.tail _ hb)) ?_⟩
    · rw [hfirst]
      cases rest with
      | nil => rfl
      | cons c rest => exact h2
    · rw [hpx, getLastD_cons]

/-- A cell is taken out. -/
theorem erase (h : Doubly next prev nil before (xs ++ x :: ys)) (hl : (xs ++ x :: ys).Nodup)
    (hnx : ∀ a ∈ xs, next' a = if xs.getLast? = some a then ys.headD nil else next a)
    (hpx : ∀ a ∈ xs, prev' a = prev a) (hny : ∀ a ∈ ys, next' a = next a)
    (hpy : ∀ a ∈ ys, prev' a = if ys.head? = some a then xs.getLastD before else prev a) :
    Doubly next' prev' nil before (xs ++ ys) := by
  induction xs generalizing before with
  | nil =>
    obtain ⟨-, -, h3⟩ := h
    cases ys with
    | nil => trivial
    | cons c ys =>
      obtain ⟨-, h2, h3⟩ := h3
      have hc : c ∉ ys := (nodup_cons.mp (nodup_cons.mp hl).2).1
      refine ⟨?_, (hny c (.head _)).trans h2, h3.congr ?_ fun b hb => ?_⟩
      · rw [hpy c (.head _)]
        exact if_pos rfl
      · exact fun b hb => hny b (.tail _ hb)
      · rw [hpy b (.tail _ hb)]
        exact if_neg fun heq : some c = some b => hc (Option.some.inj heq ▸ hb)
  | cons a xs ih =>
    obtain ⟨h1, h2, h3⟩ := h
    obtain ⟨ha, hrest⟩ := nodup_cons.mp hl
    obtain ⟨hothers, hfirst⟩ := relinked hnx fun hm => ha (mem_append_left _ hm)
    refine ⟨(hpx a (.head _)).trans h1, ?_, ih h3 hrest hothers (fun b hb => hpx b (.tail _ hb)) fun b hb => ?_⟩
    · rw [hfirst]
      cases xs with
      | nil => rfl
      | cons c xs => exact h2
    · rw [hpy b hb, getLastD_cons]

end Doubly
end LiwusOS.Lib
