import Mathlib.Data.List.Infix

/-! # Walks along labelled edges

`step b k` is the end of the edge labelled `k` at `b`, if there is one. The
edges form a tree below a root when no two edges end in one place and none leads
back to the root; a place then has one path. Taking one edge of such a tree
elsewhere changes the walks that pass it and no others, unless it is taken below
itself. -/

namespace LiwusOS.Lib
open Option

section Walk
variable {β κ : Type} {step step' : β → κ → Option β}

def walk (step : β → κ → Option β) : β → List κ → Option β
  | b, [] => some b
  | b, k :: ks => (step b k).bind fun c => walk step c ks

theorem walk_append (step : β → κ → Option β) (b : β) (ks js : List κ) :
    walk step b (ks ++ js) = (walk step b ks).bind fun c => walk step c js := by
  induction ks generalizing b with
  | nil => rfl
  | cons k ks ih =>
    rw [List.cons_append, walk, walk, bind_assoc]
    exact bind_congr fun c _ => ih c

theorem walk_snoc (step : β → κ → Option β) (b : β) (ks : List κ) (k : κ) :
    walk step b (ks ++ [k]) = (walk step b ks).bind fun c => step c k := by
  rw [walk_append]
  refine bind_congr fun c _ => ?_
  exact bind_fun_some (step c k)

theorem walk_snoc_some {b c : β} {ks : List κ} {k : κ} :
    walk step b (ks ++ [k]) = some c ↔ ∃ x, walk step b ks = some x ∧ step x k = some c := by
  rw [walk_snoc, bind_eq_some_iff]

theorem not_isPrefix_snoc (ks : List κ) (k : κ) : ¬ ks ++ [k] <+: ks := by
  intro h
  have hle := h.length_le
  rw [List.length_append, List.length_singleton] at hle
  omega

/-- The edges form a tree below `root`. -/
structure Rooted (step : β → κ → Option β) (root : β) : Prop where
  unique : ∀ {b b' k k' c}, step b k = some c → step b' k' = some c → b = b' ∧ k = k'
  root : ∀ {b k}, step b k ≠ some root

namespace Rooted

variable {root b : β}

theorem walk_eq_root (h : Rooted step root) {p : List κ} (hp : walk step root p = some root) : p = [] := by
  rcases List.eq_nil_or_concat' p with rfl | ⟨q, k, rfl⟩
  · rfl
  · obtain ⟨x, -, hx⟩ := walk_snoc_some.mp hp
    exact absurd hx h.root

/-- A place has one path. -/
theorem walk_inj (h : Rooted step root) {p q : List κ} (hp : walk step root p = some b)
    (hq : walk step root q = some b) : p = q := by
  induction p using List.reverseRecOn generalizing b q with
  | nil =>
    cases hp
    exact (h.walk_eq_root hq).symm
  | append_singleton p k ih =>
    rcases List.eq_nil_or_concat' q with rfl | ⟨q, k', rfl⟩
    · cases hq
      exact h.walk_eq_root hp
    · obtain ⟨x, hx, hk⟩ := walk_snoc_some.mp hp
      obtain ⟨y, hy, hk'⟩ := walk_snoc_some.mp hq
      obtain ⟨rfl, rfl⟩ := h.unique hk hk'
      rw [ih hx hy]

variable {d d' c : β} {k k' : κ} {p p' : List κ}

section Moved
variable (h : Rooted step root) (hd : walk step root p = some d)
  (hsame : ∀ b j, (b, j) ≠ (d, k) → (b, j) ≠ (d', k') → step' b j = step b j)
include h hd hsame

/-- Below an edge that is taken elsewhere the walks stay. -/
theorem walk_below (hold : step d k = some c) (hfree : step d' k' = none) {r : List κ} (hr : walk step c r = some b) :
    walk step' c r = some b := by
  induction r using List.reverseRecOn generalizing b with
  | nil => exact hr
  | append_singleton r j ih =>
    obtain ⟨x, hx, hj⟩ := walk_snoc_some.mp hr
    have hpath : walk step root ((p ++ [k]) ++ r) = some x := by
      rw [walk_append, walk_snoc_some.mpr ⟨d, hd, hold⟩]
      exact hx
    refine walk_snoc_some.mpr ⟨x, ih hx, ?_⟩
    rw [hsame x j ?_ ?_, hj]
    · rintro ⟨rfl, rfl⟩
      exact not_isPrefix_snoc _ _ ⟨r, h.walk_inj hpath hd⟩
    · rintro ⟨rfl, rfl⟩
      rw [hfree] at hj
      cases hj

variable (hd' : walk step root p' = some d')
include hd'

/-- Walks that pass neither of two edges do not depend on them. -/
theorem walk_congr {q : List κ} (hq : ¬ p ++ [k] <+: q) (hq' : ¬ p' ++ [k'] <+: q) :
    walk step' root q = walk step root q := by
  induction q using List.reverseRecOn with
  | nil => rfl
  | append_singleton q j ih =>
    have hup : ∀ {r : List κ}, r <+: q → r <+: q ++ [j] := fun hr => hr.trans (List.prefix_append q [j])
    rw [walk_snoc, walk_snoc, ih (fun hr => hq (hup hr)) (fun hr => hq' (hup hr))]
    refine bind_congr fun b hb => hsame b j ?_ ?_
    · rintro ⟨rfl, rfl⟩
      exact hq (by rw [h.walk_inj hb hd])
    · rintro ⟨rfl, rfl⟩
      exact hq' (by rw [h.walk_inj hb hd'])

/-- The place where an edge is put keeps its path, unless it lies below the edge. -/
theorem walk_target (hout : ¬ p ++ [k] <+: p') : walk step' root p' = some d' := by
  rw [h.walk_congr hd hsame hd' hout (not_isPrefix_snoc p' k'), hd']

/-- The place an edge is taken from keeps its path. -/
theorem walk_source (hfree : step d' k' = none) : walk step' root p = some d := by
  rw [h.walk_congr hd hsame hd' (not_isPrefix_snoc p k), hd]
  rintro ⟨r, rfl⟩
  rw [walk_append, walk_snoc, hd', bind_some, hfree] at hd
  cases hd

/-- Nothing is lost when an edge is taken to a place that is not below it. -/
theorem reach_moved (hold : step d k = some c) (hfree : step d' k' = none) (hnew : step' d' k' = some c)
    (hout : ¬ p ++ [k] <+: p') {q : List κ} (hq : walk step root q = some b) : ∃ q', walk step' root q' = some b := by
  by_cases hpre : p ++ [k] <+: q
  · obtain ⟨r, rfl⟩ := hpre
    rw [walk_append, walk_snoc_some.mpr ⟨d, hd, hold⟩] at hq
    refine ⟨(p' ++ [k']) ++ r, ?_⟩
    rw [walk_append, walk_snoc_some.mpr ⟨d', h.walk_target hd hsame hd' hout, hnew⟩]
    exact h.walk_below hd hsame hold hfree hq
  · refine ⟨q, ?_⟩
    rw [h.walk_congr hd hsame hd' hpre, hq]
    rintro ⟨r, rfl⟩
    rw [walk_append, walk_snoc, hd', bind_some, hfree] at hq
    cases hq

end Moved

end Rooted

end Walk

end LiwusOS.Lib
