import Mathlib.Data.List.Basic
import Mathlib.Order.Nat

/-! # Stable sorting in place

Insertion sort on an array, as a loop writes it: the element at the end of the
sorted part is moved down past those with a larger key. -/

namespace LiwusOS.Lib
open Function List

variable {α : Type} {key : α → Nat} {l l' : List α} {x : α} {arr : Nat → α} {n p : Nat}

/-- `l'` is `l` in the order of the keys, elements with the same key in the order
they had. -/
structure StableSort (key : α → Nat) (l l' : List α) : Prop where
  sorted : l'.Pairwise fun a b => key a ≤ key b
  perm : l'.Perm l
  stable : ∀ k, (l'.filter fun a => key a = k) = l.filter fun a => key a = k

namespace StableSort

theorem nil (key : α → Nat) : StableSort key [] [] := ⟨.nil, .nil, fun _ => rfl⟩

/-- The place of one more element. -/
def place (key : α → Nat) (x : α) (l : List α) : List α :=
  (l.filter fun a => key a ≤ key x) ++ x :: l.filter fun a => key x < key a

theorem place_sorted (h : l.Pairwise fun a b => key a ≤ key b) (x : α) :
    (place key x l).Pairwise fun a b => key a ≤ key b := by
  refine pairwise_append.mpr ⟨h.filter _, pairwise_cons.mpr ⟨fun b hb => ?_, h.filter _⟩, fun a ha b hb => ?_⟩
  · have hlt : key x < key b := by simpa using (mem_filter.mp hb).2
    exact hlt.le
  · have hle : key a ≤ key x := by simpa using (mem_filter.mp ha).2
    rcases mem_cons.mp hb with rfl | hb
    · exact hle
    · have hlt : key x < key b := by simpa using (mem_filter.mp hb).2
      exact hle.trans hlt.le

theorem place_perm (key : α → Nat) (x : α) (l : List α) : (place key x l).Perm (l ++ [x]) := by
  have hsplit : ((l.filter fun a => key a ≤ key x) ++ l.filter fun a => key x < key a).Perm l := by
    simpa only [← decide_not, Nat.not_le] using filter_append_perm (fun a => decide (key a ≤ key x)) l
  exact perm_middle.trans ((hsplit.cons x).trans (perm_append_singleton x l).symm)

/-- A condition on the key holds of all the elements with key `k` or of none. -/
theorem filter_key (key : α → Nat) (k : Nat) (p : Nat → Bool) (l : List α) :
    (l.filter fun a => decide (key a = k) && p (key a)) = if p k then l.filter fun a => key a = k else [] := by
  split
  · rename_i hp
    refine filter_congr fun a _ => ?_
    by_cases ha : key a = k <;> simp [ha, hp]
  · rename_i hp
    refine filter_eq_nil_iff.mpr fun a _ => ?_
    by_cases ha : key a = k <;> simp [ha, hp]

theorem place_stable (key : α → Nat) (x : α) (l : List α) (k : Nat) :
    ((place key x l).filter fun a => key a = k) = (l ++ [x]).filter fun a => key a = k := by
  simp only [place, filter_append, filter_cons, filter_filter, filter_nil]
  rw [filter_key key k fun j => j ≤ key x, filter_key key k fun j => key x < j]
  by_cases hk : k ≤ key x
  · simp [hk, not_lt.mpr hk]
  · have hx : key x ≠ k := fun heq => hk heq.ge
    simp [hk, hx, not_le.mp hk]

theorem insert (h : StableSort key l l') (x : α) : StableSort key (l ++ [x]) (place key x l') where
  sorted := place_sorted h.sorted x
  perm := (place_perm key x l').trans (h.perm.append_right [x])
  stable k := by rw [place_stable, filter_append, h.stable, ← filter_append]

end StableSort

/-! ## The loop -/

/-- The first `n` elements. -/
def slice (arr : Nat → α) (n : Nat) : List α := (List.range n).map arr

theorem slice_succ (arr : Nat → α) (n : Nat) : slice arr (n + 1) = slice arr n ++ [arr n] := by
  simp [slice, range_succ]

theorem slice_update (h : n ≤ p) (arr : Nat → α) (x : α) : slice (update arr p x) n = slice arr n :=
  map_congr_left fun _ hk => update_of_ne (Nat.ne_of_lt ((mem_range.mp hk).trans_le h)) _ _

/-- An element is moved down from position `p` to its place. -/
def insertDown (key : α → Nat) (x : α) : (Nat → α) → Nat → Nat → α
  | arr, 0 => update arr 0 x
  | arr, p + 1 =>
    if key (arr p) > key x then insertDown key x (update arr (p + 1) (arr p)) p
    else update arr (p + 1) x

theorem insertDown_above {q : Nat} (h : p < q) (arr : Nat → α) : insertDown key x arr p q = arr q := by
  induction p generalizing arr with
  | zero => exact update_of_ne (h.ne') _ _
  | succ p ih =>
    rw [insertDown]
    split
    · rw [ih (Nat.lt_of_succ_lt h), update_of_ne (h.ne')]
    · exact update_of_ne (h.ne') _ _

theorem slice_insertDown (h : (slice arr p).Pairwise fun a b => key a ≤ key b) :
    slice (insertDown key x arr p) (p + 1) = StableSort.place key x (slice arr p) := by
  induction p generalizing arr with
  | zero => simp [slice, insertDown, StableSort.place]
  | succ p ih =>
    rw [slice_succ] at h
    obtain ⟨hsorted, -, hlast⟩ := pairwise_append.mp h
    rw [insertDown]
    split
    · rename_i hgt
      have hsame : slice (update arr (p + 1) (arr p)) p = slice arr p := slice_update (Nat.le_succ p) _ _
      rw [slice_succ, ih (hsame.symm ▸ hsorted), hsame, insertDown_above (Nat.lt_succ_self p), update_self,
        slice_succ]
      simp [StableSort.place, filter_append, hgt, not_le.mpr hgt]
    · -- everything in the sorted part has at most this key
      rename_i hle
      have hall : ∀ a ∈ slice arr (p + 1), key a ≤ key x := by
        intro a ha
        rw [slice_succ] at ha
        rcases mem_append.mp ha with ha | ha
        · exact (hlast a ha _ (mem_singleton_self _)).trans (not_lt.mp hle)
        · rw [mem_singleton.mp ha]
          exact not_lt.mp hle
      have hbelow : ((slice arr (p + 1)).filter fun a => key a ≤ key x) = slice arr (p + 1) :=
        filter_eq_self.mpr fun a ha => decide_eq_true (hall a ha)
      have habove : ((slice arr (p + 1)).filter fun a => key x < key a) = [] :=
        filter_eq_nil_iff.mpr fun a ha => by simpa using hall a ha
      rw [slice_succ, slice_update le_rfl, update_self, StableSort.place, hbelow, habove]

end LiwusOS.Lib
