import Mathlib.Data.List.Basic

/-! # Ring buffers

A buffer of `cap` cells read from one position on and written at another, both
going round. The contents are the cells from the read position on. -/

namespace LiwusOS.Lib
open List Function

variable {α : Type} {cap r n : Nat} {buf : Nat → α}

/-- The `n` cells from position `r` on, going round at `cap`. -/
def window (cap : Nat) (buf : Nat → α) (r n : Nat) : List α := (List.range n).map fun k => buf ((r + k) % cap)

@[simp] theorem window_length : (window cap buf r n).length = n := by simp [window]

theorem window_append (cap : Nat) (buf : Nat → α) (r n m : Nat) :
    window cap buf r (n + m) = window cap buf r n ++ window cap buf (r + n) m := by
  simp only [window, range_add, map_append, map_map, comp_def, Nat.add_assoc]

theorem window_mod (cap : Nat) (buf : Nat → α) (r n : Nat) : window cap buf (r % cap) n = window cap buf r n := by
  simp only [window, Nat.mod_add_mod]

/-- As long as it does not reach the end the window is a piece of the buffer. -/
theorem window_eq_slice (h : r + n ≤ cap) : window cap buf r n = (List.range n).map fun k => buf (r + k) := by
  refine map_congr_left fun k hk => ?_
  have hlt := mem_range.mp hk
  rw [Nat.mod_eq_of_lt (by omega)]

/-- Different cells of a window that is not longer than the buffer. -/
theorem add_mod_ne {a b : Nat} (hab : a < b) (hb : b < a + cap) : a % cap ≠ b % cap := by
  intro h
  have hd : (b - a) % cap = 0 := Nat.sub_mod_eq_zero_of_mod_eq h.symm
  rw [Nat.mod_eq_of_lt (by omega)] at hd
  omega

/-- One element is put behind a window that leaves room. -/
theorem window_push (hn : n < cap) (x : α) :
    window cap (update buf ((r + n) % cap) x) r (n + 1) = window cap buf r n ++ [x] := by
  rw [window_append]
  congr 1
  · refine map_congr_left fun k hk => update_of_ne (add_mod_ne ?_ ?_) _ _
    · exact Nat.add_lt_add_left (mem_range.mp hk) r
    · omega
  · simp [window]

/-- Elements written one by one from position `w` on, with the position after
them. -/
def store (cap : Nat) : (Nat → α) → Nat → List α → (Nat → α) × Nat
  | buf, w, [] => (buf, w)
  | buf, w, x :: xs => store cap (update buf w x) ((w + 1) % cap) xs

theorem store_spec (buf : Nat → α) (r : Nat) (xs : List α) (hroom : n + xs.length ≤ cap) :
    window cap (store cap buf ((r + n) % cap) xs).1 r (n + xs.length) = window cap buf r n ++ xs ∧
      (store cap buf ((r + n) % cap) xs).2 = (r + (n + xs.length)) % cap := by
  induction xs generalizing buf n with
  | nil => exact ⟨by simp [store], rfl⟩
  | cons x xs ih =>
    rw [length_cons] at hroom ⊢
    have hnext : ((r + n) % cap + 1) % cap = (r + (n + 1)) % cap := by
      rw [Nat.mod_add_mod, Nat.add_assoc]
    obtain ⟨h1, h2⟩ := @ih (n + 1) (update buf ((r + n) % cap) x) (by omega)
    rw [window_push (by omega), append_assoc, singleton_append] at h1
    rw [store, hnext, Nat.add_comm xs.length 1, ← Nat.add_assoc n]
    exact ⟨h1, h2⟩

end LiwusOS.Lib
