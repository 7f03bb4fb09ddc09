import Mathlib.Data.List.Count
import Mathlib.Data.List.Nodup

/-! # Counting references

`ref` says which object a slot refers to, if any. The holders of an object among
a list of slots are those that refer to it. -/

namespace LiwusOS.Lib
open Function List

variable {κ α : Type} [DecidableEq α] {keys : List κ} {ref ref' : κ → Option α} {k : κ} {a : α}

def holders (keys : List κ) (ref : κ → Option α) (a : α) : Nat := keys.countP fun k => ref k = some a

theorem holders_append (keys keys' : List κ) (ref : κ → Option α) (a : α) :
    holders (keys ++ keys') ref a = holders keys ref a + holders keys' ref a := countP_append

theorem holders_perm {keys' : List κ} (h : keys.Perm keys') : holders keys ref a = holders keys' ref a :=
  h.countP_eq _

theorem holders_congr (h : ∀ k ∈ keys, ref' k = ref k) : holders keys ref' a = holders keys ref a :=
  countP_congr fun k hk => by rw [h k hk]

theorem holders_map {ι : Type} (f : ι → κ) (l : List ι) (ref : κ → Option α) (a : α) :
    holders (l.map f) ref a = holders l (fun i => ref (f i)) a := countP_map

theorem holders_eq_zero : holders keys ref a = 0 ↔ ∀ k ∈ keys, ref k ≠ some a := by
  simp [holders, countP_eq_zero]

theorem holders_pos (hk : k ∈ keys) (h : ref k = some a) : 0 < holders keys ref a :=
  countP_pos_iff.mpr ⟨k, hk, by simpa using h⟩

/-- One slot is turned to something else. -/
theorem holders_update (hnodup : keys.Nodup) (hk : k ∈ keys) (hne : ∀ k', k' ≠ k → ref' k' = ref k') (a : α) :
    holders keys ref' a + (if ref k = some a then 1 else 0) =
      holders keys ref a + if ref' k = some a then 1 else 0 := by
  obtain ⟨l₁, l₂, rfl⟩ := append_of_mem hk
  have hnot : k ∉ l₁ ++ l₂ := (nodup_cons.mp (nodup_middle.mp hnodup)).1
  have hsame : ∀ l, (∀ k' ∈ l, k' ∈ l₁ ++ l₂) → holders l ref' a = holders l ref a := fun l hl =>
    holders_congr fun k' hk' => hne k' fun heq => hnot (heq ▸ hl k' hk')
  have h1 := hsame l₁ fun _ h => mem_append_left _ h
  have h2 := hsame l₂ fun _ h => mem_append_right _ h
  have hsplit : ∀ g : κ → Option α, holders (l₁ ++ k :: l₂) g a =
      holders l₁ g a + (holders l₂ g a + if g k = some a then 1 else 0) := fun g => by
    simp [holders, countP_append, countP_cons]
  rw [hsplit, hsplit, h1, h2]
  omega

/-! ## Counts kept by the objects

An object is freed when its count drops to zero. -/

/-- `objects` are those not freed, and their counts are exact. -/
structure Counted (objects : List α) (count : α → Int) (held : α → Nat) : Prop where
  nodup : objects.Nodup
  exact_count : ∀ a ∈ objects, count a = held a
  alive : ∀ a, a ∈ objects ↔ held a ≠ 0

namespace Counted
variable {objects : List α} {count : α → Int} {held held' : α → Nat}

omit [DecidableEq α] in
theorem congr (h : Counted objects count held) (hh : ∀ a, held' a = held a) : Counted objects count held' := by
  rwa [show held' = held from funext hh]

/-- One more reference to an object that has some. -/
theorem add (h : Counted objects count held) (ha : held a ≠ 0)
    (hheld : ∀ b, held' b = held b + if a = b then 1 else 0) :
    Counted objects (update count a (count a + 1)) held' := by
  refine ⟨h.nodup, fun b hb => ?_, fun b => ?_⟩ <;> rcases eq_or_ne b a with rfl | hne
  · rw [update_self, h.exact_count b hb, hheld, if_pos rfl]
    rfl
  · rw [update_of_ne hne, h.exact_count b hb, hheld, if_neg hne.symm, Nat.add_zero]
  · rw [h.alive, hheld, if_pos rfl]
    exact iff_of_true ha (Nat.succ_ne_zero _)
  · rw [h.alive, hheld, if_neg hne.symm, Nat.add_zero]

/-- One reference less. -/
theorem drop (h : Counted objects count held) (hheld : ∀ b, held' b + (if a = b then 1 else 0) = held b) :
    Counted (if count a - 1 ≤ 0 then objects.erase a else objects) (update count a (count a - 1)) held' := by
  have hself : held' a + 1 = held a := by rw [← hheld, if_pos rfl]
  have hother : ∀ b, b ≠ a → held' b = held b := fun b hb => by rw [← hheld, if_neg hb.symm, Nat.add_zero]
  have hmem : a ∈ objects := (h.alive a).mpr (by omega)
  have hcount : count a - 1 = held' a := by
    rw [h.exact_count a hmem, ← hself]
    push_cast
    omega
  rw [hcount]
  have hnodup : (if (held' a : Int) ≤ 0 then objects.erase a else objects).Nodup := by
    split
    · exact h.nodup.erase a
    · exact h.nodup
  have halive : ∀ b, b ∈ (if (held' a : Int) ≤ 0 then objects.erase a else objects) ↔ held' b ≠ 0 := by
    intro b
    split
    · rename_i hz
      rw [h.nodup.mem_erase_iff, h.alive]
      rcases eq_or_ne b a with rfl | hne
      · exact iff_of_false (fun hb => hb.1 rfl) (by omega)
      · rw [hother b hne, and_iff_right hne]
    · rename_i hz
      rcases eq_or_ne b a with rfl | hne
      · exact iff_of_true hmem (by omega)
      · rw [h.alive, hother b hne]
  refine ⟨hnodup, fun b hb => ?_, halive⟩
  rcases eq_or_ne b a with rfl | hne
  · rw [update_self]
  · rw [update_of_ne hne, hother b hne]
    refine h.exact_count b ((h.alive b).mpr ?_)
    rw [← hother b hne]
    exact (halive b).mp hb

/-- A new object with its first references. -/
theorem create (h : Counted objects count held) (ha : held a = 0) {n : Nat} (hn : n ≠ 0)
    (hheld : ∀ b, held' b = held b + if a = b then n else 0) : Counted (a :: objects) (update count a n) held' := by
  have hself : held' a = n := by rw [hheld, ha, if_pos rfl, Nat.zero_add]
  have hother : ∀ b, b ≠ a → held' b = held b := fun b hb => by rw [hheld, if_neg hb.symm, Nat.add_zero]
  have hnew : a ∉ objects := fun hmem => (h.alive a).mp hmem ha
  refine ⟨nodup_cons.mpr ⟨hnew, h.nodup⟩, fun b hb => ?_, fun b => ?_⟩
  · rcases eq_or_ne b a with rfl | hne
    · rw [update_self, hself]
    · rw [update_of_ne hne, hother b hne]
      exact h.exact_count b ((mem_cons.mp hb).resolve_left hne)
  · rcases eq_or_ne b a with rfl | hne
    · exact iff_of_true mem_cons_self (hself ▸ hn)
    · rw [mem_cons, or_iff_right hne, h.alive, hother b hne]

end Counted
end LiwusOS.Lib
