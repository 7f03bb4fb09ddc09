import Mathlib.Data.Nat.Bitwise

/-! # Bit sets stored in 32-bit words

Bit `b` lives in word `b / 32` at position `b % 32`. The operations are the
usual C ones (a mask `1 << (b % 32)`, or, and-not, and); the lemmas give their
meaning as a set of naturals. -/

namespace LiwusOS.Lib
open Function

abbrev Words := Nat → UInt32

namespace Words

/-- `1 << j`. -/
def mask (j : Nat) : UInt32 := 1 <<< UInt32.ofNat j

def test (w : Words) (b : Nat) : Bool := w (b / 32) &&& mask (b % 32) != 0
def set (w : Words) (b : Nat) : Words := update w (b / 32) (w (b / 32) ||| mask (b % 32))
def unset (w : Words) (b : Nat) : Words :=
  update w (b / 32) (w (b / 32) &&& ~~~ mask (b % 32))

variable {j k : Nat} {w : UInt32}

theorem toBitVec_mask (hj : j < 32) : (mask j).toBitVec = BitVec.twoPow 32 j := by
  apply BitVec.eq_of_toNat_eq
  simp [mask, Nat.shiftLeft_eq, BitVec.toNat_twoPow, Nat.mod_eq_of_lt, hj]

/-- A word meets a mask where it has the bit. -/
theorem and_mask (hj : j < 32) : (w &&& mask j != 0) = w.toBitVec.getLsbD j := by
  rw [Bool.eq_iff_iff, bne_iff_ne, ne_eq, ← UInt32.toBitVec_inj, UInt32.toBitVec_and,
    toBitVec_mask hj, BitVec.and_twoPow]
  cases hb : w.toBitVec.getLsbD j with
  | false => simp
  | true =>
    simp only [if_true, iff_true]
    intro h0
    have := congrArg (BitVec.getLsbD · j) h0
    simp [hj] at this

theorem test_eq (w : Words) (b : Nat) : test w b = (w (b / 32)).toBitVec.getLsbD (b % 32) :=
  and_mask (Nat.mod_lt _ (by decide))

@[simp] theorem test_set (w : Words) (b c : Nat) : test (set w b) c = (decide (c = b) || test w c) := by
  have hb : b % 32 < 32 := Nat.mod_lt _ (by decide)
  rw [test_eq, test_eq]
  by_cases hw : c / 32 = b / 32
  · rw [set, hw, update_self, UInt32.toBitVec_or, BitVec.getLsbD_or, toBitVec_mask hb,
      BitVec.getLsbD_twoPow, Bool.or_comm]
    congr 1
    have : c % 32 = b % 32 ↔ c = b := by omega
    simp only [hb, decide_true, Bool.true_and, eq_comm (a := b % 32), this]
  · rw [set, update_of_ne hw]
    have : c ≠ b := fun h => hw (by rw [h])
    simp [this]

@[simp] theorem test_unset (w : Words) (b c : Nat) : test (unset w b) c = (!decide (c = b) && test w c) := by
  have hb : b % 32 < 32 := Nat.mod_lt _ (by decide)
  have hc : c % 32 < 32 := Nat.mod_lt _ (by decide)
  rw [test_eq, test_eq]
  by_cases hw : c / 32 = b / 32
  · rw [unset, hw, update_self, UInt32.toBitVec_and, UInt32.toBitVec_not,
      BitVec.getLsbD_and, BitVec.getLsbD_not, toBitVec_mask hb, BitVec.getLsbD_twoPow,
      Bool.and_comm]
    congr 1
    have : c % 32 = b % 32 ↔ c = b := by omega
    simp only [hb, hc, decide_true, Bool.true_and, eq_comm (a := b % 32), this]
  · rw [unset, update_of_ne hw]
    have : c ≠ b := fun h => hw (by rw [h])
    simp [this]

/-! ## The first clear bit -/

/-- The first clear bit of `w` from position `j` on, over `k` positions. -/
def clearBit (w : UInt32) : Nat → Nat → Option Nat
  | 0, _ => none
  | k + 1, j => if w &&& mask j = 0 then some j else clearBit w k (j + 1)

/-- The first clear bit of the `k` words from word `i` on. A full word is
skipped without looking at its bits. -/
def firstClear (w : Words) : Nat → Nat → Option Nat
  | 0, _ => none
  | k + 1, i =>
    if w i ≠ 0xFFFFFFFF then
      match clearBit (w i) 32 0 with
      | some j => some (i * 32 + j)
      | none => firstClear w k (i + 1)
    else firstClear w k (i + 1)

theorem clearBit_some {n : Nat} (h : clearBit w k j = some n) (hk : j + k ≤ 32) :
    n < j + k ∧ w.toBitVec.getLsbD n = false ∧
      ∀ m, j ≤ m → m < n → w.toBitVec.getLsbD m = true := by
  induction k generalizing j with
  | zero => cases h
  | succ k ih =>
    rw [clearBit] at h
    have hj := and_mask (w := w) (j := j) (by omega)
    split at h
    · rename_i h0
      cases h
      refine ⟨by omega, by rw [← hj, h0]; rfl, fun m h1 h2 => by omega⟩
    · rename_i h0
      obtain ⟨h2, h3, h4⟩ := ih h (by omega)
      refine ⟨by omega, h3, fun m hm hn => ?_⟩
      rcases Nat.eq_or_lt_of_le hm with rfl | hlt
      · rw [← hj]; simpa using h0
      · exact h4 m hlt hn

theorem clearBit_none (h : clearBit w k j = none) (hk : j + k ≤ 32) :
    ∀ m, j ≤ m → m < j + k → w.toBitVec.getLsbD m = true := by
  induction k generalizing j with
  | zero => exact fun m h1 h2 => by omega
  | succ k ih =>
    rw [clearBit] at h
    have hj := and_mask (w := w) (j := j) (by omega)
    split at h
    · cases h
    · rename_i h0
      intro m hm hn
      rcases Nat.eq_or_lt_of_le hm with rfl | hlt
      · rw [← hj]; simpa using h0
      · exact ih h (by omega) m hlt (by omega)

theorem ext_test {w v : Words} (h : ∀ b, test w b = test v b) : w = v := by
  funext i
  refine UInt32.toBitVec_inj.mp (BitVec.eq_of_getLsbD_eq fun j hj => ?_)
  have hbit := h (32 * i + j)
  rwa [test_eq, test_eq, show (32 * i + j) / 32 = i by omega, show (32 * i + j) % 32 = j by omega] at hbit

theorem full_word {w : Words} {i b : Nat} (h : w i = 0xFFFFFFFF) (hb : b / 32 = i) : test w b = true := by
  have hlt : b % 32 < 32 := Nat.mod_lt _ (by decide)
  have hones : (0xFFFFFFFF : UInt32).toBitVec = BitVec.allOnes 32 := rfl
  rw [test_eq, hb, h, hones, BitVec.getLsbD_allOnes]
  simpa using hlt

/-- The scan finds the least clear bit of its range. -/
theorem firstClear_some {w : Words} {i n : Nat} (h : firstClear w k i = some n) :
    n < (i + k) * 32 ∧ test w n = false ∧
      ∀ m, i * 32 ≤ m → m < n → test w m = true := by
  induction k generalizing i with
  | zero => cases h
  | succ k ih =>
    -- the case in which every bit of word `i` is set
    have hskip (hall : ∀ m, i * 32 ≤ m → m < (i + 1) * 32 → test w m = true)
        (h : firstClear w k (i + 1) = some n) :
        n < (i + (k + 1)) * 32 ∧ test w n = false ∧
          ∀ m, i * 32 ≤ m → m < n → test w m = true := by
      obtain ⟨h2, h3, h4⟩ := ih h
      refine ⟨by omega, h3, fun m hm hn => ?_⟩
      by_cases hlt : m < (i + 1) * 32
      · exact hall m hm hlt
      · exact h4 m (by omega) hn
    rw [firstClear] at h
    split at h
    · split at h
      · rename_i j hj
        cases h
        obtain ⟨h2, h3, h4⟩ := clearBit_some hj (by decide)
        have hdiv : ∀ m, m < 32 → (i * 32 + m) / 32 = i ∧ (i * 32 + m) % 32 = m := by omega
        refine ⟨by omega, ?_, fun m hm hn => ?_⟩
        · rw [test_eq, (hdiv j (by omega)).1, (hdiv j (by omega)).2, h3]
        · obtain ⟨d, rfl⟩ := Nat.exists_eq_add_of_le hm
          rw [test_eq, (hdiv d (by omega)).1, (hdiv d (by omega)).2]
          exact h4 d (by omega) (by omega)
      · rename_i hnone
        refine hskip (fun m hm hn => ?_) h
        rw [test_eq, show m / 32 = i by omega]
        exact clearBit_none hnone (by decide) _ (Nat.zero_le _) (by omega)
    · rename_i hfull
      exact hskip (fun m hm hn => full_word (not_not.mp hfull) (by omega)) h

theorem firstClear_none {w : Words} {i : Nat} (h : firstClear w k i = none) :
    ∀ m, i * 32 ≤ m → m < (i + k) * 32 → test w m = true := by
  induction k generalizing i with
  | zero => exact fun m h1 h2 => by omega
  | succ k ih =>
    intro m hm hn
    rw [firstClear] at h
    split at h
    · split at h
      · cases h
      · rename_i hnone
        by_cases hlt : m < (i + 1) * 32
        · rw [test_eq, show m / 32 = i by omega]
          exact clearBit_none hnone (by decide) _ (Nat.zero_le _) (by omega)
        · exact ih h m (by omega) (by omega)
    · rename_i hfull
      by_cases hlt : m < (i + 1) * 32
      · exact full_word (not_not.mp hfull) (by omega)
      · exact ih h m (by omega) (by omega)

end Words

end LiwusOS.Lib
