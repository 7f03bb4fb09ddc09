import LiwusOS.Lib.Bytes
import Mathlib.Data.Nat.Bitwise

/-! # CRC-32 (`crc32.c`)

The table-driven reflected CRC. The table is a function of its index here:
`crc32_build_table` fills it once and nothing else writes it. -/

namespace LiwusOS.Fs
open LiwusOS.Lib

/-- One of the eight rounds `crc32_build_table` runs for an index. -/
def crc32Round (crc : UInt32) : UInt32 :=
  if crc &&& 1 ≠ 0 then (crc >>> 1) ^^^ 0xEDB88320 else crc >>> 1

def crc32Table (i : UInt32) : UInt32 := crc32Round^[8] i

def crc32Step (crc : UInt32) (byte : UInt8) : UInt32 :=
  crc32Table ((crc ^^^ byte.toUInt32) &&& 0xFF) ^^^ (crc >>> 8)

def crc32Update (crc : UInt32) (data : List UInt8) : UInt32 :=
  data.foldl crc32Step (crc ^^^ 0xFFFFFFFF) ^^^ 0xFFFFFFFF

/-- `crc32_calc(b + off, length)`. -/
def crc32Calc (b : Buf) (off length : Nat) : UInt32 := crc32Update 0 (b.bytes off length)

-- a block has 4096 bytes; unfolding this in a proof never helps
attribute [irreducible] crc32Calc

/-- The standard check value: the CRC of the ASCII digits 1 to 9. -/
example : crc32Update 0 [49, 50, 51, 52, 53, 54, 55, 56, 57] = 0xCBF43926 := by decide +kernel

/-! ## The bit-by-bit definition -/

/-- The byte goes into the low bits and the remainder through eight rounds. -/
def crc32Bitwise (crc : UInt32) (data : List UInt8) : UInt32 :=
  data.foldl (fun c byte => crc32Round^[8] (c ^^^ byte.toUInt32)) (crc ^^^ 0xFFFFFFFF) ^^^ 0xFFFFFFFF

theorem and_one_toNat (x : UInt32) : (x &&& 1).toNat = x.toNat % 2 := by
  rw [UInt32.toNat_and]
  exact Nat.and_one_is_mod _

theorem crc32Round_even {x : UInt32} (h : x.toNat % 2 = 0) : crc32Round x = x >>> 1 :=
  if_neg fun hne => hne (UInt32.toNat_inj.mp ((and_one_toNat x).trans h))

theorem crc32Round_odd {x : UInt32} (h : x.toNat % 2 = 1) : crc32Round x = (x >>> 1) ^^^ 0xEDB88320 :=
  if_pos fun h0 => by
    have := and_one_toNat x
    rw [h0, h] at this
    cases this

theorem crc32Round_xor (x y : UInt32) : crc32Round (x ^^^ y) = crc32Round x ^^^ crc32Round y := by
  have hbit : (x ^^^ y).toNat % 2 = (x.toNat + y.toNat) % 2 := by
    rw [UInt32.toNat_xor, Nat.xor_mod_two_eq]
  have hshift : (x ^^^ y) >>> 1 = (x >>> 1) ^^^ (y >>> 1) := UInt32.shiftRight_xor
  rcases Nat.mod_two_eq_zero_or_one x.toNat with hx | hx <;>
  rcases Nat.mod_two_eq_zero_or_one y.toNat with hy | hy
  · rw [crc32Round_even (by omega), crc32Round_even hx, crc32Round_even hy, hshift]
  · rw [crc32Round_odd (by omega), crc32Round_even hx, crc32Round_odd hy, hshift, UInt32.xor_assoc]
  · rw [crc32Round_odd (by omega), crc32Round_odd hx, crc32Round_even hy, hshift]
    ac_rfl
  · rw [crc32Round_even (by omega), crc32Round_odd hx, crc32Round_odd hy, hshift, UInt32.xor_assoc,
      UInt32.xor_comm _ (y >>> 1 ^^^ _), UInt32.xor_assoc, UInt32.xor_self, UInt32.xor_zero]

theorem crc32Rounds_xor (n : Nat) (x y : UInt32) :
    crc32Round^[n] (x ^^^ y) = crc32Round^[n] x ^^^ crc32Round^[n] y := by
  induction n generalizing x y with
  | zero => rfl
  | succ n ih => simp only [Function.iterate_succ_apply, crc32Round_xor, ih]

/-- Low bits that are clear only move the others down. -/
theorem crc32Rounds_clear (n : Nat) (x : UInt32) (h : 2 ^ n ∣ x.toNat) :
    (crc32Round^[n] x).toNat = x.toNat / 2 ^ n := by
  induction n generalizing x with
  | zero => simp
  | succ n ih =>
    obtain ⟨m, hm⟩ := h
    rw [pow_succ] at hm
    have hhalf : (x >>> 1).toNat = 2 ^ n * m := by
      rw [UInt32.toNat_shiftRight]
      show x.toNat >>> 1 = _
      rw [Nat.shiftRight_one, hm, mul_right_comm, Nat.mul_div_cancel _ (by decide)]
    rw [Function.iterate_succ_apply, crc32Round_even (by rw [hm, mul_right_comm, Nat.mul_mod_left]),
      ih _ ⟨m, hhalf⟩, hhalf, hm, pow_succ, Nat.mul_div_cancel_left _ (by positivity),
      Nat.mul_div_cancel_left _ (by positivity)]

/-- One lookup is eight rounds. -/
theorem crc32Rounds_eight (x : UInt32) : crc32Round^[8] x = crc32Table (x &&& 0xFF) ^^^ (x >>> 8) := by
  set high := x ^^^ (x &&& 0xFF) with hdef
  have hhigh : high.toNat = x.toNat ^^^ (x.toNat % 2 ^ 8) := by
    rw [hdef, UInt32.toNat_xor, UInt32.toNat_and]
    exact congrArg _ (Nat.and_two_pow_sub_one_eq_mod _ 8)
  have hmod : 2 ^ 8 ∣ high.toNat := by
    rw [Nat.dvd_iff_mod_eq_zero, hhigh, Nat.xor_mod_two_pow, Nat.mod_mod, Nat.xor_self]
  have hsplit : x = (x &&& 0xFF) ^^^ high := by
    rw [hdef, UInt32.xor_comm x, ← UInt32.xor_assoc, UInt32.xor_self, UInt32.zero_xor]
  conv_lhs => rw [hsplit]
  rw [crc32Rounds_xor, crc32Table]
  congr 1
  refine UInt32.toNat_inj.mp ?_
  rw [crc32Rounds_clear 8 _ hmod, hhigh, Nat.xor_div_two_pow, Nat.mod_div_self, Nat.xor_zero,
    UInt32.toNat_shiftRight]
  exact (Nat.shiftRight_eq_div_pow _ 8).symm

theorem crc32Round_eq_zero {x : UInt32} (h : crc32Round x = 0) : x = 0 := by
  refine UInt32.toNat_inj.mp ?_
  have hhalf : (x >>> 1).toNat = x.toNat / 2 := by
    rw [UInt32.toNat_shiftRight]
    exact Nat.shiftRight_one _
  have hlt := x.toNat_lt
  rcases Nat.mod_two_eq_zero_or_one x.toNat with hx | hx
  · rw [crc32Round_even hx] at h
    rw [h] at hhalf
    have : (0 : UInt32).toNat = 0 := rfl
    omega
  · rw [crc32Round_odd hx, UInt32.xor_eq_zero_iff] at h
    rw [h] at hhalf
    have : (0xEDB88320 : UInt32).toNat = 3988292384 := rfl
    omega

theorem crc32Round_injective : Function.Injective crc32Round := fun x y h => by
  rw [← UInt32.xor_eq_zero_iff] at h ⊢
  exact crc32Round_eq_zero ((crc32Round_xor x y).trans h)

theorem crc32Step_eq (crc : UInt32) (byte : UInt8) :
    crc32Step crc byte = crc32Round^[8] (crc ^^^ byte.toUInt32) := by
  have hbyte : byte.toUInt32 >>> 8 = 0 := by
    refine UInt32.toNat_inj.mp ?_
    rw [UInt32.toNat_shiftRight]
    exact (Nat.shiftRight_eq_div_pow _ 8).trans (Nat.div_eq_of_lt byte.toNat_lt)
  rw [crc32Rounds_eight, UInt32.shiftRight_xor, hbyte, UInt32.xor_zero, crc32Step]

theorem crc32Step_injective (byte : UInt8) : Function.Injective (crc32Step · byte) := fun c c' h => by
  simp only [crc32Step_eq] at h
  exact UInt32.xor_left_inj _ |>.mp (crc32Round_injective.iterate 8 h)

theorem crc32Steps_injective (data : List UInt8) : Function.Injective (data.foldl crc32Step) := by
  induction data with
  | nil => exact fun _ _ h => h
  | cons b data ih => exact fun c c' h => crc32Step_injective b (ih h)

/-- A change of one byte, in whatever bits, changes the CRC. -/
theorem crc32Update_ne (crc : UInt32) (before after : List UInt8) {b b' : UInt8} (h : b ≠ b') :
    crc32Update crc (before ++ b :: after) ≠ crc32Update crc (before ++ b' :: after) := fun heq => by
  simp only [crc32Update, List.foldl_append, List.foldl_cons] at heq
  have hstep := crc32Steps_injective after ((UInt32.xor_left_inj _).mp heq)
  rw [crc32Step_eq, crc32Step_eq] at hstep
  have hbyte := (UInt32.xor_right_inj _).mp (crc32Round_injective.iterate 8 hstep)
  exact h (UInt8.toNat_inj.mp (congrArg UInt32.toNat hbyte))

theorem bytes_around (block : Buf) (off m n : Nat) :
    block.bytes off (m + (n + 1)) = block.bytes off m ++ block (off + m) :: block.bytes (off + m + 1) n :=
  Buf.bytes_append block off m (n + 1)

/-- The table computes the bit-by-bit CRC, a CRC can be continued, and every
single bit of a block counts. -/
theorem crc32_table_driven (crc : UInt32) (a b : List UInt8) :
    crc32Update crc a = crc32Bitwise crc a ∧
    crc32Update (crc32Update crc a) b = crc32Update crc (a ++ b) ∧
    ∀ (block : Buf) (off length : Nat) (i : Fin length) (k : Fin 8),
      crc32Calc (block.set (off + i) (block (off + i) ^^^ (1 <<< UInt8.ofNat k))) off length ≠
        crc32Calc block off length := by
  refine ⟨?_, ?_, fun block off length ⟨i, hi⟩ k => ?_⟩
  · have hstep : crc32Step = fun c byte => crc32Round^[8] (c ^^^ byte.toUInt32) :=
      funext₂ crc32Step_eq
    rw [crc32Update, crc32Bitwise, hstep]
  · rw [crc32Update, crc32Update, crc32Update, List.foldl_append, UInt32.xor_assoc, UInt32.xor_self, UInt32.xor_zero]
  · obtain ⟨n, rfl⟩ : ∃ n, length = i + (n + 1) := ⟨length - i - 1, by omega⟩
    dsimp only
    unfold crc32Calc
    have hbit : ∀ k : Fin 8, (1 : UInt8) <<< UInt8.ofNat k ≠ 0 := by decide
    rw [bytes_around, bytes_around block, Buf.set_self, Buf.bytes_congr (Buf.eqOn_set block _ (.inl le_rfl)),
      Buf.bytes_congr (Buf.eqOn_set block _ (.inr le_rfl))]
    refine crc32Update_ne _ _ _ fun h => hbit k ?_
    exact (UInt8.xor_right_inj _).mp (h.trans (UInt8.xor_zero).symm)

end LiwusOS.Fs
