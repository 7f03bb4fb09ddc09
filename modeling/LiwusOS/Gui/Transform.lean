import Mathlib

/-! # Affine transforms (`gui/math/transform.h`)

Fixed point with 16 fractional bits; the translation is in pixels. -/

namespace LiwusOS.Gui

/-- It is an `int`. -/
def FitsInt (z : Int) : Prop := -2 ^ 31 ≤ z ∧ z < 2 ^ 31

theorem FitsInt.bmod_eq {z : Int} (h : FitsInt z) : z.bmod (2 ^ 32) = z := by
  obtain ⟨hlow, hhigh⟩ := h
  exact Int.bmod_eq_of_le (by omega) (by omega)

/-- `gui_transform_t`. -/
structure Transform where
  a : Int32
  b : Int32
  c : Int32
  d : Int32
  tx : Int32
  ty : Int32
deriving DecidableEq

def transformScale : Int32 := 65536

def transformIdentity : Transform := ⟨transformScale, 0, 0, transformScale, 0, 0⟩

def transformTranslation (tx ty : Int32) : Transform := { transformIdentity with tx := tx, ty := ty }

/-- `(int32_t)(((int64_t)p * x + (int64_t)q * y) / TRANSFORM_SCALE)`. -/
def scaledSum (p x q y : Int32) : Int32 :=
  ((p.toInt64 * x.toInt64 + q.toInt64 * y.toInt64) / transformScale.toInt64).toInt32

/-- `transform_concat`: first `a`, then `b`. -/
def transformConcat (a b : Transform) : Transform where
  a := scaledSum b.a a.a b.c a.b
  b := scaledSum b.b a.a b.d a.b
  c := scaledSum b.a a.c b.c a.d
  d := scaledSum b.b a.c b.d a.d
  tx := scaledSum b.a a.tx b.c a.ty + b.tx
  ty := scaledSum b.b a.tx b.d a.ty + b.ty

/-- Multiplied by one in fixed point. -/
theorem scaled_toInt32 (x : Int32) : (transformScale.toInt64 * x.toInt64 / transformScale.toInt64).toInt32 = x := by
  have hlt := x.toInt_lt
  have hle := x.le_toInt
  have hscale : transformScale.toInt64.toInt = 65536 := rfl
  have hmul : (transformScale.toInt64 * x.toInt64).toInt = 65536 * x.toInt := by
    rw [Int64.toInt_mul, hscale, Int32.toInt_toInt64]
    exact Int.bmod_eq_of_le (by omega) (by omega)
  apply Int32.toInt_inj.mp
  rw [Int64.toInt_toInt32, Int64.toInt_div, hmul, hscale, Int.mul_tdiv_cancel_left _ (by decide),
    Int.bmod_eq_of_le (m := 2 ^ 64) (by omega) (by omega)]
  exact Int.bmod_eq_of_le (by omega) (by omega)

theorem scaledSum_left (x y : Int32) : scaledSum transformScale x 0 y = x := by
  have hzero : (0 : Int32).toInt64 = 0 := rfl
  rw [scaledSum, hzero, Int64.zero_mul, Int64.add_zero, scaled_toInt32]

theorem scaledSum_right (x y : Int32) : scaledSum 0 x transformScale y = y := by
  have hzero : (0 : Int32).toInt64 = 0 := rfl
  rw [scaledSum, hzero, Int64.zero_mul, Int64.zero_add, scaled_toInt32]

/-- Translations add up. -/
theorem transformConcat_translation (x y u v : Int32) :
    transformConcat (transformTranslation x y) (transformTranslation u v) = transformTranslation (x + u) (y + v) := by
  simp only [transformConcat, transformTranslation, transformIdentity, scaledSum_left, scaledSum_right]

end LiwusOS.Gui
