import LiwusOS.Gui.Layout
import LiwusOS.Gui.Transform

/-! # The camera (`camera.c`, `camera.h`)

Zoom and position are fixed-point integers and every division truncates. The
functions that end in `_x` and `_y` take the axis here. A conversion to `int`
wraps; `ZoomFits` says that those of a call do not. -/

namespace LiwusOS.Gui
open Layout (Axis)

def cameraZoomScale : Int := 1024
def cameraPosScale : Int := 256
def cameraZoomMinFp : Int := cameraZoomScale / 10
def cameraZoomMaxFp : Int := cameraZoomScale * 8

/-- Velocities and the screen's size play no part in a zoom. -/
structure Camera where
  posFp : Axis → Int
  zoomFp : Int
  dirty : Bool

def toInt32 (x : Int) : Int := x.bmod (2 ^ 32)

theorem toInt32_eq {x : Int} (h : FitsInt x) : toInt32 x = x := h.bmod_eq

def iclampcam (v lo hi : Int) : Int := if v < lo then lo else if v > hi then hi else v

/-- A length on the screen as one in the world, in position units. -/
def unzoom (zoomFp s : Int) : Int := (s * cameraZoomScale * cameraPosScale).tdiv zoomFp

/-- The world point, before its conversion to `int`. -/
def Camera.point (c : Camera) (a : Axis) (s : Int) : Int := (unzoom c.zoomFp s + c.posFp a).tdiv cameraPosScale

def cameraScreenToWorld (c : Camera) (a : Axis) (s : Int) : Int := toInt32 (c.point a s)

def cameraWorldToScreen (c : Camera) (a : Axis) (w : Int) : Int :=
  let diff := toInt32 (w * cameraPosScale) - c.posFp a
  toInt32 ((diff * c.zoomFp).tdiv (cameraZoomScale * cameraPosScale))

def cameraZoomAt (c : Camera) (newZoomFp : Int) (pivot : Axis → Int) : Camera :=
  let newZoomFp := iclampcam newZoomFp cameraZoomMinFp cameraZoomMaxFp
  if newZoomFp = c.zoomFp then c
  else
    { posFp := fun a =>
        toInt32 (cameraScreenToWorld c a (pivot a) * cameraPosScale - unzoom newZoomFp (pivot a))
      zoomFp := newZoomFp
      dirty := true }

/-- No position of a call overflows: neither the world point under the pivot,
in pixels and in position units, nor the new position. -/
structure ZoomFits (c : Camera) (newZoomFp : Int) (a : Axis) (p : Int) : Prop where
  point : FitsInt (c.point a p)
  scaled : FitsInt (c.point a p * cameraPosScale)
  moved : FitsInt (c.point a p * cameraPosScale -
    unzoom (iclampcam newZoomFp cameraZoomMinFp cameraZoomMaxFp) p)

/-- Calls one after another at one pivot. -/
def zoomRun (pivot : Axis → Int) (c : Camera) (zs : List Int) : Camera := zs.foldl (cameraZoomAt · · pivot) c

/-- A call computes positions only if it changes the zoom. -/
def RunFits (pivot : Axis → Int) : Camera → List Int → Prop
  | _, [] => True
  | c, z :: zs => ((cameraZoomAt c z pivot).zoomFp ≠ c.zoomFp → ∀ a, ZoomFits c z a (pivot a)) ∧
    RunFits pivot (cameraZoomAt c z pivot) zs

theorem iclampcam_zoom (z : Int) : 102 ≤ iclampcam z cameraZoomMinFp cameraZoomMaxFp ∧
    iclampcam z cameraZoomMinFp cameraZoomMaxFp ≤ 8192 := by
  have hlo : cameraZoomMinFp = 102 := rfl
  have hhi : cameraZoomMaxFp = 8192 := rfl
  unfold iclampcam
  split_ifs <;> omega

/-- Truncating `p * 2 ^ 18 / z` loses less than `z` of `p * 2 ^ 18`, and `z` is
below `2 ^ 18`. -/
theorem unzoom_near {z p : Int} (hz : 102 ≤ z ∧ z ≤ 8192) (hp : 0 ≤ p) (hpf : FitsInt p) :
    |toInt32 ((unzoom z p * z).tdiv (cameraZoomScale * cameraPosScale)) - p| ≤ 1 := by
  have hscale : cameraZoomScale * cameraPosScale = 262144 := rfl
  have hp0 : 0 ≤ p * 262144 := by omega
  rw [unzoom, mul_assoc, hscale, Int.tdiv_eq_ediv_of_nonneg hp0]
  set q := p * 262144 / z
  have hle : q * z ≤ p * 262144 := Int.ediv_mul_le _ (by omega)
  have hlt : p * 262144 < (q + 1) * z := Int.lt_ediv_add_one_mul_self _ (by omega)
  have hqz : 0 ≤ q * z := mul_nonneg (Int.ediv_nonneg hp0 (by omega)) (by omega)
  rw [add_mul, one_mul] at hlt
  rw [Int.tdiv_eq_ediv_of_nonneg hqz, toInt32_eq (by unfold FitsInt at hpf ⊢; omega), abs_le]
  omega

theorem cameraZoomAt_pivot {c : Camera} {z : Int} {pivot : Axis → Int} (hp : ∀ a, 0 ≤ pivot a ∧ FitsInt (pivot a))
    (hfits : (cameraZoomAt c z pivot).zoomFp ≠ c.zoomFp → ∀ a, ZoomFits c z a (pivot a)) (a : Axis) :
    cameraScreenToWorld (cameraZoomAt c z pivot) a (pivot a) = cameraScreenToWorld c a (pivot a) ∧
    ((cameraZoomAt c z pivot).zoomFp ≠ c.zoomFp →
      |cameraWorldToScreen (cameraZoomAt c z pivot) a (cameraScreenToWorld c a (pivot a)) - pivot a| ≤ 1) := by
  unfold cameraZoomAt at hfits ⊢
  dsimp only at hfits ⊢
  split at hfits
  · next heq =>
    rw [if_pos heq]
    exact ⟨rfl, fun h => absurd rfl h⟩
  · next hne =>
    have h := hfits hne a
    rw [if_neg hne, cameraScreenToWorld, cameraScreenToWorld, toInt32_eq h.point, Camera.point,
      cameraWorldToScreen]
    dsimp only
    rw [cameraScreenToWorld, toInt32_eq h.point, toInt32_eq h.moved, toInt32_eq h.scaled, add_sub_cancel,
      sub_sub_cancel, Int.mul_tdiv_cancel _ (by decide), toInt32_eq h.point]
    exact ⟨rfl, fun _ => unzoom_near (iclampcam_zoom z) (hp a).1 (hp a).2⟩

/-- The world point under the pivot is the same integer after all calls, and
each call that changes the zoom shows it within a pixel of the pivot. -/
theorem zoom_keeps_pivot (c : Camera) (pivot : Axis → Int) (zs : List Int)
    (hp : ∀ a, 0 ≤ pivot a ∧ FitsInt (pivot a)) (hfits : RunFits pivot c zs) (a : Axis) :
    cameraScreenToWorld (zoomRun pivot c zs) a (pivot a) = cameraScreenToWorld c a (pivot a) ∧
    ∀ before z after, zs = before ++ z :: after →
      let c₁ := zoomRun pivot c before
      let c₂ := cameraZoomAt c₁ z pivot
      c₂.zoomFp ≠ c₁.zoomFp →
      |cameraWorldToScreen c₂ a (cameraScreenToWorld c a (pivot a)) - pivot a| ≤ 1 := by
  induction zs generalizing c with
  | nil => exact ⟨rfl, fun before z after h => by simp at h⟩
  | cons z zs ih =>
    obtain ⟨hsame, hnear⟩ := cameraZoomAt_pivot hp hfits.1 a
    obtain ⟨hrun, hrest⟩ := ih (cameraZoomAt c z pivot) hfits.2
    refine ⟨hrun.trans hsame, fun before z' after h => ?_⟩
    cases before with
    | nil =>
      cases h
      exact hnear
    | cons z₁ before =>
      cases h
      rw [hsame] at hrest
      exact hrest before z' after rfl

/-- Zooming in and out again at pixel (100, 100). -/
theorem zoom_keeps_pivot_twice :
    cameraScreenToWorld (zoomRun (fun _ => 100) ⟨fun _ => 0, 1024, false⟩ [3000, 500]) .x 100 = 100 := by
  refine (zoom_keeps_pivot ⟨fun _ => 0, 1024, false⟩ (fun _ => 100) [3000, 500] ?_ ?_ .x).1
  · exact fun _ => ⟨by decide, by unfold FitsInt; decide⟩
  · refine ⟨fun _ a => ⟨?_, ?_, ?_⟩, fun _ a => ⟨?_, ?_, ?_⟩, trivial⟩ <;> unfold FitsInt <;> cases a <;> decide

end LiwusOS.Gui
