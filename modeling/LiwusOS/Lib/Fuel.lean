import Mathlib.Data.Set.Finite.Basic
import Mathlib.Logic.Function.Iterate
import Mathlib.Logic.Relation

/-! # Fuelled computations

A loop without a known bound is modelled with a fuel argument and answers
`none` when it runs out. `Settles f r`: with enough fuel the answer is `r`, and
no amount of fuel gives another answer. -/

namespace LiwusOS.Lib
open Option Relation

variable {α β : Type}

structure Settles (f : Nat → Option α) (r : α) : Prop where
  enough : ∃ N, ∀ n ≥ N, f n = some r
  only : ∀ n x, f n = some x → x = r

variable {f : Nat → Option α} {r a : α}

/-- Two independent fuels. -/
structure Settles₂ (f : Nat → Nat → Option α) (r : α) : Prop where
  enough : ∃ N, ∀ b ≥ N, ∀ n ≥ N, f b n = some r
  only : ∀ b n x, f b n = some x → x = r

namespace Settles₂

theorem diag {f : Nat → Nat → Option α} (h : Settles₂ f r) : Settles (fun n => f n n) r := by
  obtain ⟨N, hN⟩ := h.enough
  exact ⟨⟨N, fun n hn => hN n hn n hn⟩, fun n x hx => h.only n n x hx⟩

theorem const (r : α) : Settles₂ (fun _ _ => some r) r :=
  ⟨⟨0, fun _ _ _ _ => rfl⟩, fun _ _ _ h => (some.inj h).symm⟩

theorem ofFirst (h : Settles f r) : Settles₂ (fun b _ => f b) r := by
  obtain ⟨N, hN⟩ := h.enough
  exact ⟨⟨N, fun b hb _ _ => hN b hb⟩, fun b _ x hx => h.only b x hx⟩

theorem ofSecond (h : Settles f r) : Settles₂ (fun _ n => f n) r := by
  obtain ⟨N, hN⟩ := h.enough
  exact ⟨⟨N, fun _ _ n hn => hN n hn⟩, fun _ n x hx => h.only n x hx⟩

theorem bind {f : Nat → Nat → Option α} {g : Nat → Nat → α → Option β} {r : β}
    (hf : Settles₂ f a) (hg : Settles₂ (fun b n => g b n a) r) : Settles₂ (fun b n => (f b n).bind (g b n)) r := by
  obtain ⟨N, hN⟩ := hf.enough
  obtain ⟨M, hM⟩ := hg.enough
  refine ⟨⟨max N M, fun b hb n hn => ?_⟩, fun b n x hx => ?_⟩
  · rw [hN b (by omega) n (by omega), bind_some]
    exact hM b (by omega) n (by omega)
  · obtain ⟨a', ha', hx'⟩ := bind_eq_some_iff.mp hx
    cases hf.only b n a' ha'
    exact hg.only b n x hx'

theorem succ {f g : Nat → Nat → Option α} (h0 : ∀ b, f b 0 = none)
    (hs : ∀ b n, f b (n + 1) = g b n) (hg : Settles₂ g r) : Settles₂ f r := by
  obtain ⟨N, hN⟩ := hg.enough
  refine ⟨⟨N + 1, fun b hb n hn => ?_⟩, fun b n x hx => ?_⟩
  · obtain ⟨m, rfl⟩ : ∃ m, n = m + 1 := ⟨n - 1, by omega⟩
    rw [hs, hN b (by omega) m (by omega)]
  · cases n with
    | zero => rw [h0] at hx; cases hx
    | succ n => exact hg.only b n x (by rw [← hs, hx])

end Settles₂

namespace Settles

theorem const (r : α) : Settles (fun _ => some r) r :=
  ⟨⟨0, fun _ _ => rfl⟩, fun _ _ h => (some.inj h).symm⟩

theorem unique {r' : α} (h : Settles f r) (h' : Settles f r') : r = r' := by
  obtain ⟨N, hN⟩ := h.enough
  exact h'.only N r (hN N (Nat.le_refl N))

theorem bind {g : Nat → α → Option β} {r : β} (hf : Settles f a)
    (hg : Settles (fun n => g n a) r) : Settles (fun n => (f n).bind (g n)) r :=
  (Settles₂.bind (g := fun n _ => g n) (.ofFirst hf) (.ofFirst hg)).diag

theorem congr {g : Nat → Option α} (h : ∀ n, f n = g n) (hg : Settles g r) : Settles f r := by
  have : f = g := funext h
  rwa [this]

theorem map (hf : Settles f a) (g : α → β) : Settles (fun n => (f n).map g) (g a) :=
  .congr (fun _ => map_eq_bind) (hf.bind (g := fun _ => some ∘ g) (.const _))

theorem map_only (h : Settles f r) (g : α → β) {fuel : Nat} {x : β}
    (hx : (f fuel).map g = some x) : x = g r := (h.map g).only fuel x hx

/-- One more round of a loop. -/
theorem succ {g : Nat → Option α} (h0 : f 0 = none) (hs : ∀ n, f (n + 1) = g n) (hg : Settles g r) : Settles f r :=
  (Settles₂.succ (f := fun _ => f) (g := fun _ => g) (fun _ => h0) (fun _ => hs) (.ofSecond hg)).diag

theorem pos {p : Prop} [Decidable p] {g : Nat → Option α} (hp : p) (h : Settles f r) :
    Settles (fun n => if p then f n else g n) r := .congr (fun _ => if_pos hp) h

theorem neg {p : Prop} [Decidable p] {g : Nat → Option α} (hp : ¬ p) (h : Settles g r) :
    Settles (fun n => if p then f n else g n) r := .congr (fun _ => if_neg hp) h

/-- A loop over a list whose steps settle in every state with `I`. -/
theorem foldlM {f : Nat → β → α → Option β} {I : β → Prop} {l : List α} {b : β} (hb : I b)
    (hf : ∀ a ∈ l, ∀ b, I b → ∃ b', I b' ∧ Settles (fun n => f n b a) b') :
    ∃ b', I b' ∧ Settles (fun n => l.foldlM (f n) b) b' := by
  induction l generalizing b with
  | nil => exact ⟨b, hb, .const b⟩
  | cons a rest ih =>
    obtain ⟨b1, hb1, hs1⟩ := hf a List.mem_cons_self b hb
    obtain ⟨b2, hb2, hs2⟩ := ih hb1 fun a ha => hf a (.tail _ ha)
    exact ⟨b2, hb2, .congr (fun n => List.foldlM_cons) (hs1.bind hs2)⟩

end Settles

/-- A loop that goes from `x` to `step x` comes to a stop. -/
def Ends (step : α → α) (stop : α → Prop) (x : α) : Prop := ∃ k, stop (step^[k] x)

section Cycles
variable {step : α → α} {stop : α → Prop} {x y : α}

/-- The loop goes on from `x` to `y`. -/
def Follows (step : α → α) (stop : α → Prop) (x y : α) : Prop := ¬ stop x ∧ step x = y

theorem Ends.next (h : Ends step stop x) (hxy : Follows step stop x y) : Ends step stop y := by
  obtain ⟨k, hk⟩ := h
  obtain ⟨hgo, rfl⟩ := hxy
  cases k with
  | zero => exact absurd hk hgo
  | succ k => exact ⟨k, hk⟩

end Cycles

end LiwusOS.Lib
