import Mathlib.Data.List.Pairwise
import Mathlib.Data.List.Perm.Basic

/-! # Disjoint blocks of an address range

A block is known by its first address; its length is a function of that
address, the way an allocator keeps it in a header. The rules say when the
lengths may change and when a block may be added without two blocks meeting. -/

namespace LiwusOS.Lib
open Function

/-- `[a, a + size a)` and `[b, b + size b)` do not meet. -/
def Apart (size : Nat → Nat) (a b : Nat) : Prop := a + size a ≤ b ∨ b + size b ≤ a

/-- The blocks `bs` lie in `[lo, hi)`, no two of them meet, and each is at least
`least` long. -/
structure Regions (least : Nat) (size : Nat → Nat) (lo hi : Nat) (bs : List Nat) : Prop where
  apart : bs.Pairwise (Apart size)
  inside : ∀ b ∈ bs, lo ≤ b ∧ b + size b ≤ hi
  large : ∀ b ∈ bs, least ≤ size b

variable {least lo hi : Nat} {size : Nat → Nat} {bs : List Nat}

theorem Apart.symm {a b : Nat} (h : Apart size a b) : Apart size b a := Or.symm h

theorem Apart.congr {size' : Nat → Nat} {a b : Nat} (h : Apart size a b) (ha : size' a ≤ size a)
    (hb : size' b ≤ size b) : Apart size' a b := by
  unfold Apart at *
  omega

namespace Regions

theorem nil : Regions least size lo hi [] :=
  ⟨List.Pairwise.nil, fun _ hb => absurd hb List.not_mem_nil, fun _ hb => absurd hb List.not_mem_nil⟩

section
variable (h : Regions least size lo hi bs)
include h

theorem perm {cs : List Nat} (hp : bs.Perm cs) : Regions least size lo hi cs :=
  ⟨h.apart.perm hp Apart.symm, fun b hb => h.inside b (hp.mem_iff.mpr hb),
    fun b hb => h.large b (hp.mem_iff.mpr hb)⟩

theorem extend {hi' : Nat} (hhi : hi ≤ hi') : Regions least size lo hi' bs :=
  ⟨h.apart, fun b hb => ⟨(h.inside b hb).1, Nat.le_trans (h.inside b hb).2 hhi⟩, h.large⟩

theorem nodup (hpos : 0 < least) : bs.Nodup := by
  refine h.apart.imp_of_mem fun {a b} ha _ hab heq => ?_
  subst heq
  have := h.large a ha
  unfold Apart at hab
  omega

/-- Blocks may get shorter. -/
theorem shrink {size' : Nat → Nat} (hle : ∀ b ∈ bs, size' b ≤ size b) (hlarge : ∀ b ∈ bs, least ≤ size' b) :
    Regions least size' lo hi bs := by
  refine ⟨?_, fun b hb => ?_, hlarge⟩
  · exact h.apart.imp_of_mem fun ha hb hab => hab.congr (hle _ ha) (hle _ hb)
  · have := h.inside b hb
    have := hle b hb
    omega

theorem shrink_one {b n : Nat} (hle : n ≤ size b) (hn : least ≤ n) : Regions least (update size b n) lo hi bs := by
  refine h.shrink (fun c _ => ?_) fun c hc => ?_
  · rcases eq_or_ne c b with rfl | hne
    · rwa [update_self]
    · exact Nat.le_of_eq (update_of_ne hne _ _)
  · rcases eq_or_ne c b with rfl | hne
    · rwa [update_self]
    · rw [update_of_ne hne]
      exact h.large c hc

/-- A block past the end is none of the others. -/
theorem notMem_of_ge {b : Nat} (hpos : 0 < least) (hb : hi ≤ b) : b ∉ bs := by
  intro hmem
  have h1 := h.inside b hmem
  have h2 := h.large b hmem
  omega

/-- A new block past the end. -/
theorem push {b n hi' : Nat} (hpos : 0 < least) (hlo : lo ≤ b) (hb : hi ≤ b) (hn : least ≤ n) (hend : b + n ≤ hi') :
    Regions least (update size b n) lo hi' (b :: bs) := by
  have hne : ∀ c ∈ bs, update size b n c = size c := fun c hc =>
    update_of_ne (ne_of_mem_of_not_mem hc (h.notMem_of_ge hpos hb)) _ _
  have hold : Regions least (update size b n) lo hi bs :=
    h.shrink (fun c hc => Nat.le_of_eq (hne c hc)) fun c hc => by
      rw [hne c hc]
      exact h.large c hc
  refine ⟨List.pairwise_cons.mpr ⟨fun c hc => .inr ?_, hold.apart⟩, fun c hc => ?_, fun c hc => ?_⟩
  · exact Nat.le_trans (hold.inside c hc).2 hb
  · rcases List.mem_cons.mp hc with rfl | hc
    · rw [update_self]
      exact ⟨hlo, hend⟩
    · have := hold.inside c hc
      omega
  · rcases List.mem_cons.mp hc with rfl | hc
    · rwa [update_self]
    · exact hold.large c hc

end

end Regions

end LiwusOS.Lib
