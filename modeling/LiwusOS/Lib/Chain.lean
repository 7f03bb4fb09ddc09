import Mathlib.Tactic

/-! # Singly linked chains

A chain is a `next` function with a terminator. `Seg next nil a l c` reads:
starting at `a` and following `next` through exactly the nodes of `l`, none of
them the terminator, one arrives at `c`. A complete chain is a segment that
arrives at the terminator. Chains are determined by their start, so a complete
chain never meets a node twice. -/

namespace LiwusOS.Lib

variable {α : Type} {next next' : α → α} {nil : α}

def Seg (next : α → α) (nil : α) : α → List α → α → Prop
  | a, [], c => a = c
  | a, b :: l, c => a = b ∧ b ≠ nil ∧ Seg next nil (next b) l c

/-- The complete chain from `a`: the nodes of `l`, then the terminator. -/
def Chain (next : α → α) (nil : α) (a : α) (l : List α) : Prop := Seg next nil a l nil

/-- `b` is met on the way from `a`, whether or not the walk ever ends. -/
inductive OnChain (next : α → α) (nil : α) : α → α → Prop
  | head {a : α} : a ≠ nil → OnChain next nil a a
  | tail {a b : α} : a ≠ nil → OnChain next nil (next a) b → OnChain next nil a b

variable {l l' : List α} {a c b : α}

theorem Seg.append {m : α} (h : Seg next nil a l m) (h' : Seg next nil m l' c) : Seg next nil a (l ++ l') c := by
  induction l generalizing a with
  | nil => cases h; exact h'
  | cons b l ih =>
    obtain ⟨rfl, hb, hs⟩ := h
    exact ⟨rfl, hb, ih hs⟩

theorem Seg.split (h : Seg next nil a (l ++ l') c) : ∃ m, Seg next nil a l m ∧ Seg next nil m l' c := by
  induction l generalizing a with
  | nil => exact ⟨a, rfl, h⟩
  | cons b l ih =>
    obtain ⟨rfl, hb, hs⟩ := h
    obtain ⟨m, h1, h2⟩ := ih hs
    exact ⟨m, ⟨rfl, hb, h1⟩, h2⟩

theorem Seg.congr (h : Seg next nil a l c) (hf : ∀ b ∈ l, next' b = next b) : Seg next' nil a l c := by
  induction l generalizing a with
  | nil => exact h
  | cons b l ih =>
    obtain ⟨rfl, hb, hs⟩ := h
    refine ⟨rfl, hb, ?_⟩
    rw [hf _ (.head _)]
    exact ih hs (fun x hx => hf x (.tail _ hx))

theorem Seg.ne_nil (h : Seg next nil a l c) : ∀ b ∈ l, b ≠ nil := by
  induction l generalizing a with
  | nil => intro b hb; cases hb
  | cons x l ih =>
    obtain ⟨rfl, hx, hs⟩ := h
    intro b hb
    rcases List.mem_cons.mp hb with rfl | hb
    · exact hx
    · exact ih hs b hb

theorem Chain.congr (h : Chain next nil a l) (hf : ∀ b ∈ l, next' b = next b) : Chain next' nil a l :=
  Seg.congr h hf

theorem Chain.unique (h : Chain next nil a l) (h' : Chain next nil a l') : l = l' := by
  induction l generalizing a l' with
  | nil =>
    cases l' with
    | nil => rfl
    | cons b l' =>
      obtain ⟨rfl, hb, _⟩ := h'
      exact absurd h hb
  | cons b l ih =>
    obtain ⟨rfl, hb, hs⟩ := h
    cases l' with
    | nil => exact absurd h' hb
    | cons b' l' =>
      obtain ⟨rfl, _, hs'⟩ := h'
      rw [ih hs hs']

/-- The walk can be taken up at any node of the chain. -/
theorem Chain.suffix (h : Chain next nil a (l ++ b :: l')) : Chain next nil b (b :: l') := by
  obtain ⟨m, _, h2⟩ := Seg.split h
  obtain ⟨rfl, hb, hs⟩ := h2
  exact ⟨rfl, hb, hs⟩

theorem Chain.tail (h : Chain next nil a (b :: l)) : Chain next nil (next b) l :=
  h.2.2

theorem Chain.nodup (h : Chain next nil a l) : l.Nodup := by
  induction l generalizing a with
  | nil => exact List.nodup_nil
  | cons b l ih =>
    refine List.nodup_cons.mpr ⟨?_, ih h.tail⟩
    -- a second visit to `b` would start the same chain with fewer nodes left
    intro hm
    obtain ⟨l1, l2, rfl⟩ := List.append_of_mem hm
    have h1 : Chain next nil b (b :: (l1 ++ b :: l2)) := Chain.suffix (l := []) h
    have h2 : Chain next nil b (b :: l2) := Chain.suffix (l := b :: l1) h
    have he := congrArg List.length (h1.unique h2)
    simp only [List.length_cons, List.length_append] at he
    omega

theorem Chain.onChain_iff (h : Chain next nil a l) : OnChain next nil a b ↔ b ∈ l := by
  constructor
  · intro ho
    induction ho generalizing l with
    | head ha =>
      cases l with
      | nil => exact absurd h ha
      | cons x l => obtain ⟨rfl, _⟩ := h; exact .head _
    | tail ha _ ih =>
      cases l with
      | nil => exact absurd h ha
      | cons x l =>
        obtain ⟨rfl, _, hs⟩ := h
        exact .tail _ (ih hs)
  · intro hm
    induction l generalizing a with
    | nil => cases hm
    | cons x l ih =>
      obtain ⟨rfl, hx, hs⟩ := h
      rcases List.mem_cons.mp hm with rfl | hm
      · exact OnChain.head hx
      · exact OnChain.tail hx (ih hs hm)

/-- Linking a new last node: the old last node now points to it, it points to
the terminator, and nothing else on the chain moved. -/
theorem Chain.snoc {x : α} (h : Chain next nil a (l ++ [x]))
    (hb : b ≠ nil) (hold : ∀ y ∈ l, next' y = next y) (hx : next' x = b)
    (hlast : next' b = nil) : Chain next' nil a (l ++ [x] ++ [b]) := by
  obtain ⟨m, h1, h2⟩ := Seg.split h
  obtain ⟨rfl, hx0, _⟩ := h2
  refine Seg.append (Seg.append (h1.congr hold) ?_) (m := b) ?_
  · exact ⟨rfl, hx0, hx⟩
  · exact ⟨rfl, hb, hlast⟩

end LiwusOS.Lib
