import LiwusOS.Lib.Chain
import LiwusOS.Lib.Fuel

/-! # Circular lists

A ring is a `next` function that leads from a node through a list of distinct
nodes back to it. The two loops written over rings are `do { .. } while (t !=
stop)`, which visits every node once, and a search that runs until it meets a
node it looks for. Both are given with fuel and shown to be the corresponding
functions on the list of nodes. -/

namespace LiwusOS.Lib
open List

variable {α σ β : Type} {next next' : α → α} {nil a b c : α} {l : List α}

/-- Following `next` from `a` visits the nodes of `l`, each once, and returns. -/
structure Ring (next : α → α) (nil a : α) (l : List α) : Prop where
  seg : Seg next nil a l a
  nodup : l.Nodup
  pos : l ≠ []

namespace Ring

theorem eq_cons (h : Ring next nil a l) : ∃ t, l = a :: t ∧ Seg next nil (next a) t a := by
  cases l with
  | nil => exact absurd rfl h.pos
  | cons x t =>
    obtain ⟨rfl, -, hs⟩ := h.seg
    exact ⟨t, rfl, hs⟩

theorem head_mem (h : Ring next nil a l) : a ∈ l := by
  obtain ⟨t, rfl, -⟩ := h.eq_cons
  exact .head _

theorem congr (h : Ring next nil a l) (hf : ∀ b ∈ l, next' b = next b) : Ring next' nil a l :=
  ⟨h.seg.congr hf, h.nodup, h.pos⟩

theorem ne_nil (h : Ring next nil a l) : ∀ b ∈ l, b ≠ nil := h.seg.ne_nil

/-- The ring as seen from another of its nodes. -/
theorem rotate_append {l1 l2 : List α} (h : Ring next nil a (l1 ++ b :: l2)) : Ring next nil b (b :: (l2 ++ l1)) := by
  obtain ⟨m, h1, rfl, hm, h2⟩ := h.seg.split
  exact ⟨⟨rfl, hm, h2.append h1⟩, perm_append_comm.nodup_iff.mpr h.nodup, cons_ne_nil _ _⟩

theorem rotate (h : Ring next nil a l) (hb : b ∈ l) : ∃ t, Ring next nil b (b :: t) ∧ (b :: t).Perm l := by
  obtain ⟨l1, l2, rfl⟩ := append_of_mem hb
  exact ⟨l2 ++ l1, h.rotate_append, @perm_append_comm α (b :: l2) l1⟩

theorem next_mem (h : Ring next nil a l) (hb : b ∈ l) : next b ∈ l := by
  obtain ⟨t, ht, hperm⟩ := h.rotate hb
  obtain ⟨-, -, hs⟩ := ht.seg
  rw [← hperm.mem_iff]
  cases t with
  | nil =>
    rw [show next b = b from hs]
    exact .head _
  | cons x t =>
    rw [hs.1]
    exact .tail _ (.head _)

/-- A new node right after the head. -/
theorem insert {t : List α} (h : Ring next nil a (a :: t)) (hnew : b ∉ a :: t) (hb : b ≠ nil)
    (ha : next' a = b) (hnext : next' b = next a) (hold : ∀ c ∈ t, next' c = next c) :
    Ring next' nil a (a :: b :: t) := by
  obtain ⟨-, hane, hseg⟩ := h.seg
  refine ⟨⟨rfl, hane, ha, hb, ?_⟩, ?_, cons_ne_nil _ _⟩
  · rw [hnext]
    exact hseg.congr hold
  · have hswap : (a :: b :: t).Perm (b :: a :: t) := List.Perm.swap b a t
    exact hswap.nodup_iff.mpr (nodup_cons.mpr ⟨hnew, h.nodup⟩)

/-- The node after `p` is unlinked. -/
theorem remove {p : α} {l1 l2 : List α} (h : Ring next nil a (l1 ++ p :: b :: l2))
    (hp : next' p = next b) (hold : ∀ c ∈ l1 ++ l2, next' c = next c) : Ring next' nil a (l1 ++ p :: l2) := by
  obtain ⟨m, h1, hm, hpne, hb, hbne, h2⟩ := h.seg.split
  refine ⟨?_, ?_, by simp⟩
  · refine (h1.congr fun c hc => hold c (mem_append_left _ hc)).append ⟨hm, hpne, ?_⟩
    rw [hp]
    exact h2.congr fun c hc => hold c (mem_append_right _ hc)
  · refine h.nodup.sublist (List.Sublist.append_left ?_ l1)
    exact (sublist_cons_self b l2).cons_cons p

/-- A node that is not the head has a predecessor. -/
theorem split_before (h : Ring next nil a l) (hb : b ∈ l) (hne : b ≠ a) : ∃ l1 p l2, l = l1 ++ p :: b :: l2 := by
  obtain ⟨l1, l2, rfl⟩ := append_of_mem hb
  rcases eq_nil_or_concat l1 with rfl | ⟨l0, p, rfl⟩
  · exact absurd h.seg.1.symm hne
  · exact ⟨l0, p, l2, by simp⟩

/-- The successor of a node is the next one of the list, unless it is the head. -/
theorem split_after {p : α} (h : Ring next nil a l) (hp : p ∈ l) (hb : next p = b) (hne : b ≠ a) :
    ∃ l1 l2, l = l1 ++ p :: b :: l2 := by
  obtain ⟨l1, l2, rfl⟩ := append_of_mem hp
  obtain ⟨m, -, hm, -, hs⟩ := h.seg.split
  cases l2 with
  | nil => exact absurd (hb.symm.trans hs) hne
  | cons c l2 => exact ⟨l1, l2, by rw [← hb, hs.1]⟩

end Ring

/-! ## Visiting every node -/

/-- `do { body } while ((t = t->next) != stop)`; the body may leave the loop
with a result. -/
def doWhile [DecidableEq α] (next : σ → α → α) (stop : α) (body : σ → α → σ ⊕ β) :
    Nat → σ → α → Option (σ ⊕ β)
  | 0, _, _ => none
  | fuel + 1, s, t =>
    match body s t with
    | .inr r => some (.inr r)
    | .inl s => if next s t = stop then some (.inl s) else doWhile next stop body fuel s (next s t)

/-- The same over the list of nodes. -/
def visit (body : σ → α → σ ⊕ β) : σ → List α → σ ⊕ β
  | s, [] => .inl s
  | s, t :: l =>
    match body s t with
    | .inr r => .inr r
    | .inl s => visit body s l

/-- The body does not touch the links of the nodes in `l`. -/
def KeepsLinks (next : σ → α → α) (body : σ → α → σ ⊕ β) (l : List α) : Prop :=
  ∀ s s' t, t ∈ l → body s t = .inl s' → ∀ c ∈ l, next s' c = next s c

theorem doWhile_settles_seg [DecidableEq α] {next : σ → α → α} {body : σ → α → σ ⊕ β} {all : List α}
    (hbody : KeepsLinks next body all) {s : σ} {t stop : α}
    (hseg : Seg (next s) nil t l stop) (hsub : ∀ c ∈ l, c ∈ all) (hpos : l ≠ []) (hstop : stop ∉ l.tail) :
    Settles (fun n => doWhile next stop body n s t) (visit body s l) := by
  induction l generalizing s t with
  | nil => exact absurd rfl hpos
  | cons x l ih =>
    obtain ⟨rfl, -, hs⟩ := hseg
    refine .succ (g := fun n => match body s t with
      | .inr r => some (.inr r)
      | .inl s => if next s t = stop then some (.inl s) else doWhile next stop body n s (next s t))
      rfl (fun n => rfl) ?_
    rw [visit]
    cases hb : body s t with
    | inr r => exact .const _
    | inl s' =>
      have hkeep : ∀ c ∈ t :: l, next s' c = next s c := fun c hc =>
        hbody s s' t (hsub t (.head _)) hb c (hsub c hc)
      have hnext : next s' t = next s t := hkeep t (.head _)
      dsimp only
      cases l with
      | nil =>
        have hend : next s t = stop := hs
        simp only [hnext, hend, if_true]
        exact .const _
      | cons y l =>
        have hy : next s t = y := hs.1
        have hne : ¬ next s t = stop := fun heq => hstop (by rw [← heq, hy]; exact .head _)
        simp only [hnext, if_neg hne]
        exact ih (hs.congr fun c hc => hkeep c (.tail _ hc))
          (fun c hc => hsub c (.tail _ hc)) (cons_ne_nil _ _)
          (fun hm => hstop (.tail _ hm))

/-- The loop from the head of a ring visits its nodes in order. -/
theorem Ring.doWhile_settles [DecidableEq α] (next : σ → α → α) (body : σ → α → σ ⊕ β) {s : σ}
    (h : Ring (next s) nil a l) (hbody : KeepsLinks next body l) :
    Settles (fun n => doWhile next a body n s a) (visit body s l) := by
  obtain ⟨t, rfl, -⟩ := h.eq_cons
  exact doWhile_settles_seg hbody h.seg (fun c hc => hc) h.pos (nodup_cons.mp h.nodup).1

/-- A result comes from the body at one of the nodes, with what held until then. -/
theorem visit_inr {body : σ → α → σ ⊕ β} {P : σ → Prop} {s : σ} {r : β} (hv : visit body s l = .inr r)
    (hs : P s) (hstep : ∀ s s' t, t ∈ l → P s → body s t = .inl s' → P s') :
    ∃ s' t, t ∈ l ∧ P s' ∧ body s' t = .inr r := by
  induction l generalizing s with
  | nil => cases hv
  | cons t l ih =>
    rw [visit] at hv
    cases hb : body s t with
    | inr r' =>
      rw [hb] at hv
      cases hv
      exact ⟨s, t, .head _, hs, hb⟩
    | inl s1 =>
      rw [hb] at hv
      obtain ⟨s', t', ht', hP, hr⟩ := ih hv (hstep s s1 t mem_cons_self hs hb) fun s s' t ht =>
        hstep s s' t (.tail _ ht)
      exact ⟨s', t', .tail _ ht', hP, hr⟩

/-- A body that only looks for a node and leaves the state alone. -/
def searchBody (found : σ → α → Prop) [∀ s t, Decidable (found s t)] (g : σ → α → β) (s : σ) (t : α) : σ ⊕ β :=
  if found s t then .inr (g s t) else .inl s

theorem visit_search {found : σ → α → Prop} [∀ s t, Decidable (found s t)] {g : σ → α → β} (s : σ) (l : List α) :
    (visit (searchBody found g) s l = .inl s ∧ ∀ t ∈ l, ¬ found s t) ∨
    ∃ t ∈ l, found s t ∧ visit (searchBody found g) s l = .inr (g s t) := by
  induction l with
  | nil => exact .inl ⟨rfl, fun t ht => absurd ht not_mem_nil⟩
  | cons x l ih =>
    by_cases hx : found s x
    · exact .inr ⟨x, .head _, hx, by simp only [visit, searchBody, if_pos hx]⟩
    · simp only [visit, searchBody, if_neg hx] at ih ⊢
      rcases ih with ⟨heq, hnone⟩ | ⟨t, ht, hfound, heq⟩
      · refine .inl ⟨heq, fun t ht => ?_⟩
        rcases mem_cons.mp ht with rfl | ht
        · exact hx
        · exact hnone t ht
      · exact .inr ⟨t, .tail _ ht, hfound, heq⟩

/-- A search over a ring answers with a node it looks for, or there is none. -/
theorem Ring.search_settles [DecidableEq α] (next : σ → α → α) {s : σ} (h : Ring (next s) nil a l)
    (found : σ → α → Prop) [∀ s t, Decidable (found s t)] (g : σ → α → β) :
    ∃ r, Settles (fun n => doWhile next a (searchBody found g) n s a) r ∧
      (r = .inl s ∧ (∀ t ∈ l, ¬ found s t) ∨ ∃ t ∈ l, found s t ∧ r = .inr (g s t)) := by
  refine ⟨_, h.doWhile_settles next _ fun s s' t _ hb c _ => ?_, visit_search s l⟩
  rw [searchBody] at hb
  split at hb <;> cases hb
  rfl

/-! ## Searching -/

/-- `while (!found t) t = t->next`. -/
def seek (next : α → α) (found : α → Bool) : Nat → α → Option α
  | 0, _ => none
  | fuel + 1, t => if found t then some t else seek next found fuel (next t)

/-- The search ends at the first node of the way that is looked for. -/
theorem seek_settles {found : α → Bool} (hseg : Seg next nil a l c) (hb : l.find? found = some b) :
    Settles (fun n => seek next found n a) b := by
  induction l generalizing a with
  | nil => cases hb
  | cons x l ih =>
    obtain ⟨rfl, -, hs⟩ := hseg
    refine .succ (g := fun n => if found a then some a else seek next found n (next a))
      rfl (fun n => rfl) ?_
    rw [find?_cons] at hb
    cases hx : found a with
    | true =>
      rw [hx] at hb
      cases hb
      exact .const _
    | false =>
      rw [hx] at hb
      exact ih hs hb

end LiwusOS.Lib
