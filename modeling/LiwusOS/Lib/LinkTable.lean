import LiwusOS.Lib.Chain

/-! # Tables of linked cells

A table gives each cell the next one of its chain. The value 0 marks a free
cell and `stop` the last one of a chain. `Parts t stop lo hi c` says that the
cells in use between `lo` and `hi` are parted into the chains `c a`, each named
by its first cell `a`; `c a = []` where no chain starts. Taking a free cell,
hanging it to a chain and freeing a chain keep this. -/

namespace LiwusOS.Lib
open Function List

structure Parts (t : Nat → Nat) (stop lo hi : Nat) (c : Nat → List Nat) : Prop where
  chain : ∀ {a}, c a ≠ [] → Chain t stop a (c a)
  disjoint : ∀ {a b n}, n ∈ c a → n ∈ c b → a = b
  range : ∀ {a n}, n ∈ c a → lo ≤ n ∧ n < hi
  used : ∀ {n}, lo ≤ n → n < hi → (t n ≠ 0 ↔ ∃ a, n ∈ c a)

/-- A chain starts with its first cell. -/
theorem Chain.start_mem {α : Type} {next : α → α} {nil a : α} {l : List α} (h : Chain next nil a l)
    (hl : l ≠ []) : a ∈ l := by
  cases l with
  | nil => exact absurd rfl hl
  | cons b l =>
    rw [h.1]
    exact .head _

/-- A cell leads to the end or to another cell of its chain. -/
theorem Chain.next_mem {α : Type} {next : α → α} {nil a b : α} {l : List α} (h : Chain next nil a l)
    (hb : b ∈ l) : next b = nil ∨ next b ∈ l := by
  induction l generalizing a with
  | nil => cases hb
  | cons x l ih =>
    rcases mem_cons.mp hb with rfl | hb
    · by_cases hl : l = []
      · subst hl
        exact .inl h.tail
      · exact .inr (.tail _ (h.tail.start_mem hl))
    · exact (ih h.tail hb).imp_right (.tail _)

namespace Parts

variable {t t' : Nat → Nat} {stop lo hi : Nat} {c : Nat → List Nat}

section
variable (h : Parts t stop lo hi c)
include h

/-- Only the cells in range matter. -/
theorem congr (ht : ∀ n, lo ≤ n → n < hi → t' n = t n) : Parts t' stop lo hi c := by
  refine ⟨fun ha => (h.chain ha).congr fun n hn => ?_, h.disjoint, h.range, fun h1 h2 => ?_⟩
  · exact ht n (h.range hn).1 (h.range hn).2
  · rw [ht _ h1 h2, h.used h1 h2]

/-- One chain replaced by another one. -/
theorem change {a : Nat} {l : List Nat}
    (hkeep : ∀ b n, b ≠ a → n ∈ c b → t' n = t n) (hchain : l ≠ [] → Chain t' stop a l)
    (hnew : ∀ n ∈ l, lo ≤ n ∧ n < hi ∧ ∀ b, b ≠ a → n ∉ c b)
    (hused : ∀ n, lo ≤ n → n < hi → (∀ b, b ≠ a → n ∉ c b) → (t' n ≠ 0 ↔ n ∈ l)) :
    Parts t' stop lo hi (update c a l) := by
  have hself : update c a l a = l := update_self a l c
  have hother : ∀ {b}, b ≠ a → update c a l b = c b := fun hb => update_of_ne hb l c
  refine ⟨fun {b} hb => ?_, fun {b b' n} hn hn' => ?_, fun {b n} hn => ?_, fun {n} h1 h2 => ?_⟩
  · by_cases hba : b = a
    · subst hba
      rw [hself] at hb ⊢
      exact hchain hb
    · rw [hother hba] at hb ⊢
      exact (h.chain hb).congr fun n hn => hkeep b n hba hn
  · by_cases hba : b = a <;> by_cases hba' : b' = a
    · rw [hba, hba']
    · subst hba
      rw [hself] at hn
      rw [hother hba'] at hn'
      exact absurd hn' ((hnew n hn).2.2 b' hba')
    · subst hba'
      rw [hself] at hn'
      rw [hother hba] at hn
      exact absurd hn ((hnew n hn').2.2 b hba)
    · rw [hother hba] at hn
      rw [hother hba'] at hn'
      exact h.disjoint hn hn'
  · by_cases hba : b = a
    · subst hba
      rw [hself] at hn
      exact ⟨(hnew n hn).1, (hnew n hn).2.1⟩
    · rw [hother hba] at hn
      exact h.range hn
  · by_cases hin : ∃ b, b ≠ a ∧ n ∈ c b
    · obtain ⟨b, hba, hn⟩ := hin
      rw [hkeep b n hba hn, h.used h1 h2]
      exact iff_of_true ⟨b, hn⟩ ⟨b, by rw [hother hba]; exact hn⟩
    · have hout : ∀ b, b ≠ a → n ∉ c b := fun b hba hn => hin ⟨b, hba, hn⟩
      rw [hused n h1 h2 hout]
      constructor
      · exact fun hn => ⟨a, by rw [hself]; exact hn⟩
      · rintro ⟨b, hn⟩
        by_cases hba : b = a
        · subst hba
          rwa [hself] at hn
        · rw [hother hba] at hn
          exact absurd hn (hout b hba)

theorem notMem_of_free {n : Nat} (hfree : t n = 0) (a : Nat) : n ∉ c a := by
  intro hn
  exact (h.used (h.range hn).1 (h.range hn).2).mpr ⟨a, hn⟩ hfree

/-- No chain starts at a free cell. -/
theorem nil_of_free {n : Nat} (hfree : t n = 0) : c n = [] := by
  by_contra hne
  exact h.notMem_of_free hfree n ((h.chain hne).start_mem hne)

variable {n : Nat}

/-- A free cell becomes a chain of its own. -/
theorem alloc (hstop : stop ≠ 0) (hlo : lo ≤ n) (hhi : n < hi) (hn : n ≠ stop)
    (hfree : t n = 0) : Parts (update t n stop) stop lo hi (update c n [n]) := by
  have hne : ∀ {b m}, m ∈ c b → m ≠ n := fun hm heq => h.notMem_of_free hfree _ (heq ▸ hm)
  refine h.change (fun b m _ hm => update_of_ne (hne hm) _ _) (fun _ => ?_) (fun m hm => ?_)
    fun m h1 h2 hout => ?_
  · refine ⟨rfl, hn, ?_⟩
    show update t n stop n = stop
    exact update_self n stop t
  · rw [mem_singleton.mp hm]
    exact ⟨hlo, hhi, fun b _ => h.notMem_of_free hfree b⟩
  · rw [mem_singleton]
    by_cases hm : m = n
    · rw [hm, update_self]
      exact iff_of_true hstop rfl
    · rw [update_of_ne hm, h.used h1 h2]
      refine iff_of_false ?_ hm
      rintro ⟨b, hb⟩
      by_cases hbn : b = n
      · rw [hbn, h.nil_of_free hfree] at hb
        cases hb
      · exact hout b hbn hb

/-- A free cell is hung to the end of a chain. -/
theorem extend (hstop : stop ≠ 0) (hlo : lo ≤ n) (hhi : n < hi) (hn : n ≠ stop)
    (hn0 : n ≠ 0) (hfree : t n = 0) {a last : Nat} {l : List Nat} (ha : c a = l ++ [last]) :
    Parts (update (update t last n) n stop) stop lo hi
      (update c a (c a ++ [n])) := by
  have hne : ∀ {b m}, m ∈ c b → m ≠ n := fun hm heq => h.notMem_of_free hfree _ (heq ▸ hm)
  have hlast : last ∈ c a := by rw [ha]; simp
  have hchain : Chain t stop a (l ++ [last]) := ha ▸ h.chain (by rw [ha]; simp)
  have hnd := hchain.nodup
  have hat : ∀ {m}, m ≠ n → m ≠ last → update (update t last n) n stop m = t m := by
    intro m h1 h2
    rw [update_of_ne h1, update_of_ne h2]
  have hnew : update (update t last n) n stop last = n := by
    rw [update_of_ne (hne hlast), update_self]
  refine h.change (fun b m hb hm => ?_) (fun _ => ?_) (fun m hm => ?_) fun m h1 h2 hout => ?_
  · exact hat (hne hm) fun heq => hb (h.disjoint (heq ▸ hm) hlast)
  · rw [ha]
    refine hchain.snoc hn (fun y hy => ?_) hnew (by rw [update_self])
    have hy' : y ∈ c a := by rw [ha]; exact mem_append_left _ hy
    refine hat (hne hy') ?_
    rintro rfl
    exact (nodup_append.mp hnd).2.2 y hy y (mem_singleton.mpr rfl) rfl
  · rcases mem_append.mp hm with hm | hm
    · exact ⟨(h.range hm).1, (h.range hm).2, fun b hb hm' => hb (h.disjoint hm' hm)⟩
    · rw [mem_singleton.mp hm]
      exact ⟨hlo, hhi, fun b _ => h.notMem_of_free hfree b⟩
  · by_cases hmn : m = n
    · rw [hmn, update_self]
      exact iff_of_true hstop (by simp)
    · by_cases hml : m = last
      · rw [hml, hnew]
        exact iff_of_true hn0 (mem_append_left _ hlast)
      · rw [hat hmn hml, h.used h1 h2]
        constructor
        · rintro ⟨b, hb⟩
          by_cases hba : b = a
          · exact mem_append_left _ (hba ▸ hb)
          · exact absurd hb (hout b hba)
        · intro hm
          rcases mem_append.mp hm with hm | hm
          · exact ⟨a, hm⟩
          · exact absurd (mem_singleton.mp hm) hmn

/-- A chain is freed. -/
theorem release (a : Nat) (ht : ∀ n, lo ≤ n → n < hi →
    t' n = if n ∈ c a then 0 else t n) : Parts t' stop lo hi (update c a []) := by
  refine h.change (fun b n hb hn => ?_) (fun hne => absurd rfl hne) nofun fun n h1 h2 hout => ?_
  · rw [ht n (h.range hn).1 (h.range hn).2, if_neg fun hm => hb (h.disjoint hn hm)]
  · rw [ht n h1 h2]
    refine iff_of_false ?_ not_mem_nil
    split
    · exact fun hne => hne rfl
    · rename_i hm
      rw [h.used h1 h2]
      rintro ⟨b, hb⟩
      by_cases hba : b = a
      · exact hm (hba ▸ hb)
      · exact hout b hba hb

end

end Parts

end LiwusOS.Lib
