import LiwusOS.Mm.FrameTrace
import LiwusOS.Mm.HeapBlocks
import LiwusOS.Mm.Vmm

/-! # What mapping a page does to the others

`walk_pt` opens the entries on the way to a page: missing tables are made, a
2 MB page is cut up, and `PTE_U` is added where it is missing. The effect on
the translation of every other page is computed here, exactly. -/

namespace LiwusOS.Mm
open LiwusOS.Lib Function List Pte Option

/-! ## Flags -/

/-- What `walk_pt` does to the flags of a present entry on its way. -/
def raise (fl : BitVec 64) (l : BitVec 12) : BitVec 12 := if fl.getLsbD 2 then l ||| pteU else l

section Flags
variable (fl : BitVec 64) (l : BitVec 12)

@[simp] theorem raise_present : (raise fl l).getLsbD 0 = l.getLsbD 0 := by
  unfold raise; split <;> simp [pteU]
@[simp] theorem raise_write : (raise fl l).getLsbD 1 = l.getLsbD 1 := by
  unfold raise; split <;> simp [pteU]
@[simp] theorem raise_user : (raise fl l).getLsbD 2 = (l.getLsbD 2 || fl.getLsbD 2) := by
  unfold raise; split <;> simp_all [pteU]
@[simp] theorem raise_large : (raise fl l).getLsbD 7 = l.getLsbD 7 := by
  unfold raise; split <;> simp [pteU]

@[simp] theorem allocFlags_present : (allocFlags fl).getLsbD 0 = true := by
  unfold allocFlags; split <;> rfl
@[simp] theorem allocFlags_write : (allocFlags fl).getLsbD 1 = true := by
  unfold allocFlags; split <;> rfl
@[simp] theorem allocFlags_user : (allocFlags fl).getLsbD 2 = fl.getLsbD 2 := by
  unfold allocFlags; split <;> simp_all [pteU, pteP, pteW]
@[simp] theorem allocFlags_large : (allocFlags fl).getLsbD 7 = false := by
  unfold allocFlags; split <;> rfl

@[simp] theorem splitFlags_present : (splitFlags fl l).getLsbD 0 = l.getLsbD 0 := by
  unfold splitFlags; dsimp only; split <;> split <;> simp [pteU, pteW, ptePS]
@[simp] theorem splitFlags_write : (splitFlags fl l).getLsbD 1 = (l.getLsbD 1 || fl.getLsbD 1) := by
  unfold splitFlags; dsimp only; split <;> split <;> simp_all [pteU, pteW, ptePS]
@[simp] theorem splitFlags_user : (splitFlags fl l).getLsbD 2 = (l.getLsbD 2 || fl.getLsbD 2) := by
  unfold splitFlags; dsimp only; split <;> split <;> simp_all [pteU, pteW, ptePS]

theorem raise_of_user (h : l.getLsbD 2 = true) : raise fl l = l := by
  unfold raise
  split
  · refine BitVec.eq_of_getLsbD_eq fun k hk => ?_
    by_cases h2 : k = 2
    · subst h2
      simp [h]
    · have hU : pteU.getLsbD k = false := by
        revert h2
        revert k
        decide
      simp [hU]
  · rfl

end Flags

variable {q r : List (Fin 512)} {i j : Fin 512} {t virt : Nat} {m : Tables}

/-! ## Tables -/

section Tables
variable {m m' : Tables} {t x n : Nat} {i j : Fin 512} {e : Pte}

@[simp] theorem setEntry_same : setEntry m t i e t i = e := by simp [setEntry]

theorem setEntry_entry (h : j ≠ i) : setEntry m t i e t j = m t j := by simp [setEntry, h]

theorem setEntry_table (h : x ≠ t) : setEntry m t i e x = m x := by simp [setEntry, h]

theorem Pte.child_eq_some {t' : Nat} : e.child = some t' ↔ e.present = true ∧ e.large = false ∧ e.frame = t' := by
  unfold Pte.child
  split <;> simp_all

theorem Pte.child_eq (hp : e.present = true) (hl : e.large = false) : e.child = some e.frame :=
  child_eq_some.mpr ⟨hp, hl, rfl⟩

theorem Pte.present_zero : Pte.zero.present = false := rfl

theorem Pte.child_zero : Pte.zero.child = none := rfl

theorem translate_child {t' : Nat} (h : (m t i).child = some t') (p : List (Fin 512)) :
    translate m t (i :: j :: p) =
      (translate m t' (j :: p)).map fun a => { a with levels := (m t i).flags :: a.levels } := by
  obtain ⟨hp, hl, rfl⟩ := child_eq_some.mp h
  simp [translate, hp, hl]

theorem translate_absent (h : (m t i).present = false) (p : List (Fin 512)) : translate m t (i :: p) = none := by
  cases p with
  | nil => simp [translate, h]
  | cons j p => simp [translate, h]

/-- A page below an entry depends on the entry and on the table below it. -/
theorem translate_entry {p : List (Fin 512)} (he : m' t i = m t i)
    (h : ∀ t', (m t i).child = some t' → translate m' t' p = translate m t' p) :
    translate m' t (i :: p) = translate m t (i :: p) := by
  cases p with
  | nil => simp only [translate, he]
  | cons j p =>
    by_cases hc : ∃ t', (m t i).child = some t'
    · obtain ⟨t', hc⟩ := hc
      rw [translate_child hc, translate_child (he ▸ hc), h t' hc, he]
    · simp only [translate, he]
      split
      · rfl
      · split
        · rfl
        · rename_i hp hl
          exact absurd ⟨_, child_eq (by simpa using hp) (by simpa using hl)⟩ hc

theorem translate_congr (h : ∀ x, Visits Pte.child m t q x → m' x = m x) : translate m' t q = translate m t q := by
  induction q generalizing t with
  | nil => rfl
  | cons i q ih =>
    refine translate_entry (congrFun (h t (.inl rfl)) i) fun t' hc => ih fun x hx => ?_
    exact h x (.inr ⟨t', hc, hx⟩)

theorem translate_levels_ne_nil {a : Mapping} (h : translate m t q = some a) : a.levels ≠ [] := by
  match q, h with
  | [i], h =>
    simp only [translate, ite_none_right_eq_some] at h
    rw [← some.inj h.2]
    exact cons_ne_nil _ _
  | i :: j :: p, h =>
    simp only [translate] at h
    split at h
    · cases h
    · split at h
      · cases h
        exact cons_ne_nil _ _
      · obtain ⟨b, -, rfl⟩ := map_eq_some_iff.mp h
        exact cons_ne_nil _ _

/-- The table that the entries along `p` lead to. -/
def tableAt (m : Tables) : Nat → List (Fin 512) → Option Nat
  | t, [] => some t
  | t, i :: p => (m t i).child.bind fun t' => tableAt m t' p

theorem tableAt_congr {p : List (Fin 512)} (h : ∀ x, Reaches Pte.child m n t x → m' x = m x) (hp : p.length ≤ n) :
    tableAt m' t p = tableAt m t p := by
  induction p generalizing n t with
  | nil => rfl
  | cons i p ih =>
    obtain ⟨n, rfl⟩ : ∃ k, n = k + 1 := Nat.exists_eq_add_one_of_ne_zero (by rw [length_cons] at hp; omega)
    rw [tableAt, tableAt, h t .self]
    refine bind_congr fun t' hc => ih (fun x hx => h x (.below hc hx)) (by simpa using hp)

/-- The number of tables that are missing on the way to `r`. -/
def missingOn (m : Tables) : Nat → List (Fin 512) → Nat
  | t, i :: j :: r =>
    match (m t i).child with
    | some t' => missingOn m t' (j :: r)
    | none => r.length + 1
  | _, _ => 0

theorem missingOn_congr {r : List (Fin 512)} (h : ∀ x, Visits Pte.child m t r x → m' x = m x) :
    missingOn m' t r = missingOn m t r := by
  induction r generalizing t with
  | nil => rfl
  | cons i r ih =>
    cases r with
    | nil => rfl
    | cons j r =>
      rw [missingOn, missingOn, h t (.inl rfl)]
      cases hc : (m t i).child with
      | none => rfl
      | some t' => exact ih fun x hx => h x (.inr ⟨t', hc, hx⟩)

/-- The kernel has no 1 GB pages: only page directories have large entries. -/
def Plain (m : Tables) : Nat → Nat → Prop
  | n + 2, t => ∀ i, (m t i).present = true → (m t i).large = false ∧ Plain m (n + 1) (m t i).frame
  | _, _ => True

theorem Plain.congr (h : ∀ x, Reaches Pte.child m n t x → m' x = m x) (hp : Plain m n t) : Plain m' n t := by
  induction n generalizing t with
  | zero => trivial
  | succ n ih =>
    cases n with
    | zero => trivial
    | succ n =>
      intro i
      rw [h t .self]
      intro hi
      obtain ⟨hl, hsub⟩ := hp i hi
      exact ⟨hl, ih (fun x hx => h x (.below (child_eq hi hl) hx)) hsub⟩

end Tables

/-! ## The effect on translations -/

/-- The levels of the page at `q` after the way to the page at `r` is opened:
the shared entries are raised, and a 2 MB page they share is cut up. -/
def touched (fl : BitVec 64) :
    List (Fin 512) → List (Fin 512) → List (BitVec 12) → List (BitVec 12)
  | i :: i' :: r, j :: q, l :: ls =>
    if i = j then
      if ls = [] then [allocFlags fl, splitFlags fl l] else raise fl l :: touched fl (i' :: r) q ls
    else l :: ls
  | _, _, ls => ls

/-- How many of the entries on the way to `r` are on the way to `q`, the last
level left out. -/
def shared : List (Fin 512) → List (Fin 512) → Nat
  | i :: i' :: r, j :: q => if i = j then shared (i' :: r) q + 1 else 0
  | _, _ => 0

/-- The flags of the entries on the way to `r` that `walk_pt` keeps. -/
def keptFlags (m : Tables) : Nat → List (Fin 512) → List (BitVec 12)
  | t, i :: j :: r =>
    let e := m t i
    if e.present && !e.large then e.flags :: keptFlags m e.frame (j :: r) else []
  | _, _ => []

/-- The flags on the way to `r` after it is opened, the last level left out. -/
def openedFlags (fl : BitVec 64) (m : Tables) : Nat → List (Fin 512) → List (BitVec 12)
  | t, i :: j :: r =>
    let e := m t i
    if e.present && !e.large then raise fl e.flags :: openedFlags fl m e.frame (j :: r)
    else List.replicate (r.length + 1) (allocFlags fl)
  | _, _ => []

theorem openedFlags_congr {fl : BitVec 64} {m' : Tables}
    (h : ∀ x, Visits Pte.child m t r x → m' x = m x) : openedFlags fl m' t r = openedFlags fl m t r := by
  induction r generalizing t with
  | nil => rfl
  | cons i r ih =>
    cases r with
    | nil => rfl
    | cons j r =>
      simp only [openedFlags, h t (.inl rfl)]
      split
      · rename_i hc
        rw [ih fun x hx => h x (.inr ⟨_, if_pos hc, hx⟩)]
      · rfl

/-- A page by its own entry and the flags above it. -/
def leafMapping (leaf : Pte) (above : List (BitVec 12)) : Option Mapping :=
  if leaf.present then some ⟨leaf.frame, above ++ [leaf.flags]⟩ else none

/-- The entry of the page at `r` below `t` is set to `leaf`. Tables from `lo` on are new;
the tables in use afterwards lie below `hi`. -/
structure Mapped (fl : BitVec 64) (leaf : Pte) (lo hi : Nat) (m m' : Tables) (n t : Nat)
    (r : List (Fin 512)) : Prop where
  grows : lo ≤ hi
  hit : translate m' t r = leafMapping leaf (openedFlags fl m t r)
  other : ∀ q, q.length = r.length → q ≠ r → translate m' t q =
    (translate m t q).map fun a => { a with levels := touched fl r q a.levels }
  frame : ∀ x, x < lo → ¬ Visits Pte.child m t r x → m' x = m x
  reach : ∀ x, Reaches Pte.child m' n t x → Reaches Pte.child m n t x ∨ lo ≤ x
  /-- The same below the page's entry at the top. -/
  below : ∀ i r' k, r = i :: r' → n = k + 1 → ∀ t₁, (m' t i).child = some t₁ →
    ∀ x, Reaches Pte.child m' k t₁ x → (∃ t₀, (m t i).child = some t₀ ∧ Reaches Pte.child m k t₀ x) ∨ lo ≤ x
  bound : ∀ x, Reaches Pte.child m' n t x → x < hi
  /-- The tables on the way to the page are there. -/
  tables : ∀ p, p.length < r.length → ((tableAt m' t p).isSome ↔ (tableAt m t p).isSome ∨ p <+: r)
  tree : Tree Pte.child m' n t
  plain : Plain m' n t

theorem Mapped.leaf (fl : BitVec 64) (leaf : Pte) {lo : Nat} (ht : t < lo) :
    Mapped fl leaf lo lo m (setEntry m t i leaf) 0 t [i] where
  grows := le_rfl
  hit := by simp [translate, leafMapping, openedFlags]
  other q hq hne := by
    obtain ⟨j, rfl⟩ := length_eq_one_iff.mp hq
    have hj : j ≠ i := fun h => hne (h ▸ rfl)
    have htouched : ∀ ls, touched fl [i] [j] ls = ls := fun ls => by simp [touched]
    simp only [translate, setEntry_entry hj, htouched, Option.map_id']
  frame x _ hx := setEntry_table fun h => hx (.inl h)
  reach x hx := .inl hx
  below := nofun
  bound x hx := hx ▸ ht
  tables p hp := by
    obtain rfl : p = [] := eq_nil_of_length_eq_zero (Nat.lt_one_iff.mp hp)
    simp [tableAt]
  tree := trivial
  plain := trivial

/-- One step of the walk: entry `i` of `t` leads to `t₁` after it. -/
structure Opens (fl : BitVec 64) (lo lo₁ : Nat) (m m₁ : Tables) (n t : Nat) (i : Fin 512)
    (r : List (Fin 512)) (t₁ : Nat) : Prop where
  grows : lo ≤ lo₁
  entry : (m₁ t i).child = some t₁
  same : ∀ k, k ≠ i → m₁ t k = m t k
  frame : ∀ x, x ≠ t → x < lo → m₁ x = m x
  /-- What lies below is what lay below before, or new. -/
  below : ∀ x, Reaches Pte.child m₁ n t₁ x →
    ((m t i).child = some t₁ ∧ Reaches Pte.child m n t₁ x) ∨ lo ≤ x ∧ x < lo₁
  visits : ∀ x, x < lo → Visits Pte.child m₁ t₁ r x →
    (m t i).child = some t₁ ∧ Visits Pte.child m t₁ r x
  tree : Tree Pte.child m₁ n t₁
  plain : Plain m₁ n t₁
  tables : ∀ p, p.length < r.length → ((tableAt m₁ t₁ p).isSome ↔ (tableAt m t (i :: p)).isSome ∨ p = [])
  missing : missingOn m t (i :: r) = (if (m t i).child.isSome then 0 else 1) + missingOn m₁ t₁ r
  opened : openedFlags fl m t (i :: r) = (m₁ t i).flags :: openedFlags fl m₁ t₁ r
  view : ∀ q, q.length = r.length →
    (translate m₁ t₁ q).map (fun a => ⟨a.frame, (m₁ t i).flags :: touched fl r q a.levels⟩) =
      (translate m t (i :: q)).map fun a => { a with levels := touched fl (i :: r) (i :: q) a.levels }

section Up
variable {fl : BitVec 64} {leaf : Pte} {lo lo₁ hi : Nat} {m m₁ m' : Tables} {n t t₁ : Nat} {i : Fin 512}
  {r : List (Fin 512)}

section
variable (hsub : Mapped fl leaf lo₁ hi m₁ m' n t₁ r) (ho : Opens fl lo lo₁ m m₁ n t i r t₁)
include hsub ho

/-- The table itself is not changed further down. -/
theorem Mapped.above (hr : r.length = n + 1) (ht : Tree Pte.child m (n + 1) t) (hlow : t < lo) : m' t = m₁ t := by
  refine hsub.frame t (hlow.trans_le ho.grows) fun hv => ?_
  rcases ho.below t (hv.reaches hr.le) with ⟨hc, hx⟩ | ⟨hge, -⟩
  · exact (ht i t₁ hc).2.1 hx
  · omega

theorem Mapped.regrown (hr : r.length = n + 1) (ht : Tree Pte.child m (n + 1) t) (hlow : t < lo) :
    Regrown Pte.child (lo ≤ ·) m m' n t i where
  same k hk := by rw [hsub.above ho hr ht hlow, ho.same k hk]
  frame x hx hfresh hbelow := by
    have hlt : x < lo := Nat.lt_of_not_le hfresh
    rw [hsub.frame x (hlt.trans_le ho.grows), ho.frame x hx hlt]
    intro hv
    obtain ⟨hc, hv⟩ := ho.visits x hlt hv
    exact hbelow t₁ hc (hv.reaches hr.le)
  below t₂ hc x hx := by
    rw [hsub.above ho hr ht hlow, ho.entry] at hc
    cases hc
    rcases hsub.reach x hx with h | h
    · rcases ho.below x h with h | h
      · exact .inl ⟨t₁, h⟩
      · exact .inr h.1
    · exact .inr (ho.grows.trans h)

/-- A step of the walk, and then the rest of it below. -/
theorem Mapped.up (hr : r.length = n + 1) (ht : Tree Pte.child m (n + 1) t) (hp : Plain m (n + 1) t)
    (hlow : ∀ x, Reaches Pte.child m (n + 1) t x → x < lo) : Mapped fl leaf lo hi m m' (n + 1) t (i :: r) := by
  have habove := hsub.above ho hr ht (hlow t .self)
  have hgrown := hsub.regrown ho hr ht (hlow t .self)
  have hfresh : ∀ x, lo ≤ x → ¬ Reaches Pte.child m (n + 1) t x :=
    fun x hx hx' => not_lt.mpr hx (hlow x hx')
  have hentry : (m' t i).child = some t₁ := by rw [habove, ho.entry]
  obtain ⟨j, r, rfl⟩ := exists_cons_of_length_pos (l := r) (by omega)
  refine ⟨ho.grows.trans hsub.grows, ?_, fun q hq hne => ?_, fun x hx hv => ?_,
    fun x => hgrown.reaches ht hfresh, ?_, fun x hx => ?_, fun p hp => ?_, hgrown.tree ht hfresh fun t₂ hc => ?_, ?_⟩
  · rw [translate_child hentry, hsub.hit, ho.opened, habove, leafMapping, leafMapping]
    split <;> rfl
  · obtain ⟨k, q, rfl⟩ := exists_cons_of_length_pos (l := q) (by simp_all)
    have hlen : q.length = (j :: r).length := Nat.succ.inj hq
    by_cases hk : k = i
    · subst hk
      obtain ⟨j', q, rfl⟩ := exists_cons_of_length_pos (l := q) (by simp_all)
      rw [translate_child hentry, hsub.other _ hlen (fun h => hne (h ▸ rfl)), ← ho.view _ hlen, habove,
        Option.map_map]
      rfl
    · have htouched : ∀ ls, touched fl (i :: j :: r) (k :: q) ls = ls := by
        intro ls
        cases ls with
        | nil => simp [touched]
        | cons l ls => rw [touched, if_neg (Ne.symm hk)]
      simp only [htouched, Option.map_id']
      refine translate_entry (hgrown.same k hk) fun t' hc => translate_congr fun x hx => ?_
      exact hgrown.sibling ht hfresh hk hc (hx.reaches (by simp_all))
  · have hxt : x ≠ t := fun h => hv (.inl h)
    rw [hsub.frame x (hx.trans_le ho.grows), ho.frame x hxt hx]
    exact fun hv' => hv (.inr ⟨t₁, ho.visits x hx hv'⟩)
  · rintro _ _ _ ⟨rfl, rfl⟩ ⟨rfl⟩
    exact hgrown.below
  · rcases hx with rfl | ⟨k, t', hc, hx⟩
    · exact Nat.lt_of_lt_of_le (hlow x .self) (ho.grows.trans hsub.grows)
    · by_cases hk : k = i
      · subst hk
        rw [hentry] at hc
        cases hc
        exact hsub.bound x hx
      · rw [hgrown.same k hk] at hc
        have hx' := (Reaches.congr fun x hx => hgrown.sibling ht hfresh hk hc hx).mp hx
        exact Nat.lt_of_lt_of_le (hlow x (.below hc hx')) (ho.grows.trans hsub.grows)
  · cases p with
    | nil => simp [tableAt]
    | cons k p =>
      have hlen : p.length < (j :: r).length := Nat.lt_of_succ_lt_succ hp
      rw [tableAt, cons_prefix_cons]
      by_cases hk : k = i
      · subst hk
        rw [hentry, Option.bind_some, hsub.tables p hlen, ho.tables p hlen]
        have hnil : p = [] → p <+: j :: r := fun h => h ▸ nil_prefix
        tauto
      · rw [tableAt, hgrown.same k hk]
        simp only [hk, false_and, or_false]
        cases hc : (m t k).child with
        | none => rfl
        | some t' =>
          rw [Option.bind_some, Option.bind_some,
            tableAt_congr (fun x hx => hgrown.sibling ht hfresh hk hc hx) (by omega)]
  · rw [hentry] at hc
    cases hc
    exact hsub.tree
  · cases n with
    | zero => trivial
    | succ n =>
      intro k hpk
      by_cases hk : k = i
      · subst hk
        obtain ⟨-, hl, hf⟩ := child_eq_some.mp hentry
        exact ⟨hl, hf ▸ hsub.plain⟩
      · rw [hgrown.same k hk] at hpk ⊢
        obtain ⟨hl, hsubp⟩ := hp k hpk
        exact ⟨hl, hsubp.congr fun x hx => hgrown.sibling ht hfresh hk (child_eq hpk hl) hx⟩

end

end Up

/-! ## New tables -/

/-- The first frame that no block of the heap lies in. -/
def Kheap.top (k : Kheap) : Nat := (k.kheapCurrent + 4095) / 4096

theorem Spent.top {k k' : Kheap} {n : Nat} {fs : List Nat} (h : Spent k k' n fs) : k.top ≤ k'.top :=
  Nat.div_le_div_right (Nat.add_le_add_right h.le_current _)

/-- `kmalloc_a` for up to a page returns a frame above the heap. -/
theorem kmallocA_frame {k k' : Kheap} {p size : Nat} (hk : k.Ready) (h0 : 0 < size) (h1 : size ≤ 4096)
    (h : kmallocA k size = some (p, k')) :
    k'.Ready ∧ k.top ≤ p / 4096 ∧ k'.top = p / 4096 + 1 ∧ k'.kheapStart = k.kheapStart ∧
      k'.freeList = k.freeList ∧ k'.memorySize = k.memorySize := by
  have hc := hk.bound
  have hm := hk.memory
  have hready : kheapReady k = k := kheapReady_started hk.started
  have hb := alignPage_bounds (x := k.kheapCurrent + headerSize) (by unfold headerSize; omega)
  have hmod := alignPage_mod (k.kheapCurrent + headerSize)
  simp only [kmallocA, hready, map_eq_some_iff, Prod.mk.injEq] at h
  obtain ⟨k₁, hg, rfl, rfl⟩ := h
  rw [alignedTotal_eq hc (by omega)] at hg
  unfold headerSize at *
  obtain ⟨hroom, rfl⟩ := kheapGrow_some hg hk (by omega)
  refine ⟨⟨hk.started, ?_, hm⟩, ?_, ?_, rfl, rfl, rfl⟩
  · dsimp only
    omega
  · unfold Kheap.top
    omega
  · unfold Kheap.top
    dsimp only
    omega

/-- What `newTable` leaves. -/
structure NewTable (vm vm' : Vm) (f : Nat) : Prop where
  spent : Spent vm.heap vm'.heap 1 []
  above : vm.heap.top ≤ f
  top : vm'.heap.top = f + 1
  start : vm'.heap.kheapStart = vm.heap.kheapStart
  free : vm'.heap.freeList = vm.heap.freeList
  memory : vm'.heap.memorySize = vm.heap.memorySize
  rest : vm' = { vm with
    heap := vm'.heap
    table := update vm.table f fun _ => Pte.zero }

theorem newTable_some {vm vm' : Vm} {f : Nat} (hk : vm.heap.Ready) (h : newTable vm = some (f, vm')) :
    NewTable vm vm' f := by
  simp only [newTable, map_eq_some_iff] at h
  obtain ⟨⟨p, k⟩, hp, heq⟩ := h
  cases heq
  obtain ⟨-, h2, h3, h4, h5, h6⟩ := kmallocA_frame hk (by omega) le_rfl hp
  exact ⟨kmallocA_spent hk hp, h2, h3, h4, h5, h6, rfl⟩

/-! ## The steps of the walk -/

section Steps
variable {m : Tables} {n t lo f : Nat} {i : Fin 512} {r : List (Fin 512)}

/-- Nothing lies below a table without entries that lead on. -/
theorem reaches_childless {x : Nat} (h : ∀ j, (m t j).child = none) (hx : Reaches Pte.child m n t x) : x = t := by
  cases n with
  | zero => exact hx
  | succ n =>
    rcases hx with rfl | ⟨j, t', hc, -⟩
    · rfl
    · rw [h j] at hc
      cases hc

theorem translate_zero (h : ∀ j, m t j = Pte.zero) : translate m t q = none := by
  cases q with
  | nil => rfl
  | cons i q => exact translate_absent (by rw [h i, present_zero]) q

/-- The entry is present: its table stays and the flags are raised. -/
theorem Opens.present (fl : BitVec 64) (lo : Nat) (hr : r.length = n + 1) (ht : Tree Pte.child m (n + 1) t)
    (hp : Plain m (n + 1) t) (hc : (m t i).child = some f) :
    Opens fl lo lo m (setEntry m t i ⟨(m t i).frame, raise fl (m t i).flags⟩) n t i r f := by
  obtain ⟨hpr, hl, rfl⟩ := child_eq_some.mp hc
  obtain ⟨htree, hloop, -⟩ := ht i _ hc
  obtain ⟨j, r, rfl⟩ := exists_cons_of_length_pos (l := r) (by omega)
  have hsame : ∀ x, Reaches Pte.child m n (m t i).frame x →
      setEntry m t i ⟨(m t i).frame, raise fl (m t i).flags⟩ x = m x :=
    fun x hx => setEntry_table fun h => hloop (h ▸ hx)
  have hvisit : ∀ {q x}, q.length = n + 1 → Visits Pte.child m (m t i).frame q x →
      setEntry m t i ⟨(m t i).frame, raise fl (m t i).flags⟩ x = m x :=
    fun hq hx => hsame _ (hx.reaches hq.le)
  refine ⟨le_rfl, ?_, fun k hk => setEntry_entry hk, fun x hx _ => setEntry_table hx,
    fun x hx => .inl ⟨hc, (Reaches.congr hsame).mp hx⟩, fun x _ hx => ⟨hc, ?_⟩, htree.congr hsame, ?_, ?_, ?_,
    ?_, fun q hq => ?_⟩
  · rw [setEntry_same]
    exact child_eq ((raise_present _ _).trans hpr) ((raise_large _ _).trans hl)
  · exact (Visits.congr fun x hx => hvisit hr hx).mp hx
  · cases n with
    | zero => trivial
    | succ n => exact (hp i hpr).2.congr hsame
  · intro p hlen
    rw [tableAt_congr hsame (by omega), tableAt, hc, Option.bind_some, or_iff_left_of_imp]
    rintro rfl
    rfl
  · rw [missingOn, hc, missingOn_congr fun x hx => hvisit hr hx]
    simp
  · rw [openedFlags_congr fun x hx => hvisit hr hx, setEntry_same]
    simp [openedFlags, hpr, hl]
  · rw [translate_congr fun x hx => hvisit (hq.trans hr) hx, setEntry_same]
    obtain ⟨j', q, rfl⟩ := exists_cons_of_length_pos (l := q) (by simp_all)
    rw [translate_child hc, Option.map_map]
    refine Option.map_congr fun a ha => ?_
    simp [touched, translate_levels_ne_nil ha]

/-- The entry is missing: it gets an empty table. -/
theorem Opens.absent (fl : BitVec 64) (hr : r.length = n + 1) (hpr : (m t i).present = false) (ht : t < lo)
    (hf : lo ≤ f) :
    Opens fl lo (f + 1) m
      (setEntry (update m f fun _ => Pte.zero) t i ⟨f, allocFlags fl⟩) n t i r f := by
  have hne : f ≠ t := by omega
  obtain ⟨j, r, rfl⟩ := exists_cons_of_length_pos (l := r) (by omega)
  have hzero : ∀ k, setEntry (update m f fun _ => Pte.zero) t i ⟨f, allocFlags fl⟩ f k =
      Pte.zero := fun k => by rw [setEntry_table hne, update_self]
  have hbelow : ∀ x, Reaches Pte.child
      (setEntry (update m f fun _ => Pte.zero) t i ⟨f, allocFlags fl⟩) n f x → x = f :=
    fun x hx => reaches_childless (fun k => by rw [hzero k, child_zero]) hx
  have hnone : (m t i).child = none := by simp [Pte.child, hpr]
  refine ⟨by omega, ?_, fun k hk => ?_, fun x hx hlt => ?_, fun x hx => .inr ?_, fun x hlt hx => ?_, ?_, ?_, ?_,
    ?_, ?_, fun q hq => ?_⟩
  · rw [setEntry_same]
    exact child_eq (allocFlags_present fl) (allocFlags_large fl)
  · rw [setEntry_entry hk, update_of_ne hne.symm]
  · rw [setEntry_table hx, update_of_ne (by omega)]
  · rw [hbelow x hx]
    omega
  · have := hbelow x (hx.reaches hr.le)
    omega
  · cases n with
    | zero => trivial
    | succ n =>
      intro k t' hc
      rw [hzero k, child_zero] at hc
      cases hc
  · match n with
    | 0 | 1 => trivial
    | n + 2 =>
      intro k hk
      rw [hzero k] at hk
      cases hk
  · intro p _
    cases p with
    | nil => simp [tableAt]
    | cons k p => simp [tableAt, hzero, child_zero, hnone]
  · rw [missingOn, hnone]
    cases r with
    | nil => rfl
    | cons j' r =>
      simp only [missingOn, hzero, child_zero, length_cons, Option.isSome_none, Bool.false_eq_true, ↓reduceIte]
      omega
  · rw [setEntry_same]
    cases r with
    | nil => simp [openedFlags, hpr]
    | cons j' r => simp [openedFlags, hpr, hzero, present_zero, replicate_succ]
  · obtain ⟨j', q, rfl⟩ := exists_cons_of_length_pos (l := q) (by simp_all)
    rw [translate_zero hzero]
    simp [translate, hpr]

/-- The entry of a page directory is a 2 MB page: it gets a table of its 512
pages. -/
theorem Opens.split (fl : BitVec 64) (hl : (m t i).large = true) (ht : t < lo) (hf : lo ≤ f) :
    Opens fl lo (f + 1) m
      (setEntry (update m f fun j => ⟨largeFrame (m t i) j, splitFlags fl (m t i).flags⟩) t i
        ⟨f, allocFlags fl⟩) 0 t i [j] f := by
  have hne : f ≠ t := by omega
  refine ⟨by omega, ?_, fun k hk => ?_, fun x hx hlt => ?_, fun x hx => .inr ?_, fun x hlt hx => ?_, trivial,
    trivial, ?_, ?_, ?_, fun q hq => ?_⟩
  · rw [setEntry_same]
    exact child_eq (allocFlags_present fl) (allocFlags_large fl)
  · rw [setEntry_entry hk, update_of_ne hne.symm]
  · rw [setEntry_table hx, update_of_ne (by omega)]
  · have : x = f := hx
    omega
  · have : x = f := hx.reaches (n := 0) le_rfl
    omega
  · intro p hp
    obtain rfl : p = [] := eq_nil_of_length_eq_zero (Nat.lt_one_iff.mp hp)
    simp [tableAt]
  · simp [missingOn, Pte.child, hl]
  · simp [openedFlags, hl]
  · obtain ⟨k, rfl⟩ := length_eq_one_iff.mp hq
    have hpart : ∀ a, Pte.present ⟨a, splitFlags fl (m t i).flags⟩ = (m t i).present :=
      fun a => splitFlags_present _ _
    simp only [translate, setEntry_same, setEntry_table hne, update_self, hpart, hl]
    cases (m t i).present with
    | false => simp
    | true => simp [touched, largeFrame, pageOffset]

end Steps

/-! ## `vmm_map_page` -/

/-- An address space: its tables form a tree below the top of the heap. -/
structure Vm.Space (vm : Vm) (pml4 : Nat) : Prop where
  tree : Tree Pte.child vm.table 3 pml4
  plain : Plain vm.table 3 pml4
  below : ∀ x, Reaches Pte.child vm.table 3 pml4 x → x < vm.heap.top

/-- Only the heap and the tables differ. -/
def Vm.SameBut (vm vm' : Vm) : Prop := vm' = { vm with heap := vm'.heap, table := vm'.table }

theorem Vm.SameBut.trans {a b c : Vm} (h : a.SameBut b) (h' : b.SameBut c) : a.SameBut c := by
  unfold Vm.SameBut at *
  rw [h', h]

section Map
variable {fl : BitVec 64} {vm vm₁ : Vm} {n t t₁ : Nat} {i : Fin 512} {r : List (Fin 512)} {o : Option Nat}

/-- What a step of the walk leaves. -/
structure Stepped (fl : BitVec 64) (vm vm₁ : Vm) (n t : Nat) (i : Fin 512) (r : List (Fin 512)) (t₁ : Nat) :
    Prop where
  spent : Spent vm.heap vm₁.heap (if (vm.table t i).child.isSome then 0 else 1) []
  same : vm.SameBut vm₁
  opens : Opens fl vm.heap.top vm₁.heap.top vm.table vm₁.table n t i r t₁

/-- What a level of the walk can do. -/
theorem nextTable_cases (h : nextTable vm t i fl = some (o, vm₁)) : fl = 0 ∧ o = none ∧ vm₁ = vm ∨
    (∃ f vm₀, newTable vm = some (f, vm₀) ∧ fl ≠ 0 ∧ (vm.table t i).present = false ∧ o = some f ∧
      vm₁ = { vm₀ with table := setEntry vm₀.table t i ⟨f, allocFlags fl⟩ }) ∨
    (vm.table t i).present = true ∧ o = some (vm.table t i).frame ∧
      vm₁ = { vm with table := setEntry vm.table t i ⟨(vm.table t i).frame, raise fl (vm.table t i).flags⟩ } := by
  unfold nextTable at h
  cases hpr : (vm.table t i).present with
  | false =>
    simp only [hpr, Bool.not_false, ↓reduceIte, addTable, Option.map_map] at h
    split at h
    · cases h
      exact .inl ⟨‹_›, rfl, rfl⟩
    · obtain ⟨⟨f, vm₀⟩, hnew, heq⟩ := map_eq_some_iff.mp h
      cases heq
      exact .inr (.inl ⟨f, vm₀, hnew, ‹_›, rfl, rfl, rfl⟩)
  | true =>
    simp only [hpr, Bool.not_true, Bool.false_eq_true, ↓reduceIte] at h
    split at h
    · rename_i hu
      cases h
      rw [raise, if_pos (Bool.and_eq_true_iff.mp hu).1]
      exact .inr (.inr ⟨rfl, rfl, rfl⟩)
    · rename_i hu
      cases h
      -- the entry keeps its flags
      have hraise : raise fl (vm.table t i).flags = (vm.table t i).flags := by
        by_cases hf : fl.getLsbD 2 = true
        · exact raise_of_user fl _ (by simpa [hf, Pte.user] using hu)
        · rw [raise, if_neg hf]
      rw [hraise]
      exact .inr (.inr ⟨rfl, rfl, by simp [setEntry]⟩)

theorem nextTable_stepped (hk : vm.heap.Ready) (hr : r.length = n + 1)
    (ht : Tree Pte.child vm.table (n + 1) t) (hp : Plain vm.table (n + 1) t) (hlow : t < vm.heap.top)
    (hl : (vm.table t i).present = true → (vm.table t i).large = false)
    (h : nextTable vm t i fl = some (some t₁, vm₁)) : Stepped fl vm vm₁ n t i r t₁ := by
  obtain ⟨-, hno, -⟩ | ⟨f, vm₀, hnew, -, hpr, ho, rfl⟩ | ⟨hpr, ho, rfl⟩ := nextTable_cases h
  · cases hno
  · cases ho
    have hn := newTable_some hk hnew
    have hnone : (vm.table t i).child = none := by simp [Pte.child, hpr]
    refine ⟨?_, ?_, ?_⟩
    · rw [hnone]
      exact hn.spent
    · rw [hn.rest]
      rfl
    · have ho := Opens.absent fl hr hpr hlow hn.above
      rw [hn.rest]
      dsimp only
      rw [hn.top]
      exact ho
  · cases ho
    have hc := child_eq hpr (hl hpr)
    refine ⟨?_, rfl, .present fl vm.heap.top hr ht hp hc⟩
    rw [hc]
    exact .refl hk

theorem nextTableSplit_stepped (hk : vm.heap.Ready) (ht : Tree Pte.child vm.table 1 t) (hlow : t < vm.heap.top)
    (h : nextTableSplit vm t i fl = some (some t₁, vm₁)) : Stepped fl vm vm₁ 0 t i [j] t₁ := by
  unfold nextTableSplit at h
  split at h
  · rename_i hl
    split at h
    · cases h
    · simp only [splitTable, bind_eq_some_iff, map_eq_some_iff] at h
      obtain ⟨vm₂, ⟨⟨f, vm₀⟩, hnew, rfl⟩, h⟩ := h
      have hn := newTable_some hk hnew
      have hpr : Pte.present ⟨f, allocFlags fl⟩ = true := allocFlags_present fl
      have huser : Pte.user ⟨f, allocFlags fl⟩ = fl.getLsbD 2 := allocFlags_user fl
      simp only [nextTable, setEntry_same, hpr, huser, Bool.not_true, Bool.false_eq_true, ↓reduceIte,
        Bool.and_not_self] at h
      cases h
      have ho := Opens.split fl (j := j) hl hlow hn.above
      have hnone : (vm.table t i).child = none := by simp [Pte.child, hl]
      refine ⟨?_, ?_, ?_⟩
      · rw [hnone]
        exact hn.spent
      · rw [hn.rest]
        rfl
      · rw [hn.rest]
        dsimp only
        rw [hn.top, update_idem]
        exact ho
  · rename_i hl
    exact nextTable_stepped hk rfl ht trivial hlow (fun _ => by simpa using hl) h

/-- With `flags` zero nothing is made and nothing is opened. -/
theorem nextTable_zero (h : nextTable vm t i 0 = some (o, vm₁)) : vm₁ = vm := by
  obtain ⟨-, -, heq⟩ | ⟨f, vm₀, -, h0, -⟩ | ⟨-, -, rfl⟩ := nextTable_cases h
  · exact heq
  · exact absurd rfl h0
  · rw [raise, if_neg (by simp)]
    simp [setEntry]

theorem nextTable_none (h : nextTable vm t i fl = some (none, vm₁)) : fl = 0 ∧ vm₁ = vm := by
  obtain ⟨h0, -, heq⟩ | ⟨f, vm₀, -, -, -, hno, -⟩ | ⟨-, hno, -⟩ := nextTable_cases h
  · exact ⟨h0, heq⟩
  · cases hno
  · cases hno

theorem nextTableSplit_none (h : nextTableSplit vm t i fl = some (none, vm₁)) : fl = 0 ∧ vm₁ = vm := by
  unfold nextTableSplit at h
  split at h
  · split at h
    · cases h
      exact ⟨‹_›, rfl⟩
    · obtain ⟨vm₂, -, h⟩ := bind_eq_some_iff.mp h
      exact absurd (nextTable_none h).1 ‹_›
  · exact nextTable_none h

/-- The tables below the next one lie below the top of the heap again. -/
theorem Stepped.below (h : Stepped fl vm vm₁ n t i r t₁)
    (hlow : ∀ x, Reaches Pte.child vm.table (n + 1) t x → x < vm.heap.top) {x : Nat}
    (hx : Reaches Pte.child vm₁.table n t₁ x) : x < vm₁.heap.top := by
  rcases h.opens.below x hx with ⟨hc, hx⟩ | ⟨-, hlt⟩
  · exact Nat.lt_of_lt_of_le (hlow x (.below hc hx)) h.opens.grows
  · exact hlt

end Map

section Walk
variable {fl : BitVec 64} {vm vm' : Vm} {dir : Directory} {vaddr : Nat}

/-- The walk to an entry, and then a write to it. -/
theorem walkPt_mapped (hk : vm.heap.Ready) (hs : vm.Space dir.pml4)
    (h : walkPt vm dir vaddr fl = some (some (t, i), vm')) (leaf : Pte) :
    Spent vm.heap vm'.heap (missingOn vm.table dir.pml4 (pagePath vaddr)) [] ∧ vm.SameBut vm' ∧
      Mapped fl leaf vm.heap.top vm'.heap.top vm.table (setEntry vm'.table t i leaf) 3 dir.pml4
        (pagePath vaddr) := by
  simp only [walkPt, bind_eq_bind, bind_eq_some_iff] at h
  obtain ⟨⟨o₁, vm₁⟩, h1, h⟩ := h
  cases o₁ with
  | none => cases h
  | some t₁ =>
  have hs1 := nextTable_stepped (r := [vaddrPdpi vaddr, vaddrPdi vaddr, vaddrPti vaddr]) hk rfl
    hs.tree hs.plain (hs.below _ .self) (fun hp => (hs.plain _ hp).1) h1
  simp only [bind_eq_some_iff] at h
  obtain ⟨⟨o₂, vm₂⟩, h2, h⟩ := h
  cases o₂ with
  | none => cases h
  | some t₂ =>
  have hlow1 := fun x => hs1.below hs.below (x := x)
  have hs2 := nextTable_stepped (r := [vaddrPdi vaddr, vaddrPti vaddr]) hs1.spent.ready rfl
    hs1.opens.tree hs1.opens.plain (hlow1 _ .self) (fun hp => (hs1.opens.plain _ hp).1) h2
  simp only [bind_eq_some_iff] at h
  obtain ⟨⟨o₃, vm₃⟩, h3, h⟩ := h
  cases o₃ with
  | none => cases h
  | some t₃ =>
  have hlow2 := fun x => hs2.below hlow1 (x := x)
  have hs3 := nextTableSplit_stepped (j := vaddrPti vaddr) hs2.spent.ready hs2.opens.tree (hlow2 _ .self) h3
  cases h
  have hlow3 := fun x => hs3.below hlow2 (x := x)
  have hleaf := Mapped.leaf fl leaf (m := vm₃.table) (i := vaddrPti vaddr) (hlow3 t .self)
  have hspent : Spent vm.heap vm₃.heap (missingOn vm.table dir.pml4 (pagePath vaddr)) [] := by
    have hall := (hs1.spent.trans hs2.spent).trans hs3.spent
    rw [pagePath, hs1.opens.missing, hs2.opens.missing, hs3.opens.missing, ← Nat.add_assoc, ← Nat.add_assoc]
    exact hall
  exact ⟨hspent, (hs1.same.trans hs2.same).trans hs3.same,
    ((hleaf.up hs3.opens rfl hs2.opens.tree trivial hlow2).up hs2.opens rfl hs1.opens.tree
      hs1.opens.plain hlow1).up hs1.opens rfl hs.tree hs.plain hs.below⟩

/-- The walk finds no entry only with `flags` zero, and then changes nothing. -/
theorem walkPt_none (h : walkPt vm dir vaddr fl = some (none, vm')) : fl = 0 ∧ vm' = vm := by
  simp only [walkPt, bind_eq_bind, bind_eq_some_iff] at h
  obtain ⟨⟨o₁, vm₁⟩, h1, h⟩ := h
  cases o₁ with
  | none =>
    cases h
    exact nextTable_none h1
  | some t₁ =>
  simp only [bind_eq_some_iff] at h
  obtain ⟨⟨o₂, vm₂⟩, h2, h⟩ := h
  cases o₂ with
  | none =>
    cases h
    obtain ⟨rfl, rfl⟩ := nextTable_none h2
    exact ⟨rfl, nextTable_zero h1⟩
  | some t₂ =>
  simp only [bind_eq_some_iff] at h
  obtain ⟨⟨o₃, vm₃⟩, h3, h⟩ := h
  cases o₃ with
  | none =>
    cases h
    obtain ⟨rfl, rfl⟩ := nextTableSplit_none h3
    exact ⟨rfl, (nextTable_zero h2).trans (nextTable_zero h1)⟩
  | some t₃ => cases h

/-- The kernel's heap and the current address space are in order. -/
structure Vm.Ready (vm : Vm) : Prop where
  heap : vm.heap.Ready
  space : vm.Space vm.currentDirectory.pml4

/-- The effect of `vmm_map_page` on the current address space. -/
theorem vmmMapPage_cases {phys : Nat} (hk : vm.Ready)
    (h : vmmMapPage vm phys virt fl = some vm') :
    fl = 0 ∧ vm' = vm ∨
      Spent vm.heap vm'.heap (missingOn vm.table vm.currentDirectory.pml4 (pagePath virt)) [] ∧ vm.SameBut vm' ∧
      Mapped fl (leafEntry phys fl) vm.heap.top vm'.heap.top vm.table vm'.table 3 vm.currentDirectory.pml4
        (pagePath virt) := by
  obtain ⟨⟨o, vm₁⟩, hwalk, rfl⟩ := map_eq_some_iff.mp h
  cases o with
  | none =>
    exact .inl (walkPt_none hwalk)
  | some e =>
    obtain ⟨hspent, hsame, hmap⟩ := walkPt_mapped hk.heap hk.space hwalk (leafEntry phys fl)
    refine .inr ⟨hspent, ?_, hmap⟩
    rw [hsame]
    rfl

end Walk

theorem leafEntry_present (phys : Nat) (fl : BitVec 64) : (leafEntry phys fl).present = true := by
  simp [leafEntry, Pte.present, pteP]

theorem vmmMapPage_mapped {vm vm' : Vm} {phys : Nat} {fl : BitVec 64} (hfl : fl ≠ 0)
    (hk : vm.Ready) (h : vmmMapPage vm phys virt fl = some vm') :
    Spent vm.heap vm'.heap (missingOn vm.table vm.currentDirectory.pml4 (pagePath virt)) [] ∧ vm.SameBut vm' ∧
      Mapped fl (leafEntry phys fl) vm.heap.top vm'.heap.top vm.table vm'.table 3 vm.currentDirectory.pml4
        (pagePath virt) :=
  (vmmMapPage_cases hk h).resolve_left fun h0 => hfl h0.1

/-! ## `vmm_unmap_page` -/

theorem touched_zero {ls : List (BitVec 12)} (h : shared r q < ls.length) : touched 0 r q ls = ls := by
  fun_induction touched 0 r q ls with
  | case1 => simp [shared] at h
  | case2 i' r i q l ls hne ih =>
    rw [shared, if_pos rfl, length_cons] at h
    rw [ih (by omega)]
    rfl
  | case3 => rfl
  | case4 => rfl

theorem translate_cons_inv {p : List (Fin 512)} {b : Mapping}
    (h : translate m t (i :: j :: p) = some b) (hb : 1 < b.levels.length) :
    ∃ t' c, (m t i).child = some t' ∧ translate m t' (j :: p) = some c ∧
      b = { c with levels := (m t i).flags :: c.levels } := by
  cases hc : (m t i).child with
  | some t' =>
    rw [translate_child hc] at h
    obtain ⟨c, hc', rfl⟩ := map_eq_some_iff.mp h
    exact ⟨t', c, rfl, hc', rfl⟩
  | none =>
    simp only [translate] at h
    split at h
    · cases h
    · split at h
      · cases h
        simp at hb
      · rename_i hp hl
        rw [child_eq (by simpa using hp) (by simpa using hl)] at hc
        cases hc

/-- Next to a page with its own entry, the pages that share all its tables have
theirs too. -/
theorem shared_lt_length {a b : Mapping}
    (hr : translate m t r = some b) (hb : b.levels.length = r.length) (hlen : q.length = r.length)
    (hq : translate m t q = some a) : shared r q < a.levels.length := by
  induction r generalizing t q a b with
  | nil => cases hr
  | cons i r ih =>
    have hpos : 0 < a.levels.length := length_pos_iff.mpr (translate_levels_ne_nil hq)
    match r, q, hlen with
    | [], q, _ => simpa [shared] using hpos
    | i' :: r, j :: j' :: q, hlen =>
      rw [shared]
      split
      · rename_i hij
        subst hij
        obtain ⟨t', c, hc, hr', rfl⟩ := translate_cons_inv hr (by rw [hb]; simp)
        rw [translate_child hc] at hq
        obtain ⟨d, hd, rfl⟩ := map_eq_some_iff.mp hq
        have hlt := ih hr' (by simpa using hb) (by simpa using hlen) hd
        rw [length_cons]
        omega
      · exact hpos

/-- What a successful `vmm_unmap_page` does. -/
structure Unmapped (vm vm' : Vm) (virt : Nat) : Prop where
  page : ∃ a, translate vm.table vm.currentDirectory.pml4 (pagePath virt) = some a ∧ a.levels.length = 4 ∧
    vm' = { vm.freeFrame a.frame with table := vm'.table }
  mapped : Mapped 0 Pte.zero vm.heap.top vm.heap.top vm.table vm'.table 3 vm.currentDirectory.pml4
    (pagePath virt)

theorem Unmapped.heap {vm vm' : Vm} (h : Unmapped vm vm' virt) (hk : vm.heap.Ready) :
    vm'.heap.Ready ∧ vm.SameBut vm' ∧ vm'.heap.top = vm.heap.top := by
  obtain ⟨a, -, -, hvm⟩ := h.page
  rw [hvm]
  exact ⟨⟨hk.started, hk.bound, hk.memory⟩, rfl, rfl⟩

theorem Unmapped.other {vm vm' : Vm} (h : Unmapped vm vm' virt) (hq : q.length = 4) (hne : q ≠ pagePath virt) :
    translate vm'.table vm.currentDirectory.pml4 q = translate vm.table vm.currentDirectory.pml4 q := by
  obtain ⟨b, hb, hlen, -⟩ := h.page
  rw [h.mapped.other q hq hne]
  cases hq' : translate vm.table vm.currentDirectory.pml4 q with
  | none => rfl
  | some a => rw [map_some, touched_zero (shared_lt_length hb hlen hq hq')]

/-- Exactly the pages with their own entry are unmapped. -/
theorem vmmUnmapPage_cases {vm : Vm} (virt : Nat) (hk : vm.Ready) :
    (∀ a, translate vm.table vm.currentDirectory.pml4 (pagePath virt) = some a → a.levels.length ≠ 4) ∧
      vmmUnmapPage vm virt = (-1, vm) ∨
    ∃ vm', vmmUnmapPage vm virt = (0, vm') ∧ Unmapped vm vm' virt := by
  unfold vmmUnmapPage pagePath
  dsimp only
  cases hp1 : (vm.table vm.currentDirectory.pml4 (vaddrPml4i virt)).present with
  | false => exact .inl ⟨by rw [translate_absent hp1]; nofun, rfl⟩
  | true =>
  obtain ⟨hl1, hplain⟩ := hk.space.plain _ hp1
  have hc1 := child_eq hp1 hl1
  have htr1 := translate_child hc1 (j := vaddrPdpi virt) [vaddrPdi virt, vaddrPti virt]
  generalize he1 : vm.table vm.currentDirectory.pml4 (vaddrPml4i virt) = e1 at hplain hp1 htr1 ⊢
  cases hp2 : (vm.table e1.frame (vaddrPdpi virt)).present with
  | false => exact .inl ⟨by rw [htr1, translate_absent hp2]; nofun, rfl⟩
  | true =>
  have hc2 := child_eq hp2 (hplain _ hp2).1
  have htr2 := translate_child hc2 (j := vaddrPdi virt) [vaddrPti virt]
  generalize he2 : vm.table e1.frame (vaddrPdpi virt) = e2 at hp2 htr2 ⊢
  cases hp3 : (vm.table e2.frame (vaddrPdi virt)).present with
  | false => exact .inl ⟨by rw [htr1, htr2, translate_absent hp3]; nofun, rfl⟩
  | true =>
  cases hl3 : (vm.table e2.frame (vaddrPdi virt)).large with
  | true =>
    refine .inl ⟨fun a ha => ?_, rfl⟩
    rw [htr1, htr2] at ha
    simp only [translate, hp3, hl3, Bool.not_true, Bool.false_eq_true, ↓reduceIte, map_some] at ha
    cases ha
    simp
  | false =>
  have hc3 := child_eq hp3 hl3
  have htr3 := translate_child hc3 (j := vaddrPti virt) []
  generalize he3 : vm.table e2.frame (vaddrPdi virt) = e3 at hp3 hl3 htr3 ⊢
  cases hp4 : (vm.table e3.frame (vaddrPti virt)).present with
  | false => exact .inl ⟨by rw [htr1, htr2, htr3, translate_absent hp4]; nofun, rfl⟩
  | true =>
  have hwalk : walkPt vm vm.currentDirectory virt 0 = some (some (e3.frame, vaddrPti virt), vm) := by
    simp [walkPt, nextTable, nextTableSplit, he1, he2, he3, hp1, hp2, hp3, hl3]
  obtain ⟨-, -, hmap⟩ := walkPt_mapped hk.heap hk.space hwalk Pte.zero
  refine .inr ⟨_, rfl, ⟨?_, hmap⟩⟩
  have hleaf : translate vm.table e3.frame [vaddrPti virt] =
      some ⟨(vm.table e3.frame (vaddrPti virt)).frame, [(vm.table e3.frame (vaddrPti virt)).flags]⟩ := by
    rw [translate, if_pos hp4]
  rw [hleaf, map_some] at htr3
  rw [htr3, map_some] at htr2
  rw [htr2, map_some] at htr1
  exact ⟨_, htr1, rfl, rfl⟩

end LiwusOS.Mm
