import Mathlib.Data.List.FinRange
import Mathlib.Data.List.Induction
import LiwusOS.Mm.Spaces

/-! # Freeing an address space

`vmm_free_directory` walks all tables of a directory, gives the frame of every
entry back to the frame allocator and the tables back to the heap, whoever else
uses them. Here is what it frees, in order, and when that is what the directory
owns. -/

namespace LiwusOS.Mm
open LiwusOS.Lib List

/-! ## What is released -/

/-- The pages below entry `i` of `t` whose frames are released, in order: the
4 KB pages and the first page of each 2 MB page. -/
def releasedAt (below : Nat → List (List (Fin 512) × Nat)) (m : Tables) (n t : Nat) (i : Fin 512) :
    List (List (Fin 512) × Nat) :=
  let e := m t i
  if !e.present then []
  else if e.large then [(i :: List.replicate n 0, largeFrame e 0)]
  else (below e.frame).map fun p => (i :: p.1, p.2)

def released (m : Tables) : Nat → Nat → List (List (Fin 512) × Nat)
  | 0, t => (List.finRange 512).flatMap fun l => if (m t l).present then [([l], (m t l).frame)] else []
  | n + 1, t => (List.finRange 512).flatMap fun i => releasedAt (released m n) m (n + 1) t i

/-- The arguments of `pmm_free_block` in `vmm_free_directory`, as frames. -/
def Vm.releasedFrames (vm : Vm) (d : Directory) : List Nat := (released vm.table 3 d.pml4).map (·.2)

/-- The frame of the page at `q` is released with the page. -/
def Mapping.Released (a : Mapping) (q : List (Fin 512)) : Prop :=
  a.levels.length = q.length ∨ q.getLast? = some 0

section Released
variable {m : Tables} {n t f : Nat} {q : List (Fin 512)}

theorem releasedAt_head {below : Nat → List (List (Fin 512) × Nat)} {i : Fin 512}
    (h : (q, f) ∈ releasedAt below m n t i) : ∃ p, q = i :: p := by
  unfold releasedAt at h
  dsimp only at h
  split at h
  · cases h
  · split at h
    · exact ⟨_, (Prod.mk.inj (mem_singleton.mp h)).1⟩
    · obtain ⟨p, -, heq⟩ := mem_map.mp h
      exact ⟨p.1, (Prod.mk.inj heq).1.symm⟩

theorem released_cons_iff {i : Fin 512} {p : List (Fin 512)} {ls : List (BitVec 12)} {l : BitVec 12} (hp : p ≠ [])
    (f f' : Nat) : (⟨f, l :: ls⟩ : Mapping).Released (i :: p) ↔ (⟨f', ls⟩ : Mapping).Released p := by
  have hlast : (i :: p).getLast? = p.getLast? := by
    obtain ⟨j, p, rfl⟩ := exists_cons_of_ne_nil hp
    exact getLast?_cons_cons
  simp only [Mapping.Released, length_cons, Nat.add_right_cancel_iff, hlast]

/-- One entry, when the table below it is known. -/
theorem mem_releasedAt {i : Fin 512} {p : List (Fin 512)}
    (hlarge : (m t i).present = true → (m t i).large = true → n = 0)
    (ih : (m t i).present = true → (m t i).large = false → ((p, f) ∈ released m n (m t i).frame ↔
      p.length = n + 1 ∧ ∃ a, translate m (m t i).frame p = some a ∧ a.frame = f ∧ a.Released p)) :
    (i :: p, f) ∈ releasedAt (released m n) m (n + 1) t i ↔
      p.length = n + 1 ∧ ∃ a, translate m t (i :: p) = some a ∧ a.frame = f ∧ a.Released (i :: p) := by
  unfold releasedAt
  dsimp only
  cases hpr : (m t i).present with
  | false =>
    rw [translate_absent hpr]
    simp
  | true =>
    cases hl : (m t i).large with
    | true =>
      obtain rfl := hlarge hpr hl
      have htr : ∀ l, translate m t [i, l] = some ⟨largeFrame (m t i) l, [(m t i).flags]⟩ := fun l => by
        simp [translate, hpr, hl, pageOffset, largeFrame]
      simp only [Bool.not_true, Bool.false_eq_true, ↓reduceIte, mem_singleton, Prod.mk.injEq,
        List.cons.injEq, true_and]
      constructor
      · rintro ⟨rfl, rfl⟩
        exact ⟨rfl, _, htr 0, rfl, .inr rfl⟩
      · rintro ⟨hlen, a, ha, rfl, hrel⟩
        obtain ⟨l, rfl⟩ := length_eq_one_iff.mp hlen
        rw [htr, Option.some.injEq] at ha
        subst ha
        have hl0 : l = 0 := by simpa [Mapping.Released] using hrel
        subst hl0
        exact ⟨rfl, rfl⟩
    | false =>
      have hiff := ih hpr hl
      simp only [Bool.not_true, Bool.false_eq_true, ↓reduceIte, mem_map, Prod.mk.injEq, List.cons.injEq,
        true_and]
      have hmem : (∃ a ∈ released m n (m t i).frame, a.1 = p ∧ a.2 = f) ↔ (p, f) ∈ released m n (m t i).frame := by
        simp
      rw [hmem, hiff]
      refine and_congr_right fun hlen => ?_
      obtain ⟨j, p, rfl⟩ := exists_cons_of_length_eq_add_one hlen
      rw [translate_child (Pte.child_eq hpr hl)]
      constructor
      · rintro ⟨a, ha, hf, hrel⟩
        refine ⟨{ a with levels := (m t i).flags :: a.levels }, by rw [ha, Option.map_some], hf, ?_⟩
        exact (released_cons_iff (by simp) _ _).mpr hrel
      · rintro ⟨a, ha, hf, hrel⟩
        obtain ⟨b, hb, rfl⟩ := Option.map_eq_some_iff.mp ha
        exact ⟨b, hb, hf, (released_cons_iff (by simp) _ _).mp hrel⟩

theorem mem_released (hp : Plain m n t) : (q, f) ∈ released m n t ↔
    q.length = n + 1 ∧ ∃ a, translate m t q = some a ∧ a.frame = f ∧ a.Released q := by
  induction n generalizing t q with
  | zero =>
    simp only [released, mem_flatMap, mem_finRange, true_and]
    constructor
    · rintro ⟨l, hl⟩
      split at hl
      · rename_i hpr
        obtain ⟨rfl, rfl⟩ := Prod.mk.inj (mem_singleton.mp hl)
        exact ⟨rfl, _, if_pos hpr, rfl, .inl rfl⟩
      · cases hl
    · rintro ⟨hlen, a, ha, rfl, -⟩
      obtain ⟨l, rfl⟩ := length_eq_one_iff.mp hlen
      rw [translate, Option.ite_none_right_eq_some, Option.some.injEq] at ha
      obtain ⟨hpr, rfl⟩ := ha
      exact ⟨l, by rw [if_pos hpr]; exact mem_singleton_self _⟩
  | succ n ih =>
    have hentry : ∀ i p, (i :: p, f) ∈ releasedAt (released m n) m (n + 1) t i ↔
        p.length = n + 1 ∧ ∃ a, translate m t (i :: p) = some a ∧ a.frame = f ∧ a.Released (i :: p) := by
      intro i p
      -- only a page directory has large entries
      cases n with
      | zero => exact mem_releasedAt (fun _ _ => rfl) fun _ _ => ih trivial
      | succ n => exact mem_releasedAt (fun hpr hl => by simp [(hp i hpr).1] at hl) fun hpr _ => ih (hp i hpr).2
    simp only [released, mem_flatMap, mem_finRange, true_and]
    constructor
    · rintro ⟨i, hi⟩
      obtain ⟨p, rfl⟩ := releasedAt_head hi
      simpa using (hentry i p).mp hi
    · rintro ⟨hlen, ha⟩
      obtain ⟨i, p, rfl⟩ := exists_cons_of_length_eq_add_one hlen
      exact ⟨i, (hentry i p).mpr ⟨by simpa using hlen, ha⟩⟩

/-- No page is released twice. -/
theorem released_nodup : ((released m n t).map (·.1)).Nodup := by
  induction n generalizing t with
  | zero =>
    rw [released, map_flatMap, nodup_flatMap]
    refine ⟨fun l _ => by split <;> simp, (nodup_finRange 512).imp fun {a b} hab => ?_⟩
    dsimp only [Function.onFun]
    split <;> split <;> simp [hab.symm]
  | succ n ih =>
    rw [released, map_flatMap, nodup_flatMap]
    refine ⟨fun i _ => ?_, (nodup_finRange 512).imp fun {i j} hij => ?_⟩
    · unfold releasedAt
      dsimp only
      split
      · simp
      · split
        · simp
        · rw [map_map]
          have hcons : (Prod.fst ∘ fun p : List (Fin 512) × Nat => (i :: p.1, p.2)) = (i :: ·) ∘ Prod.fst := rfl
          rw [hcons, ← map_map]
          exact ih.map fun p p' h => (List.cons.inj h).2
    · intro p hp hp'
      obtain ⟨⟨q, f⟩, hq, rfl⟩ := mem_map.mp hp
      obtain ⟨⟨q', f'⟩, hq', heq⟩ := mem_map.mp hp'
      obtain ⟨r, rfl⟩ := releasedAt_head hq
      obtain ⟨r', rfl⟩ := releasedAt_head hq'
      exact hij (List.cons.inj heq).1.symm

theorem released_congr {m' : Tables} (h : ∀ x, Reaches Pte.child m n t x → m' x = m x) :
    released m' n t = released m n t := by
  induction n generalizing t with
  | zero =>
    rw [released, released, h t .self]
  | succ n ih =>
    rw [released, released]
    refine flatMap_congr fun i _ => ?_
    rw [releasedAt, releasedAt, h t .self]
    by_cases hc : ∃ t', (m t i).child = some t'
    · obtain ⟨t', hc⟩ := hc
      obtain ⟨-, -, rfl⟩ := Pte.child_eq_some.mp hc
      rw [ih fun x hx => h x (.below hc hx)]
    · split
      · rfl
      · split
        · rfl
        · rename_i hpr hl
          exact absurd ⟨_, Pte.child_eq (by simpa using hpr) (by simpa using hl)⟩ hc

end Released

/-! ## The loops -/

/-- `kfree` takes the table; those of boot lie below the heap and are left alone. -/
def Vm.OnHeap (vm : Vm) (t : Nat) : Prop := ¬ (t * 4096 = 0 ∨ headerOf (t * 4096) < vm.heap.kheapStart)

/-- The blocks on the free list have even addresses. -/
def Vm.EvenLinks (vm : Vm) : Prop := ∀ w ∈ vm.heap.freeList, w % 2 = 0

/-- What freeing the tables `ts` and then the frames `fs` does. The list node
of a freed table covers its entry 0. -/
structure Releases (vm vm' : Vm) (ts : Nat → Prop) (fs : List Nat) : Prop where
  pmm : vm'.heap.pmm = fs.foldl (fun p f => pmmFreeBlock p (f * 4096)) vm.heap.pmm
  start : vm'.heap.kheapStart = vm.heap.kheapStart
  sizes : vm'.heap.blockSizeAt = vm.heap.blockSizeAt
  even : vm'.EvenLinks
  kept : ∀ x i, ¬ ts x ∨ i ≠ 0 ∨ ¬ vm.OnHeap x → vm'.table x i = vm.table x i
  cleared : ∀ x, ts x → vm.OnHeap x → (vm'.table x 0).present = false

namespace Releases
variable {vm vm' vm'' : Vm} {ts ts' : Nat → Prop} {fs fs' : List Nat}

theorem refl (he : vm.EvenLinks) : Releases vm vm (fun _ => False) [] :=
  ⟨rfl, rfl, rfl, he, fun _ _ _ => rfl, nofun⟩

theorem onHeap (h : Releases vm vm' ts fs) {x : Nat} : vm'.OnHeap x ↔ vm.OnHeap x := by
  rw [Vm.OnHeap, Vm.OnHeap, h.start]

theorem trans (h : Releases vm vm' ts fs) (h' : Releases vm' vm'' ts' fs') :
    Releases vm vm'' (fun x => ts x ∨ ts' x) (fs ++ fs') where
  pmm := by rw [h'.pmm, h.pmm, foldl_append]
  start := h'.start.trans h.start
  sizes := h'.sizes.trans h.sizes
  even := h'.even
  kept x i hx := by
    rw [h'.kept x i, h.kept x i]
    · exact hx.imp_left fun hn hx => hn (.inl hx)
    · exact hx.imp (fun hn hx => hn (.inr hx)) (.imp_right fun hn hx => hn (h.onHeap.mp hx))
  cleared x hx hheap := by
    by_cases h2 : ts' x
    · exact h'.cleared x h2 (h.onHeap.mpr hheap)
    · rw [h'.kept x 0 (.inl h2)]
      exact h.cleared x (hx.resolve_right h2) hheap

theorem congr (h : Releases vm vm' ts fs) (hts : ∀ x, ts' x ↔ ts x) : Releases vm vm' ts' fs := by
  rwa [funext fun x => propext (hts x)]

theorem freeFrame (he : vm.EvenLinks) (f : Nat) : Releases vm (vm.freeFrame f) (fun _ => False) [f] :=
  ⟨rfl, rfl, rfl, he, fun _ _ _ => rfl, nofun⟩

/-- An even word is no present entry. -/
theorem present_ofWord {w : Nat} (hw : w % 2 = 0) : (Pte.ofWord w).present = false := by
  rw [Pte.ofWord, Pte.present, BitVec.getLsbD_ofNat, Nat.testBit_zero]
  simp [hw]

/-- The header of a table is not page aligned, so `kfree` returns no frame. -/
theorem kfree_table {k : Kheap} {t : Nat} (h0 : t * 4096 ≠ 0) (hs : ¬ headerOf (t * 4096) < k.kheapStart) :
    kfree k (t * 4096) = { k with freeList := headerOf (t * 4096) :: k.freeList } := by
  have hmod : headerOf (t * 4096) % 4096 = 4088 := by
    unfold headerOf headerSize
    omega
  rw [kfree, if_neg h0]
  dsimp only
  rw [if_neg hs, if_neg (by rw [hmod]; simp)]

theorem kfreeTable (he : vm.EvenLinks) (t : Nat) : Releases vm (kfreeTable vm t) (· = t) [] := by
  unfold Mm.kfreeTable
  split
  · rename_i hno
    refine ⟨rfl, rfl, rfl, he, fun _ _ _ => rfl, ?_⟩
    rintro x rfl hheap
    exact absurd hno hheap
  · rename_i hheap
    have heven : headerOf (t * 4096) % 2 = 0 := by
      unfold headerOf headerSize
      omega
    rw [kfree_table (not_or.mp hheap).1 (not_or.mp hheap).2]
    refine ⟨rfl, rfl, rfl, forall_mem_cons.mpr ⟨heven, he⟩, fun x i hx => ?_, ?_⟩
    · by_cases hxt : x = t
      · subst hxt
        rcases hx with hx | hx | hx
        · exact absurd rfl hx
        · exact setEntry_entry hx
        · exact absurd hheap hx
      · exact congrFun (setEntry_table hxt) i
    · rintro x rfl -
      dsimp only
      rw [setEntry_same]
      refine present_ofWord ?_
      cases hfree : vm.heap.freeList with
      | nil => rfl
      | cons w ws => exact he w (hfree ▸ (.head _))

/-- A loop over the entries of `t`. The tables below the entries are different,
so each entry is still as it was when its turn comes. -/
theorem foldl (t : Nat) {body : Vm → Fin 512 → Vm} {ts : Fin 512 → Nat → Prop} {fs : Fin 512 → List Nat}
    (he : vm.EvenLinks) (hself : ∀ i, ¬ ts i t) (hapart : ∀ i j, i ≠ j → ∀ x, ts i x → ¬ ts j x)
    (hbody : ∀ i vm₁, vm₁.EvenLinks → vm₁.table t = vm.table t → (∀ x, ts i x → vm₁.table x = vm.table x) →
      Releases vm₁ (body vm₁ i) (ts i) (fs i)) (L : List (Fin 512)) (hL : L.Nodup) :
    Releases vm (L.foldl body vm) (fun x => ∃ i ∈ L, ts i x) (L.flatMap fs) := by
  induction L using List.reverseRecOn with
  | nil => exact (refl he).congr (by simp)
  | append_singleton L i ih =>
    rw [nodup_append] at hL
    have hi : i ∉ L := fun h => hL.2.2 i h i (mem_singleton_self i) rfl
    have hprev := ih hL.1
    have htable : ∀ x, (∀ j ∈ L, ¬ ts j x) → (L.foldl body vm).table x = vm.table x := fun x hx =>
      funext fun k => hprev.kept x k (.inl fun ⟨j, hj, h⟩ => hx j hj h)
    have hstep := hbody i _ hprev.even (htable t fun j _ => hself j) fun x hx => htable x fun j hj hj' =>
      hapart i j (fun h => hi (h ▸ hj)) x hx hj'
    rw [foldl_append, flatMap_append, foldl_cons, foldl_nil, flatMap_singleton]
    refine (hprev.trans hstep).congr fun x => ?_
    simp [mem_append, or_and_right, exists_or]

end Releases

/-- `free` frees a table with `n` levels below it and all that lies there. -/
def ReleasesTable (n : Nat) (free : Nat → Vm → Vm) : Prop := ∀ vm t, vm.EvenLinks →
  Tree Pte.child vm.table n t → Plain vm.table n t →
    Releases vm (free t vm) (Reaches Pte.child vm.table n t) ((released vm.table n t).map (·.2))

/-- A page table. -/
theorem releasesTable_pt : ReleasesTable 0 fun t vm => kfreeTable ((List.finRange 512).foldl (freePte t) vm) t := by
  intro vm t he _ _
  have hloop : Releases vm ((List.finRange 512).foldl (freePte t) vm) (fun x => ∃ i ∈ List.finRange 512, False)
      ((List.finRange 512).flatMap fun l => if (vm.table t l).present then [(vm.table t l).frame] else []) := by
    refine .foldl t he (fun _ => id) (fun _ _ _ _ h => h.elim) (fun l vm₁ he₁ ht _ => ?_) _
      (nodup_finRange 512)
    unfold freePte
    rw [ht]
    dsimp only
    split
    · exact .freeFrame he₁ _
    · exact .refl he₁
  have hframes : (released vm.table 0 t).map (·.2) =
      (List.finRange 512).flatMap fun l => if (vm.table t l).present then [(vm.table t l).frame] else [] := by
    rw [released, map_flatMap]
    congr 1
    funext l
    split <;> rfl
  rw [hframes, ← append_nil (List.flatMap _ _)]
  refine (hloop.trans (.kfreeTable hloop.even t)).congr fun x => ?_
  simp [Reaches]

/-- One level up. Only page directories have large entries, and only there does
the source look for them. -/
theorem ReleasesTable.up {n : Nat} {free : Nat → Vm → Vm} (hfree : ReleasesTable n free)
    (body : Nat → Vm → Fin 512 → Vm)
    (hbody : ∀ t vm i, (n ≠ 0 → (vm.table t i).present = true → (vm.table t i).large = false) → body t vm i =
      if !(vm.table t i).present then vm
      else if (vm.table t i).large then vm.freeFrame (largeFrame (vm.table t i) 0)
      else free (vm.table t i).frame vm) :
    ReleasesTable (n + 1) fun t vm => kfreeTable ((List.finRange 512).foldl (body t) vm) t := by
  intro vm t he htree hplain
  have hnotLarge : ∀ i, n ≠ 0 → (vm.table t i).present = true → (vm.table t i).large = false := by
    intro i hn
    cases n with
    | zero => exact absurd rfl hn
    | succ n => exact fun hpr => (hplain i hpr).1
  have hsub : ∀ i, (vm.table t i).present = true → Plain vm.table n (vm.table t i).frame := by
    intro i hpr
    cases n with
    | zero => trivial
    | succ n => exact (hplain i hpr).2
  have hloop : Releases vm ((List.finRange 512).foldl (body t) vm)
      (fun x => ∃ i ∈ List.finRange 512, ∃ t', (vm.table t i).child = some t' ∧ Reaches Pte.child vm.table n t' x)
      ((List.finRange 512).flatMap fun i =>
        (releasedAt (released vm.table n) vm.table (n + 1) t i).map (·.2)) := by
    refine .foldl t he ?_ ?_ (fun i vm₁ he₁ ht hx => ?_) _ (nodup_finRange 512)
    · rintro i ⟨t', hc, hr⟩
      exact (htree i t' hc).2.1 hr
    · rintro i j hij x ⟨t', hc, hr⟩ ⟨t'', hc', hr'⟩
      exact (htree i t' hc).2.2 j t'' hij.symm hc' x hr hr'
    · rw [hbody t vm₁ i (by rw [ht]; exact hnotLarge i), ht, releasedAt]
      cases hpr : (vm.table t i).present with
      | false => exact (Releases.refl he₁).congr fun x => by simp [Pte.child, hpr]
      | true =>
        cases hl : (vm.table t i).large with
        | true => exact (Releases.freeFrame he₁ _).congr fun x => by simp [Pte.child, hl]
        | false =>
          have hc := Pte.child_eq hpr hl
          have hsame : ∀ x, Reaches Pte.child vm.table n (vm.table t i).frame x → vm₁.table x = vm.table x :=
            fun x hr => hx x ⟨_, hc, hr⟩
          have hrel := hfree vm₁ (vm.table t i).frame he₁ ((htree i _ hc).1.congr hsame)
            ((hsub i hpr).congr hsame)
          rw [released_congr hsame] at hrel
          simp only [Bool.not_true, Bool.false_eq_true, ↓reduceIte, map_map]
          refine hrel.congr fun x => ?_
          rw [Reaches.congr hsame]
          simp [hc]
  have hframes : (released vm.table (n + 1) t).map (·.2) = (List.finRange 512).flatMap fun i =>
      (releasedAt (released vm.table n) vm.table (n + 1) t i).map (·.2) := by
    rw [released, map_flatMap]
  rw [hframes, ← append_nil (List.flatMap _ _)]
  refine (hloop.trans (.kfreeTable hloop.even t)).congr fun x => ?_
  simp [Reaches, or_comm]

/-! ## The call -/

/-- A directory that may be freed: its tables are used once each, and its own
block on the heap is a small one. -/
structure Vm.Freeable (vm : Vm) (d : Directory) : Prop where
  pml4 : d.pml4 ≠ 0
  tree : Tree Pte.child vm.table 3 d.pml4
  plain : Plain vm.table 3 d.pml4
  even : vm.EvenLinks
  small : vm.heap.blockSizeAt (headerOf d.addr) < 4096

/-- The tables of `d` that the heap gets back. -/
def Vm.FreedTable (vm : Vm) (d : Directory) (x : Nat) : Prop :=
  Reaches Pte.child vm.table 3 d.pml4 x ∧ vm.OnHeap x

/-- What `vmm_free_directory` leaves. -/
structure FreedSpace (vm vm' : Vm) (d : Directory) : Prop where
  pmm : vm'.heap.pmm = (vm.releasedFrames d).foldl (fun p f => pmmFreeBlock p (f * 4096)) vm.heap.pmm
  kept : ∀ x i, ¬ (vm.FreedTable d x ∧ i = 0) → vm'.table x i = vm.table x i
  cleared : ∀ x, vm.FreedTable d x → (vm'.table x 0).present = false

theorem kfree_small_pmm {k : Kheap} {ptr : Nat} (h : k.blockSizeAt (headerOf ptr) < 4096) :
    (kfree k ptr).pmm = k.pmm := by
  have hsize : ¬ (headerOf ptr % 4096 = 0 ∧ k.blockSizeAt (headerOf ptr) ≥ 4096) := fun hs => by omega
  unfold kfree
  generalize headerOf ptr = header at hsize
  dsimp only
  rw [if_neg hsize]
  split
  · rfl
  · split <;> rfl

theorem releasesTable_pd : ReleasesTable 1 fun t vm => kfreeTable ((List.finRange 512).foldl (freePde t) vm) t :=
  releasesTable_pt.up freePde fun t vm k _ => by rw [freePde]

theorem releasesTable_pdp : ReleasesTable 2 fun t vm => kfreeTable ((List.finRange 512).foldl (freePdpe t) vm) t :=
  releasesTable_pd.up freePdpe fun t vm j hl => by
    rw [freePdpe]
    cases hpr : (vm.table t j).present with
    | false => rfl
    | true => rw [hl (by decide) hpr]; rfl

theorem releasesTable_pml4 : ReleasesTable 3 fun t vm => kfreeTable ((List.finRange 512).foldl (freePml4e t) vm) t :=
  releasesTable_pdp.up freePml4e fun t vm i hl => by
    rw [freePml4e]
    cases hpr : (vm.table t i).present with
    | false => rfl
    | true => rw [hl (by decide) hpr]; rfl

theorem vmmFreeDirectory_freed {vm : Vm} {d : Directory} (hd : vm.Freeable d) :
    FreedSpace vm (vmmFreeDirectory vm (some d)) d := by
  have h := releasesTable_pml4 vm d.pml4 hd.even hd.tree hd.plain
  rw [vmmFreeDirectory, if_neg hd.pml4]
  refine ⟨?_, fun x i hx => ?_, fun x hx => h.cleared x hx.1 hx.2⟩
  · rw [Vm.kfree, kfree_small_pmm (by rw [h.sizes]; exact hd.small)]
    exact h.pmm
  · refine h.kept x i ?_
    by_contra hn
    push Not at hn
    exact hx ⟨⟨hn.1, hn.2.2⟩, hn.2.1⟩

end LiwusOS.Mm
