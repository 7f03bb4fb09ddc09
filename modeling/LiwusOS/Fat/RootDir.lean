import LiwusOS.Fat.Clusters

/-! # The root directory as a list of slots

The 32-byte slots along a directory's chain, in order. `fat32_find_entry_in_dir`
is a search in that list, `fat32_find_free_dir_slot` takes its first free slot or
hangs a zeroed cluster to the chain, and a write of an entry replaces one slot.
`RootOk S c E`: the chains `c` are the root's own, one for each live slot of `S`,
and those of `E`, which no slot names yet. -/

namespace LiwusOS.Fat
open LiwusOS.Lib
open List hiding beq_eq_decide

def clusterSlots (b : Buf) (n : Nat) : List Lookup := (List.range 128).map fun i => ⟨n, i, direntAt b i⟩

/-- The slots of a chain of directory clusters with the contents `x`. -/
def slots (x : Nat → Buf) (l : List Nat) : List Lookup := l.flatMap fun n => clusterSlots (x n) n

/-- The slot of a name, up to the first slot that was never used. -/
def search (dos : List UInt8) : List Lookup → Option Lookup
  | [] => none
  | s :: rest =>
    if s.entry 0 = 0 then none
    else if direntSkipped s.entry then search dos rest
    else if dirName s.entry = dos then some s
    else search dos rest

def Lookup.Live (s : Lookup) : Prop := s.entry 0 ≠ 0 ∧ s.entry 0 ≠ 0xE5

def Lookup.start (s : Lookup) : Nat := fat32EntryStartCluster s.entry

/-- Free, a directory or a file. -/
def AttrOk (e : Buf) : Prop := dirAttr e = 0 ∨ dirAttr e = 0x10 ∨ dirAttr e = 0x20

variable {s : Lookup} {b e : Buf} {i : Nat}

/-! ## Slots -/

section

variable {x x' : Nat → Buf} {l : List Nat} {n i : Nat}

theorem slots_cons (x : Nat → Buf) (n : Nat) (l : List Nat) :
    slots x (n :: l) = clusterSlots (x n) n ++ slots x l := rfl

theorem slots_append (x : Nat → Buf) (l l' : List Nat) : slots x (l ++ l') = slots x l ++ slots x l' :=
  flatMap_append

theorem mem_clusterSlots : s ∈ clusterSlots b n ↔ ∃ i < 128, s = ⟨n, i, direntAt b i⟩ := by
  simp only [clusterSlots, mem_map, mem_range, eq_comm]

theorem mem_slots : s ∈ slots x l ↔ ∃ n ∈ l, ∃ i < 128, s = ⟨n, i, direntAt (x n) i⟩ := by
  simp only [slots, mem_flatMap, mem_clusterSlots]

theorem slots_congr (h : ∀ n ∈ l, x' n = x n) : slots x' l = slots x l := by
  induction l with
  | nil => rfl
  | cons n l ih =>
    rw [slots_cons, slots_cons, h n (.head _), ih fun m hm => h m (.tail _ hm)]

def Lookup.pos (s : Lookup) : Nat × Nat := (s.entryCluster, s.entryIndex)

theorem slots_nodup (hl : l.Nodup) : ((slots x l).map Lookup.pos).Nodup := by
  induction l with
  | nil => exact nodup_nil
  | cons n l ih =>
    obtain ⟨hn, hl⟩ := nodup_cons.mp hl
    rw [slots_cons, map_append, nodup_append]
    refine ⟨?_, ih hl, fun p hp q hq => ?_⟩
    · rw [clusterSlots, map_map]
      exact nodup_range.map fun i j hij => (Prod.mk.inj hij).2
    · obtain ⟨s, hs, rfl⟩ := mem_map.mp hp
      obtain ⟨i, -, rfl⟩ := mem_clusterSlots.mp hs
      obtain ⟨s', hs', rfl⟩ := mem_map.mp hq
      obtain ⟨m, hm, j, -, rfl⟩ := mem_slots.mp hs'
      intro heq
      have hnm : n = m := (Prod.mk.inj heq).1
      exact hn (hnm ▸ hm)

/-- One slot rewritten. -/
theorem slots_update (hx : ∀ m ∈ l, m ≠ n → x' m = x m)
    (hn : ∀ j < 128, direntAt (x' n) j = if j = i then e else direntAt (x n) j) :
    slots x' l = (slots x l).map fun s => if s.pos = (n, i) then ⟨n, i, e⟩ else s := by
  induction l with
  | nil => rfl
  | cons m l ih =>
    rw [slots_cons, slots_cons, map_append, ih fun k hk => hx k (.tail _ hk)]
    congr 1
    rw [clusterSlots, clusterSlots, map_map]
    refine map_congr_left fun j hj => ?_
    by_cases hm : m = n
    · subst hm
      rw [hn j (mem_range.mp hj)]
      by_cases hji : j = i
      · simp [Lookup.pos, hji]
      · simp [Lookup.pos, hji]
    · rw [hx m mem_cons_self hm]
      simp [Lookup.pos, hm]

/-- The same in a list split at the slot. -/
theorem slots_replace {A B : List Lookup} (hl : l.Nodup) (hS : slots x l = A ++ s :: B)
    (hx : ∀ m ∈ l, m ≠ s.entryCluster → x' m = x m) (hn : ∀ j < 128, direntAt (x' s.entryCluster) j =
      if j = s.entryIndex then e else direntAt (x s.entryCluster) j) :
    slots x' l = A ++ ⟨s.entryCluster, s.entryIndex, e⟩ :: B := by
  have hnd : ((A ++ s :: B).map Lookup.pos).Nodup := hS ▸ slots_nodup hl
  rw [map_append, map_cons, nodup_middle, nodup_cons, ← map_append] at hnd
  have hother : ∀ y ∈ A ++ B, y.pos ≠ s.pos := fun y hy heq => hnd.1 (heq ▸ mem_map_of_mem hy)
  have hid : ∀ L : List Lookup, (∀ y ∈ L, y ∈ A ++ B) → L.map (fun y =>
      if y.pos = (s.entryCluster, s.entryIndex) then ⟨s.entryCluster, s.entryIndex, e⟩ else y) = L := by
    intro L hL
    conv_rhs => rw [← map_id L]
    exact map_congr_left fun y hy => if_neg (hother y (hL y hy))
  rw [slots_update hx hn, hS, map_append, map_cons, hid A fun y hy => mem_append_left _ hy,
    hid B fun y hy => mem_append_right _ hy]
  exact congrArg (fun y => A ++ y :: B) (if_pos rfl)

theorem slot_notMem {A B : List Lookup} (hl : l.Nodup) (hS : slots x l = A ++ s :: B) : s ∉ A ++ B := by
  have hnd : ((A ++ s :: B).map Lookup.pos).Nodup := hS ▸ slots_nodup hl
  rw [map_append, map_cons, nodup_middle, nodup_cons, ← map_append] at hnd
  exact fun hs => hnd.1 (mem_map_of_mem hs)

end

/-! ## Entries in a cluster -/

/-- The 32 bytes that an entry written to a slot leaves there. -/
def entryBytes (e : Buf) : Buf := fun j => if j < 32 then e j else 0

theorem entryBytes_eqOn (e : Buf) : (entryBytes e).EqOn e 0 32 := fun _ _ h => if_pos h

@[simp] theorem dirName_entryBytes (e : Buf) : dirName (entryBytes e) = dirName e :=
  Buf.bytes_congr ((entryBytes_eqOn e).mono (by omega) (by omega))

@[simp] theorem dirAttr_entryBytes (e : Buf) : dirAttr (entryBytes e) = dirAttr e := rfl

theorem start_congr {e' : Buf} (h : e.EqOn e' 20 28) : fat32EntryStartCluster e = fat32EntryStartCluster e' := by
  have h1 := Buf.u16_congr (h.mono (Nat.le_refl 20) (show 22 ≤ 28 by omega))
  have h2 := Buf.u16_congr (h.mono (show 20 ≤ 26 by omega) (Nat.le_refl 28))
  rw [fat32EntryStartCluster, fat32EntryStartCluster, h1, h2]

@[simp] theorem start_entryBytes (e : Buf) : fat32EntryStartCluster (entryBytes e) = fat32EntryStartCluster e :=
  start_congr ((entryBytes_eqOn e).mono (by omega) (by omega))

theorem size_entryBytes (e : Buf) : (entryBytes e).u32 28 = e.u32 28 :=
  Buf.u32_congr ((entryBytes_eqOn e).mono (by omega) (by omega))

theorem direntAt_copy {j : Nat} (hj : j < 128) (e : Buf) :
    direntAt (clip (b.copy (32 * i) e 32)) j = if j = i then entryBytes e else direntAt b j := by
  funext k
  by_cases hji : j = i
  · rw [if_pos hji, direntAt, entryBytes, hji]
    split
    · rw [clip, if_pos (by omega), Buf.copy_inside _ _ (by omega) (by omega), Nat.add_sub_cancel_left]
    · rfl
  · rw [if_neg hji, direntAt, direntAt]
    split
    · rw [clip, if_pos (by omega), Buf.copy_outside _ _ (by omega)]
    · rfl

theorem direntAt_set {j : Nat} (hj : j < 128) (v : UInt8) :
    direntAt (clip (b.set (32 * i) v)) j = if j = i then (direntAt b i).set 0 v else direntAt b j := by
  funext k
  rw [direntAt]
  by_cases hji : j = i
  · rw [if_pos hji, hji]
    by_cases hk0 : k = 0
    · subst hk0
      rw [if_pos (by omega), clip, if_pos (by omega), Nat.add_zero, Buf.set_self, Buf.set_self]
    · rw [Buf.set_ne _ _ hk0, direntAt]
      split
      · rw [clip, if_pos (by omega), Buf.set_ne _ _ (by omega)]
      · rfl
  · rw [if_neg hji, direntAt]
    split
    · rw [clip, if_pos (by omega), Buf.set_ne _ _ (by omega)]
    · rfl

section

variable {f : Bool} {d d' : Sectors} {c c' : Nat → List Nat} {a : Nat}

variable {l : List Nat}

/-! ## The first free slot -/

/-- What `fat32_find_free_dir_slot` does when every slot up to the cluster
`last` is taken. -/
def extendDir (f : Bool) (d : Sectors) (last : Nat) : Option (Nat × Nat) × Sectors :=
  let n := fat32FindFreeCluster (std f) d
  if n = 0 then (none, d)
  else (some (n, 0), fat32ZeroCluster (std f)
    (fat32WriteFatEntry (std f) (fat32WriteFatEntry (std f) d last n) n eocMark) n)

/-- One round of `fat32_find_free_dir_slot`. -/
theorem freeSlot_succ (h : InData a) (fuel : Nat) : fat32FindFreeDirSlot (std f) (fuel + 1) d a =
    match (List.range 128).find? fun i => direntFree (direntAt (fat32ReadDirectoryCluster (std f) d a) i) with
    | some i => some (some (a, i), d)
    | none =>
      if eocMin ≤ fat32NextCluster (std f) d a then some (extendDir f d a)
      else fat32FindFreeDirSlot (std f) fuel d (fat32NextCluster (std f) d a) := by
  have hextend : some (extendDir f d a) = _ := apply_ite some ..
  have hround : fat32FindFreeDirSlot (std f) (fuel + 1) d a = _ := if_pos h
  rw [clusterSize_std] at hround
  rw [hextend]
  exact hround

theorem freeSlot_found (hchain : Chain (fat32NextCluster (std f) d) eocMark a l) (hr : ∀ n ∈ l, InData n)
    (hs : (slots (fat32ReadDirectoryCluster (std f) d) l).find? (fun s => direntFree s.entry) = some s) :
    Settles (fat32FindFreeDirSlot (std f) · d a) (some (s.entryCluster, s.entryIndex), d) := by
  induction l generalizing a with
  | nil => cases hs
  | cons b l ih =>
    obtain ⟨rfl, -, htail⟩ := hchain
    rw [slots_cons, find?_append, clusterSlots, find?_map] at hs
    have hstep := freeSlot_succ (f := f) (d := d) (hr a (.head _))
    have hentry : (fun s : Lookup => direntFree s.entry) ∘ (fun i =>
        (⟨a, i, direntAt (fat32ReadDirectoryCluster (std f) d a) i⟩ : Lookup)) = fun i =>
          direntFree (direntAt (fat32ReadDirectoryCluster (std f) d a) i) := rfl
    rw [hentry] at hs
    cases hfind : (List.range 128).find? fun i =>
        direntFree (direntAt (fat32ReadDirectoryCluster (std f) d a) i) with
    | some i =>
      rw [hfind] at hs
      cases hs
      exact .succ rfl (fun n => by rw [hstep, hfind]) (.const _)
    | none =>
      rw [hfind] at hs
      -- the slot lies in a later cluster, so this one is not the last
      have hl : l ≠ [] := by
        rintro rfl
        cases hs
      have hnext : ¬ eocMin ≤ fat32NextCluster (std f) d a :=
        not_le.mpr (hr _ (.tail _ (Chain.start_mem htail hl))).2
      refine .succ rfl (fun n => ?_) (ih htail (fun n hn => hr n (.tail _ hn)) hs)
      rw [hstep, hfind]
      exact if_neg hnext

theorem freeSlot_full {last : Nat}
    (hchain : Chain (fat32NextCluster (std f) d) eocMark a (l ++ [last])) (hr : ∀ n ∈ l ++ [last], InData n)
    (hs : ∀ s ∈ slots (fat32ReadDirectoryCluster (std f) d) (l ++ [last]), direntFree s.entry = false) :
    Settles (fat32FindFreeDirSlot (std f) · d a) (extendDir f d last) := by
  have hnone : ∀ n ∈ l ++ [last], (List.range 128).find? (fun i =>
      direntFree (direntAt (fat32ReadDirectoryCluster (std f) d n) i)) = none := by
    intro n hn
    rw [find?_eq_none]
    intro i hi
    rw [hs _ (mem_slots.mpr ⟨n, hn, i, mem_range.mp hi, rfl⟩)]
    decide
  clear hs
  induction l generalizing a with
  | nil =>
    obtain ⟨rfl, -, htail⟩ := hchain
    have heoc : fat32NextCluster (std f) d a = eocMark := htail
    refine .succ rfl (fun n => ?_) (.const _)
    rw [freeSlot_succ (hr a (by simp)), hnone a (by simp), heoc]
    exact if_pos (by decide)
  | cons b l ih =>
    obtain ⟨rfl, -, htail⟩ := hchain
    have hnext : ¬ eocMin ≤ fat32NextCluster (std f) d a :=
      not_le.mpr (hr _ (.tail _ (Chain.start_mem htail (by simp)))).2
    refine .succ rfl (fun n => ?_) (ih htail (fun n hn => hr n (.tail _ hn))
      fun n hn => hnone n (.tail _ hn))
    rw [freeSlot_succ (hr a (.head _)), hnone a (.head _)]
    exact if_neg hnext

end

/-! ## Searches in changed lists -/

section

variable {dos : List UInt8} {s s' : Lookup} {A B S : List Lookup}

/-- A slot the search passes over. -/
def Lookup.Passed (dos : List UInt8) (s : Lookup) : Prop :=
  s.entry 0 ≠ 0 ∧ (direntSkipped s.entry = true ∨ dirName s.entry ≠ dos)

theorem search_passed (h : s.Passed dos) : search dos (s :: S) = search dos S := by
  rw [search, if_neg h.1]
  split
  · rfl
  · rename_i hskip
    exact if_neg (h.2.resolve_left hskip)

theorem search_zero (h : s.entry 0 = 0) : search dos (s :: S) = none := by rw [search, if_pos h]

theorem search_hit (h : s.entry 0 ≠ 0) (hskip : direntSkipped s.entry = false) (hname : dirName s.entry = dos) :
    search dos (s :: S) = some s := by
  rw [search, if_neg h, hskip, if_neg Bool.false_ne_true, if_pos hname]

theorem search_passed_append (h : ∀ x ∈ A, x.Passed dos) : search dos (A ++ S) = search dos S := by
  induction A with
  | nil => rfl
  | cons x A ih =>
    rw [cons_append, search_passed (h x (.head _))]
    exact ih fun y hy => h y (.tail _ hy)

/-- What lies before the slot found was passed over. -/
theorem search_some (h : search dos S = some s) : ∃ A B, S = A ++ s :: B ∧ (∀ x ∈ A, x.Passed dos) ∧
    s.entry 0 ≠ 0 ∧ direntSkipped s.entry = false ∧ dirName s.entry = dos := by
  induction S with
  | nil => cases h
  | cons x S ih =>
    rw [search] at h
    split at h
    · cases h
    · rename_i h0
      have hpass : x.Passed dos → search dos S = some s → ∃ A B, x :: S = A ++ s :: B ∧
          (∀ y ∈ A, y.Passed dos) ∧ s.entry 0 ≠ 0 ∧ direntSkipped s.entry = false ∧ dirName s.entry = dos := by
        intro hx hS
        obtain ⟨A, B, rfl, hA, hs⟩ := ih hS
        exact ⟨x :: A, B, rfl, forall_mem_cons.mpr ⟨hx, hA⟩, hs⟩
      split at h
      · rename_i hskip
        exact hpass ⟨h0, .inl hskip⟩ h
      · rename_i hskip
        split at h
        · rename_i hname
          cases Option.some.inj h
          exact ⟨[], S, rfl, nofun, h0, Bool.eq_false_iff.mpr hskip, hname⟩
        · rename_i hname
          exact hpass ⟨h0, .inr hname⟩ h

/-- Before a slot that was not reached for want of a hit, everything was passed over. -/
theorem passed_of_none (h : search dos (A ++ S) = none) (hA : ∀ x ∈ A, x.entry 0 ≠ 0) : ∀ x ∈ A, x.Passed dos := by
  induction A with
  | nil => exact nofun
  | cons x A ih =>
    have h0 := hA x (.head _)
    rw [cons_append, search, if_neg h0] at h
    have ih := fun h => ih h fun y hy => hA y (.tail _ hy)
    split at h
    · rename_i hskip
      exact forall_mem_cons.mpr ⟨⟨h0, .inl hskip⟩, ih h⟩
    · split at h
      · cases h
      · rename_i hname
        exact forall_mem_cons.mpr ⟨⟨h0, .inr hname⟩, ih h⟩

/-- The search does not see a change behind a common front. -/
theorem search_congr_tail (A : List Lookup) {X Y : List Lookup} (h : search dos X = search dos Y) :
    search dos (A ++ X) = search dos (A ++ Y) := by
  induction A with
  | nil => exact h
  | cons x A ih =>
    rw [cons_append, cons_append, search, search, ih]

end

end LiwusOS.Fat
