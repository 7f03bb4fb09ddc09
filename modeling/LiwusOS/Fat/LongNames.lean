import LiwusOS.Fat.RootDir

/-! # Directories with long names

The slots of a directory in the order of its chain. The long name of an entry is
spread over the slots right before it, nearest first. `fat32_readdir` sees all of
them; `fat32_find_entry_in_dir` reads one cluster at a time and sees those of the
entry's own cluster. -/

namespace LiwusOS.Fat
open LiwusOS.Lib List

/-! ## The text of a slot -/

def utf8Of (code : Nat) : List UInt8 :=
  if code = 0 ∨ code = 0xFFFF then []
  else if code < 0x80 then [UInt8.ofNat code]
  else if code < 0x800 then [UInt8.ofNat (0xC0 ||| code >>> 6), UInt8.ofNat (0x80 ||| code &&& 0x3F)]
  else [UInt8.ofNat (0xE0 ||| code >>> 12), UInt8.ofNat (0x80 ||| (code >>> 6) &&& 0x3F),
    UInt8.ofNat (0x80 ||| code &&& 0x3F)]

/-- The part of a long name that one slot holds. -/
def slotText (e : Buf) : List UInt8 :=
  ([1, 3, 5, 7, 9, 14, 16, 18, 20, 22, 24, 28, 30].takeWhile fun o =>
    (e.u16 o).toNat ≠ 0 ∧ (e.u16 o).toNat ≠ 0xFFFF).flatMap fun o => utf8Of (e.u16 o).toNat

/-- What has been collected in `buf[768]` of a text: all of it, or the first 765
bytes and perhaps more. -/
def Capped (out full : List UInt8) : Prop :=
  out = full ∨ 765 ≤ out.length ∧ 765 ≤ full.length ∧ out.take 765 = full.take 765

variable {n k size : Nat}

section Text
variable {out full : List UInt8}

/-- A character is appended, unless the array is almost full. -/
theorem utf16ToUtf8_cases (code : Nat) (out : List UInt8) :
    fat32Utf16ToUtf8 code out 767 = out ++ utf8Of code ∨
    765 ≤ out.length ∧ fat32Utf16ToUtf8 code out 767 = out := by
  unfold fat32Utf16ToUtf8 utf8Of
  split
  · exact .inl (append_nil _).symm
  · split
    · split
      · exact .inl rfl
      · exact .inr ⟨by omega, rfl⟩
    · split
      · split
        · exact .inl rfl
        · exact .inr ⟨by omega, rfl⟩
      · split
        · exact .inl rfl
        · exact .inr ⟨by omega, rfl⟩

section
variable (h : Capped out full)
include h

theorem Capped.code (code : Nat) : Capped (fat32Utf16ToUtf8 code out 767) (full ++ utf8Of code) := by
  rcases h with rfl | ⟨hout, hfull, heq⟩
  · rcases utf16ToUtf8_cases code out with happ | ⟨hlen, hkeep⟩
    · exact .inl happ
    · refine .inr ⟨by rw [hkeep]; exact hlen, by rw [length_append]; omega, ?_⟩
      rw [hkeep, take_append_of_le_length hlen]
  · refine .inr ⟨?_, by rw [length_append]; omega, ?_⟩
    · rcases utf16ToUtf8_cases code out with happ | ⟨hlen, hkeep⟩
      · rw [happ, length_append]
        omega
      · rw [hkeep]
        exact hlen
    · rw [take_append_of_le_length hfull, ← heq]
      rcases utf16ToUtf8_cases code out with happ | ⟨hlen, hkeep⟩
      · rw [happ, take_append_of_le_length hout]
      · rw [hkeep]

theorem Capped.slot (e : Buf) : Capped (longNamePart e out) (full ++ slotText e) := by
  unfold longNamePart slotText
  generalize List.takeWhile _ _ = os
  induction os generalizing out full with
  | nil =>
    rw [flatMap_nil, append_nil]
    exact h
  | cons o os ih =>
    rw [foldl_cons, flatMap_cons, ← append_assoc]
    exact ih (h.code _)

theorem Capped.slots (es : List Buf) :
    Capped (es.foldl (fun out e => longNamePart e out) out) (full ++ es.flatMap slotText) := by
  induction es generalizing out full with
  | nil =>
    rw [flatMap_nil, append_nil]
    exact h
  | cons e es ih =>
    rw [foldl_cons, flatMap_cons, ← append_assoc]
    exact ih (h.slot e)

theorem Capped.nil_iff : out = [] ↔ full = [] := by
  rcases h with rfl | ⟨hout, hfull, -⟩
  · exact Iff.rfl
  · constructor
    · intro h0
      rw [h0] at hout
      exact absurd hout (by decide)
    · intro h0
      rw [h0] at hfull
      exact absurd hfull (by decide)

theorem Capped.take (hn : n ≤ 765) : out.take n = full.take n := by
  rcases h with rfl | ⟨-, -, heq⟩
  · rfl
  · have htake := congrArg (List.take n) heq
    rw [take_take, take_take, Nat.min_eq_left hn] at htake
    exact htake

end

end Text

/-! ## The slots of a name -/

/-- The slots of a chain of directory clusters of `m` slots each. -/
def dirSlots (m : Nat) (x : Nat → Buf) (l : List Nat) : List Lookup :=
  l.flatMap fun n => (List.range m).map fun i => ⟨n, i, direntAt (x n) i⟩

/-- The long-name slots right before an entry, from the slots before it, nearest
first. -/
def longRun (before : List Lookup) : List Lookup := before.takeWhile fun s => direntIsLong s.entry

def runText (run : List Lookup) : List UInt8 := run.flatMap fun s => slotText s.entry

/-- The long name stored for an entry; empty when there is none. -/
def storedName (before : List Lookup) : List UInt8 := runText (longRun before)

/-- The part of it that lies in the entry's own cluster. -/
def localName (before : List Lookup) (s : Lookup) : List UInt8 := runText ((longRun before).take s.entryIndex)

/-- The entries up to the first slot never used, each with the slots before it. -/
def liveSlots : List Lookup → List Lookup → List (List Lookup × Lookup)
  | _, [] => []
  | before, s :: rest =>
    if s.entry 0 = 0 then []
    else if direntSkipped s.entry then liveSlots (s :: before) rest
    else (before, s) :: liveSlots (s :: before) rest

/-- Equal ignoring ASCII case. -/
def SameName (a b : List UInt8) : Prop := a.map upper = b.map upper

instance (a b : List UInt8) : Decidable (SameName a b) := inferInstanceAs (Decidable (_ = _))

/-- An entry that `fat32_find_entry_in_dir` takes for `name`. -/
def TakenFor (name : List UInt8) (x : List Lookup × Lookup) : Prop :=
  dirName x.2.entry = fat32MakeDosName name ∨
    localName x.1 x.2 ≠ [] ∧ SameName ((localName x.1 x.2).take 254) name

instance (name : List UInt8) (x : List Lookup × Lookup) : Decidable (TakenFor name x) :=
  inferInstanceAs (Decidable (_ ∨ _))

/-- The name that `fat32_readdir` gives an entry. -/
def listedName (x : List Lookup × Lookup) : List UInt8 :=
  if storedName x.1 = [] then fat32EntryNameToString x.2.entry else (storedName x.1).take 127

/-- The first entry taken for `name`. -/
def findLive (name : List UInt8) (before rest : List Lookup) : Option Lookup :=
  ((liveSlots before rest).find? fun x => TakenFor name x).map Prod.snd

theorem findLive_cons (name : List UInt8) (before rest : List Lookup) (s : Lookup) :
    findLive name before (s :: rest) =
      if s.entry 0 = 0 then none
      else if direntSkipped s.entry then findLive name (s :: before) rest
      else if TakenFor name (before, s) then some s
      else findLive name (s :: before) rest := by
  rw [findLive, liveSlots]
  split
  · rfl
  · split
    · rfl
    · rw [find?_cons]
      by_cases ht : TakenFor name (before, s)
      · rw [if_pos ht, decide_eq_true ht]
        rfl
      · rw [if_neg ht, decide_eq_false ht]
        rfl

/-- Without long-name slots the short names decide. -/
theorem findLive_eq_search {before rest : List Lookup} (hrest : ∀ s ∈ rest, dirAttr s.entry ≠ 0x0F)
    (hbefore : longRun before = []) (name : List UInt8) :
    findLive name before rest = search (fat32MakeDosName name) rest := by
  induction rest generalizing before with
  | nil => rfl
  | cons s rest ih =>
    have hrun : longRun (s :: before) = [] :=
      takeWhile_cons_of_neg (by simpa [direntIsLong] using hrest s (.head _))
    have htaken : TakenFor name (before, s) ↔ dirName s.entry = fat32MakeDosName name := by
      simp [TakenFor, localName, hbefore, runText]
    rw [findLive_cons, search, ih (fun t ht => hrest t (.tail _ ht)) hrun]
    simp only [htaken]

/-! ## In a buffer -/

section Buffer
variable {b : Buf} {n i : Nat}

/-- The slots of a buffer before index `i`, nearest first. -/
def bufBefore (b : Buf) (n : Nat) : Nat → List Lookup
  | 0 => []
  | i + 1 => ⟨n, i, direntAt b i⟩ :: bufBefore b n i

theorem length_bufBefore (b : Buf) (n i : Nat) : (bufBefore b n i).length = i := by
  induction i with
  | zero => rfl
  | succ i ih => rw [bufBefore, length_cons, ih]

/-- The slots that `fat32_get_long_name` goes through. -/
theorem longNameStart_run (b : Buf) (n i : Nat) : longNameStart b i ≤ i ∧
    (List.range' (longNameStart b i) (i - longNameStart b i)).reverse.map (fun j => direntAt b j) =
      (longRun (bufBefore b n i)).map Lookup.entry := by
  induction i with
  | zero => exact ⟨le_rfl, rfl⟩
  | succ i ih =>
    rw [longNameStart, bufBefore, longRun, takeWhile_cons]
    dsimp only
    by_cases hl : direntIsLong (direntAt b i) = true
    · obtain ⟨hle, hrun⟩ := ih
      have hlen : i + 1 - longNameStart b i = i - longNameStart b i + 1 := by omega
      have hlast : longNameStart b i + (i - longNameStart b i) = i := by omega
      rw [if_pos hl, if_pos hl, hlen, range'_1_concat, hlast, reverse_append, map_append,
        map_cons]
      refine ⟨by omega, ?_⟩
      rw [hrun]
      rfl
    · rw [if_neg hl, if_neg hl, Nat.sub_self]
      exact ⟨le_rfl, rfl⟩

/-- `fat32_get_long_name` in terms of the slots before an entry. -/
theorem getLongName_eq {outSize : Nat} (hi : i < size / 32) (ho : 0 < outSize) (ho' : outSize ≤ 766) :
    fat32GetLongName b size i outSize =
      if storedName (bufBefore b n i) = [] then none
      else some ((storedName (bufBefore b n i)).take (outSize - 1)) := by
  obtain ⟨-, hrun⟩ := longNameStart_run b n i
  have htext : ((List.range' (longNameStart b i) (i - longNameStart b i)).reverse.map
      fun j => direntAt b j).flatMap slotText = storedName (bufBefore b n i) := by
    rw [hrun, flatMap_map]
    rfl
  rw [fat32GetLongName]
  by_cases h0 : outSize = 0 ∨ i = 0
  · obtain rfl : i = 0 := h0.resolve_left (by omega)
    rw [if_pos h0]
    exact (if_pos rfl).symm
  · rw [if_neg h0, if_neg (by omega)]
    dsimp only
    by_cases hstart : longNameStart b i = i
    · rw [hstart, Nat.sub_self] at htext
      rw [if_pos hstart, if_pos]
      exact htext.symm
    · have hcap := Capped.slots (.inl rfl : Capped [] [])
        ((List.range' (longNameStart b i) (i - longNameStart b i)).reverse.map fun j => direntAt b j)
      rw [foldl_map, nil_append, htext] at hcap
      rw [if_neg hstart, hcap.take (show outSize - 1 ≤ 765 by omega)]
      by_cases hnil : storedName (bufBefore b n i) = []
      · rw [if_pos (hcap.nil_iff.mpr hnil), if_pos hnil]
      · rw [if_neg fun h => hnil (hcap.nil_iff.mp h), if_neg hnil]

/-- The slots of one cluster are the nearest ones. -/
theorem longRun_local (A B : List Lookup) : (longRun (A ++ B)).take A.length = longRun A := by
  rw [longRun, takeWhile_append]
  split
  · rename_i hall
    rw [take_append_of_le_length le_rfl, take_length, longRun]
    exact ((List.takeWhile_prefix _).eq_of_length hall).symm
  · exact take_of_length_le (List.takeWhile_prefix _).length_le

theorem localName_eq (before : List Lookup) (e : Buf) :
    localName (bufBefore b n i ++ before) ⟨n, i, e⟩ = storedName (bufBefore b n i) := by
  have hrun := longRun_local (bufBefore b n i) before
  rw [length_bufBefore] at hrun
  rw [localName, hrun, storedName]

theorem direntMatches_iff (hi : i < size / 32) (before : List Lookup) (name : List UInt8) :
    direntMatches b size name (fat32MakeDosName name) i = true ↔
      TakenFor name (bufBefore b n i ++ before, ⟨n, i, direntAt b i⟩) := by
  rw [direntMatches, TakenFor, localName_eq, getLongName_eq (n := n) hi (by decide) (by decide), Bool.or_eq_true,
    beq_iff_eq]
  refine or_congr_right ?_
  by_cases hnil : storedName (bufBefore b n i) = []
  · rw [if_pos hnil]
    exact iff_of_false Bool.false_ne_true fun h => h.1 hnil
  · rw [if_neg hnil, and_iff_right hnil]
    exact decide_eq_true_iff

/-- The scan of a cluster from index `i` on. -/
theorem findLive_scan (size : Nat) (hk : i + k ≤ size / 32) (name : List UInt8) (before rest : List Lookup) :
    findLive name (bufBefore b n i ++ before)
      ((List.range' i k).map (fun i => ⟨n, i, direntAt b i⟩) ++ rest) =
      match scanCluster b size name (fat32MakeDosName name) (List.range' i k) with
      | .stop => none
      | .hit j => some ⟨n, j, direntAt b j⟩
      | .more => findLive name (bufBefore b n (i + k) ++ before) rest := by
  induction k generalizing i with
  | zero => rfl
  | succ k ih =>
    have ih := ih (i := i + 1) (by omega)
    rw [Nat.add_right_comm, bufBefore, cons_append] at ih
    rw [range'_succ, map_cons, cons_append, findLive_cons, scanCluster]
    dsimp only
    by_cases h0 : direntAt b i 0 = 0
    · rw [if_pos h0, if_pos h0]
    · rw [if_neg h0, if_neg h0]
      by_cases hskip : direntSkipped (direntAt b i) = true
      · rw [if_pos hskip, if_pos hskip]
        exact ih
      · rw [if_neg hskip, if_neg hskip]
        by_cases hm : direntMatches b size name (fat32MakeDosName name) i = true
        · rw [if_pos hm, if_pos ((direntMatches_iff (by omega) before name).mp hm)]
        · rw [if_neg hm, if_neg fun h => hm ((direntMatches_iff (by omega) before name).mpr h)]
          exact ih

end Buffer

/-! ## Along a chain -/

section Chain
variable {g : Statics} {d : Sectors} {a m : Nat} {l : List Nat}

/-- The clusters of a directory. -/
def DirChain (g : Statics) (d : Sectors) (a : Nat) (l : List Nat) : Prop :=
  Settles (chainClusters g d · a) l

theorem chainClusters_fuel (h : chainClusters g d n a = some l) (hk : n ≤ k) : chainClusters g d k a = some l := by
  induction n generalizing a l k with
  | zero => cases h
  | succ n ih =>
    obtain ⟨k, rfl⟩ : ∃ j, k = j + 1 := ⟨k - 1, by omega⟩
    rw [chainClusters] at h ⊢
    split at h
    · rename_i hin
      obtain ⟨l', hl, rfl⟩ := Option.map_eq_some_iff.mp h
      rw [if_pos hin, ih hl (by omega), Option.map_some]
    · rename_i hin
      rw [if_neg hin]
      exact h

theorem dirChain_of (h : chainClusters g d n a = some l) : DirChain g d a l := by
  refine ⟨⟨n, fun k hk => chainClusters_fuel h hk⟩, fun k l' hl' => ?_⟩
  have h1 := chainClusters_fuel h (Nat.le_max_left n k)
  have h2 := chainClusters_fuel hl' (Nat.le_max_right n k)
  exact Option.some.inj (h2.symm.trans h1)

/-- The chain of a cluster and the chain of the next one. -/
theorem DirChain.cases (h : DirChain g d a l) : ¬ InData a ∧ l = [] ∨
    InData a ∧ ∃ l', l = a :: l' ∧ DirChain g d (fat32NextCluster g d a) l' := by
  obtain ⟨N, hN⟩ := h.enough
  have hrun := hN (N + 1) (Nat.le_succ N)
  rw [chainClusters] at hrun
  split at hrun
  · rename_i hin
    obtain ⟨l', hl, rfl⟩ := Option.map_eq_some_iff.mp hrun
    exact .inr ⟨hin, l', rfl, dirChain_of hl⟩
  · rename_i hin
    cases hrun
    exact .inl ⟨hin, rfl⟩

theorem dirSlots_cons (m : Nat) (x : Nat → Buf) (n : Nat) (l : List Nat) : dirSlots m x (n :: l) =
    (List.range m).map (fun i => ⟨n, i, direntAt (x n) i⟩) ++ dirSlots m x l := flatMap_cons

/-- `fat32_find_entry_in_dir` along a chain, after the slots `before`. -/
theorem findEntry_live (h : DirChain g d a l) (hm : fat32ClusterSizeBytes g = 32 * m) (name : List UInt8)
    (before : List Lookup) :
    Settles (fat32FindEntryInDir · g d a name)
      (findLive name before (dirSlots m (fat32ReadDirectoryCluster g d) l)) := by
  have hdiv : fat32ClusterSizeBytes g / 32 = m := by omega
  induction l generalizing a before with
  | nil =>
    obtain ⟨hin, -⟩ | ⟨-, l', hl, -⟩ := h.cases
    · refine .succ rfl (fun n => ?_) (.const none)
      rw [fat32FindEntryInDir, findEntryLoop, if_neg hin]
    · cases hl
  | cons c l ih =>
    obtain ⟨-, hl⟩ | ⟨hin, l', hl, hnext⟩ := h.cases
    · cases hl
    · obtain ⟨rfl, rfl⟩ := List.cons.inj hl
      set b := fat32ReadDirectoryCluster g d c
      have hstep : ∀ fuel, fat32FindEntryInDir (fuel + 1) g d c name =
          match scanCluster b (fat32ClusterSizeBytes g) name (fat32MakeDosName name) (List.range' 0 m) with
          | .stop => some none
          | .hit i => some (some ⟨c, i, direntAt b i⟩)
          | .more => fat32FindEntryInDir fuel g d (fat32NextCluster g d c) name := by
        intro fuel
        rw [fat32FindEntryInDir, findEntryLoop, if_pos hin]
        dsimp only
        rw [hdiv, range_eq_range']
        rfl
      have hscan := findLive_scan (b := b) (n := c) (i := 0) (k := m)
        (fat32ClusterSizeBytes g) (by omega) name before (dirSlots m (fat32ReadDirectoryCluster g d) l)
      rw [← range_eq_range'] at hscan hstep
      rw [dirSlots_cons]
      have hfirst : bufBefore b c 0 ++ before = before := rfl
      rw [hfirst] at hscan
      rw [hscan]
      cases hres : scanCluster b (fat32ClusterSizeBytes g) name (fat32MakeDosName name) (List.range m) with
      | stop => exact .succ rfl (fun n => (hstep n).trans (by rw [hres])) (.const none)
      | hit i => exact .succ rfl (fun n => (hstep n).trans (by rw [hres])) (.const _)
      | more => exact .succ rfl (fun n => (hstep n).trans (by rw [hres])) (ih hnext _)

/-! ### Positions -/

theorem length_dirSlots (m : Nat) (x : Nat → Buf) (l : List Nat) : (dirSlots m x l).length = l.length * m := by
  rw [dirSlots, length_flatMap]
  simp

variable {s : Lookup}

theorem getElem?_dirSlots {x : Nat → Buf} (h : (dirSlots m x l)[k]? = some s) :
    ∃ c, l[k / m]? = some c ∧ s = ⟨c, k % m, direntAt (x c) (k % m)⟩ := by
  induction l generalizing k with
  | nil => cases h
  | cons n l ih =>
    rw [dirSlots_cons] at h
    by_cases hk : k < m
    · rw [getElem?_append_left (by simpa using hk), getElem?_map, getElem?_range hk] at h
      cases h
      rw [Nat.div_eq_of_lt hk, Nat.mod_eq_of_lt hk]
      exact ⟨n, rfl, rfl⟩
    · have hle : m ≤ k := by omega
      rw [getElem?_append_right (by simpa using hle), length_map, length_range] at h
      obtain ⟨c, hc, rfl⟩ := ih h
      by_cases hm : m = 0
      · subst hm
        rw [Nat.div_zero] at hc
        exact absurd h (by rw [getElem?_eq_none (by rw [length_dirSlots]; omega)]; nofun)
      · have hdiv : k / m = (k - m) / m + 1 := by
          rw [Nat.div_eq_sub_div (by omega) hle]
        have hmod : k % m = (k - m) % m := Nat.mod_eq_sub_mod hle
        rw [hdiv, hmod]
        exact ⟨c, hc, rfl⟩

/-- A chain that ends passes no cluster twice. -/
theorem DirChain.nodup (h : DirChain g d a l) : l.Nodup := by
  -- a cluster of a chain starts the rest of it
  have hsuffix : ∀ {l a p b q}, DirChain g d a l → l = p ++ b :: q → DirChain g d b (b :: q) := by
    intro l a p b q hc hl
    induction p generalizing a l with
    | nil =>
      obtain ⟨-, hnil⟩ | ⟨-, l', heq, -⟩ := hc.cases
      · rw [hnil] at hl
        cases hl
      · rw [heq] at hl
        obtain ⟨rfl, rfl⟩ := List.cons.inj hl
        rw [heq] at hc
        exact hc
    | cons c p ih =>
      obtain ⟨-, hnil⟩ | ⟨-, l', heq, hnext⟩ := hc.cases
      · rw [hnil] at hl
        cases hl
      · rw [heq] at hl
        exact ih hnext (List.cons.inj hl).2
  induction l generalizing a with
  | nil => exact nodup_nil
  | cons c l ih =>
    obtain ⟨-, hnil⟩ | ⟨-, l', heq, hnext⟩ := h.cases
    · cases hnil
    · obtain ⟨rfl, rfl⟩ := List.cons.inj heq
      refine nodup_cons.mpr ⟨fun hmem => ?_, ih hnext⟩
      obtain ⟨p, q, hpq⟩ := append_of_mem hmem
      have hlen := congrArg List.length ((hsuffix hnext hpq).unique h)
      rw [hpq, length_cons, length_cons, length_append, length_cons] at hlen
      omega

/-- Slots at different places of the chain are different. -/
theorem dirSlots_inj (hl : l.Nodup) {x : Nat → Buf} {k' : Nat} (h : (dirSlots m x l)[k]? = some s)
    (h' : (dirSlots m x l)[k']? = some s) : k = k' := by
  obtain ⟨c, hc, rfl⟩ := getElem?_dirSlots h
  obtain ⟨c', hc', heq⟩ := getElem?_dirSlots h'
  obtain ⟨rfl, hmod, -⟩ := Lookup.mk.inj heq
  have hdiv := (getElem?_inj (List.getElem?_eq_some_iff.mp hc).1 hl).mp (hc.trans hc'.symm)
  have h1 := Nat.div_add_mod k m
  have h2 := Nat.div_add_mod k' m
  rw [hdiv, hmod] at h1
  exact h1.symm.trans h2

/-- The entries of the buffer that `fat32_load_directory` fills. -/
theorem direntAt_loaded (hm : fat32ClusterSizeBytes g = 32 * m)
    (h : (dirSlots m (fat32ReadDirectoryCluster g d) l)[k]? = some s) :
    direntAt (fun i => match l[i / fat32ClusterSizeBytes g]? with
      | some c => fat32ReadDirectoryCluster g d c (i % fat32ClusterSizeBytes g)
      | none => 0) k = s.entry := by
  obtain ⟨c, hc, rfl⟩ := getElem?_dirSlots h
  have hm0 : 0 < m := by
    have hk := (List.getElem?_eq_some_iff.mp h).1
    rw [length_dirSlots] at hk
    rcases Nat.eq_zero_or_pos m with rfl | hpos
    · omega
    · exact hpos
  have hmod := Nat.mod_lt k hm0
  funext j
  by_cases hj : j < 32
  · have hplace : 32 * k + j = 32 * m * (k / m) + (32 * (k % m) + j) := by
      have hk := Nat.div_add_mod k m
      rw [Nat.mul_assoc]
      omega
    have hin : 32 * (k % m) + j < 32 * m := by omega
    unfold direntAt
    dsimp only
    rw [if_pos hj, if_pos hj, hm, hplace, Nat.mul_add_div (by omega), Nat.div_eq_of_lt hin, Nat.add_zero, hc,
      Nat.mul_add_mod, Nat.mod_eq_of_lt hin]
  · unfold direntAt
    exact (if_neg hj).trans (if_neg hj).symm

/-! ### Listing -/

theorem storedName_congr {before before' : List Lookup} (h : before.map Lookup.entry = before'.map Lookup.entry) :
    storedName before = storedName before' := by
  have hfactor : ∀ bs : List Lookup, storedName bs =
      ((bs.map Lookup.entry).takeWhile direntIsLong).flatMap slotText := by
    intro bs
    rw [takeWhile_map, flatMap_map]
    rfl
  rw [hfactor, hfactor, h]

/-- The slots before an index, in a buffer with the entries of `S`. -/
theorem map_entry_bufBefore {S : List Lookup} {b : Buf} (hb : ∀ k s, S[k]? = some s → direntAt b k = s.entry)
    (n : Nat) {i : Nat} (hi : i ≤ S.length) :
    (bufBefore b n i).map Lookup.entry = (S.take i).reverse.map Lookup.entry := by
  induction i with
  | zero => rfl
  | succ i ih =>
    have hlt : i < S.length := by omega
    rw [bufBefore, map_cons, ih (by omega), take_add_one, getElem?_eq_getElem hlt, Option.toList_some,
      reverse_append, reverse_singleton, map_append, hb i _ (getElem?_eq_getElem hlt)]
    rfl

/-- The scan of `fat32_readdir` from index `i` on. -/
theorem readdirScan_live {S : List Lookup} {b : Buf} (hb : ∀ k s, S[k]? = some s → direntAt b k = s.entry)
    (hsize : size / 32 = S.length) (index current : Nat) {i : Nat} (hk : i + k = S.length) (hc : current ≤ index) :
    readdirScan b size index (List.range' i k) current =
      (liveSlots (S.take i).reverse (S.drop i))[index - current]?.map fun x =>
        (listedName x, fat32EntryStartCluster x.2.entry) := by
  induction k generalizing i current with
  | zero =>
    rw [drop_eq_nil_of_le (by omega)]
    rfl
  | succ k ih =>
    have hlt : i < S.length := by omega
    have hentry := hb i _ (getElem?_eq_getElem hlt)
    have hbefore : (S.take (i + 1)).reverse = S[i] :: (S.take i).reverse := by
      rw [take_add_one, getElem?_eq_getElem hlt, Option.toList_some, reverse_append]
      rfl
    have hstep : ∀ {current}, current ≤ index → readdirScan b size index (List.range' (i + 1) k) current =
        (liveSlots (S[i] :: (S.take i).reverse) (S.drop (i + 1)))[index - current]?.map fun x =>
          (listedName x, fat32EntryStartCluster x.2.entry) := by
      intro current hc
      rw [← hbefore]
      exact ih _ (by omega) hc
    rw [range'_succ, readdirScan, hentry, drop_eq_getElem_cons hlt, liveSlots]
    by_cases h0 : S[i].entry 0 = 0
    · rw [if_pos h0, if_pos h0]
      rfl
    · rw [if_neg h0, if_neg h0]
      by_cases hskip : direntSkipped S[i].entry = true
      · rw [if_pos hskip, if_pos hskip]
        exact hstep hc
      · rw [if_neg hskip, if_neg hskip]
        by_cases hci : current = index
        · rw [if_pos hci, hci, Nat.sub_self, getElem?_cons_zero, Option.map_some, listedName,
            getLongName_eq (n := 0) (by omega) (by decide) (by decide),
            storedName_congr (map_entry_bufBefore hb 0 (by omega : i ≤ S.length))]
          dsimp only
          split
          · rfl
          · rfl
        · have hsub : index - current = index - (current + 1) + 1 := by omega
          rw [if_neg hci, hsub, getElem?_cons_succ]
          exact hstep (by omega)

/-- `fat32_readdir` lists the entries in the order of the chain. -/
theorem readdir_live {node : FatNode} (h : DirChain g d node.inode l) (hm : fat32ClusterSizeBytes g = 32 * m)
    (hmount : g.mounted = true) (hdir : node.isDir = true) (index : Nat) :
    Settles (fat32Readdir · g d node index)
      ((liveSlots [] (dirSlots m (fat32ReadDirectoryCluster g d) l))[index]?.map fun x =>
        (listedName x, fat32EntryStartCluster x.2.entry)) := by
  simp only [fat32Readdir, fat32LoadDirectory, hmount, hdir, Bool.not_true, Bool.false_eq_true, false_or, or_self,
    if_false]
  by_cases hlow : node.inode < 2
  · obtain ⟨-, rfl⟩ | ⟨hin, -⟩ := h.cases
    · simp only [if_pos hlow]
      exact .const none
    · exact absurd hin.1 (by omega)
  · simp only [if_neg hlow, Option.map_map]
    have hlen : l.length * fat32ClusterSizeBytes g / 32 =
        (dirSlots m (fat32ReadDirectoryCluster g d) l).length := by
      rw [length_dirSlots, hm, Nat.mul_left_comm]
      omega
    have hscan := readdirScan_live (fun k s hs => direntAt_loaded hm hs) hlen index 0 (i := 0)
      (k := (dirSlots m (fat32ReadDirectoryCluster g d) l).length) (Nat.zero_add _) (Nat.zero_le _)
    rw [take_zero, drop_zero, reverse_nil, Nat.sub_zero, ← hlen, ← range_eq_range'] at hscan
    rw [← hscan]
    exact h.map _

end Chain
end LiwusOS.Fat
