import LiwusOS.Fat.Fat32
import LiwusOS.Lib.LinkTable
import LiwusOS.Lib.Fuel

/-! # The FAT and the clusters of a formatted volume

What a write to the FAT or to a cluster shows in later reads, with the geometry
`fat32_format` gives a volume. `Cells d c`: both FATs agree, and the entries in
use form the chains `c`. Freeing a chain and allocating one, successful or not,
lead from one such volume to another. -/

namespace LiwusOS.Fat
open LiwusOS.Lib Function List

/-- The statics after `fat32_format` and `fat32_mount`. -/
def std (f : Bool) : Statics := ⟨512, 8, 2, 200, 32, 432, 2, true, f⟩

@[simp] theorem std_bytsPerSec (f : Bool) : (std f).bytsPerSec = 512 := rfl
@[simp] theorem std_secPerClus (f : Bool) : (std f).secPerClus = 8 := rfl
@[simp] theorem clusterSize_std (f : Bool) : fat32ClusterSizeBytes (std f) = 4096 := by
  rw [fat32ClusterSizeBytes, std_secPerClus, std_bytsPerSec]

/-- The entries of a FAT of 200 sectors. -/
def fatEntries : Nat := 25600

/-- An entry of the first FAT. -/
def rawEntry (d : Sectors) (n : Nat) : Nat := ((d (32 + n / 128)).u32 (4 * (n % 128))).toNat

/-- The two FATs are identical. -/
def Mirrored (d : Sectors) : Prop := ∀ i < 200, ∀ j < 512, d (232 + i) j = d (32 + i) j

/-- A buffer of one cluster. -/
def clip (b : Buf) : Buf := fun i => if i < 4096 then b i else 0

section

variable {f : Bool} {d d' : Sectors} {n m v : Nat}

/-! ## Entries -/

theorem fatSector_std (hn : n < fatEntries) : fatSector (std f) n = 32 + n / 128 := by
  have hn' : n < 25600 := hn
  show (32 + n * 4 % 2 ^ 32 / 512) % 2 ^ 32 = 32 + n / 128
  omega

theorem fatOffset_std (hn : n < fatEntries) : fatOffset (std f) n = 4 * (n % 128) := by
  have hn' : n < 25600 := hn
  show n * 4 % 2 ^ 32 % 512 / 4 * 4 = 4 * (n % 128)
  omega

theorem next_std (hn : n < fatEntries) : fat32NextCluster (std f) d n = rawEntry d n % 2 ^ 28 := by
  rw [fat32NextCluster, fatSector_std hn, fatOffset_std hn, rawEntry]

/-- The sector of entry `n` with the value `v` in it, in both FATs. -/
theorem writeFat_std (hn : n < fatEntries) : fat32WriteFatEntry (std f) d n v =
    writeBlock (writeBlock d (32 + n / 128) ((d (32 + n / 128)).putU32 (4 * (n % 128)) (UInt32.ofNat v)))
      (232 + n / 128) ((d (32 + n / 128)).putU32 (4 * (n % 128)) (UInt32.ofNat v)) := by
  have hn' : n < 25600 := hn
  have h0 : (32 + n / 128 + 0 * 200) % 2 ^ 32 = 32 + n / 128 := by omega
  have h1 : (32 + n / 128 + 1 * 200) % 2 ^ 32 = 232 + n / 128 := by omega
  rw [fat32WriteFatEntry, fatSector_std hn, fatOffset_std hn]
  show writeBlock (writeBlock d ((32 + n / 128 + 0 * 200) % 2 ^ 32) _) ((32 + n / 128 + 1 * 200) % 2 ^ 32) _ = _
  rw [h0, h1]

theorem raw_writeFat (hn : n < fatEntries) (hv : v < 2 ^ 32) (hm : m < fatEntries) :
    rawEntry (fat32WriteFatEntry (std f) d n v) m = if m = n then v else rawEntry d m := by
  have hn' : n < 25600 := hn
  have hm' : m < 25600 := hm
  rw [writeFat_std hn, rawEntry, writeBlock, update_of_ne (by omega), writeBlock]
  by_cases hs : 32 + m / 128 = 32 + n / 128
  · rw [hs, update_self]
    by_cases hmn : m = n
    · rw [if_pos hmn, hmn, Buf.u32_putU32, UInt32.toNat_ofNat', Nat.mod_eq_of_lt hv]
    · rw [if_neg hmn, Buf.u32_putU32_ne _ _ (by omega), rawEntry, hs]
  · rw [update_of_ne hs, if_neg (fun hmn => hs (by rw [hmn])), rawEntry]

theorem mirrored_writeFat (h : Mirrored d) (hn : n < fatEntries) : Mirrored (fat32WriteFatEntry (std f) d n v) := by
  have hn' : n < 25600 := hn
  intro i hi j hj
  rw [writeFat_std hn, writeBlock, writeBlock]
  by_cases hs : i = n / 128
  · rw [hs, update_self, update_of_ne (by omega), update_self]
  · rw [update_of_ne (by omega), update_of_ne (by omega), update_of_ne (by omega),
      update_of_ne (by omega)]
    exact h i hi j hj

/-! ## Clusters -/

theorem clusterLba_std (hn : 2 ≤ n) (hn' : n < fatEntries) : clusterLba (std f) n = 432 + (n - 2) * 8 := by
  have hn' : n < 25600 := hn'
  show (432 + (n + 2 ^ 32 - 2) % 2 ^ 32 * 8) % 2 ^ 32 = 432 + (n - 2) * 8
  omega

theorem read_std (hn : 2 ≤ n) (hn' : n < fatEntries) (i : Nat) :
    fat32ReadDirectoryCluster (std f) d n i =
      if i < 4096 then d (432 + (n - 2) * 8 + i / 512) (i % 512) else 0 := by
  have h25 : n < 25600 := hn'
  rw [fat32ReadDirectoryCluster, clusterLba_std hn hn', clusterSize_std, std_bytsPerSec]
  split
  · rw [Nat.mod_eq_of_lt (by omega)]
  · rfl

/-- Sectors written one after another. -/
theorem foldl_writeBlock (base : Nat) (addr : Nat → Nat) (block : Nat → Buf) :
    ∀ k, (∀ i < k, addr i = base + i) → ∀ (d : Sectors) (a : Nat),
      (List.range k).foldl (fun d i => writeBlock d (addr i) (block i)) d a =
        if base ≤ a ∧ a < base + k then block (a - base) else d a := by
  intro k
  induction k with
  | zero =>
    intro _ d a
    rw [if_neg (by omega)]
    rfl
  | succ k ih =>
    intro haddr d a
    rw [range_succ, foldl_append, foldl_cons, foldl_nil, writeBlock, haddr k (by omega)]
    by_cases ha : a = base + k
    · rw [ha, update_self, if_pos (by omega), Nat.add_sub_cancel_left]
    · rw [update_of_ne ha, ih (fun i hi => haddr i (by omega))]
      by_cases hin : base ≤ a ∧ a < base + k
      · rw [if_pos hin, if_pos (by omega)]
      · rw [if_neg hin, if_neg (by omega)]

theorem writeCluster_std (hn : 2 ≤ n) (hn' : n < fatEntries) (b : Buf) (a : Nat) :
    fat32WriteDirectoryCluster (std f) d n b a =
      if 432 + (n - 2) * 8 ≤ a ∧ a < 432 + (n - 2) * 8 + 8 then
        fun j => b ((a - (432 + (n - 2) * 8)) * 512 + j)
      else d a := by
  have h25 : n < 25600 := hn'
  refine foldl_writeBlock (432 + (n - 2) * 8) _ (fun i j => b (i * 512 + j)) 8 (fun i hi => ?_) d a
  rw [clusterLba_std hn hn']
  omega

theorem read_writeCluster (hn : 2 ≤ n) (hn' : n < fatEntries) (hm : 2 ≤ m) (hm' : m < fatEntries) (b : Buf) :
    fat32ReadDirectoryCluster (std f) (fat32WriteDirectoryCluster (std f) d n b) m =
      if m = n then clip b else fat32ReadDirectoryCluster (std f) d m := by
  funext i
  rw [read_std hm hm', writeCluster_std hn hn']
  by_cases hmn : m = n
  · rw [if_pos hmn, hmn, clip]
    split
    · rw [if_pos (by omega), Nat.add_sub_cancel_left]
      show b (i / 512 * 512 + i % 512) = b i
      rw [Nat.div_add_mod']
    · rfl
  · rw [if_neg hmn, read_std hm hm']
    split
    · rw [if_neg (by omega)]
    · rfl

theorem raw_writeCluster (hn : 2 ≤ n) (hn' : n < fatEntries) (b : Buf) (hm : m < fatEntries) :
    rawEntry (fat32WriteDirectoryCluster (std f) d n b) m = rawEntry d m := by
  have hm' : m < 25600 := hm
  rw [rawEntry, writeCluster_std hn hn', if_neg (by omega), rawEntry]

theorem mirrored_writeCluster (h : Mirrored d) (hn : 2 ≤ n) (hn' : n < fatEntries) (b : Buf) :
    Mirrored (fat32WriteDirectoryCluster (std f) d n b) := by
  intro i hi j hj
  rw [writeCluster_std hn hn', writeCluster_std hn hn', if_neg (by omega), if_neg (by omega)]
  exact h i hi j hj

theorem read_writeFat (hn : n < fatEntries) (hm : 2 ≤ m) (hm' : m < fatEntries) :
    fat32ReadDirectoryCluster (std f) (fat32WriteFatEntry (std f) d n v) m =
      fat32ReadDirectoryCluster (std f) d m := by
  have hn' : n < 25600 := hn
  funext i
  rw [read_std hm hm', read_std hm hm', writeFat_std hn, writeBlock, writeBlock,
    update_of_ne (by omega), update_of_ne (by omega)]

/-! ## Chains -/

structure Cells (d : Sectors) (c : Nat → List Nat) : Prop where
  parts : Parts (rawEntry d) eocMark 2 fatEntries c
  mirrored : Mirrored d
  zero : rawEntry d 0 % 2 ^ 28 ≠ 0
  one : rawEntry d 1 % 2 ^ 28 ≠ 0

/-- The cells of `c` hold the same data. -/
def DataKept (f : Bool) (c : Nat → List Nat) (d d' : Sectors) : Prop :=
  ∀ a, ∀ n ∈ c a, fat32ReadDirectoryCluster (std f) d' n = fat32ReadDirectoryCluster (std f) d n

variable {c : Nat → List Nat} {a : Nat}

theorem Cells.inData (h : Cells d c) (hn : n ∈ c a) : 2 ≤ n ∧ n < fatEntries ∧ InData n := by
  obtain ⟨h1, h2⟩ := h.parts.range hn
  refine ⟨h1, h2, h1, ?_⟩
  have h25 : n < 25600 := h2
  show n < 0x0FFFFFF8
  omega

theorem Cells.nonempty (_ : Cells d c) (hn : n ∈ c a) : c a ≠ [] := ne_nil_of_mem hn

/-- An entry of a chain is what the driver reads there. -/
theorem Cells.next (h : Cells d c) (hn : n ∈ c a) :
    fat32NextCluster (std f) d n = rawEntry d n ∧ 0 < rawEntry d n := by
  rw [next_std (h.inData hn).2.1]
  have hsmall : rawEntry d n = eocMark ∨ 2 ≤ rawEntry d n ∧ rawEntry d n < 25600 := by
    refine ((h.parts.chain (h.nonempty hn)).next_mem hn).imp_right fun hm => ?_
    exact ⟨(h.inData hm).1, (h.inData hm).2.1⟩
  rcases hsmall with heq | ⟨h1, h2⟩
  · rw [heq]
    decide
  · omega

theorem Cells.chain (h : Cells d c) (ha : c a ≠ []) : Chain (fat32NextCluster (std f) d) eocMark a (c a) :=
  (h.parts.chain ha).congr fun _ hn => (h.next hn).1

theorem eocMark_not_inData : ¬ InData eocMark := by decide

/-- Entries changed in place of the old ones. -/
theorem Cells.of_raw (h : Cells d c) {c' : Nat → List Nat} {t : Nat → Nat}
    (hraw : ∀ n < fatEntries, rawEntry d' n = t n) (h0 : t 0 = rawEntry d 0) (h1 : t 1 = rawEntry d 1)
    (hparts : Parts t eocMark 2 fatEntries c') (hm : Mirrored d') : Cells d' c' := by
  refine ⟨hparts.congr fun n _ hn => hraw n hn, hm, ?_, ?_⟩
  · rw [hraw 0 (by decide), h0]
    exact h.zero
  · rw [hraw 1 (by decide), h1]
    exact h.one

theorem Cells.writeCluster (h : Cells d c) (hn : 2 ≤ n) (hn' : n < fatEntries) (b : Buf) :
    Cells (fat32WriteDirectoryCluster (std f) d n b) c :=
  h.of_raw (fun _ hm => raw_writeCluster hn hn' b hm) rfl rfl h.parts (mirrored_writeCluster h.mirrored hn hn' b)

variable {l : List Nat}

theorem free_settles (hchain : Chain (fat32NextCluster (std f) d) eocMark a l)
    (hr : ∀ n ∈ l, 2 ≤ n ∧ n < fatEntries ∧ InData n) (hm : Mirrored d) :
    ∃ d', Settles (fat32FreeClusterChain (std f) · d a) d' ∧
      (∀ n < fatEntries, rawEntry d' n = if n ∈ l then 0 else rawEntry d n) ∧ Mirrored d' ∧
      ∀ n, 2 ≤ n → n < fatEntries →
        fat32ReadDirectoryCluster (std f) d' n = fat32ReadDirectoryCluster (std f) d n := by
  induction l generalizing a d with
  | nil =>
    cases show a = eocMark from hchain
    refine ⟨d, .succ rfl (fun n => if_neg eocMark_not_inData) (.const d), fun n _ => ?_, hm,
      fun _ _ _ => rfl⟩
    rw [if_neg not_mem_nil]
  | cons b l ih =>
    have hnd := hchain.nodup
    obtain ⟨rfl, hb, htail⟩ := hchain
    obtain ⟨h2, hlt, hdata⟩ := hr a (.head _)
    have hnot : a ∉ l := (nodup_cons.mp hnd).1
    -- the next cell does not depend on the entry that is cleared
    have hsame : ∀ n ∈ l, fat32NextCluster (std f) (fat32WriteFatEntry (std f) d a 0) n =
        fat32NextCluster (std f) d n := by
      intro n hn
      have hn' := (hr n (.tail _ hn)).2.1
      rw [next_std hn', next_std hn', raw_writeFat hlt (by decide) hn', if_neg]
      rintro rfl
      exact hnot hn
    obtain ⟨d', hset, hraw, hm', hdata'⟩ := ih (Chain.congr htail hsame)
      (fun n hn => hr n (.tail _ hn)) (mirrored_writeFat hm hlt)
    have hne : fat32NextCluster (std f) d a ≠ a := by
      intro heq
      rw [heq] at htail
      by_cases hl : l = []
      · subst hl
        exact hb htail
      · exact hnot (Chain.start_mem htail hl)
    refine ⟨d', .succ rfl (fun n => ?_) hset, fun n hn => ?_, hm', fun n h1 h2' => ?_⟩
    · rw [fat32FreeClusterChain, if_pos hdata, if_neg hne]
    · rw [hraw n hn, raw_writeFat hlt (by decide) hn]
      by_cases hna : n = a
      · rw [if_pos hna, ite_self, if_pos (hna ▸ (.head _))]
      · rw [if_neg hna]
        exact if_congr (by simp [hna]) rfl rfl
    · rw [hdata' n h1 h2', read_writeFat hlt h1 h2']

/-- `fat32_free_cluster_chain` of one of the chains. -/
theorem Cells.free (h : Cells d c) (ha : c a ≠ []) :
    ∃ d', Settles (fat32FreeClusterChain (std f) · d a) d' ∧
      Cells d' (update c a []) ∧ ∀ n, 2 ≤ n → n < fatEntries →
        fat32ReadDirectoryCluster (std f) d' n = fat32ReadDirectoryCluster (std f) d n := by
  obtain ⟨d', hset, hraw, hm, hdata⟩ := free_settles (h.chain ha) (fun n hn => h.inData hn) h.mirrored
  have hout : ∀ n < 2, n ∉ c a := fun n hn hmem => by
    have := (h.inData hmem).1
    omega
  refine ⟨d', hset, h.of_raw hraw ?_ ?_ (h.parts.release a fun n _ _ => rfl) hm, hdata⟩
  · exact if_neg (hout 0 (by omega))
  · exact if_neg (hout 1 (by omega))

/-! ## Allocation -/

/-- A free cell of the FAT. -/
structure FreeCell (d : Sectors) (n : Nat) : Prop where
  low : 2 ≤ n
  high : n < fatEntries
  free : rawEntry d n = 0

theorem FreeCell.ne_eoc (h : FreeCell d n) : n ≠ eocMark := by
  have h25 : n < 25600 := h.high
  show n ≠ 0x0FFFFFFF
  omega

/-- A table searched row by row. -/
theorem findSome_range (p : Nat → Nat → Bool) (a b : Nat) :
    ((List.range a).findSome? fun s => ((List.range b).find? (p s)).map (s * b + ·)) =
      (List.range (a * b)).find? fun n => p (n / b) (n % b) := by
  induction a with
  | zero => rw [Nat.zero_mul]; rfl
  | succ a ih =>
    rw [range_succ, findSome?_append, ih, Nat.succ_mul, range_add, find?_append,
      find?_map, findSome?_singleton]
    congr 2
    refine find?_congr fun i hi => ?_
    rw [mem_range] at hi
    rw [comp_apply, Nat.mul_comm a b, Nat.mul_add_div (Nat.zero_lt_of_lt hi), Nat.div_eq_of_lt hi,
      Nat.mul_add_mod, Nat.mod_eq_of_lt hi, Nat.add_zero]

theorem findFree_eq (f : Bool) (d : Sectors) : fat32FindFreeCluster (std f) d =
    ((List.range fatEntries).find? fun n => rawEntry d n % 2 ^ 28 = 0).getD 0 := by
  have htable := findSome_range (fun s i => ((d ((32 + s) % 2 ^ 32)).u32 (4 * i)).toNat % 2 ^ 28 = 0) 200 128
  have hper : (std f).bytsPerSec / 4 = 128 := by rw [std_bytsPerSec]
  rw [fat32FindFreeCluster, hper]
  refine congrArg (Option.getD · 0) (Eq.trans htable (find?_congr fun n hn => ?_))
  have h25 : n < 25600 := mem_range.mp hn
  rw [Nat.mod_eq_of_lt (show 32 + n / 128 < 2 ^ 32 by omega)]
  rfl

theorem findFree_spec (h : Cells d c) : fat32FindFreeCluster (std f) d = 0 ∨
    FreeCell d (fat32FindFreeCluster (std f) d) := by
  rw [findFree_eq]
  cases hfind : (List.range fatEntries).find? fun n => rawEntry d n % 2 ^ 28 = 0 with
  | none => exact .inl rfl
  | some n =>
    refine .inr ?_
    show FreeCell d n
    obtain ⟨hzero, hmem, -⟩ := find?_range_eq_some.mp hfind
    rw [decide_eq_true_iff] at hzero
    have hhigh : n < fatEntries := mem_range.mp hmem
    have hlow : 2 ≤ n := by
      match n with
      | 0 => exact absurd hzero h.zero
      | 1 => exact absurd hzero h.one
      | n + 2 => exact Nat.le_add_left 2 n
    refine ⟨hlow, hhigh, ?_⟩
    by_contra hne
    obtain ⟨b, hb⟩ := (h.parts.used hlow hhigh).mp hne
    have hnext := h.next (f := true) hb
    rw [next_std hhigh, hzero] at hnext
    omega

theorem Cells.fresh (h : Cells d c) (hn : FreeCell d n) (b : Nat) : n ∉ c b := h.parts.notMem_of_free hn.free b

/-- The mark of a new chain, and its cluster zeroed. -/
def takeCell (f : Bool) (d : Sectors) (n : Nat) : Sectors :=
  fat32ZeroCluster (std f) (fat32WriteFatEntry (std f) d n eocMark) n

theorem raw_takeCell (hn : FreeCell d n) (hm : m < fatEntries) :
    rawEntry (takeCell f d n) m = update (rawEntry d) n eocMark m := by
  rw [takeCell, fat32ZeroCluster, raw_writeCluster hn.low hn.high _ hm, raw_writeFat hn.high (by decide) hm,
    update_apply]

theorem clip_zero : clip Buf.zero = Buf.zero := by
  funext i
  exact ite_self _

theorem read_takeCell (hn : FreeCell d n) (hm : 2 ≤ m) (hm' : m < fatEntries) :
    fat32ReadDirectoryCluster (std f) (takeCell f d n) m =
      if m = n then Buf.zero else fat32ReadDirectoryCluster (std f) d m := by
  rw [takeCell, fat32ZeroCluster, read_writeCluster hn.low hn.high hm hm', read_writeFat hn.high hm hm', clip_zero]

theorem mirrored_takeCell (h : Mirrored d) (hn : FreeCell d n) : Mirrored (takeCell f d n) := by
  rw [takeCell, fat32ZeroCluster]
  exact mirrored_writeCluster (mirrored_writeFat h hn.high) hn.low hn.high _

theorem FreeCell.ne_small (hn : FreeCell d n) {k : Nat} (hk : k < 2) : k ≠ n := by
  have := hn.low
  omega

theorem Cells.takeCell (h : Cells d c) (hn : FreeCell d n) : Cells (takeCell f d n) (update c n [n]) := by
  refine h.of_raw (fun m hm => raw_takeCell hn hm) ?_ ?_
    (h.parts.alloc (by decide) hn.low hn.high hn.ne_eoc hn.free) (mirrored_takeCell h.mirrored hn)
  · exact update_of_ne (hn.ne_small (by omega)) _ _
  · exact update_of_ne (hn.ne_small (by omega)) _ _

/-- A cell taken and hung to the end of a chain. -/
theorem Cells.append (h : Cells d c) (hn : FreeCell d n) {last : Nat} (ha : c a = l ++ [last])
    (hraw : ∀ m < fatEntries, rawEntry d' m =
      update (update (rawEntry d) last n) n eocMark m) (hm : Mirrored d') : Cells d' (update c a (c a ++ [n])) := by
  have hn0 : n ≠ 0 := by
    have := hn.low
    omega
  have hlast : last ∈ c a := by rw [ha]; simp
  have hsmall : ∀ k < 2, k ≠ last := fun k hk heq => by
    have := (h.inData hlast).1
    omega
  refine h.of_raw hraw ?_ ?_ (h.parts.extend (by decide) hn.low hn.high hn.ne_eoc hn0 hn.free ha) hm
  · rw [update_of_ne (hn.ne_small (by omega)), update_of_ne (hsmall 0 (by omega))]
  · rw [update_of_ne (hn.ne_small (by omega)), update_of_ne (hsmall 1 (by omega))]

theorem Cells.link (h : Cells d c) (hn : FreeCell d n) {last : Nat} (ha : c a = l ++ [last]) :
    Cells (fat32WriteFatEntry (std f) (Fat.takeCell f d n) last n)
      (update c a (c a ++ [n])) := by
  have hlast : last ∈ c a := by rw [ha]; simp
  obtain ⟨-, hlt, -⟩ := h.inData hlast
  have hne : last ≠ n := fun heq => h.fresh hn a (heq ▸ hlast)
  have hsmall : n < 2 ^ 32 := by
    have h25 : n < 25600 := hn.high
    omega
  refine h.append hn ha (fun m hm => ?_) (mirrored_writeFat (mirrored_takeCell h.mirrored hn) hlt)
  rw [raw_writeFat hlt hsmall hm, raw_takeCell hn hm]
  by_cases hml : m = last
  · rw [if_pos hml, hml, update_of_ne hne, update_self]
  · rw [if_neg hml, update_apply, update_apply, update_of_ne hml]

/-- A round of the loop: `n` is taken and hung to the chain `l` made so far. -/
theorem allocLoop_round (k : Nat) {first prev : Nat} (hfirst : c first = [])
    (hl : l = [] ∧ first = 0 ∧ prev = 0 ∨ ∃ l', l = l' ++ [prev]) (h : Cells d (update c first l))
    (hcl : fat32FindFreeCluster (std f) d = n) (hn : FreeCell d n) :
    ∃ first' d', (∀ fuel, allocLoop fuel (std f) (k + 1) first prev d = allocLoop fuel (std f) k first' n d') ∧
      c first' = [] ∧ Cells d' (update c first' (l ++ [n])) ∧ ∀ {m}, 2 ≤ m → m < fatEntries → m ≠ n →
        fat32ReadDirectoryCluster (std f) d' m = fat32ReadDirectoryCluster (std f) d m := by
  have hn0 : n ≠ 0 := fun h0 => absurd (h0 ▸ hn.low) (by decide)
  rcases hl with ⟨rfl, rfl, rfl⟩ | ⟨l', rfl⟩
  · rw [← hfirst, update_eq_self] at h
    refine ⟨n, takeCell f d n, fun fuel => ?_, h.parts.nil_of_free hn.free, h.takeCell hn, fun h1 h2 hm => ?_⟩
    · rw [allocLoop, hcl, if_neg hn0, if_neg (by decide)]
      rfl
    · rw [read_takeCell hn h1 h2, if_neg hm]
  · have hself : update c first (l' ++ [prev]) first = l' ++ [prev] := update_self ..
    obtain ⟨h2, hlt, -⟩ := h.inData (n := prev) (a := first) (by simp)
    have hcells := h.link (f := f) hn hself
    rw [update_idem, hself] at hcells
    refine ⟨first, _, fun fuel => ?_, hfirst, hcells, fun h1 h2 hm => ?_⟩
    · rw [allocLoop, hcl, if_neg hn0, if_pos h2]
      rfl
    · rw [read_writeFat hlt h1 h2, read_takeCell hn h1 h2, if_neg hm]

/-- The loop with the chain `l` made so far: the chain is finished, or 0 is
returned and all of it given back. -/
theorem allocLoop_settles (k : Nat) {first prev : Nat} (hfirst : c first = [])
    (hl : l = [] ∧ first = 0 ∧ prev = 0 ∨ ∃ l', l = l' ++ [prev]) (h : Cells d (update c first l)) :
    ∃ r d', Settles (allocLoop · (std f) k first prev d) (r, d') ∧ DataKept f c d d' ∧
      ((r = 0 ∧ Cells d' c) ∨ ∃ new, new ≠ [] ∧ c r = [] ∧ Cells d' (update c r new)) := by
  induction k generalizing d first prev l with
  | zero =>
    refine ⟨first, d, .const _, fun _ _ _ => rfl, ?_⟩
    rcases hl with ⟨rfl, rfl, -⟩ | ⟨l', rfl⟩
    · rw [← hfirst, update_eq_self] at h
      exact .inl ⟨rfl, h⟩
    · exact .inr ⟨_, by simp, hfirst, h⟩
  | succ k ih =>
    have hin : ∀ {a m}, m ∈ c a → m ∈ update c first l a := fun {a m} hm => by
      rwa [update_of_ne]
      rintro rfl
      rw [hfirst] at hm
      cases hm
    rcases findFree_spec (f := f) h with hfull | hn
    · by_cases hl0 : l = []
      · obtain ⟨-, rfl, -⟩ := hl.resolve_right fun ⟨l', h'⟩ => by simp [h'] at hl0
        rw [hl0, ← hfirst, update_eq_self] at h
        refine ⟨0, d, .congr (fun fuel => ?_) (.const _), fun _ _ _ => rfl, .inl ⟨rfl, h⟩⟩
        rw [allocLoop, if_pos hfull, if_neg (by decide)]
      · -- nothing is free: the chain so far is given back
        have hne : update c first l first ≠ [] := by rwa [update_self]
        obtain ⟨d', hset, hcells, hdata⟩ := h.free (f := f) hne
        rw [update_idem, ← hfirst, update_eq_self] at hcells
        have h2 := (h.inData ((h.parts.chain hne).start_mem hne)).1
        refine ⟨0, d', .congr (fun fuel => ?_) (hset.map fun d => (0, d)), fun b n hn => ?_, .inl ⟨rfl, hcells⟩⟩
        · rw [allocLoop, if_pos hfull, if_pos h2]
        · exact hdata n (h.inData (hin hn)).1 (h.inData (hin hn)).2.1
    · obtain ⟨first', d1, hrun, hfirst', hcells, hread⟩ := allocLoop_round k hfirst hl h rfl hn
      obtain ⟨r, d', hset, hkept, hcase⟩ := ih hfirst' (.inr ⟨l, rfl⟩) hcells
      refine ⟨r, d', .congr hrun hset, fun b m hm => ?_, hcase⟩
      rw [hkept b m hm, hread (h.inData (hin hm)).1 (h.inData (hin hm)).2.1]
      exact fun heq => h.fresh hn b (heq ▸ hin hm)

/-- `fat32_allocate_cluster_chain`: a new chain, or 0 and the chains as they were. -/
theorem alloc_settles (h : Cells d c) (k : Nat) :
    ∃ r d', Settles (fat32AllocateClusterChain · (std f) d k) (r, d') ∧
      DataKept f c d d' ∧ ((r = 0 ∧ Cells d' c) ∨ ∃ new, new ≠ [] ∧ c r = [] ∧ Cells d' (update c r new)) := by
  have hzero : c 0 = [] := by
    by_contra hne
    exact absurd (h.inData ((h.parts.chain hne).start_mem hne)).1 (by decide)
  refine allocLoop_settles _ hzero (.inl ⟨rfl, rfl, rfl⟩) ?_
  rw [← hzero, update_eq_self]
  exact h

/-! ## Contents -/

/-- The bytes of a chain of clusters, one cluster after another. -/
def chainByte (f : Bool) (d : Sectors) (l : List Nat) (i : Nat) : UInt8 :=
  match l[i / 4096]? with
  | some n => fat32ReadDirectoryCluster (std f) d n (i % 4096)
  | none => 0

theorem chainByte_head {i : Nat} (hi : i < 4096) :
    chainByte f d (n :: l) i = fat32ReadDirectoryCluster (std f) d n i := by
  rw [chainByte, Nat.div_eq_of_lt hi, Nat.mod_eq_of_lt hi]
  rfl

theorem chainByte_tail (n : Nat) (l : List Nat) (i : Nat) :
    chainByte f d (n :: l) (4096 + i) = chainByte f d l i := by
  have hdiv : (4096 + i) / 4096 = i / 4096 + 1 := by omega
  have hmod : (4096 + i) % 4096 = i % 4096 := by omega
  rw [chainByte, hdiv, hmod, getElem?_cons_succ, chainByte]

theorem chainByte_congr (h : ∀ n ∈ l, fat32ReadDirectoryCluster (std f) d' n =
    fat32ReadDirectoryCluster (std f) d n) (i : Nat) : chainByte f d' l i = chainByte f d l i := by
  rw [chainByte, chainByte]
  cases hl : l[i / 4096]? with
  | none => rfl
  | some n => exact congrFun (h n (mem_of_getElem? hl)) _

/-- `fat32_write_cluster_chain`: the buffer goes into the clusters of the chain
and nowhere else, as far as they reach. -/
theorem writeChain_settles (buffer : Buf) {size w : Nat} (hchain : Chain (fat32NextCluster (std f) d) eocMark a l)
    (hr : ∀ n ∈ l, 2 ≤ n ∧ n < fatEntries ∧ InData n) (hm : Mirrored d) (hw : w ≤ size) :
    ∃ w' d', Settles (writeChainLoop (std f) buffer size · a w d) (w', d') ∧
      (∀ n < fatEntries, rawEntry d' n = rawEntry d n) ∧ Mirrored d' ∧
      (∀ n, 2 ≤ n → n < fatEntries → n ∉ l →
        fat32ReadDirectoryCluster (std f) d' n = fat32ReadDirectoryCluster (std f) d n) ∧
      w' = min size (w + 4096 * l.length) ∧ ∀ i < w' - w, chainByte f d' l i = buffer (w + i) := by
  induction l generalizing a d w with
  | nil =>
    cases show a = eocMark from hchain
    refine ⟨w, d, .succ rfl (fun n => ?_) (.const _), fun _ _ => rfl, hm, fun _ _ _ _ => rfl,
      (Nat.min_eq_right hw).symm, fun i hi => by omega⟩
    rw [writeChainLoop, if_neg fun h => eocMark_not_inData h.1]
  | cons b l ih =>
    have hnd := hchain.nodup
    obtain ⟨rfl, hb, htail⟩ := hchain
    obtain ⟨h2, hlt, hdata⟩ := hr a (.head _)
    have hnot : a ∉ l := (nodup_cons.mp hnd).1
    by_cases hws : w < size
    · have hsame : ∀ (b : Buf) (n : Nat), n < fatEntries → fat32NextCluster (std f)
          (fat32WriteDirectoryCluster (std f) d a b) n = fat32NextCluster (std f) d n := fun b n hn => by
        rw [next_std hn, next_std hn, raw_writeCluster h2 hlt _ hn]
      have hchain' : Chain (fat32NextCluster (std f) (fat32WriteDirectoryCluster (std f) d a
          (Buf.zero.copy 0 (fun i => buffer (w + i)) (min (size - w) 4096)))) eocMark
          (fat32NextCluster (std f) d a) l :=
        Chain.congr htail fun n hn => hsame _ n (hr n (.tail _ hn)).2.1
      obtain ⟨w', d', hset, hraw, hm', hout, hw', hbytes⟩ := ih hchain'
        (fun n hn => hr n (.tail _ hn)) (mirrored_writeCluster hm h2 hlt _)
        (w := w + min (size - w) 4096) (by omega)
      refine ⟨w', d', .succ rfl (fun n => ?_) hset, fun n hn => ?_, hm', fun n h1 h2' hn => ?_, ?_,
        fun i hi => ?_⟩
      · rw [writeChainLoop, if_pos ⟨hdata, hws⟩, clusterSize_std]
        dsimp only
        rw [hsame _ a hlt]
      · rw [hraw n hn, raw_writeCluster h2 hlt _ hn]
      · rw [mem_cons, not_or] at hn
        rw [hout n h1 h2' hn.2, read_writeCluster h2 hlt h1 h2', if_neg hn.1]
      · rw [hw', length_cons]
        omega
      · by_cases hi4 : i < 4096
        · have hi' : i < min (size - w) 4096 := by omega
          rw [chainByte_head hi4, hout a h2 hlt hnot, read_writeCluster h2 hlt h2 hlt, if_pos rfl, clip,
            if_pos hi4, Buf.copy_inside _ _ (by omega) (by omega), Nat.sub_zero]
        · obtain ⟨j, rfl⟩ : ∃ j, i = 4096 + j := ⟨i - 4096, by omega⟩
          rw [chainByte_tail, hbytes j (by omega)]
          congr 1
          omega
    · refine ⟨w, d, .succ rfl (fun n => ?_) (.const _), fun _ _ => rfl, hm, fun _ _ _ _ => rfl,
        by omega, fun i hi => by omega⟩
      rw [writeChainLoop, if_neg fun h => hws h.2]

end

end LiwusOS.Fat
