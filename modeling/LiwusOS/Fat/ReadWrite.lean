import LiwusOS.Fat.Volume
import Mathlib.Data.List.TakeWhile

/-! # Files written and read back

The two loops of `fat32_read` give the bytes of a chain, cluster by cluster or
in contiguous runs. Different valid names have different entries, so a write to
one file is seen by reads of that file only. -/

namespace LiwusOS.Fat
open LiwusOS.Lib LiwusOS.Fs List Option

section

variable {f : Bool} {d d' : Sectors} {c c' : Nat → List Nat} {E : List Nat} {a n : Nat} {l : List Nat}

/-! ## Bytes of a chain -/

theorem chainByte_append {l' : List Nat} (i : Nat) :
    chainByte f d (l ++ l') (4096 * l.length + i) = chainByte f d l' i := by
  have hdiv : (4096 * l.length + i) / 4096 = l.length + i / 4096 := by omega
  have hmod : (4096 * l.length + i) % 4096 = i % 4096 := by omega
  rw [chainByte, hdiv, hmod, getElem?_append_right (Nat.le_add_right _ _), Nat.add_sub_cancel_left, chainByte]

/-- The clusters of a run lie one behind another on the disk. -/
theorem chainByte_run {k i : Nat} {rest : List Nat} (ha : 2 ≤ a) (hk : a + k ≤ fatEntries) (hi : i < 4096 * k) :
    chainByte f d (List.range' a k ++ rest) i = d (432 + (a - 2) * 8 + i / 512) (i % 512) := by
  have hdiv : i / 4096 < k := by omega
  have hcell : a + i / 4096 < fatEntries := by omega
  rw [chainByte, getElem?_append_left (by rw [length_range']; exact hdiv),
    getElem?_range' hdiv, Nat.one_mul]
  dsimp only
  rw [read_std (by omega) hcell, if_pos (Nat.mod_lt _ (by decide))]
  have hsec : 432 + (a + i / 4096 - 2) * 8 + i % 4096 / 512 = 432 + (a - 2) * 8 + i / 512 := by omega
  have hoff : i % 4096 % 512 = i % 512 := by omega
  rw [hsec, hoff]

/-- What a reader leaves in the buffer behind the `got` bytes it has. -/
structure ReadBack (f : Bool) (d : Sectors) (l : List Nat) (todo got : Nat) (buffer buffer' : Buf) : Prop where
  before : ∀ i < got, buffer' i = buffer i
  bytes : ∀ i < todo, buffer' (got + i) = if i < 4096 * l.length then chainByte f d l i else buffer (got + i)

theorem ReadBack.stop {todo got : Nat} {buffer : Buf} (h : todo = 0 ∨ l = []) :
    ReadBack f d l todo got buffer buffer := by
  refine ⟨fun _ _ => rfl, fun i hi => (if_neg ?_).symm⟩
  rcases h with rfl | rfl
  · omega
  · rw [length_nil]
    omega

/-- A piece of `take` bytes at the front, then the rest. -/
theorem ReadBack.piece {l' : List Nat} {todo got take total : Nat} {buffer buffer' src : Buf}
    (htake : take = min (4096 * l.length) todo) (htotal : take ≤ total) (hexact : take < todo → total = take)
    (hsrc : ∀ i < take, src i = chainByte f d (l ++ l') i)
    (h : ReadBack f d l' (todo - take) (got + take) (buffer.copy got src total) buffer') :
    ReadBack f d (l ++ l') todo got buffer buffer' := by
  refine ⟨fun i hi => ?_, fun i hi => ?_⟩
  · rw [h.before i (by omega), Buf.copy_outside _ _ (.inl hi)]
  · rw [length_append]
    by_cases hit : i < take
    · rw [h.before _ (by omega), Buf.copy_inside _ _ (by omega) (by omega), Nat.add_sub_cancel_left, hsrc i hit,
        if_pos (by omega)]
    · obtain ⟨j, rfl⟩ : ∃ j, i = take + j := ⟨i - take, by omega⟩
      have hfull : take = 4096 * l.length := by omega
      rw [← Nat.add_assoc, h.bytes j (by omega), Buf.copy_outside _ _ (.inr (by omega))]
      rw [hfull, chainByte_append]
      exact if_congr (by omega) rfl rfl

theorem readClusters_settles (hchain : Chain (fat32NextCluster (std f) d) eocMark a l) (hl : ∀ n ∈ l, InData n)
    (todo got : Nat) (buffer : Buf) :
    ∃ got' buffer', Settles (readClusters (std f) d · a 0 todo got buffer) (got', buffer') ∧
      ReadBack f d l todo got buffer buffer' := by
  induction l generalizing a todo got buffer with
  | nil =>
    cases show a = eocMark from hchain
    refine ⟨got, buffer, .succ rfl (fun n => ?_) (.const _), .stop (.inr rfl)⟩
    rw [readClusters, if_neg fun h => absurd h.2 (by decide)]
  | cons b l ih =>
    obtain ⟨rfl, -, htail⟩ := hchain
    have hdata := hl a (.head _)
    by_cases htodo : 0 < todo
    · obtain ⟨got', buffer', hset, hback⟩ := ih htail (fun n hn => hl n (.tail _ hn))
        (todo - min 4096 todo) (got + min 4096 todo)
        (buffer.copy got (fun i => fat32ReadDirectoryCluster (std f) d a (0 + i)) (min 4096 todo))
      refine ⟨got', buffer', .succ rfl (fun n => ?_) hset, ?_⟩
      · rw [readClusters, if_pos ⟨htodo, hdata.2⟩, clusterSize_std]
      · refine ReadBack.piece (l := [a]) (by rw [length_singleton]) le_rfl (fun _ => rfl)
          (fun i hi => ?_) hback
        rw [singleton_append, chainByte_head (by omega), Nat.zero_add]
    · refine ⟨got, buffer, .succ rfl (fun n => ?_) (.const _), .stop (.inl (by omega))⟩
      rw [readClusters, if_neg fun h => htodo h.1]

/-! ## Runs of clusters -/

/-- The cached sector is the one on the disk. -/
def FatCache.Ok (cache : FatCache) (d : Sectors) : Prop := ∀ sec b, cache = some (sec, b) → b = d sec

variable {cache : FatCache} {name : List UInt8}

theorem FatCache.load_eq (h : cache.Ok d) (sec : Nat) : cache.load d sec = (sec, d sec) := by
  cases cache with
  | none => rfl
  | some p =>
    obtain ⟨sec', b⟩ := p
    rw [FatCache.load, h sec' b rfl]
    split
    · rename_i heq
      rw [heq]
    · rfl

/-- The FAT sector of `a` as the reader holds it. -/
def cachedAt (f : Bool) (d : Sectors) (a : Nat) : FatCache := some (fatSector (std f) a, d (fatSector (std f) a))

theorem cachedAt_ok : (cachedAt f d a).Ok d := by
  intro sec b heq
  cases heq
  rfl

theorem readRun_succ (hcache : cache.Ok d) (run fuel : Nat) :
    readRun (std f) d (fuel + 1) a run cache =
      if fat32NextCluster (std f) d a = a + 1 ∧ fat32NextCluster (std f) d a < eocMin then
        readRun (std f) d fuel (fat32NextCluster (std f) d a) (run + 1) (cachedAt f d a)
      else some (run, fat32NextCluster (std f) d a, cachedAt f d a) := by
  rw [readRun, FatCache.load_eq hcache]
  rfl

/-- The inner loop takes the clusters that follow one another. -/
theorem readRun_settles (hchain : Chain (fat32NextCluster (std f) d) eocMark a (a :: l)) (run : Nat)
    (hcache : cache.Ok d) :
    ∃ k rest next cache', a :: l = List.range' a (k + 1) ++ rest ∧
      Settles (readRun (std f) d · a run cache) (run + k, next, cache') ∧
      FatCache.Ok cache' d ∧ Chain (fat32NextCluster (std f) d) eocMark next rest := by
  induction l generalizing a run cache with
  | nil =>
    have hstop : fat32NextCluster (std f) d a = eocMark := hchain.2.2
    refine ⟨0, [], eocMark, cachedAt f d a, rfl, .succ rfl (fun fuel => ?_) (.const _), cachedAt_ok,
      rfl⟩
    rw [readRun_succ hcache, hstop, if_neg fun h => absurd h.2 (by decide), Nat.add_zero]
  | cons b l ih =>
    have htail := hchain.2.2
    by_cases hnext : fat32NextCluster (std f) d a = a + 1 ∧ fat32NextCluster (std f) d a < eocMin
    · have hb : a + 1 = b := hnext.1.symm.trans htail.1
      rw [hnext.1, ← hb] at htail
      obtain ⟨k, rest, next, cache', hsplit, hset, hok, hrest⟩ := ih htail (run + 1)
        (cachedAt_ok (f := f) (d := d) (a := a))
      rw [Nat.add_right_comm] at hset
      refine ⟨k + 1, rest, next, cache', ?_, .succ rfl (fun fuel => ?_) hset, hok, hrest⟩
      · rw [← hb, hsplit, range'_succ (n := k + 1)]
        rfl
      · rw [readRun_succ hcache, if_pos hnext, hnext.1]
    · refine ⟨0, b :: l, fat32NextCluster (std f) d a, cachedAt f d a, rfl,
        .succ rfl (fun fuel => ?_) (.const _), cachedAt_ok, htail⟩
      rw [readRun_succ hcache, if_neg hnext, Nat.add_zero]

theorem readRuns_settles (hchain : Chain (fat32NextCluster (std f) d) eocMark a l)
    (hl : ∀ n ∈ l, 2 ≤ n ∧ n < fatEntries ∧ InData n) (todo got : Nat) (hcache : cache.Ok d) (buffer : Buf) :
    ∃ got' buffer', Settles (readRuns (std f) d · a todo got cache buffer) (got', buffer') ∧
      ReadBack f d l todo got buffer buffer' := by
  -- a run takes several clusters at once
  induction hlen : l.length using Nat.strong_induction_on generalizing l a todo got cache buffer with
  | _ len ih =>
  subst hlen
  cases l with
  | nil =>
    cases show a = eocMark from hchain
    refine ⟨got, buffer, .succ rfl (fun n => ?_) (.const _), .stop (.inr rfl)⟩
    rw [readRuns, if_neg fun h => absurd h.2 (by decide)]
  | cons b l =>
    cases hchain.1
    obtain ⟨hlow, -, hdata⟩ := hl a (.head _)
    by_cases htodo : 0 < todo
    swap
    · refine ⟨got, buffer, .succ rfl (fun n => ?_) (.const _), .stop (.inl (by omega))⟩
      rw [readRuns, if_neg fun h => htodo h.1]
    obtain ⟨k, rest, next, cache', hsplit, hrun, hok, hrest⟩ := readRun_settles hchain 1 hcache
    -- the run ends inside the FAT, so its size does not wrap
    have hk : a + (k + 1) ≤ fatEntries := by
      have hlast : a + k ∈ a :: l := by
        rw [hsplit]
        exact mem_append_left _ (mem_range'_1.mpr ⟨by omega, by omega⟩)
      have := (hl _ hlast).2.1
      omega
    have h25 : a + (k + 1) ≤ 25600 := hk
    have hsize : (1 + k) * 8 * 512 % 2 ^ 32 = 4096 * (k + 1) := by omega
    generalize htake : min (4096 * (k + 1)) todo = take
    have hsectors : (take + 512 - 1) % 2 ^ 32 / 512 = (take + 511) / 512 := by omega
    have hshort : rest.length < (a :: l).length := by
      rw [hsplit, length_append, length_range']
      omega
    obtain ⟨got', buffer', hset, hback⟩ := ih rest.length hshort hrest
      (fun n hn => hl n (by rw [hsplit]; exact mem_append_right _ hn)) (todo - take) (got + take) hok
      (buffer.copy got (fun i => d ((clusterLba (std f) a + i / 512) % 2 ^ 32) (i % 512)) ((take + 511) / 512 * 512))
      rfl
    have hround := fun n => show readRuns (std f) d (n + 1) a todo got cache buffer = _ from
      if_pos ⟨htodo, hdata.2⟩
    refine ⟨got', buffer', .succ rfl hround (hrun.bind ?_), ?_⟩
    · simp only [std_secPerClus, std_bytsPerSec, hsize, htake, hsectors]
      exact hset
    · rw [hsplit]
      refine ReadBack.piece (by rw [length_range', htake]) (by omega) (fun _ => by omega) (fun i hi => ?_) hback
      rw [chainByte_run hlow hk (by omega), clusterLba_std hlow (by omega), Nat.mod_eq_of_lt (by omega)]
/-- `fat32_read` of a whole file, with either loop. -/
theorem read_settles (h : Cells d c) (ha : c a ≠ []) (size : Nat) :
    ∃ r, Settles (fat32Read · (std f) d a 0 size Buf.zero) r ∧
      r.2.bytes 0 size = Buf.bytes (chainByte f d (c a)) 0 size := by
  have hrange := fun n (hn : n ∈ c a) => h.inData hn
  have hbytes : ∀ buffer', ReadBack f d (c a) size 0 Buf.zero buffer' →
      buffer'.bytes 0 size = Buf.bytes (chainByte f d (c a)) 0 size := by
    intro buffer' hback
    refine Buf.bytes_congr fun i _ hi => ?_
    have hi' := hback.bytes i (by omega)
    rw [Nat.zero_add] at hi'
    rw [hi']
    split
    · rfl
    · -- there are zeros behind the chain, and the buffer was cleared
      rw [chainByte, getElem?_eq_none (by omega)]
      rfl
  have hskip : ∀ fuel, fat32Read fuel (std f) d a 0 size Buf.zero =
      if (std f).readBlocks ∧ 0 % fat32ClusterSizeBytes (std f) = 0 then
        readRuns (std f) d fuel a size 0 none Buf.zero
      else readClusters (std f) d fuel a (0 % fat32ClusterSizeBytes (std f)) size 0 Buf.zero := by
    intro fuel
    rw [fat32Read, clusterSize_std]
    rfl
  simp only [clusterSize_std, Nat.zero_mod, and_true] at hskip
  by_cases hblocks : (std f).readBlocks = true
  · simp only [if_pos hblocks] at hskip
    obtain ⟨got, buffer', hset, hback⟩ := readRuns_settles (h.chain ha) hrange size 0
      (show FatCache.Ok none d from fun _ _ h => by cases h) Buf.zero
    exact ⟨(got, buffer'), .congr hskip hset, hbytes buffer' hback⟩
  · simp only [if_neg hblocks] at hskip
    obtain ⟨got, buffer', hset, hback⟩ := readClusters_settles (h.chain ha) (fun n hn => (hrange n hn).2.2) size 0
      Buf.zero
    exact ⟨(got, buffer'), .congr hskip hset, hbytes buffer' hback⟩

/-- What reading the entry of a look-up gives. -/
def contents (f : Bool) (d : Sectors) (c : Nat → List Nat) (s : Lookup) : Option (List UInt8) :=
  if dirAttr s.entry &&& 0x10 ≠ 0 then none
  else some (Buf.bytes (chainByte f d (c s.start)) 0 (s.entry.u32 28).toNat)

theorem Inv.readFile (h : Inv f d c E) (path : CStr) :
    Settles (fat32ReadFilePath · (std f) d path)
      (if leafOf path ≠ [] ∧ RootLevel path then
        (search (fat32MakeDosName (leafOf path)) (rootSlots f d c)).bind (contents f d c) else none) := by
  have hres := h.resolvePath path
  by_cases hok : leafOf path ≠ [] ∧ RootLevel path
  swap
  · rw [if_neg hok] at hres ⊢
    exact hres.bind (.const _)
  rw [if_pos hok] at hres ⊢
  cases hs : search (fat32MakeDosName (leafOf path)) (rootSlots f d c) with
  | none =>
    rw [hs] at hres
    exact hres.bind (.const _)
  | some s =>
    rw [hs] at hres
    obtain ⟨A, B, hhit⟩ := h.hit hs
    rw [bind_some, contents]
    refine hres.bind ?_
    by_cases hdir : dirAttr s.entry &&& 0x10 ≠ 0
    · rw [if_pos hdir]
      exact .pos hdir (.const _)
    rw [if_neg hdir]
    refine .neg hdir ?_
    by_cases hsize : 0 < (s.entry.u32 28).toNat
    · obtain ⟨r, hset, hbytes⟩ := read_settles (f := f) h.cells (h.ok.owned s hhit.mem hhit.live).1
        (s.entry.u32 28).toNat
      rw [← hbytes]
      exact .pos ⟨hsize, h.start_low hhit.mem hhit.live⟩ (hset.map _)
    · have hzero : (s.entry.u32 28).toNat = 0 := by omega
      refine .neg (fun h => hsize h.1) ?_
      rw [hzero]
      exact .const _

/-! ## Names -/

theorem upper_ne_space : ∀ ch, isNameChar ch = true → upper ch ≠ 32 := forall_byte (by decide +kernel)

/-- Padding can be told from the name. -/
theorem takeWhile_padName {part : List UInt8} (hlen : part.length ≤ n) (h : ∀ ch ∈ part, isNameChar ch = true) :
    (padName n (part.map upper)).takeWhile (· ≠ 32) = part.map upper := by
  have hchars : ∀ ch ∈ part.map upper, decide (ch ≠ 32) = true := by
    simpa using fun ch hch => upper_ne_space ch (h ch hch)
  rw [padName, take_append, take_of_length_le (by rwa [length_map]), take_replicate,
    takeWhile_append_of_pos hchars]
  simp

/-- A name put together from its base and its extension. -/
def joinName (base ext : List UInt8) : List UInt8 := base ++ if ext = [] then [] else 46 :: ext

/-- The two parts of a name that `fat32_is_valid_name` accepts. -/
structure NameParts (name base ext : List UInt8) : Prop where
  join : name = joinName base ext
  baseLen : base.length ≤ 8
  extLen : ext.length ≤ 3
  baseChars : ∀ ch ∈ base, isNameChar ch = true
  extChars : ∀ ch ∈ ext, isNameChar ch = true

/-- The loop behind the dot. -/
theorem validLoop_ext {len i dots partLen extLen : Nat} {rest : List UInt8} (hdots : 0 < dots)
    (h : validLoop len rest i dots partLen extLen true = true) :
    partLen ≤ 8 ∧ extLen + rest.length ≤ 3 ∧ ∀ ch ∈ rest, isNameChar ch = true := by
  induction rest generalizing i extLen with
  | nil =>
    simp only [validLoop, Bool.not_eq_true', decide_eq_false_iff_not, not_or] at h
    exact ⟨by omega, by simp only [length_nil]; omega, forall_mem_nil _⟩
  | cons ch rest ih =>
    rw [validLoop] at h
    split at h
    · cases h
    · split at h
      · rw [if_pos (.inl (by omega))] at h
        cases h
      · split at h
        · rename_i hch
          rw [if_pos rfl] at h
          obtain ⟨h1, h2, h3⟩ := ih h
          refine ⟨h1, ?_, forall_mem_cons.mpr ⟨hch, h3⟩⟩
          rw [length_cons]
          omega
        · cases h

/-- The loop before the dot. -/
theorem validLoop_base {len i partLen : Nat} {rest : List UInt8} (hlen : i + rest.length = len)
    (h : validLoop len rest i 0 partLen 0 false = true) :
    ∃ base ext, NameParts rest base ext ∧ partLen + base.length ≤ 8 := by
  induction rest generalizing i partLen with
  | nil =>
    simp only [validLoop, Bool.not_eq_true', decide_eq_false_iff_not, not_or] at h
    exact ⟨[], [], ⟨rfl, Nat.zero_le _, Nat.zero_le _, forall_mem_nil _, forall_mem_nil _⟩,
      by simp only [length_nil]; omega⟩
  | cons ch rest ih =>
    rw [length_cons] at hlen
    rw [validLoop] at h
    split at h
    · cases h
    · split at h
      · rename_i hdot
        split at h
        · cases h
        · rename_i hpos
          obtain ⟨h1, h2, h3⟩ := validLoop_ext (by omega) h
          have hrest : rest ≠ [] := by
            rintro rfl
            exact hpos (.inr (.inr (by simpa using hlen)))
          refine ⟨[], rest, ⟨?_, Nat.zero_le _, by omega, forall_mem_nil _, h3⟩, by simpa using h1⟩
          rw [joinName, if_neg hrest, hdot]
          rfl
      · split at h
        · rename_i hch
          obtain ⟨base, ext, hparts, hbase⟩ := ih (by omega) h
          refine ⟨ch :: base, ext, ⟨?_, ?_, hparts.extLen, forall_mem_cons.mpr ⟨hch, hparts.baseChars⟩,
            hparts.extChars⟩, ?_⟩
          · rw [hparts.join]
            rfl
          · rw [length_cons]
            omega
          · rw [length_cons]
            omega
        · cases h

theorem validName_parts (h : fat32IsValidName name = true) : ∃ base ext, NameParts name base ext := by
  rw [fat32IsValidName] at h
  split at h
  · cases h
  · obtain ⟨base, ext, hparts, -⟩ := validLoop_base (Nat.zero_add _) h
    exact ⟨base, ext, hparts⟩

theorem NameParts.dosName {base ext : List UInt8} (h : NameParts name base ext) :
    fat32MakeDosName name = padName 8 (base.map upper) ++ padName 3 (ext.map upper) := by
  have hbase : ∀ ch ∈ base, decide (ch ≠ 46) = true := fun ch hch =>
    decide_eq_true (upper_nameChar ch (h.baseChars ch hch)).2.2
  rw [fat32MakeDosName, h.join, joinName, takeWhile_append_of_pos hbase, dropWhile_append_of_pos hbase]
  split
  · rename_i hext
    rw [hext, takeWhile_nil, append_nil]
    rfl
  · rw [takeWhile_cons_of_neg (by decide), dropWhile_cons_of_neg (by decide), append_nil]
    rfl

theorem NameParts.upper_ne_zero {base ext : List UInt8} (h : NameParts name base ext) :
    ∀ ch ∈ name.map upper, ch ≠ 0 := by
  intro ch hch
  obtain ⟨ch', hch', rfl⟩ := mem_map.mp hch
  rw [h.join, joinName] at hch'
  rcases mem_append.mp hch' with hb | he
  · exact (upper_nameChar ch' (h.baseChars ch' hb)).1
  · split at he
    · cases he
    · rcases mem_cons.mp he with rfl | he
      · decide
      · exact (upper_nameChar ch' (h.extChars ch' he)).1

/-- An entry for a valid name reads as the name in upper case. -/
theorem entryNameToString_dosName {e : Buf} (h : fat32IsValidName name = true)
    (he : dirName e = fat32MakeDosName name) : fat32EntryNameToString e = name.map upper := by
  obtain ⟨base, ext, hparts⟩ := validName_parts h
  rw [hparts.dosName, dirName, Buf.bytes_append e 0 8 3] at he
  obtain ⟨hbase, hext⟩ := append_inj he (by rw [Buf.length_bytes, length_padName])
  rw [Nat.zero_add] at hext
  have hjoin : (if (padName 3 (ext.map upper)).any (· ≠ 32) = true then base.map upper ++ 46 :: ext.map upper
      else base.map upper) = name.map upper := by
    rw [hparts.join, joinName, map_append]
    cases ext with
    | nil => exact (append_nil _).symm
    | cons ch ext =>
      have hch := upper_ne_space ch (hparts.extChars ch (.head _))
      rw [if_pos (by simp [padName, hch]), if_neg (cons_ne_nil _ _)]
      rfl
  rw [fat32EntryNameToString, hbase, hext, takeWhile_padName hparts.baseLen hparts.baseChars,
    takeWhile_padName hparts.extLen hparts.extChars, hjoin, takeWhile_eq_self_iff]
  exact fun ch hch => decide_eq_true (hparts.upper_ne_zero ch hch)

/-- Entries tell valid names apart up to case. -/
theorem dosName_injective {name' : List UInt8} (h : fat32IsValidName name = true)
    (h' : fat32IsValidName name' = true) (heq : fat32MakeDosName name = fat32MakeDosName name') :
    name.map upper = name'.map upper := by
  have hdir := dirName_putBytes Buf.zero name
  rw [← entryNameToString_dosName h hdir, entryNameToString_dosName h' (hdir.trans heq)]

theorem upper_dot : ∀ ch, upper (upper ch) = upper ch ∧ (upper ch ≠ 46 ↔ ch ≠ 46) := forall_byte (by decide +kernel)

theorem makeDosName_upper (name : List UInt8) : fat32MakeDosName (name.map upper) = fat32MakeDosName name := by
  have hdot : (fun ch => decide (ch ≠ 46)) ∘ upper = fun ch => decide (ch ≠ 46) :=
    funext fun ch => decide_eq_decide.mpr (upper_dot ch).2
  have hupper : upper ∘ upper = upper := funext fun ch => (upper_dot ch).1
  rw [fat32MakeDosName, takeWhile_map, dropWhile_map, ← map_drop, List.map_map, List.map_map, hdot, hupper,
    fat32MakeDosName]

/-- An 8.3 form loses nothing of a valid name but the case. -/
theorem dosName_lossless (name : List UInt8) (h : fat32IsValidName name = true) :
    (∀ e, dirName e = fat32MakeDosName name → fat32EntryNameToString e = name.map upper) ∧
    ∀ name', fat32IsValidName name' = true →
      (fat32MakeDosName name = fat32MakeDosName name' ↔ fat32AsciiIequals name name' = true) := by
  refine ⟨fun e => entryNameToString_dosName h, fun name' h' => ⟨fun heq => ?_, fun heq => ?_⟩⟩
  · exact decide_eq_true (dosName_injective h h' heq)
  · rw [← makeDosName_upper, of_decide_eq_true heq, makeDosName_upper]

/-- The name `a.b`. -/
theorem dosName_lossless_short : ∃ e, dirName e = fat32MakeDosName [97, 46, 98] ∧
    fat32EntryNameToString e = [65, 46, 66] :=
  ⟨_, dirName_putBytes Buf.zero _, (dosName_lossless [97, 46, 98] (by decide)).1 _ (dirName_putBytes Buf.zero _)⟩

/-! ## Write, then read -/

/-- A write that returns its size: the file reads back as the buffer, and a file
of another name reads as before. -/
theorem write_then_read {g : Statics} (h : Reached g d) {p q : CStr}
    (hvp : fat32IsValidName (leafOf p) = true) (hvq : fat32IsValidName (leafOf q) = true)
    (hne : (leafOf p).map upper ≠ (leafOf q).map upper) {buffer : Buf} {size : UInt32} (hsize : 0 < size) {fuel : Nat}
    (hwrite : fat32WriteFilePath fuel g d p buffer size = some (size, d')) :
    Settles (fun fuel => fat32ReadFilePath fuel g d' p) (some (buffer.bytes 0 size.toNat)) ∧
    ∃ r, Settles (fun fuel => fat32ReadFilePath fuel g d q) r ∧
      Settles (fun fuel => fat32ReadFilePath fuel g d' q) r := by
  obtain ⟨f, c, rfl, hinv⟩ := h.inv
  obtain ⟨ret, d1, c', hset, hinv', hret⟩ := hinv.writeFile p buffer size
  cases hset.only fuel _ hwrite
  rcases hret with rfl | ⟨-, hok, hframed, s, hstored⟩
  · exact absurd hsize (by decide)
  refine ⟨?_, _, hinv.readFile q, ?_⟩
  · have hread := hinv'.readFile p
    rw [if_pos hok, hstored.found, bind_some, contents, if_neg (not_not.mpr hstored.file),
      hstored.length] at hread
    have hbytes : Buf.bytes (chainByte f d' (c' s.start)) 0 size.toNat = buffer.bytes 0 size.toNat :=
      Buf.bytes_congr fun i _ hi => hstored.bytes i (by omega)
    rw [hbytes] at hread
    exact hread
  · have hdos : fat32MakeDosName (leafOf q) ≠ fat32MakeDosName (leafOf p) :=
      fun heq => hne (dosName_injective hvq hvp heq).symm
    have hread := hinv'.readFile q
    rw [hframed.found _ hdos] at hread
    have hsame : (search (fat32MakeDosName (leafOf q)) (rootSlots f d c)).bind (contents f d' c') =
        (search (fat32MakeDosName (leafOf q)) (rootSlots f d c)).bind (contents f d c) := by
      cases hs : search (fat32MakeDosName (leafOf q)) (rootSlots f d c) with
      | none => rfl
      | some t =>
        obtain ⟨hchain, hdata⟩ := hframed.kept _ t hdos hs
        have hbytes : chainByte f d' (c' t.start) = chainByte f d (c t.start) := by
          rw [hchain]
          exact funext (chainByte_congr hdata)
        rw [bind_some, bind_some, contents, contents, hbytes]
    rw [hsame] at hread
    exact hread

/-- "b". -/
def fileB : CStr := ⟨[98], by decide +kernel⟩

/-- Three bytes written to "A" on a formatted disk; "b" does not exist. -/
theorem writtenA_readBack : ∃ d', fat32WriteFilePath 6 (std true) (fat32Format fun _ => Buf.zero)
      fileA (fun i => UInt8.ofNat (i + 7)) 3 = some (3, d') ∧
    Settles (fun fuel => fat32ReadFilePath fuel (std true) d' fileA) (some [7, 8, 9]) ∧
    ∃ r, Settles (fun fuel => fat32ReadFilePath fuel (std true) (fat32Format fun _ => Buf.zero)
        fileB) r ∧
      Settles (fun fuel => fat32ReadFilePath fuel (std true) d' fileB) r := by
  have hret : (fat32WriteFilePath 6 (std true) (fat32Format fun _ => Buf.zero) fileA
      (fun i => UInt8.ofNat (i + 7)) 3).map Prod.fst = some 3 := by decide +kernel
  obtain ⟨⟨ret, d'⟩, hrun, rfl⟩ := map_eq_some_iff.mp hret
  have hstart : Reached (std true) (fat32Format fun _ => Buf.zero) :=
    ⟨⟨0, 0, 0, 0, 0, 0, 0, false, true⟩, fun _ => Buf.zero, format_mount _ _, .refl⟩
  exact ⟨d', hrun, write_then_read hstart (by decide +kernel) (by decide +kernel) (by decide +kernel) (by decide) hrun⟩

end

end LiwusOS.Fat
