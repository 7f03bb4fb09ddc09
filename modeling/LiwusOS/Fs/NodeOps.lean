import LiwusOS.Fs.TreeOps

/-! # Node operations on a consistent volume

`sdfs_write` and `sdfs_truncate` trust the start block and the record position
their node cached when it was opened. If the record is still there, they change
that file's chain and that record, and nothing else. -/

namespace LiwusOS.Fs
open LiwusOS.Lib Function

variable {dir : Dir} {c : List Nat} {l : Located} {d : Nat} {node : Node}

/-- The node was built from a record for a file at this position. -/
structure Node.Caches (node : Node) (l : Located) : Prop where
  isFile : node.isDir = false
  inode : node.inode = l.entry.start
  impl : node.impl = l.block
  implOffset : node.implOffset = l.blockOffset

/-- The entry after its size has been set. -/
def Entry.sized (e : Entry) (size now : UInt32) : Entry := { e with fileSize := size, modifiedTime := now }

section

variable {s s' : Volume} {v v' : Tree}

/-- The directory update of `sdfs_write` and `sdfs_truncate` at a record that is
still there. -/
theorem setEntrySize_consistent (h : Consistent s v none) (hv : v d = some (.dir dir)) (hm : l ∈ dirRecords dir)
    (hn : node.Caches l) (size : UInt32) :
    ∃ dir' buf, Retouches dir dir' l (l.entry.sized size s.timerTicks) ∧
      (setEntrySize s node size).geo = s.geo ∧
      (setEntrySize s node size).store = s.store.write l.block buf ∧
      Consistent (setEntrySize s node size) (update v d (some (.dir dir'))) none := by
  obtain ⟨hat, -, hr, -⟩ := h.rep.dirAt hv
  obtain ⟨rs, hp, hx⟩ := mem_dirRecords.mp hm
  obtain ⟨rs1, rs2, rfl, hpos⟩ := mem_recsAt.mp hx
  obtain ⟨pre, post, rfl⟩ := List.append_of_mem hp
  have ho := hr _ hp
  have hblock := hat.blocks _ hp
  have hread := ho.read
  obtain ⟨-, hholds, -⟩ := recs_append.mp hblock.recs
  have hfit := hblock.fits
  rw [recsSize_append, recsSize_cons] at hfit
  set e := l.entry.sized size s.timerTicks
  have hsize : e.size = l.entry.size := rfl
  have hok : e.Ok := ⟨hholds.1.type, hholds.1.nonempty, hholds.1.short, hholds.1.noNul⟩
  have hroom : l.entry.size ≤ sdfsBlockSize - l.blockOffset := by
    have : (Rec.live l.entry).size = l.entry.size := rfl
    unfold dirDataSize at hfit
    unfold dirDataStart at hpos
    unfold sdfsBlockSize
    omega
  have himpl : l.block ≠ 0 := by
    have := h.layout.pos
    have := ho.1
    omega
  have hset : setEntrySize s node size =
      sdfsMetadataWrite s l.block (putEntry (s.store.data l.block) l.blockOffset e) := by
    rw [setEntrySize, hn.impl, hn.implOffset, if_neg himpl, hread]
    dsimp only
    rw [deserialize_live (hpos ▸ hholds) hroom]
    dsimp only
    rw [sdfsEntrySerialize, if_neg (by show ¬ e.size > _; omega)]
    rfl
  have hg : (setEntrySize s node size).geo = s.geo := by rw [hset]; exact geo_metadataWrite _ _ _
  have hstore : (setEntrySize s node size).store =
      s.store.write l.block (putEntry (s.store.data l.block) l.blockOffset e) := by
    rw [hset]
    exact store_metadataWrite h.layout.valid _ ho.1 ho.2
  have hup := hblock.update hok rfl
  have hre : Retouches (pre ++ (l.block, rs1 ++ .live l.entry :: rs2) :: post)
      (pre ++ (l.block, rs1 ++ .live e :: rs2) :: post) l e := ⟨⟨pre, post, rs1, rs2, rfl, rfl, hpos⟩, rfl⟩
  have hat' := hat.replace (hpos ▸ hup.1) (hpos ▸ hup.2) (by simp)
  exact ⟨_, _, hre, hg, hstore, h.rewriteRecord hg hv hm hre rfl rfl hstore (hstore ▸ hat')⟩

/-- What `sdfs_write` returns after `n` bytes went out and the volume is `s`. -/
def written (node : Node) (offset : UInt32) (n : Nat) (s : Volume) : Nat × Node × Volume :=
  if offset + UInt32.ofNat n > node.length then
    (n, { node with length := offset + UInt32.ofNat n }, setEntrySize s node (offset + UInt32.ofNat n))
  else (n, node, s)

/-- `sdfs_write` at an offset up to the cached length: the chain grows as far as
it can, `n` bytes go to their place, and then the size is settled. -/
theorem write_settles (h : Consistent s v none) (hfile : node.isDir = false)
    (hc : v node.inode = some (.file c)) {offset : UInt32} (hoff : ¬ offset > node.length) (size : UInt32)
    (buffer : Buf) :
    ∃ n s1 new, Settles (sdfsWrite · s node offset size buffer) (written node offset n s1) ∧
      s1.geo = s.geo ∧ Grown s.totalBlocks node.inode s.store c s1.store new ∧ n ≤ size.toNat ∧
      (n < size.toNat → s1.store.frees s.totalBlocks = []) ∧
      (∀ i, fileByte s1.store (c ++ new) i =
        if offset.toNat ≤ i ∧ i < offset.toNat + n then buffer (i - offset.toNat) else fileByte s.store c i) ∧
      (0 < n → offset.toNat + n ≤ (c ++ new).length * sdfsDataSize) ∧
      Consistent s1 (update v node.inode (some (.file (c ++ new)))) none := by
  obtain ⟨hown, hne⟩ := h.rep.ownChain h.layout hc
  obtain ⟨x, c2, rfl⟩ := List.exists_cons_of_ne_nil hne
  have hx : node.inode = x := hown.chain.1
  rw [← hx] at hown hc ⊢
  obtain ⟨r, s1, new, hseek, hg1, hgr1, hbytes1, hnone, hpos⟩ :=
    seekGrow_settles (offset.toNat / sdfsDataSize) (show OwnChain s node.inode ([] ++ node.inode :: c2) from hown)
  have hcons : ∀ s2 new2, s2.geo = s.geo →
      Grown s.totalBlocks node.inode s.store (node.inode :: c2) s2.store new2 →
      Consistent s2 (update v node.inode (some (.file (node.inode :: c2 ++ new2)))) none :=
    fun s2 new2 hg hgr => h.grown hg (.inr hc) (by simp) hgr
  have hstart : ∀ n, sdfsWrite n s node offset size buffer =
      (seekGrow n node.inode (offset.toNat / sdfsDataSize) s node.inode).bind fun p =>
        p.1.elim (some (0, node, p.2)) fun cur => (writeBytesLoop n node.inode buffer n p.2 cur
          (offset.toNat % sdfsDataSize) 0 size.toNat).map fun q => written node offset q.1 q.2 := by
    intro n
    rw [sdfsWrite, if_neg (by simp [hfile]), if_neg hoff]
    refine congrArg _ (funext fun p => ?_)
    rcases p with ⟨_ | cur, t⟩ <;> rfl
  cases r with
  | none =>
    refine ⟨0, s1, new, Settles.congr hstart (hseek.bind (Settles.congr (fun n => ?_) (Settles.const _))),
      hg1, hgr1, Nat.zero_le _, fun _ => hnone rfl, fun i => ?_, fun h0 => absurd h0 (Nat.lt_irrefl 0),
      hcons s1 new hg1 hgr1⟩
    · have hz : ¬ offset + UInt32.ofNat 0 > node.length := by simpa using hoff
      rw [written, if_neg hz]
      rfl
    · rw [if_neg (by omega)]
      exact congrFun hbytes1 i
  | some cur =>
    obtain ⟨d1, d2, hsplit, hlen⟩ := hpos cur rfl
    have hown1 : OwnChain s1 node.inode (d1 ++ cur :: d2) := hsplit ▸ hown.grown hg1 hgr1
    have hoffset : d1.length * sdfsDataSize + offset.toNat % sdfsDataSize = offset.toNat := by
      rw [hlen, List.length_nil, Nat.zero_add, Nat.mul_comm]
      exact Nat.div_add_mod _ _
    obtain ⟨n, s2, new2, hloop, hg2, hgr2, hle, hcap, hfull, hbytes2⟩ :=
      writeBytesLoop_settles hown1 buffer (Nat.mod_lt _ (by decide)) hoffset 0 size.toNat
    have htot := total_of_geo hg1
    rw [htot, ← hsplit] at hgr2
    have hgr := hgr1.trans hgr2
    rw [← hsplit, List.append_assoc] at hbytes2 hcap
    rw [Nat.zero_add] at hloop
    refine ⟨n, s2, new ++ new2, Settles.congr hstart (hseek.bind (hloop.diag.map _)), hg2.trans hg1, hgr, hle,
      htot ▸ hfull, fun i => ?_, fun _ => hcap, hcons s2 _ (hg2.trans hg1) hgr⟩
    have := hbytes2 i
    rw [Nat.zero_add, hbytes1] at this
    exact this

/-- A step on the file of record `l` alone: its chain may change, and its entry
becomes `e`. -/
structure FileStep (s s' : Volume) (v v' : Tree) (l : Located) (e : Entry) : Prop where
  geo : s'.geo = s.geo
  consistent : Consistent s' v' none
  same : e.name = l.entry.name ∧ e.start = l.entry.start ∧ e.type = l.entry.type
  dirs : ∀ {b dir}, v b = some (.dir dir) →
    ∃ dir', v' b = some (.dir dir') ∧ dirRecords dir' = (dirRecords dir).map (retouch l e)
  files : ∀ {b c}, b ≠ l.entry.start → v b = some (.file c) →
    v' b = some (.file c) ∧ ∀ x ∈ c, s'.store.data x = s.store.data x

/-- The first part of a step: only the chain. -/
theorem FileStep.of_chain (h : Consistent s v none) {c' : List Nat} (hc : v l.entry.start = some (.file c))
    (hg : s'.geo = s.geo) (hkept : Kept s s' v l.entry.start)
    (h' : Consistent s' (update v l.entry.start (some (.file c'))) none) :
    FileStep s s' v (update v l.entry.start (some (.file c'))) l l.entry := by
  refine ⟨hg, h', ⟨rfl, rfl, rfl⟩, fun {b dir} hb => ⟨dir, ?_, (map_retouch_self _ _).symm⟩,
    fun {b c2} hne hb => ?_⟩
  · rw [update_of_ne (fun heq => by rw [heq, hc] at hb; cases hb)]
    exact hb
  · rw [update_of_ne hne]
    exact ⟨hb, fun x hx => (hkept.other h.rep hne hb hx).1⟩

/-- The second part: the size in the record. -/
theorem FileStep.sized (h : FileStep s s' v v' l l.entry) (hv : v d = some (.dir dir)) (hm : l ∈ dirRecords dir)
    (hn : node.Caches l) (hc : v' l.entry.start = some (.file c)) (size : UInt32) :
    ∃ v2, FileStep s (setEntrySize s' node size) v v2 l (l.entry.sized size s'.timerTicks) ∧
      v2 l.entry.start = some (.file c) ∧
      (setEntrySize s' node size).store.used = s'.store.used ∧
      ∀ x ∈ c, (setEntrySize s' node size).store.data x = s'.store.data x := by
  obtain ⟨dir1, hd1, hrec1⟩ := h.dirs hv
  rw [map_retouch_self] at hrec1
  obtain ⟨dir2, buf, hre, hg, hstore, hcons⟩ :=
    setEntrySize_consistent h.consistent hd1 (hrec1 ▸ hm) hn size
  have hrec2 := hre.records (h.consistent.rep.dirAt hd1).1.nodup
  have hblock : l.block ∈ (Obj.dir dir1).blocks := dirRecords_block (hrec1 ▸ hm)
  -- the record's block belongs to no file
  have hdata : ∀ {b c}, v' b = some (.file c) → ∀ x ∈ c,
      (setEntrySize s' node size).store.data x = s'.store.data x := by
    intro b c hb x hx
    have hxl : x ≠ l.block := by
      rintro rfl
      have heq := h.consistent.rep.disjoint hb hd1 hx hblock
      rw [heq, hd1] at hb
      cases hb
    rw [hstore, Store.write_data_ne _ _ hxl]
  have hfile : ∀ {b c}, v' b = some (.file c) →
      update v' d (some (.dir dir2)) b = some (.file c) := by
    intro b c hb
    rw [update_of_ne (fun heq => by rw [heq, hd1] at hb; cases hb)]
    exact hb
  refine ⟨update v' d (some (.dir dir2)), ⟨hg.trans h.geo, hcons, ⟨rfl, rfl, rfl⟩, fun {b dirb} hb => ?_,
    fun {b c2} hne hb => ?_⟩, hfile hc, by rw [hstore, Store.write_used], hdata hc⟩
  · by_cases hbd : b = d
    · subst hbd
      rw [hv] at hb
      cases hb
      exact ⟨dir2, update_self _ _ _, by rw [hrec2, hrec1]⟩
    · obtain ⟨dirb', hb', hrecb⟩ := h.dirs hb
      rw [map_retouch_self] at hrecb
      refine ⟨dirb', by rw [update_of_ne hbd]; exact hb', ?_⟩
      rw [hrecb, map_retouch_of_notMem fun hin =>
        hbd (h.consistent.rep.record_dir hd1 hb' hblock (hrecb ▸ hin)).symm]
  · obtain ⟨hb', hsame⟩ := h.files hne hb
    exact ⟨hfile hb', fun x hx => (hdata hb' x hx).trans (hsame x hx)⟩

/-- The file of a record. -/
theorem Consistent.file (h : Consistent s v none) (hl : v.Record l) (ht : l.entry.type = sdfsTypeFile) :
    ∃ c, v l.entry.start = some (.file c) := by
  rcases h.linked.target hl nofun with ⟨-, hc⟩ | ⟨ht', -⟩
  · exact hc
  · rw [ht] at ht'
    exact absurd ht' (by decide)

/-- The size `sdfs_write` leaves in an entry of recorded size `r`, written to up
to `n` bytes behind `offset` by a node that believes in `length`. -/
def settledSize (r length offset : UInt32) (n : Nat) : UInt32 :=
  if offset + UInt32.ofNat n > length then offset + UInt32.ofNat n else r

/-- `sdfs_write` through a node whose record is still there. -/
theorem write_step (h : Consistent s v none) (hv : v d = some (.dir dir)) (hm : l ∈ dirRecords dir)
    (hn : node.Caches l) (hc : v l.entry.start = some (.file c)) {offset : UInt32}
    (hoff : ¬ offset > node.length) (size : UInt32) (buffer : Buf) :
    ∃ n s' v' e c', Settles (sdfsWrite · s node offset size buffer)
        (n, { node with length := settledSize node.length node.length offset n }, s') ∧
      FileStep s s' v v' l e ∧ e.fileSize = settledSize l.entry.fileSize node.length offset n ∧
      n ≤ size.toNat ∧ (n < size.toNat → s'.store.frees s.totalBlocks = []) ∧
      v' l.entry.start = some (.file c') ∧
      (0 < n → offset.toNat + n ≤ c'.length * sdfsDataSize) ∧
      ∀ i, fileByte s'.store c' i =
        if offset.toNat ≤ i ∧ i < offset.toNat + n then buffer (i - offset.toNat) else fileByte s.store c i := by
  rw [← hn.inode] at hc
  obtain ⟨n, s1, new, hset, hg, hgr, hle, hfull, hbytes, hcap, hcons⟩ :=
    write_settles h hn.isFile hc hoff size buffer
  have hkept := hgr.kept (.inr hc)
  rw [hn.inode] at hc hkept hcons
  have hstep := FileStep.of_chain h hc hg hkept hcons
  unfold written at hset
  unfold settledSize
  split at hset
  · rename_i hgt
    obtain ⟨v2, hstep2, hc2, hused, hdata⟩ := hstep.sized hv hm hn (update_self _ _ _)
      (offset + UInt32.ofNat n)
    refine ⟨n, _, v2, _, c ++ new, ?_, hstep2, by rw [if_pos hgt]; rfl, hle,
      fun hlt => (frees_congr (congrFun hused)).trans (hfull hlt), hc2, hcap, fun i => ?_⟩
    · rw [if_pos hgt]
      exact hset
    · rw [← hbytes i]
      exact fileByte_congr fun b hb k _ => by rw [hdata b hb]
  · rename_i hgt
    exact ⟨n, s1, _, l.entry, c ++ new, by rw [if_neg hgt]; exact hset, hstep, by rw [if_neg hgt], hle, hfull,
      update_self _ _ _, hcap, hbytes⟩

/-- `sdfs_truncate` through a node whose record is still there. -/
theorem truncate_step (h : Consistent s v none) (hv : v d = some (.dir dir)) (hm : l ∈ dirRecords dir)
    (ht : l.entry.type = sdfsTypeFile) (hn : node.Caches l) :
    ∃ s' v' e, Settles (sdfsTruncate · s node) ({ node with length := 0 }, s') ∧
      FileStep s s' v v' l e ∧ e.fileSize = 0 ∧ v' l.entry.start = some (.file [l.entry.start]) := by
  obtain ⟨c, hc⟩ := h.file ⟨d, dir, hv, hm⟩ ht
  obtain ⟨hown, hne⟩ := h.rep.ownChain h.layout hc
  obtain ⟨x, rest, rfl⟩ := List.exists_cons_of_ne_nil hne
  have hx : l.entry.start = x := hown.chain.1
  rw [← hx] at hc
  obtain ⟨s1, hset, hg, hkept, hcons⟩ := h.truncate hc
  have hstep := FileStep.of_chain h hc hg hkept hcons
  obtain ⟨v2, hstep2, hc2, -⟩ := hstep.sized hv hm hn (update_self _ _ _) 0
  refine ⟨_, v2, _, Settles.congr (fun n => ?_) (hset.map fun s => ({ node with length := 0 },
    setEntrySize s node 0)), hstep2, rfl, hc2⟩
  rw [sdfsTruncate, if_neg (by simp [hn.isFile]), hn.inode]

end

end LiwusOS.Fs
