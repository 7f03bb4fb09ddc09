import LiwusOS.Fs.Consistency

/-! # Reading through a node

`sdfs_read` passes over whole blocks of the chain first, then copies block by
block, and stops where the size of the node or the chain ends. -/

namespace LiwusOS.Fs
open LiwusOS.Lib Relation List

variable {s : Volume} {v : Tree} {node : Node} {a cur k n o r : Nat} {c : List Nat}

/-- The first loop goes to block `k` of the chain, or to 0 behind its end. -/
theorem skipBlocks_chain (h : Chain (sdfsGetNextBlock s) 0 a c) (hne : c ≠ []) :
    Chain (sdfsGetNextBlock s) 0 (skipBlocks s k a) (c.drop k) := by
  induction k generalizing a c with
  | zero => exact h
  | succ k ih =>
    obtain ⟨x, c, rfl⟩ := exists_cons_of_ne_nil hne
    obtain ⟨rfl, -, htail⟩ := h
    rw [skipBlocks, drop_succ_cons]
    cases c with
    | nil =>
      rw [if_pos (show sdfsGetNextBlock s a = 0 from htail), drop_nil]
      rfl
    | cons y c =>
      rw [if_neg (htail.1 ▸ htail.2.1)]
      exact ih htail (cons_ne_nil y c)

/-- The second loop copies `r` bytes from byte `o` of the chain on, as far as it reaches. -/
theorem readBytesLoop_settles (h : Chain (sdfsGetNextBlock s) 0 cur c) (hr : ∀ b ∈ c, s.Owns b)
    (ho : o < sdfsDataSize) : Settles (readBytesLoop s · cur o r)
      (Buf.bytes (fileByte s.store c) o (min r (c.length * sdfsDataSize - o))) := by
  induction c generalizing cur o r with
  | nil =>
    cases show cur = 0 from h
    refine .succ rfl (fun n => if_pos (.inr rfl)) ?_
    simpa [Buf.bytes] using .const []
  | cons b c ih =>
    obtain ⟨rfl, hb, htail⟩ := h
    by_cases h0 : r = 0
    · subst h0
      refine .succ rfl (fun n => if_pos (.inl rfl)) ?_
      simpa [Buf.bytes] using .const []
    -- the part of this block, then the rest of the chain from its first byte on
    set m := if sdfsDataSize - o > r then r else sdfsDataSize - o with hm
    have hm0 : m ≤ r ∧ o + m ≤ sdfsDataSize ∧ (m < r → o + m = sdfsDataSize) := by
      split at hm <;> omega
    have hsplit : min r ((cur :: c).length * sdfsDataSize - o) = m + min (r - m) (c.length * sdfsDataSize - 0) := by
      rw [length_cons, Nat.succ_mul]
      omega
    have hhere : (sdfsReadBlock s cur).bytes (4 + o) m = Buf.bytes (fileByte s.store (cur :: c)) o m :=
      Buf.bytes_shift fun i hi => by
        rw [fileByte_cons_lt _ _ _ (by omega), (hr cur (.head _)).read, Nat.add_assoc]
    have hrest : ∀ k ≤ r - m, Buf.bytes (fileByte s.store c) 0 k = Buf.bytes (fileByte s.store (cur :: c)) (o + m) k :=
      fun k hk => Buf.bytes_shift fun i hi => by
        rw [hm0.2.2 (by omega), fileByte_cons_ge, Nat.zero_add]
    rw [hsplit, Buf.bytes_append, ← hhere, ← hrest _ (Nat.min_le_left _ _)]
    refine .succ rfl (fun n => ?_) ((ih htail (fun b hb => hr b (.tail _ hb)) (by decide) (r := r - m)).map _)
    rw [readBytesLoop, if_neg (not_or.mpr ⟨h0, hb⟩)]

/-- How many bytes `sdfs_read` returns of a file of `k` blocks. -/
def readCount (node : Node) (k : Nat) (offset size : UInt32) : Nat :=
  if offset ≥ node.length then 0 else
    min (if offset + size > node.length then node.length - offset else size).toNat (k * sdfsDataSize - offset.toNat)

theorem read_settles {p : Node} (h : Consistent s v none) (hfile : p.isDir = false)
    (hc : v p.inode = some (.file c)) (offset size : UInt32) : Settles (sdfsRead · s p offset size)
      (Buf.bytes (fileByte s.store c) offset.toNat (readCount p c.length offset size)) := by
  have hdir : ¬ p.isDir = true := by simp [hfile]
  by_cases hoff : offset ≥ p.length
  · rw [readCount, if_pos hoff]
    exact .neg hdir (.pos hoff (.const []))
  rw [readCount, if_neg hoff]
  refine .neg hdir (.neg hoff ?_)
  obtain ⟨hown, hne⟩ := h.rep.ownChain h.layout hc
  have hchain := hown.chain.congr fun b hb => next_eq (hown.owned b hb)
  have hloop := readBytesLoop_settles (r := (if offset + size > p.length then p.length - offset else size).toNat)
    (skipBlocks_chain hchain hne (k := offset.toNat / sdfsDataSize))
    (fun b hb => hown.owned b (mem_of_mem_drop hb)) (Nat.mod_lt offset.toNat (by decide : 0 < sdfsDataSize))
  have hpos := Nat.div_add_mod offset.toNat sdfsDataSize
  rw [length_drop, Nat.sub_mul, Nat.mul_comm (offset.toNat / sdfsDataSize), Nat.sub_sub, hpos] at hloop
  convert hloop using 1
  refine Buf.bytes_shift fun i _ => ?_
  rw [← hpos, Nat.add_assoc, fileByte, fileByte, getElem?_drop, Nat.mul_add_div (by decide), Nat.mul_add_mod, hpos]

/-- What was written is within the size and the chain. -/
theorem readCount_written {offset : UInt32} (hfit : offset.toNat + n < 2 ^ 32)
    (hcap : 0 < n → offset.toNat + n ≤ k * sdfsDataSize) :
    readCount { node with length := settledSize node.length node.length offset n } k offset (UInt32.ofNat n) = n := by
  have hn : (UInt32.ofNat n).toNat = n := UInt32.toNat_ofNat_of_lt' (Nat.lt_of_le_of_lt (Nat.le_add_left _ _) hfit)
  have hend : offset + UInt32.ofNat n ≤ settledSize node.length node.length offset n := by
    unfold settledSize
    split
    · exact UInt32.le_refl _
    · exact UInt32.not_lt.mp ‹_›
  rw [readCount, if_neg (UInt32.not_lt.mpr hend), hn]
  rcases n.eq_zero_or_pos with rfl | h0
  · rw [Nat.zero_min, ite_self]
  · rw [if_neg fun hge => ?_, Nat.min_eq_left (Nat.le_sub_of_add_le' (hcap h0))]
    have hle := UInt32.le_iff_toNat_le.mp (UInt32.le_trans hend hge)
    rw [UInt32.toNat_add, hn, Nat.mod_eq_of_lt hfit] at hle
    omega

/-- **Writes are read back, and other files read as before.** On every volume
that safe operations have reached, a write through the node of a listed file ends
short only when no block is free. -/
theorem write_reads_back {disk : Disk} {identify : Nat} (hrun : ReflTransGen SafeStep (freshVolume disk identify) s)
    (hn : NodeCurrent s node) {offset size : UInt32} (hoff : offset ≤ node.length)
    (hfit : offset.toNat + size.toNat < 2 ^ 32) (buffer : Buf) :
    ∃ n node' s', Settles (sdfsWrite · s node offset size buffer) (n, node', s') ∧
      n ≤ size.toNat ∧ (n < size.toNat → freeBlocks s' = 0) ∧
      Settles (sdfsRead · s' node' offset (UInt32.ofNat n)) (buffer.bytes 0 n) ∧
      ∀ other, NodeCurrent s other → other.inode ≠ node.inode → ∀ o k bytes,
        Settles (sdfsRead · s other o k) bytes → Settles (sdfsRead · s' other o k) bytes := by
  obtain ⟨v, hv⟩ := safeRun_consistent hrun
  obtain ⟨d, dir, l, hd, hm, ht, hl⟩ := hn.record hv
  obtain ⟨c, hc⟩ := hv.file ⟨d, dir, hd, hm⟩ ht
  obtain ⟨n, s', v', e, c', hset, hstep, -, hle, hfull, hc', hcap, hbytes⟩ :=
    write_step hv hd hm hl hc (UInt32.not_lt.mpr hoff) size buffer
  refine ⟨n, _, s', hset, hle, fun hlt => length_eq_zero_iff.mpr (total_of_geo hstep.geo ▸ hfull hlt), ?_,
    fun other ho hne o k bytes hread => ?_⟩
  · have hread := read_settles (p := { node with length := settledSize node.length node.length offset n })
      hstep.consistent hl.isFile (hl.inode ▸ hc') offset (UInt32.ofNat n)
    rw [readCount_written (by omega) hcap] at hread
    convert hread using 1
    exact Buf.bytes_shift fun i hi => by
      rw [hbytes, if_pos (by omega), Nat.zero_add, Nat.add_sub_cancel_left]
  · obtain ⟨d2, dir2, l2, hd2, hm2, ht2, hl2⟩ := ho.record hv
    obtain ⟨c2, hc2⟩ := hv.file ⟨d2, dir2, hd2, hm2⟩ ht2
    obtain ⟨hc2', hdata⟩ := hstep.files (by rwa [hl2.inode, hl.inode] at hne) hc2
    rw [← hl2.inode] at hc2 hc2'
    cases hread.unique (read_settles hv hl2.isFile hc2 o k)
    have hsame : fileByte s'.store c2 = fileByte s.store c2 :=
      funext fun i => fileByte_congr fun b hb _ _ => congrFun (hdata b hb) _
    exact hsame ▸ read_settles hstep.consistent hl2.isFile hc2' o k

theorem write_reads_back_tinyVolume : ∃ s node n node' s', NodeCurrent s node ∧
    Settles (sdfsWrite · s node 0 9000 Buf.zero) (n, node', s') ∧
    Settles (sdfsRead · s' node' 0 (UInt32.ofNat n)) (Buf.zero.bytes 0 n) := by
  obtain ⟨s, hs, hroot, found, hfound, l, rfl, ht⟩ : ∃ s ∈ FsOp.exec 8 tinyVolume (.createFile pathA),
      s.rootBlock = 18 ∧ ∃ found ∈ sdfsDirFindByIndex s 2 18 0, ∃ l, found = some l ∧ l.entry.type = sdfsTypeFile := by
    decide +kernel
  have hnode : NodeCurrent s (nodeOf l) :=
    ⟨l, ⟨s.rootBlock, .root, 2, 0, hroot ▸ hfound⟩, ht, by rw [nodeOf, ht]; rfl, rfl, rfl, rfl⟩
  obtain ⟨n, node', s', hset, -, -, hread, -⟩ := write_reads_back (.single ⟨.createFile pathA, trivial, 8, hs⟩) hnode
    (UInt32.zero_le) (by decide : _ + (9000 : UInt32).toNat < _) Buf.zero
  exact ⟨s, _, n, node', s', hnode, hset, hread⟩

end LiwusOS.Fs
