import LiwusOS.Fs.Directory
import LiwusOS.Fs.Node

/-! # File chains

What the loops over data blocks do to the store: freeing a chain, laying out
the chain of `sdfs_write_file`, and growing and filling the chain of a node in
`sdfs_write`. The allocator always takes the lowest free block, so the blocks a
loop takes are a prefix of the list of free blocks. -/

namespace LiwusOS.Fs
open LiwusOS.Lib List

variable {c c1 c2 new rest : List Nat} {a b cur i n nb o total : Nat} {σ τ : Store} {s : Volume}

/-! ## Free blocks -/

/-- The free blocks of a store, lowest first. -/
def Store.frees (σ : Store) (total : Nat) : List Nat :=
  (List.range total).filter fun b => !σ.used b

/-- The bits of a list of blocks set to `v`. -/
def Store.markAll (σ : Store) (l : List Nat) (v : Bool) : Store :=
  { σ with used := fun b => if b ∈ l then v else σ.used b }

theorem mem_frees : b ∈ σ.frees total ↔ b < total ∧ σ.used b = false := by
  simp [Store.frees]

theorem frees_nodup (σ : Store) (total : Nat) : (σ.frees total).Nodup :=
  nodup_range.filter _

theorem frees_congr (h : ∀ b, τ.used b = σ.used b) : τ.frees total = σ.frees total := by
  unfold Store.frees
  congr 1
  funext b
  rw [h]

theorem free?_eq_head (σ : Store) (total : Nat) : σ.free? total = (σ.frees total).head? := by
  rw [Store.free?, firstFree_eq_find, Store.frees, ← range_eq_range', head?_filter]

theorem frees_mark (h : σ.frees total = b :: rest) : (σ.mark b true).frees total = rest := by
  have hnd := frees_nodup σ total
  rw [h] at hnd
  have hb : b ∉ rest := (nodup_cons.mp hnd).1
  have hfilter : (σ.mark b true).frees total = (σ.frees total).filter (· ≠ b) := by
    rw [Store.frees, Store.frees, filter_filter]
    congr 1
    funext c
    by_cases hc : c = b
    · subst hc
      simp
    · rw [Store.mark_used_ne _ _ hc]
      simp [hc]
  rw [hfilter, h, filter_cons_of_neg (by simp), filter_eq_self]
  intro c hc
  simpa using fun heq : c = b => hb (heq ▸ hc)

/-- What taking the first free block does to the free blocks and the bits. -/
theorem taken (hf : σ.frees total = nb :: rest) (hu : τ.used = (σ.mark nb true).used) :
    τ.frees total = rest ∧ ∀ b, τ.used b = (σ.used b || decide (b = nb)) := by
  refine ⟨(frees_congr (congrFun hu)).trans (frees_mark hf), fun b => ?_⟩
  rw [hu]
  by_cases hb : b = nb
  · subst hb
    simp
  · rw [Store.mark_used_ne _ _ hb]
    simp [hb]

/-! ## Freeing -/

/-- A chain given back counts as free again. -/
theorem frees_markAll_length (hnd : c.Nodup) (hlt : ∀ b ∈ c, b < total) (hu : ∀ b ∈ c, σ.used b = true) :
    ((σ.markAll c false).frees total).length = (σ.frees total).length + c.length := by
  have hdisj : ∀ b ∈ σ.frees total, b ∉ c := fun b hb hc => by
    have hused := hu b hc
    rw [(mem_frees.mp hb).2] at hused
    cases hused
  have hperm : ((σ.markAll c false).frees total).Perm (σ.frees total ++ c) := by
    refine (perm_ext_iff_of_nodup (frees_nodup _ _)
      (nodup_append.mpr ⟨frees_nodup _ _, hnd, fun a ha b hb hab => hdisj a ha (hab ▸ hb)⟩)).mpr
      fun b => ?_
    rw [mem_frees, mem_append, mem_frees]
    show b < total ∧ (if b ∈ c then false else σ.used b) = false ↔ _
    by_cases hb : b ∈ c
    · simp [hb, hlt b hb]
    · simp [hb]
  rw [hperm.length_eq, length_append]

theorem Layout.pos (hl : Layout s) : 0 < s.rootBlock := by
  have h1 : 0 < s.bitmapBlock := hl.valid.bitmapPos
  have h2 : s.bitmapBlock + s.bitmapBlocks ≤ s.rootBlock := hl.valid.bitmapEnd
  omega

theorem next_eq (ho : s.Owns b) : sdfsGetNextBlock s b = s.store.next b := by
  rw [sdfsGetNextBlock, Store.next, ← ho.read]

theorem freeChain_settles (hv : s.geo.Valid) {l : List Nat} (hc : Chain s.store.next 0 a l) (hr : ∀ b ∈ l, s.Owns b) :
    ∃ s', Settles (sdfsFreeChain · s a) s' ∧ s'.geo = s.geo ∧
      s'.store = s.store.markAll l false := by
  induction l generalizing s a with
  | nil =>
    have ha : a = 0 := hc
    subst ha
    exact ⟨s, .succ rfl (fun n => if_pos rfl) (.const s), rfl, rfl⟩
  | cons b l ih =>
    obtain ⟨rfl, hb, htail⟩ := hc
    have ho := hr a (.head _)
    have hstore := store_free hv hb ho.2
    have hg := geo_free s a
    obtain ⟨s', hs, hg', hstore'⟩ := ih (s := sdfsFreeBlock s a) (a := s.store.next a) (hg ▸ hv)
      (by
        have hn : (sdfsFreeBlock s a).store.next = s.store.next := by
          funext c
          rw [Store.next, hstore, Store.mark_data, Store.next]
        rw [hn]
        exact htail)
      (fun c hc => (owns_of_geo hg).mpr (hr c (.tail _ hc)))
    refine ⟨s', .succ rfl (fun n => ?_) hs, hg'.trans hg, ?_⟩
    · rw [sdfsFreeChain, if_neg hb, next_eq ho]
    · rw [hstore', hstore]
      apply Store.ext
      · rfl
      · funext c
        by_cases hcl : c ∈ l
        · simp [Store.markAll, hcl]
        · by_cases hca : c = a
          · simp [Store.markAll, Store.mark, hca]
          · simp [Store.markAll, Store.mark, hcl, hca]

/-! ## Contents -/

/-- Byte `i` of the file with the given chain; zero past the end of the chain. -/
def fileByte (σ : Store) (chain : List Nat) (i : Nat) : UInt8 :=
  match chain[i / sdfsDataSize]? with
  | some b => σ.data b (4 + i % sdfsDataSize)
  | none => 0

theorem fileByte_congr {chain : List Nat} (h : ∀ b ∈ chain, ∀ k, 4 ≤ k → τ.data b k = σ.data b k) :
    fileByte τ chain i = fileByte σ chain i := by
  unfold fileByte
  cases hb : chain[i / sdfsDataSize]? with
  | none => rfl
  | some b => exact h b (mem_of_getElem? hb) _ (Nat.le_add_right 4 _)

theorem fileByte_cons_lt (σ : Store) (b : Nat) (c : List Nat) (h : i < sdfsDataSize) :
    fileByte σ (b :: c) i = σ.data b (4 + i) := by
  simp only [fileByte, Nat.div_eq_of_lt h, Nat.mod_eq_of_lt h, getElem?_cons_zero]

theorem fileByte_cons_ge (σ : Store) (b : Nat) (c : List Nat) (i : Nat) :
    fileByte σ (b :: c) (sdfsDataSize + i) = fileByte σ c i := by
  have hpos : 0 < sdfsDataSize := by decide
  simp only [fileByte, Nat.add_div_left _ hpos, Nat.add_mod_left, getElem?_cons_succ]

/-- Zeroed blocks at the end do not show in the contents. -/
theorem fileByte_append_zero (c : List Nat) (h : ∀ b ∈ new, ∀ k, 4 ≤ k → σ.data b k = 0) :
    fileByte σ (c ++ new) = fileByte σ c := by
  funext i
  unfold fileByte
  by_cases hlt : i / sdfsDataSize < c.length
  · rw [getElem?_append_left hlt]
  · rw [getElem?_append_right (Nat.le_of_not_lt hlt),
      getElem?_eq_none (Nat.le_of_not_lt hlt)]
    cases hb : new[i / sdfsDataSize - c.length]? with
    | none => rfl
    | some b => exact h b (mem_of_getElem? hb) _ (Nat.le_add_right 4 _)

/-- The loops take the blocks `new` and link them behind `c`. -/
structure Grown (total a : Nat) (σ : Store) (c : List Nat) (τ : Store) (new : List Nat) : Prop where
  chain : Chain τ.next 0 a (c ++ new)
  frees : σ.frees total = new ++ τ.frees total
  used : ∀ b, τ.used b = (σ.used b || decide (b ∈ new))
  data : ∀ b, b ∉ c ++ new → τ.data b = σ.data b

theorem Grown.mem_frees (h : Grown total a σ c τ new) :
    ∀ b ∈ new, b < total ∧ σ.used b = false := fun b hb => by
  have hm : b ∈ σ.frees total := by
    rw [h.frees]
    exact mem_append_left _ hb
  exact LiwusOS.Fs.mem_frees.mp hm

theorem Grown.trans {υ : Store} {new' : List Nat} (h : Grown total a σ c τ new)
    (h' : Grown total a τ (c ++ new) υ new') : Grown total a σ c υ (new ++ new') := by
  refine ⟨by rw [← append_assoc]; exact h'.chain, ?_, fun b => ?_, fun b hb => ?_⟩
  · rw [h.frees, h'.frees, append_assoc]
  · rw [h'.used, h.used, Bool.or_assoc, ← Bool.decide_or]
    congr 2
    rw [mem_append]
  · rw [← append_assoc] at hb
    rw [h'.data b hb, h.data b fun hm => hb (mem_append_left _ hm)]

theorem Grown.refl (h : Chain σ.next 0 a c) : Grown total a σ c σ [] :=
  ⟨by rw [append_nil]; exact h, rfl, fun b => by simp, fun b _ => rfl⟩

/-- A block of the chain rewritten. -/
theorem Grown.of_write {buf : Block} (hm : cur ∈ c) (hc : Chain (σ.write cur buf).next 0 a c) :
    Grown total a σ c (σ.write cur buf) [] := by
  refine ⟨by rw [append_nil]; exact hc, rfl, fun b => by simp, fun b hb => ?_⟩
  rw [append_nil] at hb
  exact Store.write_data_ne _ _ fun heq => hb (heq ▸ hm)

/-- The first free block taken and the chain grown from it. -/
theorem Grown.cons {υ : Store} (h : Grown total nb τ [nb] υ new) (hf : σ.frees total = nb :: rest)
    (hu : τ.used = (σ.mark nb true).used) :
    σ.frees total = nb :: new ++ υ.frees total ∧ ∀ b, υ.used b = (σ.used b || decide (b ∈ nb :: new)) := by
  obtain ⟨hrest, hused⟩ := taken hf hu
  refine ⟨by rw [hf, ← hrest, h.frees, cons_append], fun b => ?_⟩
  rw [h.used, hused, Bool.or_assoc, ← Bool.decide_or]
  simp

/-! ## The chain of `sdfs_write_file` -/

theorem blockNext_dataBlock {next : Nat} (h : next < 2 ^ 32) (src : Buf) (n : Nat) :
    blockNext (dataBlock next src n) = next := by
  have he : (dataBlock next src n).EqOn ((Buf.zero : Block).putU32 0 (UInt32.ofNat next)) 0 4 :=
    fun i _ hi => Buf.copy_outside _ _ (.inl hi)
  rw [blockNext_congr he, blockNext, Buf.u32_putU32, UInt32.toNat_ofNat', Nat.mod_eq_of_lt h]

theorem dataBlock_byte (next : Nat) (src : Buf) (hi : i < n) : dataBlock next src n (4 + i) = src i := by
  rw [dataBlock, Buf.copy_inside _ _ (by omega) (by omega), Nat.add_sub_cancel_left]

theorem free?_cons (hf : s.store.frees s.totalBlocks = nb :: rest) : s.store.free? s.totalBlocks = some nb := by
  rw [free?_eq_head, hf]
  rfl

theorem free?_nil (hf : s.store.frees s.totalBlocks = []) : s.store.free? s.totalBlocks = none := by
  rw [free?_eq_head, hf]
  rfl

/-- An allocation takes the first free block. -/
theorem allocRaw_cons (hl : Layout s) (hf : s.store.frees s.totalBlocks = nb :: rest) :
    (sdfsAllocBlockRaw s).1 = nb ∧ (sdfsAllocBlockRaw s).2.store = s.store.mark nb true ∧
      s.rootBlock < nb ∧ nb < s.totalBlocks ∧ s.store.used nb = false := by
  obtain ⟨h1, h2⟩ := allocRaw_some hl (free?_cons hf)
  exact ⟨h1, h2, hl.free?_some (free?_cons hf)⟩

/-- Marking and writing above the root keeps the layout. -/
theorem Layout.of_used {t : Volume} (hl : Layout s) (hg : t.geo = s.geo)
    (hu : ∀ b, s.store.used b = true → t.store.used b = true) : Layout t :=
  hl.of_geo hg fun b hb => hu b (hl.reserved b hb)

theorem writeLoop_done (buffer : Buf) (s : Volume) (start cur src : Nat) :
    Settles₂ (fun bound fuel => writeLoop bound buffer start fuel s cur 0 src) (true, s) :=
  .succ (fun _ => rfl) (fun _ _ => if_pos rfl) (.const _)

/-- The blocks a chain for `size` bytes needs behind its first one. -/
def extraBlocks (size : Nat) : Nat := (size - 1) / sdfsDataSize

/-- With enough free blocks the loop lays out the whole chain. -/
theorem writeLoop_settles (hl : Layout s) (ho : s.Owns cur) (hu : s.store.used cur = true) (buffer : Buf)
    (start src rem : Nat) (h0 : 0 < rem) (hk : extraBlocks rem ≤ (s.store.frees s.totalBlocks).length) :
    ∃ s' new, Settles₂ (fun bound fuel => writeLoop bound buffer start fuel s cur rem src) (true, s') ∧
      s'.geo = s.geo ∧ new.length = extraBlocks rem ∧
      Grown s.totalBlocks cur s.store [cur] s'.store new ∧
      ∀ i < rem, fileByte s'.store (cur :: new) i = buffer (src + i) := by
  generalize hn : extraBlocks rem = k at hk
  induction k generalizing s cur src rem with
  | zero =>
    -- the rest fits into the current block
    have hle : rem ≤ sdfsDataSize := by
      unfold extraBlocks sdfsDataSize at hn
      unfold sdfsDataSize
      omega
    have hstore := store_write hl.valid (dataBlock 0 (fun i => buffer (src + i)) rem) ho.1 ho.2
    set s1 := sdfsWriteBlock s cur (dataBlock 0 (fun i => buffer (src + i)) rem)
    refine ⟨s1, [], .succ (fun _ => rfl) (fun b n => ?_)
      (writeLoop_done buffer s1 start 0 (src + rem)), rfl, rfl,
      hstore ▸ .of_write (.head _) ⟨rfl, ?_, ?_⟩, ?_⟩
    · rw [writeLoop, if_neg (by omega)]
      dsimp only
      rw [if_neg (by omega : ¬ rem > sdfsDataSize), if_neg (by omega : ¬ rem > rem)]
      dsimp only
      rw [if_neg (by omega), Nat.sub_self]
    · have := hl.pos
      have := ho.1
      omega
    · show blockNext ((s.store.write cur _).data cur) = 0
      rw [Store.write_data_self, blockNext_dataBlock (by decide)]
    · intro i hi
      rw [fileByte_cons_lt _ _ _ (by omega), hstore, Store.write_data_self, dataBlock_byte _ _ hi]
  | succ k ih =>
    have hgt : rem > sdfsDataSize := by
      unfold extraBlocks sdfsDataSize at hn
      unfold sdfsDataSize
      omega
    obtain ⟨nb, rest, hf⟩ := exists_cons_of_length_pos (Nat.zero_lt_of_lt hk)
    obtain ⟨halloc, hstore1, hlo, hhi, hunused⟩ := allocRaw_cons hl hf
    have hg1 := geo_allocRaw s
    set s1 := (sdfsAllocBlockRaw s).2
    have hcn : cur ≠ nb := by
      rintro rfl
      rw [hu] at hunused
      cases hunused
    have ho1 : s1.Owns cur := (owns_of_geo hg1).mpr ho
    set buf := dataBlock nb (fun i => buffer (src + i)) sdfsDataSize with hbuf
    have hstore2 : (sdfsWriteBlock s1 cur buf).store = (s.store.mark nb true).write cur buf := by
      rw [store_write (hg1 ▸ hl.valid) _ ho1.1 ho1.2, hstore1]
    have hg2 : (sdfsWriteBlock s1 cur buf).geo = s.geo := (geo_write _ _ _).trans hg1
    set s2 := sdfsWriteBlock s1 cur buf
    have htot2 := total_of_geo hg2
    have hused2 : s2.store.used = (s.store.mark nb true).used := by rw [hstore2, Store.write_used]
    obtain ⟨hfrees2, hbits2⟩ := taken hf hused2
    have hl2 : Layout s2 := hl.of_used hg2 fun b hb => by rw [hbits2, hb, Bool.true_or]
    have hnb : s2.Owns nb := (owns_of_geo hg2).mpr ⟨by omega, hhi⟩
    obtain ⟨s', new, hs', hg', hlen, hgrown, hbytes⟩ := ih hl2 hnb
      (by rw [hused2, Store.mark_used_self]) (src + sdfsDataSize)
      (rem - sdfsDataSize) (by omega)
      (by unfold extraBlocks sdfsDataSize at hn ⊢; omega)
      (by rw [htot2, hfrees2]; rw [hf, length_cons] at hk; omega)
    obtain ⟨hfrees, hused⟩ := (htot2 ▸ hgrown).cons hf hused2
    have hcur : cur ∉ nb :: new := fun hm => by
      have hm' : cur ∈ s.store.frees s.totalBlocks := by
        rw [hfrees]
        exact mem_append_left _ hm
      rw [(mem_frees.mp hm').2] at hu
      cases hu
    have hdata : s'.store.data cur = buf := by
      rw [hgrown.data cur hcur, hstore2, Store.write_data_self]
    have hround : ∀ bound n, writeLoop bound buffer start (n + 1) s cur rem src =
        writeLoop bound buffer start n s2 nb (rem - sdfsDataSize) (src + sdfsDataSize) := by
      intro bound n
      rw [writeLoop, if_neg (by omega)]
      dsimp only
      rw [if_pos hgt, if_pos hgt, halloc, if_neg (by omega)]
    refine ⟨s', nb :: new, .succ (fun _ => rfl) hround hs', hg'.trans hg2, ?_,
      ⟨?_, hfrees, hused, ?_⟩, ?_⟩
    · rw [length_cons, hlen]
    · refine ⟨rfl, by have := hl.pos; have := ho.1; omega, ?_⟩
      show Chain s'.store.next 0 (s'.store.next cur) (nb :: new)
      have hnext : s'.store.next cur = nb := by
        have := hl.valid.lt_two_pow hhi
        rw [Store.next, hdata, hbuf, blockNext_dataBlock (by omega)]
      rw [hnext]
      exact hgrown.chain
    · intro b hb
      rw [hgrown.data b fun hm => hb (.tail _ hm), hstore2, Store.write_data_ne]
      · rfl
      · exact fun heq => hb (heq ▸ (.head _))
    · intro i hi
      by_cases hlt : i < sdfsDataSize
      · rw [fileByte_cons_lt _ _ _ hlt, hdata, hbuf, dataBlock_byte _ _ hlt]
      · obtain ⟨j, rfl⟩ := Nat.exists_eq_add_of_le (Nat.le_of_not_lt hlt)
        rw [fileByte_cons_ge, hbytes j (by omega), Nat.add_assoc]

def blocksNeeded (size : Nat) : Nat := extraBlocks size + 1

theorem alloc_cons (hl : Layout s) (hf : s.store.frees s.totalBlocks = nb :: rest) :
    (sdfsAllocBlock s).1 = nb ∧
      (sdfsAllocBlock s).2.store = (s.store.mark nb true).write nb Buf.zero ∧
      s.rootBlock < nb ∧ nb < s.totalBlocks ∧ s.store.used nb = false := by
  obtain ⟨h1, h2⟩ := alloc_some hl (free?_cons hf)
  exact ⟨h1, h2, hl.free?_some (free?_cons hf)⟩

/-- A freshly zeroed block is a chain of its own. -/
theorem grown_zeroed {t : Volume} (hf : s.store.frees s.totalBlocks = nb :: rest) (hlo : s.rootBlock < nb)
    (hstore : t.store = (s.store.mark nb true).write nb Buf.zero) :
    Grown s.totalBlocks nb s.store [] t.store [nb] := by
  obtain ⟨hrest, hused⟩ := taken hf (by rw [hstore, Store.write_used] : t.store.used = _)
  refine ⟨⟨rfl, by omega, ?_⟩, ?_, fun b => ?_, fun b hb => ?_⟩
  · show t.store.next nb = 0
    rw [Store.next, hstore, Store.write_data_self]
    rfl
  · rw [hrest, hf]
    rfl
  · simp [hused]
  · have hne : b ≠ nb := fun heq => hb (by simp [heq])
    rw [hstore, Store.write_data_ne _ _ hne, Store.mark_data]

/-- With enough free blocks `sdfs_write_file` gets its chain. -/
theorem writeChain_settles (hl : Layout s) (buffer : Buf) (size : Nat)
    (hk : blocksNeeded size ≤ (s.store.frees s.totalBlocks).length) :
    ∃ start c s', Settles (writeChain · s buffer size) (start, s') ∧
      s'.geo = s.geo ∧ start ≠ 0 ∧ c.length = blocksNeeded size ∧
      Grown s.totalBlocks start s.store [] s'.store c ∧
      ∀ i < size, fileByte s'.store c i = buffer i := by
  obtain ⟨nb, rest, hf⟩ := exists_cons_of_length_pos (Nat.zero_lt_of_lt hk)
  by_cases hsize : size = 0
  · -- an empty file has one zeroed block
    subst hsize
    obtain ⟨halloc, hstore, hlo, hhi, -⟩ := alloc_cons hl hf
    refine ⟨nb, [nb], (sdfsAllocBlock s).2, .congr (fun n => ?_) (.const _), geo_alloc s,
      by omega, rfl, grown_zeroed hf hlo hstore, fun i hi => absurd hi (Nat.not_lt_zero i)⟩
    rw [writeChain, if_pos rfl, ← halloc]
  · obtain ⟨halloc, hstore1, hlo, hhi, hunused⟩ := allocRaw_cons hl hf
    have hg1 := geo_allocRaw s
    set s1 := (sdfsAllocBlockRaw s).2
    have htot1 := total_of_geo hg1
    have hused1 : s1.store.used = (s.store.mark nb true).used := by rw [hstore1]
    obtain ⟨hfrees1, hbits1⟩ := taken hf hused1
    have hl1 : Layout s1 := hl.of_used hg1 fun b hb => by rw [hbits1, hb, Bool.true_or]
    obtain ⟨s', new, hs', hg', hlen, hgrown, hbytes⟩ := writeLoop_settles hl1
      ((owns_of_geo hg1).mpr ⟨by omega, hhi⟩) (by rw [hstore1, Store.mark_used_self]) buffer nb 0 size
      (by omega) (by rw [htot1, hfrees1]; rw [hf, length_cons] at hk; exact Nat.le_of_succ_le_succ hk)
    obtain ⟨hfrees, hused⟩ := (htot1 ▸ hgrown).cons hf hused1
    refine ⟨nb, nb :: new, s', ?_, hg'.trans hg1, by omega, ?_, ⟨hgrown.chain, hfrees, hused, ?_⟩, ?_⟩
    · refine .congr (fun n => ?_) (hs'.diag.map fun x => (if x.1 then nb else 0, x.2))
      rw [writeChain, if_neg hsize]
      dsimp only
      rw [halloc, if_neg (by omega)]
    · rw [length_cons, hlen, blocksNeeded]
    · intro b hb
      rw [hgrown.data b hb, hstore1, Store.mark_data]
    · intro i hi
      rw [hbytes i hi, Nat.zero_add]

theorem writeChain_none (hf : s.store.frees s.totalBlocks = []) (buffer : Buf) (size : Nat) :
    Settles (writeChain · s buffer size) (0, s) := by
  refine .congr (fun n => ?_) (.const _)
  rw [writeChain]
  split
  · rw [alloc_none (free?_nil hf)]
  · rw [allocRaw_none (free?_nil hf)]
    rfl

/-! ## Growing a chain -/

theorem lastBlock_settles {x : Nat} {l : List Nat} (hc : Chain s.store.next 0 a (l ++ [x]))
    (hr : ∀ b ∈ l ++ [x], s.Owns b) : Settles (lastBlock s · a) x := by
  induction l generalizing a with
  | nil =>
    obtain ⟨rfl, h0, hn⟩ := hc
    have hn' : s.store.next a = 0 := hn
    refine .succ rfl (fun n => ?_) (.const a)
    rw [lastBlock, next_eq (hr a (by simp)), if_pos hn']
  | cons b l ih =>
    obtain ⟨rfl, h0, hn⟩ := hc
    have hne : s.store.next a ≠ 0 := by
      intro h0'
      cases l with
      | nil => exact hn.2.1 (hn.1.symm.trans h0')
      | cons y l => exact hn.2.1 (hn.1.symm.trans h0')
    refine .succ rfl (fun n => ?_) (ih hn fun c hc => hr c (.tail _ hc))
    rw [lastBlock, next_eq (hr a (by simp)), if_neg hne]

/-- `sdfs_append_block` on a chain, when a block is free. -/
theorem append_settles (hl : Layout s) (hc : Chain s.store.next 0 a c) (hne : c ≠ []) (hr : ∀ b ∈ c, s.Owns b)
    (hu : ∀ b ∈ c, s.store.used b = true) (hf : s.store.frees s.totalBlocks = nb :: rest) :
    ∃ s', Settles (sdfsAppendBlock · s a) (nb, s') ∧ s'.geo = s.geo ∧
      Grown s.totalBlocks a s.store c s'.store [nb] ∧
      fileByte s'.store (c ++ [nb]) = fileByte s.store c := by
  obtain ⟨l, x, rfl⟩ := (eq_nil_or_concat' c).resolve_left hne
  obtain ⟨halloc, hstore1, hlo, hhi, hunused⟩ := alloc_cons hl hf
  have hg1 := geo_alloc s
  set s1 := (sdfsAllocBlock s).2
  have hnew : ∀ b ∈ l ++ [x], b ≠ nb := by
    rintro b hb rfl
    rw [hu b hb] at hunused
    cases hunused
  -- the old chain as the volume with the new block has it
  have hdata1 : ∀ b ∈ l ++ [x], s1.store.data b = s.store.data b := fun b hb => by
    rw [hstore1, Store.write_data_ne _ _ (hnew b hb), Store.mark_data]
  have hc1 : Chain s1.store.next 0 a (l ++ [x]) :=
    hc.congr fun b hb => by rw [Store.next, Store.next, hdata1 b hb]
  have hr1 : ∀ b ∈ l ++ [x], s1.Owns b := fun b hb => (owns_of_geo hg1).mpr (hr b hb)
  have hox := hr1 x (by simp)
  set buf := setBlockNext (s.store.data x) nb with hbuf
  have hread : sdfsReadBlock s1 x = s.store.data x := by
    rw [hox.read, hdata1 x (by simp)]
  have hstore2 := store_metadataWrite (hg1 ▸ hl.valid) buf hox.1 hox.2
  set s2 := sdfsMetadataWrite s1 x buf with hs2
  obtain ⟨hrest, hused⟩ := taken hf
    (by rw [hstore2, Store.write_used, hstore1, Store.write_used] : s2.store.used = _)
  have hdata2 : ∀ b, b ≠ x → b ≠ nb → s2.store.data b = s.store.data b := fun b hbx hbn => by
    rw [hstore2, Store.write_data_ne _ _ hbx, hstore1, Store.write_data_ne _ _ hbn, Store.mark_data]
  have hx2 : s2.store.data x = buf := by rw [hstore2, Store.write_data_self]
  have hxnb : x ≠ nb := hnew x (by simp)
  have hnb2 : s2.store.data nb = Buf.zero := by
    rw [hstore2, Store.write_data_ne _ _ hxnb.symm, hstore1, Store.write_data_self]
  have hnb32 : nb < 2 ^ 32 := by
    have := hl.valid.lt_two_pow hhi
    omega
  have hnotl : ∀ b ∈ l, b ≠ x := by
    rintro b hb rfl
    exact (nodup_append.mp hc.nodup).2.2 b hb b (by simp) rfl
  refine ⟨s2, ?_, (geo_metadataWrite _ _ _).trans hg1, ⟨?_, ?_, ?_, ?_⟩, ?_⟩
  · have hlast := (lastBlock_settles hc1 hr1).map fun cur => (nb, sdfsSetNextBlock s1 cur nb)
    have hset : sdfsSetNextBlock s1 x nb = s2 := by rw [sdfsSetNextBlock, hread]
    rw [hset] at hlast
    refine .congr (fun n => ?_) hlast
    rw [sdfsAppendBlock]
    dsimp only
    rw [halloc, if_neg (by omega)]
  · refine hc.snoc (by omega) (fun y hy => ?_) ?_ ?_
    · rw [Store.next, hdata2 y (hnotl y hy) (hnew y (by simp [hy])), Store.next]
    · rw [Store.next, hx2, hbuf, blockNext_setBlockNext _ hnb32]
    · rw [Store.next, hnb2]
      rfl
  · rw [hrest, hf]
    rfl
  · intro b
    simp [hused]
  · intro b hb
    simp only [mem_append, mem_singleton, not_or] at hb
    exact hdata2 b hb.1.2 hb.2
  · rw [fileByte_append_zero _ fun b hb k _ => by rw [mem_singleton.mp hb, hnb2]; rfl]
    funext i
    refine fileByte_congr fun b hb k hk => ?_
    by_cases hbx : b = x
    · subst hbx
      rw [hx2, hbuf, setBlockNext, Buf.putU32_outside _ _ (.inr hk)]
    · rw [hdata2 b hbx (hnew b hb)]

theorem append_none (hf : s.store.frees s.totalBlocks = []) (a : Nat) : Settles (sdfsAppendBlock · s a) (0, s) := by
  refine .congr (fun n => ?_) (.const _)
  rw [sdfsAppendBlock, alloc_none (free?_nil hf)]
  rfl

/-- A node's chain as the loops of `sdfs_write` need it. -/
structure OwnChain (s : Volume) (a : Nat) (c : List Nat) : Prop where
  layout : Layout s
  chain : Chain s.store.next 0 a c
  owned : ∀ b ∈ c, s.Owns b
  used : ∀ b ∈ c, s.store.used b = true

theorem OwnChain.grown {s' : Volume} (h : OwnChain s a c) (hg : s'.geo = s.geo)
    (hgrown : Grown s.totalBlocks a s.store c s'.store new) : OwnChain s' a (c ++ new) := by
  have hmem : ∀ b ∈ new, s.Owns b := fun b hb => by
    obtain ⟨h1, h2⟩ := hgrown.mem_frees b hb
    refine ⟨?_, h1⟩
    by_contra hlt
    rw [h.layout.reserved b (by omega)] at h2
    cases h2
  refine ⟨h.layout.of_used hg fun b hb => by rw [hgrown.used, hb, Bool.true_or], hgrown.chain,
    fun b hb => (owns_of_geo hg).mpr ?_, fun b hb => ?_⟩
  · rcases mem_append.mp hb with hb | hb
    · exact h.owned b hb
    · exact hmem b hb
  · rw [hgrown.used]
    rcases mem_append.mp hb with hb | hb
    · rw [h.used b hb, Bool.true_or]
    · simp [hb]

/-- The block after position `i` of the chain, appended if there is none and
a block is free. -/
theorem nextGrow_settles (h : OwnChain s a (c1 ++ cur :: c2)) :
    (∃ next c3 s' new, Settles (seekGrow.nextGrow · a s cur) (next, s') ∧ next ≠ 0 ∧
      s'.geo = s.geo ∧ Grown s.totalBlocks a s.store (c1 ++ cur :: c2) s'.store new ∧
      c1 ++ cur :: c2 ++ new = c1 ++ [cur] ++ next :: c3 ∧
      fileByte s'.store (c1 ++ cur :: c2 ++ new) = fileByte s.store (c1 ++ cur :: c2)) ∨
    (c2 = [] ∧ s.store.frees s.totalBlocks = [] ∧
      Settles (seekGrow.nextGrow · a s cur) (0, s)) := by
  have hcur : s.Owns cur := h.owned cur (by simp)
  have hsuf : Chain s.store.next 0 cur (cur :: c2) := h.chain.suffix
  cases c2 with
  | cons y c2 =>
    have hy : s.store.next cur = y ∧ y ≠ 0 := ⟨hsuf.2.2.1, hsuf.2.2.2.1⟩
    refine .inl ⟨y, c2, s, [], .congr (fun n => ?_) (.const _), hy.2, rfl,
      Grown.refl h.chain, by simp, by rw [append_nil]⟩
    rw [seekGrow.nextGrow, next_eq hcur, hy.1, if_neg hy.2]
  | nil =>
    have hend : s.store.next cur = 0 := hsuf.2.2
    have hround : ∀ n, seekGrow.nextGrow n a s cur = sdfsAppendBlock n s a := fun n => by
      rw [seekGrow.nextGrow, next_eq hcur, if_pos hend]
    cases hf : s.store.frees s.totalBlocks with
    | nil => exact .inr ⟨rfl, rfl, .congr hround (append_none hf a)⟩
    | cons nb rest =>
      obtain ⟨s', hs', hg', hgrown, hbytes⟩ :=
        append_settles h.layout h.chain (by simp) h.owned h.used hf
      have hlo := (allocRaw_cons h.layout hf).2.2.1
      exact .inl ⟨nb, [], s', [nb], .congr hround hs', by omega, hg', hgrown, by simp, hbytes⟩

theorem seekGrow_settles (k : Nat) (h : OwnChain s a (c1 ++ cur :: c2)) :
    ∃ r s' new, Settles (seekGrow · a k s cur) (r, s') ∧ s'.geo = s.geo ∧
      Grown s.totalBlocks a s.store (c1 ++ cur :: c2) s'.store new ∧
      fileByte s'.store (c1 ++ cur :: c2 ++ new) = fileByte s.store (c1 ++ cur :: c2) ∧
      (r = none → s'.store.frees s.totalBlocks = []) ∧ ∀ cur', r = some cur' →
        ∃ d1 d2, c1 ++ cur :: c2 ++ new = d1 ++ cur' :: d2 ∧
        d1.length = c1.length + k := by
  induction k generalizing s cur c1 c2 with
  | zero =>
    refine ⟨some cur, s, [], .const _, rfl, Grown.refl h.chain, by rw [append_nil], nofun, ?_⟩
    rintro cur' heq
    cases heq
    exact ⟨c1, c2, append_nil _, rfl⟩
  | succ k ih =>
    rcases nextGrow_settles h with
      ⟨next, c3, s1, new, hs1, hne, hg1, hgrown, hsplit, hbytes⟩ | ⟨rfl, hf, hs1⟩
    · have h1 := h.grown hg1 hgrown
      rw [hsplit] at h1 hbytes
      obtain ⟨r, s', new', hs', hg', hgrown', hbytes', hnone, hpos⟩ := ih h1
      have htot := total_of_geo hg1
      rw [htot, ← hsplit] at hgrown'
      rw [← hsplit] at hbytes' hbytes hpos
      refine ⟨r, s', new ++ new', hs1.bind ?_, hg'.trans hg1, hgrown.trans hgrown', ?_, htot ▸ hnone, ?_⟩
      · exact .neg hne hs'
      · rw [← append_assoc, hbytes', hbytes]
      · intro cur' heq
        obtain ⟨d1, d2, hd, hlen⟩ := hpos cur' heq
        refine ⟨d1, d2, by rw [← append_assoc, hd], ?_⟩
        rw [hlen, length_append, length_singleton]
        omega
    · refine ⟨none, s, [], hs1.bind (.pos rfl (.const _)), rfl,
        Grown.refl h.chain, by rw [append_nil], fun _ => hf, nofun⟩

/-! ## Filling a chain -/

/-- Bytes put into one block of a chain. -/
theorem fileByte_write (src : Buf) (hnd : (c1 ++ cur :: c2).Nodup) (hn : o + n ≤ sdfsDataSize)
    {p : Nat} (hp : c1.length * sdfsDataSize + o = p) (i : Nat) :
    fileByte (σ.write cur ((σ.data cur).copy (4 + o) src n)) (c1 ++ cur :: c2) i =
      if p ≤ i ∧ i < p + n then src (i - p) else fileByte σ (c1 ++ cur :: c2) i := by
  have hi := Nat.div_add_mod i sdfsDataSize
  have hcur : (c1 ++ cur :: c2)[c1.length]? = some cur := by
    rw [getElem?_append_right le_rfl, Nat.sub_self]
    rfl
  rw [Nat.mul_comm] at hi
  unfold fileByte
  by_cases hj : i / sdfsDataSize = c1.length
  · rw [hj] at hi
    rw [hj, hcur]
    dsimp only
    rw [Store.write_data_self]
    by_cases hin : p ≤ i ∧ i < p + n
    · rw [if_pos hin, Buf.copy_inside _ _ (by omega) (by omega)]
      congr 1
      omega
    · rw [if_neg hin, Buf.copy_outside _ _ (by omega)]
  · have hout : ¬ (p ≤ i ∧ i < p + n) := by
      rintro ⟨h1, h2⟩
      apply hj
      rw [Nat.div_eq_iff (by decide : 0 < sdfsDataSize)]
      omega
    rw [if_neg hout]
    cases hb : (c1 ++ cur :: c2)[i / sdfsDataSize]? with
    | none => rfl
    | some b =>
      have hne : b ≠ cur := by
        rintro rfl
        have hlt := (List.getElem?_eq_some_iff.mp hb).1
        exact hj ((getElem?_inj hlt hnd).mp (hb.trans hcur.symm))
      dsimp only
      rw [Store.write_data_ne _ _ hne]

theorem blockNext_copy (b src : Block) : blockNext (b.copy (4 + o) src n) = blockNext b :=
  blockNext_congr fun _ _ hi => Buf.copy_outside _ _ (.inl (by omega))

/-- A block of the chain rewritten under the same link. -/
theorem OwnChain.rewrite (h : OwnChain s a c) (hm : cur ∈ c) {buf : Block}
    (hnext : blockNext buf = s.store.next cur) :
    OwnChain (sdfsWriteBlock s cur buf) a c ∧
      Grown s.totalBlocks a s.store c (sdfsWriteBlock s cur buf).store [] ∧
      (sdfsWriteBlock s cur buf).store = s.store.write cur buf := by
  have ho := h.owned cur hm
  have hstore := store_write h.layout.valid buf ho.1 ho.2
  have hgrown : Grown s.totalBlocks a s.store c (sdfsWriteBlock s cur buf).store [] := by
    rw [hstore]
    refine .of_write hm (h.chain.congr fun b _ => ?_)
    by_cases hb : b = cur
    · rw [hb, Store.next, Store.write_data_self, hnext]
    · rw [Store.next, Store.write_data_ne _ _ hb, Store.next]
  have hown := h.grown (geo_write s cur buf) hgrown
  rw [append_nil] at hown
  exact ⟨hown, hgrown, hstore⟩

/-- The write loop of `sdfs_write` from byte `o` of block `cur` on: it writes all
`r` bytes, or stops where the chain ends because no block is free. -/
theorem writeBytesLoop_settles (h : OwnChain s a (c1 ++ cur :: c2)) (buffer : Buf) (ho : o < sdfsDataSize)
    {p : Nat} (hp : c1.length * sdfsDataSize + o = p) (w r : Nat) :
    ∃ n s' new, Settles₂ (fun bound fuel => writeBytesLoop bound a buffer fuel s cur o w r) (w + n, s') ∧
      s'.geo = s.geo ∧ Grown s.totalBlocks a s.store (c1 ++ cur :: c2) s'.store new ∧ n ≤ r ∧
      p + n ≤ (c1 ++ cur :: c2 ++ new).length * sdfsDataSize ∧
      (n < r → s'.store.frees s.totalBlocks = []) ∧
      ∀ i, fileByte s'.store (c1 ++ cur :: c2 ++ new) i =
        if p ≤ i ∧ i < p + n then buffer (w + (i - p)) else fileByte s.store (c1 ++ cur :: c2) i := by
  induction r using Nat.strong_induction_on generalizing s cur c1 c2 o p w with
  | _ r ih =>
  have hlen : (c1 ++ cur :: c2).length = c1.length + 1 + c2.length := by
    rw [length_append, length_cons]
    omega
  rcases Nat.eq_zero_or_pos r with rfl | hr
  · refine ⟨0, s, [], .succ (fun _ => rfl) (fun _ _ => if_pos rfl) (.const _), rfl,
      Grown.refl h.chain, le_rfl, ?_, fun h0 => absurd h0 (Nat.lt_irrefl 0), fun i => ?_⟩
    · rw [append_nil, hlen]
      unfold sdfsDataSize at ho hp ⊢
      omega
    · rw [append_nil, if_neg (by omega)]
  · -- one block
    set m := if sdfsDataSize - o > r then r else sdfsDataSize - o with hm
    have hm0 : 0 < m ∧ m ≤ r ∧ o + m ≤ sdfsDataSize ∧ (m < r → o + m = sdfsDataSize) := by
      rw [hm]
      split <;> omega
    have hcur : cur ∈ c1 ++ cur :: c2 := by simp
    have hown := h.owned cur hcur
    have hread := hown.read
    obtain ⟨h1, hgrown1, hstore1⟩ := h.rewrite hcur
      (blockNext_copy (s.store.data cur) (fun i => buffer (w + i)) (o := o) (n := m))
    set s1 := sdfsWriteBlock s cur ((s.store.data cur).copy (4 + o) (fun i => buffer (w + i)) m)
    have hbytes1 := fileByte_write (σ := s.store) (fun i => buffer (w + i)) h.chain.nodup hm0.2.2.1 hp
    rw [← hstore1] at hbytes1
    have hround : ∀ bound n, writeBytesLoop bound a buffer (n + 1) s cur o w r =
        if r - m = 0 then some (w + m, s1) else
        (seekGrow.nextGrow bound a s1 cur).bind fun p =>
          if p.1 = 0 then some (w + m, p.2)
          else writeBytesLoop bound a buffer n p.2 p.1 0 (w + m) (r - m) := by
      intro bound n
      rw [writeBytesLoop, if_neg (by omega), hread]
    by_cases hdone : r - m = 0
    · have hmr : m = r := by omega
      refine ⟨m, s1, [], .succ (fun _ => rfl)
        (fun b n => by rw [hround, if_pos hdone]) (.const _), geo_write _ _ _, hgrown1,
        hm0.2.1, ?_, fun h0 => absurd h0 (by omega), fun i => ?_⟩
      · rw [append_nil, hlen]
        have := hm0.2.2.1
        unfold sdfsDataSize at this hp ⊢
        omega
      · rw [append_nil, hbytes1]
    · have hmo : o + m = sdfsDataSize := hm0.2.2.2 (by omega)
      rcases nextGrow_settles h1 with
        ⟨next, c3, s2, new, hs2, hne, hg2, hgrown2, hsplit, hbytes2⟩ | ⟨rfl, hf, hs2⟩
      · have hg12 : s2.geo = s.geo := hg2.trans (geo_write _ _ _)
        have h2 := h1.grown hg2 hgrown2
        rw [hsplit] at h2
        have hpos : (c1 ++ [cur]).length * sdfsDataSize + 0 = p + m := by
          rw [length_append, length_singleton, Nat.succ_mul, ← hp, Nat.add_assoc _ o, hmo, Nat.add_zero]
        obtain ⟨n, s', new', hs', hg', hgrown', hn, hcap, hstop, hbytes'⟩ :=
          ih (r - m) (by omega) h2 (by decide) hpos (w + m)
        have htot := total_of_geo hg12
        rw [htot, ← hsplit] at hgrown'
        rw [← hsplit] at hcap hbytes'
        have hgrown12 : Grown s.totalBlocks a s.store (c1 ++ cur :: c2) s2.store new :=
          hgrown1.trans (by rw [append_nil]; exact hgrown2)
        have hrest : Settles₂ (fun b n => if next = 0 then some (w + m, s2)
            else writeBytesLoop b a buffer n s2 next 0 (w + m) (r - m)) (w + m + n, s') := by
          simpa only [if_neg hne] using hs'
        refine ⟨m + n, s', new ++ new', ?_, hg'.trans hg12, hgrown12.trans hgrown', by omega, ?_,
          fun hlt => htot ▸ hstop (by omega), ?_⟩
        · rw [← Nat.add_assoc]
          exact .succ (fun _ => rfl) (fun b n => by rw [hround, if_neg hdone])
            ((Settles₂.ofFirst hs2).bind hrest)
        · rw [← append_assoc, ← Nat.add_assoc]
          exact hcap
        · intro i
          rw [← append_assoc, hbytes', hbytes2, hbytes1]
          by_cases hin : p + m ≤ i ∧ i < p + m + n
          · rw [if_pos hin, if_pos (by omega)]
            congr 1
            omega
          · rw [if_neg hin]
            by_cases hin' : p ≤ i ∧ i < p + m
            · rw [if_pos hin', if_pos (by omega)]
            · rw [if_neg hin', if_neg (by omega)]
      · -- no block left
        have hrest : Settles₂ (fun b n => if 0 = 0 then some (w + m, s1)
            else writeBytesLoop b a buffer n s1 0 0 (w + m) (r - m)) (w + m, s1) := by
          simpa only [if_true] using .const (w + m, s1)
        refine ⟨m, s1, [], .succ (fun _ => rfl) (fun b n => by rw [hround, if_neg hdone])
          ((Settles₂.ofFirst hs2).bind hrest), geo_write _ _ _, hgrown1, hm0.2.1, ?_, fun _ => hf,
          fun i => by rw [append_nil, hbytes1]⟩
        rw [append_nil, hlen, length_nil]
        unfold sdfsDataSize at hmo hp ⊢
        omega

end LiwusOS.Fs
