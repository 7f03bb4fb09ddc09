import LiwusOS.Fs.Dir
import LiwusOS.Lib.Fuel
import Mathlib.Data.List.TakeWhile

/-! # Directory blocks as lists of records

A directory block that has only been appended to, or had its last record
deleted, parses as a list of records: live entries and two-byte tombstones, one
after the other from offset 6. `DirBlock` states that; the scanners of `sdfs.c`
are then list functions. Deleting a record that is not the last one leaves no
such list: the scanners step two bytes over it and go on inside its name. -/

namespace LiwusOS.Fs
open LiwusOS.Lib List

variable {b c : Block} {e : Entry} {pos rem : Nat}

inductive Rec where
  | live (e : Entry)
  | dead
deriving DecidableEq

/-- How far a scanner steps. -/
def Rec.size : Rec → Nat
  | .live e => e.size
  | .dead => 2

/-- An entry that a scanner can find again. -/
structure Entry.Ok (e : Entry) : Prop where
  type : isTombstone e.type = false
  nonempty : 1 ≤ e.name.length
  short : e.name.length ≤ 255
  noNul : ∀ c ∈ e.name, c ≠ 0

def Holds (b : Block) (pos : Nat) : Rec → Prop
  | .live e => e.Ok ∧ entryV2 b pos = e
  | .dead => isTombstone (b pos) = true

/-- The records `rs` stand one after the other from `pos` on. -/
def Recs (b : Block) : Nat → List Rec → Prop
  | _, [] => True
  | pos, r :: rs => Holds b pos r ∧ Recs b (pos + r.size) rs

def recsSize (rs : List Rec) : Nat := (rs.map Rec.size).sum

@[simp] theorem recsSize_nil : recsSize [] = 0 := rfl

@[simp] theorem recsSize_cons (r : Rec) (rs : List Rec) : recsSize (r :: rs) = r.size + recsSize rs := by
  simp [recsSize]

@[simp] theorem recsSize_append (rs rs' : List Rec) : recsSize (rs ++ rs') = recsSize rs + recsSize rs' := by
  simp [recsSize]

theorem Rec.two_le_size (r : Rec) : 2 ≤ r.size := by
  cases r with
  | live e => show 2 ≤ 2 + e.name.length + 24; omega
  | dead => exact Nat.le_refl 2

structure DirBlock (b : Block) (rs : List Rec) : Prop where
  count : dirEntryCount b = rs.length
  recs : Recs b dirDataStart rs
  fits : recsSize rs ≤ dirDataSize

/-! ## Records and bytes -/

theorem Holds.nameLen (h : Holds b pos (.live e)) : (b (pos + 1)).toNat = e.name.length := by
  rw [← h.2, entryV2_name_length]

theorem Holds.type (h : Holds b pos (.live e)) : b pos = e.type := by
  rw [← h.2]
  rfl

theorem Holds.congr {r : Rec} (h : Holds b pos r) (he : b.EqOn c pos (pos + r.size)) : Holds c pos r := by
  cases r with
  | dead =>
    have h0 := he pos le_rfl (by show pos < pos + 2; omega)
    show isTombstone (c pos) = true
    rw [← h0]
    exact h
  | live e =>
    have hlen := h.nameLen
    refine ⟨h.1, ?_⟩
    rw [← h.2]
    refine (entryV2_congr (he.mono le_rfl ?_)).symm
    show _ ≤ pos + (2 + e.name.length + 24)
    omega

/-- How far the scanners step over it. -/
theorem Holds.step {r : Rec} (h : Holds b pos r) :
    (if isTombstone (b pos) then 2 else 2 + (b (pos + 1)).toNat + 24) = r.size := by
  cases r with
  | dead => exact if_pos h
  | live e => rw [h.type, h.1.type, if_neg Bool.false_ne_true, h.nameLen]; rfl

variable {rs rs' : List Rec}

theorem Recs.congr (h : Recs b pos rs) (he : b.EqOn c pos (pos + recsSize rs)) : Recs c pos rs := by
  induction rs generalizing pos with
  | nil => trivial
  | cons r rs ih =>
    rw [recsSize_cons] at he
    exact ⟨h.1.congr (he.mono le_rfl (by omega)),
      ih h.2 (he.mono (by omega) (by omega))⟩

theorem recs_append : Recs b pos (rs ++ rs') ↔ Recs b pos rs ∧ Recs b (pos + recsSize rs) rs' := by
  induction rs generalizing pos with
  | nil => simp [Recs]
  | cons r rs ih =>
    rw [cons_append, Recs, ih, Recs, recsSize_cons, and_assoc, Nat.add_assoc]

theorem holds_putEntry (b : Block) (pos : Nat) (h : e.Ok) : Holds (putEntry b pos e) pos (.live e) :=
  ⟨h, entryV2_putEntry b pos e h.short⟩

theorem deserialize_live (h : Holds b pos (.live e)) (hrem : e.size ≤ rem) :
    sdfsEntryDeserialize b pos rem = .entry e e.size := by
  have hlen := h.nameLen
  have hne := h.1.nonempty
  simp only [Entry.size] at hrem ⊢
  rw [sdfsEntryDeserialize, if_neg (by omega), h.type, h.1.type, if_neg Bool.false_ne_true]
  dsimp only
  rw [hlen, if_pos hrem, if_neg (by omega), h.2]

theorem deserialize_dead (h : Holds b pos .dead) (hrem : 2 ≤ rem) : sdfsEntryDeserialize b pos rem = .tombstone := by
  have ht : isTombstone (b pos) = true := h
  rw [sdfsEntryDeserialize, if_neg (by omega), if_pos ht]

/-! ## The scanners -/

theorem cString_noNul {l : List UInt8} (h : ∀ c ∈ l, c ≠ 0) : cString l = l :=
  takeWhile_eq_self_iff.mpr fun c hc => by simpa using h c hc

theorem strcmpEq_noNul {a b : List UInt8} (ha : ∀ c ∈ a, c ≠ 0) (hb : ∀ c ∈ b, c ≠ 0) :
    strcmpEq a b = decide (a = b) := by
  rw [strcmpEq, cString_noNul ha, cString_noNul hb, Bool.eq_iff_iff, beq_iff_eq, decide_eq_true_eq]

/-- The live entries among records from `pos` on, with their positions. -/
def recsAt : Nat → List Rec → List (Entry × Nat)
  | _, [] => []
  | pos, .dead :: rs => recsAt (pos + 2) rs
  | pos, .live e :: rs => (e, pos) :: recsAt (pos + e.size) rs

/-- The live entries alone. -/
def liveEntries : List Rec → List Entry
  | [] => []
  | .dead :: rs => liveEntries rs
  | .live e :: rs => e :: liveEntries rs

theorem recsAt_entries (pos : Nat) (rs : List Rec) : (recsAt pos rs).map Prod.fst = liveEntries rs := by
  induction rs generalizing pos with
  | nil => rfl
  | cons r rs ih => cases r <;> simp [recsAt, liveEntries, ih]

@[simp] theorem liveEntries_append (rs rs' : List Rec) :
    liveEntries (rs ++ rs') = liveEntries rs ++ liveEntries rs' := by
  induction rs with
  | nil => rfl
  | cons r rs ih => cases r <;> simp [liveEntries, ih]

theorem mem_recsAt {p : Nat} : (e, p) ∈ recsAt pos rs ↔
    ∃ rs1 rs2, rs = rs1 ++ .live e :: rs2 ∧ p = pos + recsSize rs1 := by
  constructor
  · intro h
    induction rs generalizing pos with
    | nil => cases h
    | cons r rs ih =>
      cases r with
      | dead =>
        have h' : (e, p) ∈ recsAt (pos + 2) rs := h
        obtain ⟨rs1, rs2, rfl, rfl⟩ := ih h'
        exact ⟨.dead :: rs1, rs2, rfl, by rw [recsSize_cons]; exact Nat.add_assoc _ _ _⟩
      | live e' =>
        rcases mem_cons.mp h with heq | h
        · cases heq
          exact ⟨[], rs, rfl, rfl⟩
        · obtain ⟨rs1, rs2, rfl, rfl⟩ := ih h
          exact ⟨.live e' :: rs1, rs2, rfl, by rw [recsSize_cons]; exact Nat.add_assoc _ _ _⟩
  · rintro ⟨rs1, rs2, rfl, rfl⟩
    induction rs1 generalizing pos with
    | nil => exact .head _
    | cons r rs1 ih =>
      rw [recsSize_cons, ← Nat.add_assoc]
      cases r with
      | dead => exact ih
      | live e' => exact .tail _ ih

theorem scanFind_recs {name : List UInt8} (hn : ∀ c ∈ name, c ≠ 0) (h : Recs b pos rs) (hrem : recsSize rs ≤ rem) :
    scanFind b name rs.length pos rem = (recsAt pos rs).find? fun x => x.1.name = name := by
  induction rs generalizing pos rem with
  | nil => rfl
  | cons r rs ih =>
    rw [recsSize_cons] at hrem
    have h2 := r.two_le_size
    rw [length_cons, scanFind, if_neg (by omega)]
    cases r with
    | dead =>
      rw [deserialize_dead h.1 (by omega)]
      exact ih h.2 (by simp only [Rec.size] at hrem; omega)
    | live e =>
      simp only [Rec.size] at hrem
      rw [deserialize_live h.1 (by omega)]
      dsimp only
      rw [strcmpEq_noNul h.1.1.noNul hn, recsAt, find?_cons]
      by_cases he : e.name = name
      · simp [he]
      · simp only [he, decide_false, Bool.false_eq_true, if_false]
        exact ih h.2 (by omega)

theorem scanIndex_recs (index : Nat) (h : Recs b pos rs) (hrem : recsSize rs ≤ rem) :
    scanIndex b rs.length pos rem index =
      match (recsAt pos rs)[index]? with
      | some x => .inl x
      | none => .inr (index - (recsAt pos rs).length) := by
  induction rs generalizing pos rem index with
  | nil => rfl
  | cons r rs ih =>
    rw [recsSize_cons] at hrem
    have h2 := r.two_le_size
    rw [length_cons, scanIndex, if_neg (by omega)]
    cases r with
    | dead =>
      rw [deserialize_dead h.1 (by omega)]
      exact ih index h.2 (by simp only [Rec.size] at hrem; omega)
    | live e =>
      simp only [Rec.size] at hrem
      rw [deserialize_live h.1 (by omega)]
      cases index with
      | zero => rfl
      | succ index =>
        rw [recsAt, getElem?_cons_succ, length_cons, Nat.add_sub_add_right]
        exact ih index h.2 (by omega)

theorem scanCount_recs (h : Recs b pos rs) (hrem : recsSize rs ≤ rem)
    (htype : ∀ e ∈ liveEntries rs, e.type = sdfsTypeFile ∨ e.type = sdfsTypeDir) :
    scanCount b rs.length pos rem = (liveEntries rs).length := by
  induction rs generalizing pos rem with
  | nil => rfl
  | cons r rs ih =>
    rw [recsSize_cons] at hrem
    have h2 := r.two_le_size
    rw [length_cons, scanCount, if_neg (by omega)]
    cases r with
    | dead =>
      have ht : isTombstone (b pos) = true := h.1
      dsimp only
      rw [if_pos ht]
      exact ih h.2 (by simp only [Rec.size] at hrem; omega) htype
    | live e =>
      simp only [Rec.size] at hrem
      have hsize : 2 + (b (pos + 1)).toNat + 24 = e.size := by rw [h.1.nameLen]; rfl
      have hcond : (e.type = sdfsTypeFile ∨ e.type = sdfsTypeDir) ∧ (b (pos + 1)).toNat > 0 := by
        refine ⟨htype e (.head _), ?_⟩
        rw [h.1.nameLen]
        exact h.1.1.nonempty
      dsimp only
      rw [h.1.type, h.1.1.type, if_neg Bool.false_ne_true, hsize, if_neg (by omega), if_pos hcond,
        Nat.add_comm]
      exact congrArg (· + 1)
        (ih h.2 (by omega) fun e' he' => htype e' (.tail _ he'))

/-- The scan of `sdfs_dir_add_entry` runs to the end: a tombstone is never
taken for a large enough slot. -/
theorem scanAdd_recs (nameLen : Nat) (h : Recs b pos rs) (hrem : recsSize rs ≤ rem) :
    scanAdd b nameLen rs.length pos rem = .tail (pos + recsSize rs) (rem - recsSize rs) := by
  induction rs generalizing pos rem with
  | nil => rfl
  | cons r rs ih =>
    rw [recsSize_cons] at hrem ⊢
    have h2 := r.two_le_size
    have hslot := h.1.step
    have hno : ¬ (isTombstone (b pos) = true ∧ r.size ≥ 2 + nameLen + 24) := by
      rintro ⟨ht, hge⟩
      rw [if_pos ht] at hslot
      omega
    rw [length_cons, scanAdd, if_neg (by omega)]
    dsimp only
    rw [hslot, if_neg hno, if_neg (by omega), ih h.2 (by omega)]
    congr 1 <;> omega

/-! ## Changing a block -/

theorem dirEntryCount_congr (h : b.EqOn c 4 6) : dirEntryCount b = dirEntryCount c := by
  rw [dirEntryCount, dirEntryCount, Buf.u16_congr h]

theorem blockNext_congr (h : b.EqOn c 0 4) : blockNext b = blockNext c := by
  rw [blockNext, blockNext, Buf.u32_congr h]

/-- A change beyond the header that leaves the record bytes alone. -/
theorem DirBlock.congr (h : DirBlock b rs) (he : b.EqOn c 4 (dirDataStart + recsSize rs)) : DirBlock c rs := by
  refine ⟨?_, h.recs.congr (he.mono (by decide) le_rfl), h.fits⟩
  rw [← dirEntryCount_congr (he.mono le_rfl (by unfold dirDataStart; omega)), h.count]

theorem dirBlock_zero : DirBlock Buf.zero [] :=
  ⟨rfl, trivial, Nat.zero_le _⟩

theorem DirBlock.setBlockNext (h : DirBlock b rs) (next : Nat) : DirBlock (setBlockNext b next) rs :=
  h.congr (Buf.eqOn_putU32 b _ (.inr (Nat.le_refl 4))).symm

theorem blockNext_setBlockNext (b : Block) {next : Nat} (h : next < 2 ^ 32) :
    blockNext (setBlockNext b next) = next := by
  rw [blockNext, setBlockNext, Buf.u32_putU32, UInt32.toNat_ofNat', Nat.mod_eq_of_lt h]

theorem two_length_le_recsSize (rs : List Rec) : 2 * rs.length ≤ recsSize rs := by
  induction rs with
  | nil => exact le_rfl
  | cons r rs ih =>
    have := r.two_le_size
    rw [length_cons, recsSize_cons]
    omega

theorem putEntry_eqOn (b : Block) (e : Entry) {lo hi : Nat} (h : hi ≤ pos ∨ pos + e.size ≤ lo) :
    b.EqOn (putEntry b pos e) lo hi :=
  fun i h1 h2 => (putEntry_outside b e (by omega)).symm

/-- The block `b` with records `rs` after `sdfs_dir_add_entry` put `e` behind them. -/
def appendRec (b : Block) (rs : List Rec) (e : Entry) : Block :=
  setDirEntryCount (putEntry b (dirDataStart + recsSize rs) e) (rs.length + 1)

theorem DirBlock.append (h : DirBlock b rs) (he : e.Ok) (hfit : recsSize rs + e.size ≤ dirDataSize) :
    DirBlock (appendRec b rs e) (rs ++ [.live e]) ∧ blockNext (appendRec b rs e) = blockNext b := by
  unfold appendRec
  have hlen := two_length_le_recsSize rs
  unfold dirDataSize at hfit
  set c := putEntry b (dirDataStart + recsSize rs) e
  -- the count lies below the records
  have hcount : ∀ {lo hi}, dirDataStart ≤ lo →
      c.EqOn (setDirEntryCount c (rs.length + 1)) lo hi := fun hlo =>
    (Buf.eqOn_putU16 c _ (.inr hlo)).symm
  have hold : b.EqOn (setDirEntryCount c (rs.length + 1)) dirDataStart (dirDataStart + recsSize rs) :=
    (putEntry_eqOn b e (.inl le_rfl)).trans (hcount le_rfl)
  refine ⟨⟨?_, recs_append.mpr ⟨h.recs.congr hold, ?_, trivial⟩, ?_⟩, ?_⟩
  · rw [dirEntryCount, setDirEntryCount, Buf.u16_putU16, UInt16.toNat_ofNat', length_append,
      length_singleton]
    exact Nat.mod_eq_of_lt (by omega)
  · exact (holds_putEntry b _ he).congr (hcount (by omega))
  · rw [recsSize_append, recsSize_cons, recsSize_nil]
    show recsSize rs + (e.size + 0) ≤ 4090
    omega
  · refine (blockNext_congr ?_).symm
    have hlow : b.EqOn c 0 4 := putEntry_eqOn b e (.inl (by unfold dirDataStart; omega))
    exact hlow.trans (Buf.eqOn_putU16 c _ (.inl (Nat.le_refl 4))).symm

/-- Deleting the last record, as `sdfs_dir_remove_entry` does. -/
theorem DirBlock.deleteLast (h : DirBlock b (rs ++ [.live e])) :
    DirBlock (b.set (dirDataStart + recsSize rs) sdfsTypeDel) (rs ++ [.dead]) ∧
    blockNext (b.set (dirDataStart + recsSize rs) sdfsTypeDel) = blockNext b := by
  have hfit := h.fits
  rw [recsSize_append, recsSize_cons, recsSize_nil] at hfit
  have h2 := (Rec.live e).two_le_size
  obtain ⟨hrecs, -⟩ := recs_append.mp h.recs
  have heq : ∀ {lo hi}, hi ≤ dirDataStart + recsSize rs →
      b.EqOn (b.set (dirDataStart + recsSize rs) sdfsTypeDel) lo hi := fun hhi =>
    (Buf.eqOn_set b _ (.inl hhi)).symm
  refine ⟨⟨?_, recs_append.mpr ⟨hrecs.congr (heq le_rfl), ?_, trivial⟩, ?_⟩, ?_⟩
  · rw [← dirEntryCount_congr (heq (by unfold dirDataStart; omega)), h.count]
    simp
  · show isTombstone (b.set _ sdfsTypeDel (dirDataStart + recsSize rs)) = true
    rw [Buf.set_self]
    rfl
  · rw [recsSize_append, recsSize_cons, recsSize_nil]
    show recsSize rs + (2 + 0) ≤ dirDataSize
    omega
  · exact (blockNext_congr (heq (by unfold dirDataStart; omega))).symm

/-- Rewriting a record in place under the same name. -/
theorem DirBlock.update {e' : Entry} (h : DirBlock b (rs ++ .live e :: rs')) (he : e'.Ok) (hname : e'.name = e.name) :
    DirBlock (putEntry b (dirDataStart + recsSize rs) e') (rs ++ .live e' :: rs') ∧
    blockNext (putEntry b (dirDataStart + recsSize rs) e') = blockNext b := by
  have hsize : e'.size = e.size := by rw [Entry.size, Entry.size, hname]
  have hfit := h.fits
  rw [recsSize_append, recsSize_cons] at hfit
  obtain ⟨hrecs, -, hrest⟩ := recs_append.mp h.recs
  refine ⟨⟨?_, recs_append.mpr ⟨?_, holds_putEntry b _ he, ?_⟩, ?_⟩, ?_⟩
  · rw [← dirEntryCount_congr (putEntry_eqOn b e' (.inl (by unfold dirDataStart; omega))), h.count]
    simp
  · exact hrecs.congr (putEntry_eqOn b e' (.inl le_rfl))
  · show Recs _ (dirDataStart + recsSize rs + e'.size) rs'
    rw [hsize]
    exact Recs.congr hrest (putEntry_eqOn b e' (.inr (by rw [hsize])))
  · rw [recsSize_append, recsSize_cons]
    show recsSize rs + (e'.size + recsSize rs') ≤ dirDataSize
    rw [hsize]
    exact hfit
  · exact (blockNext_congr (putEntry_eqOn b e' (.inl (by unfold dirDataStart; omega)))).symm

/-! ## The last record -/

/-- Where record number `k` of a block starts, as the scanners step. -/
def recordPos (b : Block) : Nat → Nat
  | 0 => dirDataStart
  | k + 1 => recordPos b k + if isTombstone (b (recordPos b k)) then 2
      else 2 + (b (recordPos b k + 1)).toNat + 24

/-- The record at `pos` is the last one of its block. -/
def IsLastRecord (b : Block) (pos : Nat) : Prop := pos = recordPos b (dirEntryCount b - 1)

instance (b : Block) (pos : Nat) : Decidable (IsLastRecord b pos) :=
  inferInstanceAs (Decidable (_ = _))

theorem recordPos_recs (h : Recs b dirDataStart (rs ++ rs')) :
    recordPos b rs.length = dirDataStart + recsSize rs := by
  induction rs using List.reverseRecOn generalizing rs' with
  | nil => rfl
  | append_singleton rs r ih =>
    rw [append_assoc] at h
    have hpos := ih h
    obtain ⟨-, hr, -⟩ := recs_append.mp h
    rw [length_append, length_singleton, recordPos, hpos, hr.step, recsSize_append, recsSize_cons,
      recsSize_nil]
    omega

/-- A live record at the last position ends the list. -/
theorem DirBlock.last_record (h : DirBlock b rs) (hm : (e, pos) ∈ recsAt dirDataStart rs)
    (hl : IsLastRecord b pos) : ∃ rs0, rs = rs0 ++ [.live e] ∧ pos = dirDataStart + recsSize rs0 := by
  obtain ⟨rs1, rs2, rfl, rfl⟩ := mem_recsAt.mp hm
  refine ⟨rs1, ?_, rfl⟩
  rw [IsLastRecord, h.count] at hl
  rcases eq_nil_or_concat' rs2 with rfl | ⟨rs3, r, rfl⟩
  · rfl
  · -- the last record would start behind this one
    exfalso
    have hsplit : rs1 ++ .live e :: (rs3 ++ [r]) = (rs1 ++ .live e :: rs3) ++ [r] := by simp
    have hlen : (rs1 ++ .live e :: (rs3 ++ [r])).length - 1 = (rs1 ++ .live e :: rs3).length := by
      simp
    have hrecs := h.recs
    rw [hsplit] at hrecs
    rw [hlen, recordPos_recs hrecs, recsSize_append, recsSize_cons] at hl
    have := (Rec.live e).two_le_size
    omega

/-! ## Packing a block -/

/-- Entries written one after another with `sdfs_entry_serialize`. -/
def packEntries (b : Block) (pos rem : Nat) : List Entry → Option Block
  | [] => some b
  | e :: es => (sdfsEntrySerialize b pos rem e).bind (packEntries · (pos + e.size) (rem - e.size) es)

/-- Records read one after another with `sdfs_entry_deserialize`, each with the
size it returned. -/
def unpackEntries (b : Block) : Nat → Nat → Nat → List (Entry × Nat)
  | 0, _, _ => []
  | k + 1, pos, rem =>
    match sdfsEntryDeserialize b pos rem with
    | .entry e size => (e, size) :: unpackEntries b k (pos + size) (rem - size)
    | _ => []

theorem packEntries_recs {es : List Entry} (b : Block) (pos : Nat) (hok : ∀ e ∈ es, e.Ok)
    (hfit : recsSize (es.map .live) ≤ rem) :
    ∃ c, packEntries b pos rem es = some c ∧ Recs c pos (es.map .live) ∧
      ∀ lo hi, hi ≤ pos → b.EqOn c lo hi := by
  induction es generalizing b pos rem with
  | nil => exact ⟨b, rfl, trivial, fun _ _ _ _ _ _ => rfl⟩
  | cons e es ih =>
    rw [map_cons, recsSize_cons] at hfit
    simp only [Rec.size] at hfit
    have hrest : recsSize (es.map .live) ≤ rem - e.size := by omega
    obtain ⟨c, hc, hrecs, heq⟩ :=
      ih (putEntry b pos e) (pos + e.size) (fun e he => hok e (.tail _ he)) hrest
    refine ⟨c, ?_, ⟨(holds_putEntry b pos (hok e (.head _))).congr (heq _ _ le_rfl), hrecs⟩,
      fun lo hi h => (putEntry_eqOn b e (.inl h)).trans (heq _ _ (by omega))⟩
    rw [packEntries, sdfsEntrySerialize, if_neg (by omega)]
    exact hc

theorem unpackEntries_recs {es : List Entry} (h : Recs b pos (es.map .live))
    (hfit : recsSize (es.map .live) ≤ rem) :
    unpackEntries b es.length pos rem = es.map fun e => (e, e.size) := by
  induction es generalizing pos rem with
  | nil => rfl
  | cons e es ih =>
    rw [map_cons, recsSize_cons] at hfit
    simp only [Rec.size] at hfit
    rw [length_cons, unpackEntries, deserialize_live h.1 (by omega)]
    exact congrArg _ (ih h.2 (by omega))

theorem liveEntries_live (es : List Entry) : liveEntries (es.map .live) = es := by
  induction es with
  | nil => rfl
  | cons e es ih => rw [map_cons, liveEntries, ih]

/-- A block that was only appended to reads back, whatever stood in it before;
an empty one ends the directory even if another block follows. -/
theorem packed_block_parses (b : Block) (es : List Entry)
    (hok : ∀ e ∈ es, (e.type = sdfsTypeFile ∨ e.type = sdfsTypeDir) ∧
      1 ≤ e.name.length ∧ e.name.length ≤ 255 ∧ ∀ c ∈ e.name, c ≠ 0)
    (hfit : (es.map Entry.size).sum ≤ dirDataSize) :
    ∃ p, packEntries b dirDataStart dirDataSize es = some p ∧
      let c := setDirEntryCount p es.length
      unpackEntries c es.length dirDataStart dirDataSize = es.map (fun e => (e, e.size)) ∧
      ∀ (s : Volume) (d : Nat), d ≠ 0 → sdfsReadBlock s d = c →
        (∀ rest, Settles (sdfsDirCountEntries s · (blockNext b)) rest →
          Settles (sdfsDirCountEntries s · d) (if es = [] then 0 else es.length + rest)) ∧
        ∀ i (hi : i < es.length), ∃ pos,
          Settles (sdfsDirFindByIndex s · d i) (some ⟨es[i], d, pos⟩) := by
  have hsize : recsSize (es.map .live) ≤ dirDataSize := by
    simpa [recsSize, Function.comp_def, Rec.size] using hfit
  have hlen := two_length_le_recsSize (es.map .live)
  rw [length_map] at hlen
  have hOk : ∀ e ∈ es, e.Ok := fun e he => by
    obtain ⟨ht, h1, h2, h3⟩ := hok e he
    exact ⟨by rcases ht with ht | ht <;> rw [ht] <;> rfl, h1, h2, h3⟩
  obtain ⟨p, hp, hrecs, heq⟩ := packEntries_recs b dirDataStart hOk hsize
  refine ⟨p, hp, ?_⟩
  intro c
  have hblock : DirBlock c (es.map .live) := by
    refine ⟨?_, hrecs.congr (Buf.eqOn_putU16 p _ (.inr le_rfl)).symm, hsize⟩
    show dirEntryCount (setDirEntryCount p es.length) = _
    rw [dirEntryCount, setDirEntryCount, Buf.u16_putU16, UInt16.toNat_ofNat', length_map]
    exact Nat.mod_eq_of_lt (by unfold dirDataSize at hsize; omega)
  have hnext : blockNext c = blockNext b := by
    refine (blockNext_congr ((heq 0 4 (by decide)).trans ?_)).symm
    exact (Buf.eqOn_putU16 p _ (.inl le_rfl)).symm
  refine ⟨unpackEntries_recs hblock.recs hsize, fun s d hd hread => ⟨fun rest hrest => ?_, fun i hi => ?_⟩⟩
  · have hscan := scanCount_recs hblock.recs hsize fun e he => (hok e (by rwa [liveEntries_live] at he)).1
    rw [← hblock.count, liveEntries_live] at hscan
    split
    · next hnil =>
      refine .succ rfl (fun n => ?_) (.const 0)
      rw [sdfsDirCountEntries, if_neg hd, hread]
      exact if_pos (by rw [hblock.count, hnil]; rfl)
    · next hne =>
      refine .succ rfl (fun n => ?_) (hrest.map (es.length + ·))
      rw [sdfsDirCountEntries, if_neg hd, hread]
      dsimp only
      rw [if_neg (by rw [hblock.count, length_map]; simpa using hne), hscan, hnext]
  · have hentry : ((recsAt dirDataStart (es.map .live))[i]?).map Prod.fst = some es[i] := by
      rw [← getElem?_map, recsAt_entries, liveEntries_live, getElem?_eq_getElem hi]
    obtain ⟨x, hx, hxe⟩ := Option.map_eq_some_iff.mp hentry
    refine ⟨x.2, .succ rfl (fun n => ?_) (.const _)⟩
    have hscan := scanIndex_recs i hblock.recs hsize
    rw [← hblock.count, hx] at hscan
    rw [sdfsDirFindByIndex, if_neg hd, hread]
    dsimp only
    rw [if_neg (by rw [hblock.count, length_map]; omega), hscan, ← hxe]

/-- A file "a" and a directory "bcd". -/
def twoEntries : List Entry :=
  [⟨sdfsTypeFile, [97], 20, 100, 5, 6, 0, 0, 6⟩, ⟨sdfsTypeDir, [98, 99, 100], 21, 0, 7, 8, 1, 1, 7⟩]

theorem packed_block_parses_two : ∃ p, packEntries Buf.zero dirDataStart dirDataSize twoEntries = some p ∧
    unpackEntries (setDirEntryCount p 2) 2 dirDataStart dirDataSize = twoEntries.zip [27, 29] ∧
    Settles (sdfsDirCountEntries (.boot fun _ => setDirEntryCount p 2) · 19) 2 ∧
    ∃ pos, Settles (sdfsDirFindByIndex (.boot fun _ => setDirEntryCount p 2) · 19 1)
      (some ⟨twoEntries[1], 19, pos⟩) := by
  have hok : ∀ e ∈ twoEntries, (e.type = sdfsTypeFile ∨ e.type = sdfsTypeDir) ∧ 1 ≤ e.name.length ∧
      e.name.length ≤ 255 ∧ ∀ c ∈ e.name, c ≠ 0 := by decide +kernel
  obtain ⟨p, hp, hunpack, hvolume⟩ := packed_block_parses Buf.zero twoEntries hok (by decide)
  obtain ⟨hcount, hindex⟩ := hvolume (.boot fun _ => setDirEntryCount p 2) 19 (by decide) rfl
  exact ⟨p, hp, hunpack, hcount 0 (.succ rfl (fun n => if_pos rfl) (.const 0)), hindex 1 (by decide)⟩

end LiwusOS.Fs
