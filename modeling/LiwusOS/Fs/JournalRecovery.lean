import LiwusOS.Fs.JournalReplay

/-! # What a reboot and a replay recover

The first section follows a freshly booted kernel through `sdfs_journal_init`
and `sdfs_journal_replay`. The second runs the journal operations and compares
what replay applies with the transaction that was pending. -/

namespace LiwusOS.Fs
open LiwusOS.Lib Function List JHeader Option

variable {i : Nat} {s t : Volume}

/-! ## Recovery across a reboot -/

/-- The journal part of `sdfs_mount` on a kernel that has just booted: all
statics of `journal.c` are zero, then the area is announced and replayed. -/
def freshMountJournal (disk : Disk) (start blocks : Nat) : Nat × Volume :=
  sdfsJournalReplay (sdfsJournalInit (Volume.boot disk) start blocks)

/-- A volume that went down with a transaction in its journal. -/
structure PendingJournal (disk : Disk) (start blocks : Nat) : Prop where
  magic : JHeader.magic (disk (lba start)) = sdfsJournalHdrMagic
  dirty : JHeader.dirty (disk (lba start)) ≠ 0
  count : JHeader.count (disk (lba start)) ≠ 0
  committed : ∀ i < (JHeader.count (disk (lba start))).toNat,
    slotLive (sdfsJournalInit (Volume.boot disk) start blocks) i = true

/-- Every pending image has reached its target (the last one, where slots share
a target) and the header is clean. -/
def Recovered (disk : Disk) (start blocks : Nat) (s : Volume) : Prop :=
  let crashed := sdfsJournalInit (Volume.boot disk) start blocks
  let n := (JHeader.count (disk (lba start))).toNat
  (∀ i < n, (∀ j < n, i < j → (slotWrite crashed j).1 ≠ (slotWrite crashed i).1) →
    sdfsReadBlock s (slotWrite crashed i).1 = (slotWrite crashed i).2) ∧
  JHeader.dirty (sdfsReadBlock s start) = 0

/-- `j_header` is NULL until some other journal function loads it, so replay
returns at its first test and no block is written. -/
theorem freshMountJournal_eq (disk : Disk) (start blocks : Nat) :
    freshMountJournal disk start blocks = (0, sdfsJournalInit (Volume.boot disk) start blocks) := by
  simp [freshMountJournal, sdfsJournalReplay, sdfsJournalInit, Volume.boot]

/-- **A freshly booted kernel recovers no pending journal**, whatever it holds. -/
theorem freshMount_never_recovers (disk : Disk) (start blocks : Nat) (h : PendingJournal disk start blocks) :
    ¬ Recovered disk start blocks (freshMountJournal disk start blocks).2 := by
  rw [freshMountJournal_eq]
  intro hr
  exact h.dirty hr.2

/-- A journal at block 2 with one committed entry: an image of ones for block 20. -/
def crashedDisk : Disk := fun l =>
  if l = lba 2 then
    let h := JHeader.setCount (JHeader.setDirty (JHeader.setMagic Buf.zero sdfsJournalHdrMagic) 1) 1
    JHeader.setCrc h (crc32Calc h 4 (sdfsBlockSize - 4))
  else if l = lba 3 then JEntry.make 1 20 (crc32Calc (fun _ => 1) 0 sdfsBlockSize)
  else if l = lba 4 then fun _ => 1
  else Buf.zero

theorem crashedDisk_pending : PendingJournal crashedDisk 2 16 := by
  have hcount : JHeader.count (crashedDisk (lba 2)) = 1 := by decide +kernel
  refine ⟨by decide +kernel, by decide +kernel, by rw [hcount]; decide, fun i hi => ?_⟩
  obtain rfl : i = 0 := by rw [hcount] at hi; simpa using hi
  have e3 : sdfsReadBlock (sdfsJournalInit (Volume.boot crashedDisk) 2 16)
      (journalEntryHdr (sdfsJournalInit (Volume.boot crashedDisk) 2 16) 0) =
      JEntry.make 1 20 (crc32Calc (fun _ => 1) 0 sdfsBlockSize) := rfl
  have e4 : sdfsReadBlock (sdfsJournalInit (Volume.boot crashedDisk) 2 16)
      (journalEntryData (sdfsJournalInit (Volume.boot crashedDisk) 2 16) 0) = fun _ => 1 := rfl
  simp [slotLive, e3, e4, JEntry.magic_make, JEntry.status_make, JEntry.crc_make]

theorem freshMount_loses_crashedDisk : ¬ ∀ disk start blocks, PendingJournal disk start blocks →
    Recovered disk start blocks (freshMountJournal disk start blocks).2 := by
  intro h
  have hr := h crashedDisk 2 16 crashedDisk_pending
  rw [freshMountJournal_eq] at hr
  exact crashedDisk_pending.dirty hr.2

theorem freshMount_never_recovers_crashedDisk : PendingJournal crashedDisk 2 16 ∧
    ¬ Recovered crashedDisk 2 16 (freshMountJournal crashedDisk 2 16).2 :=
  ⟨crashedDisk_pending, freshMount_never_recovers crashedDisk 2 16 crashedDisk_pending⟩

/-! ## Replay of the pending transaction -/

inductive JournalOp where
  | begin
  | writeBlock (target : Nat) (data : Block)
  | clean

def journalStep (s : Volume) : JournalOp → Volume
  | .begin => sdfsJournalBegin s
  | .writeBlock target data => (sdfsJournalWriteBlock s target data).2
  | .clean => sdfsJournalClean s

def journalRun (s : Volume) (ops : List JournalOp) : Volume := ops.foldl journalStep s

/-- The writes since the last `begin` or `clean`. -/
def pendingWrites (ops : List JournalOp) : List (Nat × Block) :=
  ops.foldl (fun ws op => match op with
    | .writeBlock target data => ws ++ [(target, data)]
    | _ => []) []

/-- The volume as the last `begin` or `clean` left it. -/
def transactionStart (s : Volume) (ops : List JournalOp) : Volume :=
  (ops.foldl (fun (p : Volume × Volume) op => match op with
    | .writeBlock _ _ => (p.1, journalStep p.2 op)
    | _ => (journalStep p.2 op, journalStep p.2 op)) (s, s)).1

/-- The header is in memory, valid and as on disk. -/
structure HeaderLoaded (s : Volume) : Prop where
  area : JournalArea s
  ready : s.jReady = true
  loaded : s.jHeader = some (sdfsReadBlock s s.jStart)
  magic : JHeader.magic (sdfsReadBlock s s.jStart) = sdfsJournalHdrMagic

/-- The slot the next write fills. -/
def journalFirst (s : Volume) : Nat := journalSlot s (sdfsReadBlock s s.jStart)

def HeaderIdle (s : Volume) : Prop :=
  JHeader.dirty (sdfsReadBlock s s.jStart) = 0 ∨ JHeader.count (sdfsReadBlock s s.jStart) = 0

/-- Replay applies exactly the transaction `ws`: outside the journal area it
changes nothing but targets of `ws`, and each of these ends up with the data of
its last write. -/
structure ReplayExact (s : Volume) (ws : List (Nat × Block)) : Prop where
  changed : ∀ b, Outside s b →
    sdfsReadBlock (sdfsJournalReplay s).2 b ≠ sdfsReadBlock s b → ∃ d, (b, d) ∈ ws
  last : ∀ b d, Outside s b → lastWrite ws b = some d →
    sdfsReadBlock (sdfsJournalReplay s).2 b = d

/-- The transaction `ws` begun in state `s` occupies consecutive slots without
wrapping past the last one, no other slot of `s` is live, and it targets no
journal block. -/
structure OwnsSlots (s : Volume) (ws : List (Nat × Block)) : Prop where
  noWrap : journalFirst s + ws.length ≤ s.jMaxEntries
  noStale : ∀ i < s.jMaxEntries, i < journalFirst s ∨ journalFirst s + ws.length ≤ i →
    slotLive s i = false
  targets : ∀ w ∈ ws, Outside s w.1
  counter : (JHeader.count (sdfsReadBlock s s.jStart)).toNat + ws.length < 2 ^ 32

/-- What a step of the journal leaves in place. -/
structure JournalFrame (s t : Volume) : Prop where
  start : t.jStart = s.jStart
  max : t.jMaxEntries = s.jMaxEntries
  out : ∀ b, Outside s b → sdfsReadBlock t b = sdfsReadBlock s b

theorem JournalFrame.trans {u : Volume} (h : JournalFrame s t) (h' : JournalFrame t u) : JournalFrame s u := by
  refine ⟨h'.start.trans h.start, h'.max.trans h.max, fun b hb => ?_⟩
  have hbt : Outside t b := by simpa [Outside, h.start, h.max] using hb
  rw [h'.out b hbt, h.out b hb]

/-- Saving a header with a valid magic keeps the header loaded and touches only
its block. -/
theorem saveHeader_loaded (ha : JournalArea s) (hr : s.jReady = true) {h : Block}
    (hm : JHeader.magic h = sdfsJournalHdrMagic) :
    HeaderLoaded (journalSaveHeader s h) ∧
    sdfsReadBlock (journalSaveHeader s h) s.jStart =
      JHeader.setCrc h (crc32Calc h 4 (sdfsBlockSize - 4)) ∧
    ∀ b, b < 2 ^ 29 → b ≠ s.jStart → sdfsReadBlock (journalSaveHeader s h) b = sdfsReadBlock s b := by
  have hfit := ha.fits
  have hread : sdfsReadBlock (journalSaveHeader s h) s.jStart =
      JHeader.setCrc h (crc32Calc h 4 (sdfsBlockSize - 4)) := by
    rw [journalSaveHeader, read_write_self]
  refine ⟨⟨⟨ha.slots, ha.fits⟩, hr, ?_, ?_⟩, hread, ?_⟩
  · exact congrArg some hread.symm
  · change JHeader.magic (sdfsReadBlock (journalSaveHeader s h) s.jStart) = _
    simp [hread, hm]
  · intro b hb hne
    rw [journalSaveHeader, read_write_ne _ _ (by omega) hb hne]
    rfl

/-- A header save that follows slot writes, as a whole step. -/
theorem saveHeader_frame (hl : HeaderLoaded s) (hf : JournalFrame s t) (hr : t.jReady = true) {h : Block}
    (hm : JHeader.magic h = sdfsJournalHdrMagic) :
    HeaderLoaded (journalSaveHeader t h) ∧ JournalFrame s (journalSaveHeader t h) := by
  have ha : JournalArea t := ⟨hf.max ▸ hl.area.slots, by rw [hf.start, hf.max]; exact hl.area.fits⟩
  obtain ⟨h1, _, h3⟩ := saveHeader_loaded ha hr hm
  refine ⟨h1, hf.trans ⟨rfl, rfl, fun b hb => h3 b hb.1 ?_⟩⟩
  have := hb.2
  omega

/-- What `sdfs_journal_write_block` does to the slots. -/
structure WriteStep (s t : Volume) (w : Nat × Block) : Prop where
  loaded : HeaderLoaded t
  frame : JournalFrame s t
  slot : slotPending t t.disk (journalFirst s) = some ((UInt32.ofNat w.1).toNat, w.2)
  others : ∀ i < s.jMaxEntries, i ≠ journalFirst s → slotPending t t.disk i = slotPending s s.disk i
  dirty : JHeader.dirty (sdfsReadBlock t t.jStart) = 1
  count : JHeader.count (sdfsReadBlock t t.jStart) = JHeader.count (sdfsReadBlock s s.jStart) + 1
  head : (JHeader.head (sdfsReadBlock t t.jStart)).toNat = (journalFirst s + 1) % s.jMaxEntries

theorem JHeader.advance_fields (h : Block) (idx maxEntries : Nat) :
    magic (advance h idx maxEntries) = magic h ∧ dirty (advance h idx maxEntries) = 1 ∧
    count (advance h idx maxEntries) = count h + 1 ∧
    head (advance h idx maxEntries) = UInt32.ofNat ((idx + 1) % maxEntries) := by
  simp only [advance, magic_frame, dirty_setDirty, count_frame, count_setCount, head_frame,
    head_setHead, and_self]

theorem Outside.not_cell (ha : JournalArea s) {b : Nat} (hb : Outside s b) : ¬ JournalCell s (lba b) := by
  rintro ⟨k, hk, he⟩
  have hfit := ha.fits
  have hlt := lba_inj hb.1 (by omega) he
  have hout := hb.2
  omega

/-- Saving the header leaves the slots alone. -/
theorem saveHeader_slot (ha : JournalArea s) (hi : i < s.jMaxEntries) (h : Block) :
    slotPending (journalSaveHeader s h) (journalSaveHeader s h).disk i = slotPending s s.disk i := by
  have hfit := ha.fits
  exact slotPending_cell (s := s) (k := 0) (by omega) hi (by omega) (by omega) (by omega)

theorem journalWriteBlock_step (hl : HeaderLoaded s) (w : Nat × Block) :
    WriteStep s (sdfsJournalWriteBlock s w.1 w.2).2 w := by
  have ha := hl.area
  have hfit := ha.fits
  set h := sdfsReadBlock s s.jStart
  set i := journalFirst s
  have hlt : i < s.jMaxEntries := journalSlot_lt _ ha.slots
  set hdr := JEntry.make (JHeader.sequence h + 1) (UInt32.ofNat w.1)
    (crc32Calc w.2 0 sdfsBlockSize) with hhdr
  set u := journalPutEntry s i hdr w.2
  have hstep : (sdfsJournalWriteBlock s w.1 w.2).2 =
      journalSaveHeader u (JHeader.advance h i s.jMaxEntries) := by
    rw [sdfsJournalWriteBlock, hl.loaded]
    simp only [hl.ready, Bool.not_true, Bool.false_eq_true, if_false]
    rfl
  have hdisk : u.disk = update (update s.disk (lba (s.jStart + (1 + 2 * i))) hdr)
      (lba (s.jStart + (2 + 2 * i))) w.2 := by
    rw [← journalEntryHdr_eq, ← journalEntryData_eq]
    rfl
  have hf : JournalFrame s u := by
    refine ⟨rfl, rfl, fun b hb => ?_⟩
    have hout := hb.not_cell ha
    rw [sdfsReadBlock, hdisk, update_of_ne fun he => hout ⟨_, by omega, he⟩,
      update_of_ne fun he => hout ⟨_, by omega, he⟩]
    rfl
  obtain ⟨hmagic, hdirty, hcount, hhead⟩ := advance_fields h i s.jMaxEntries
  have hm : JHeader.magic (JHeader.advance h i s.jMaxEntries) = sdfsJournalHdrMagic :=
    hmagic.trans hl.magic
  obtain ⟨hl', hf'⟩ := saveHeader_frame hl hf hl.ready hm
  obtain ⟨-, hr, -⟩ := saveHeader_loaded (s := u) ⟨ha.slots, ha.fits⟩ hl.ready hm
  rw [hstep]
  refine ⟨hl', hf', ?_, fun j hj hji => ?_, ?_, ?_, ?_⟩
  · refine (saveHeader_slot (s := u) ⟨ha.slots, ha.fits⟩ hlt _).trans ?_
    show slotPending s u.disk i = _
    rw [slotPending, hdisk, journalEntryHdr_eq, journalEntryData_eq, update_self,
      update_of_ne (lba_add_ne (by omega) (by omega) (by omega)), update_self, hhdr]
    simp [pendingWrite, JEntry.magic_make, JEntry.status_make, JEntry.crc_make, JEntry.target_make]
  · refine (saveHeader_slot (s := u) ⟨ha.slots, ha.fits⟩ hj _).trans ?_
    show slotPending s u.disk j = _
    rw [hdisk, slotPending_cell (by omega) hj (by omega) (by omega) (by omega),
      slotPending_cell (by omega) hj (by omega) (by omega) (by omega)]
  · show JHeader.dirty (sdfsReadBlock (journalSaveHeader u _) u.jStart) = 1
    rw [hr, (dirty_frame _ _).2.2.2, hdirty]
  · show JHeader.count (sdfsReadBlock (journalSaveHeader u _) u.jStart) = JHeader.count h + 1
    rw [hr, (count_frame _ _).2.2.2, hcount]
  · show (JHeader.head (sdfsReadBlock (journalSaveHeader u _) u.jStart)).toNat = (i + 1) % s.jMaxEntries
    rw [hr, (head_frame _ _).2.2.2, hhead]
    have hlt' : (i + 1) % s.jMaxEntries < s.jMaxEntries := Nat.mod_lt _ ha.slots
    rw [UInt32.toNat_ofNat', Nat.mod_eq_of_lt (by omega)]

/-! ### A whole transaction -/

def writeAll (s : Volume) (ws : List (Nat × Block)) : Volume :=
  ws.foldl (fun s w => (sdfsJournalWriteBlock s w.1 w.2).2) s

theorem writeAll_snoc (s : Volume) (ws : List (Nat × Block)) (w : Nat × Block) :
    writeAll s (ws ++ [w]) = (sdfsJournalWriteBlock (writeAll s ws) w.1 w.2).2 := by
  simp [writeAll]

/-- The slots after the writes `ws`, begun in state `s`. -/
structure Written (s t : Volume) (ws : List (Nat × Block)) : Prop where
  loaded : HeaderLoaded t
  frame : JournalFrame s t
  mine : ∀ j (hj : j < ws.length),
    slotPending t t.disk (journalFirst s + j) = some ((UInt32.ofNat ws[j].1).toNat, ws[j].2)
  others : ∀ i < s.jMaxEntries, i < journalFirst s ∨ journalFirst s + ws.length ≤ i →
    slotPending t t.disk i = slotPending s s.disk i
  dirty : ws ≠ [] → JHeader.dirty (sdfsReadBlock t t.jStart) = 1
  count : (JHeader.count (sdfsReadBlock t t.jStart)).toNat =
    ((JHeader.count (sdfsReadBlock s s.jStart)).toNat + ws.length) % 2 ^ 32
  next : journalFirst s + ws.length < s.jMaxEntries →
    journalFirst t = journalFirst s + ws.length

theorem writeAll_written (hl : HeaderLoaded s) (ws : List (Nat × Block))
    (hw : journalFirst s + ws.length ≤ s.jMaxEntries) : Written s (writeAll s ws) ws := by
  induction ws using List.reverseRecOn with
  | nil =>
    refine ⟨hl, ⟨rfl, rfl, fun _ _ => rfl⟩, ?_, fun _ _ _ => rfl, fun h => absurd rfl h, ?_, fun _ => rfl⟩
    · intro j hj
      exact absurd hj (Nat.not_lt_zero j)
    · have := (JHeader.count (sdfsReadBlock s s.jStart)).toNat_lt
      exact (Nat.mod_eq_of_lt this).symm
  | append_singleton ws w ih =>
    rw [length_append, length_singleton] at hw
    have hd := ih (by omega)
    have hfirst := hd.next (by omega)
    rw [writeAll_snoc]
    set t := writeAll s ws
    have hstep := journalWriteBlock_step hd.loaded w
    set u := (sdfsJournalWriteBlock t w.1 w.2).2
    -- a slot other than the one just filled is as `t` has it
    have hkeep : ∀ i < s.jMaxEntries, i ≠ journalFirst s + ws.length →
        slotPending u u.disk i = slotPending t t.disk i :=
      fun i hi hne => hstep.others i (by rw [hd.frame.max]; exact hi) (by rw [hfirst]; exact hne)
    refine ⟨hstep.loaded, hd.frame.trans hstep.frame, ?_, ?_, fun _ => hstep.dirty, ?_, ?_⟩
    · intro j hj
      rw [length_append, length_singleton] at hj
      by_cases hjl : j < ws.length
      · rw [getElem_append_left hjl, hkeep (journalFirst s + j) (by omega) (by omega)]
        exact hd.mine j hjl
      · obtain rfl : j = ws.length := by omega
        rw [getElem_concat_length rfl, ← hfirst]
        exact hstep.slot
    · intro i hi hout
      rw [length_append, length_singleton] at hout
      exact (hkeep i hi (by omega)).trans (hd.others i hi (by omega))
    · rw [hstep.count, UInt32.toNat_add, hd.count, length_append, length_singleton]
      simp only [UInt32.reduceToNat]
      omega
    · intro hlt
      rw [length_append, length_singleton] at hlt ⊢
      have hhead := hstep.head
      rw [hfirst, hd.frame.max, Nat.mod_eq_of_lt (by omega)] at hhead
      have hmax : u.jMaxEntries = s.jMaxEntries := hstep.frame.max.trans hd.frame.max
      rw [journalFirst, journalSlot, hhead, hmax, if_neg (by omega)]
      omega

/-! ### Replay after a run -/

/-- Loading the header again changes nothing: it is as on disk. -/
theorem HeaderLoaded.reload (hl : HeaderLoaded t) : journalLoadHeader t = t := by
  rw [journalLoadHeader, ← hl.loaded]

theorem replay_idle (hl : HeaderLoaded t) (hi : HeaderIdle t) (b : Nat) :
    sdfsReadBlock (sdfsJournalReplay t).2 b = sdfsReadBlock t b := by
  unfold HeaderIdle at hi
  rw [sdfsJournalReplay, hl.loaded, hl.ready, if_neg (by simp)]
  dsimp only
  rw [hl.reload, if_neg (not_not.mpr hl.magic), if_pos hi]

theorem replay_busy (hl : HeaderLoaded t) (hi : ¬ HeaderIdle t)
    (hout : ∀ w ∈ liveWrites t t.jMaxEntries, Outside t w.1) {b : Nat} (hb : Outside t b) :
    sdfsReadBlock (sdfsJournalReplay t).2 b =
      (lastWrite (liveWrites t t.jMaxEntries) b).getD (sdfsReadBlock t b) := by
  have hfit := hl.area.fits
  have htargets : TargetsOutside t t.disk := by
    intro i hi w hw
    refine (hout w ?_).not_cell hl.area
    rw [liveWrites_eq]
    exact mem_filterMap.mpr ⟨i, mem_range.mpr hi, hw⟩
  have hp : HeaderPending t t.disk := ⟨hl.magic, not_or.mp hi⟩
  obtain ⟨-, -, hread, -⟩ := replay_recovers htargets (by omega) (by rw [hl.loaded]; rfl) hl.ready
  rw [sdfsReadBlock, hread _ (hb.not_cell hl.area), recovered, if_pos hp, slotWrites, ← liveWrites_eq]
  exact applyWrites_lastWrite _ hb.1 fun w hw => (hout w hw).1

/-- The live slots are exactly the transaction's, in order. -/
theorem liveWrites_written {ws : List (Nat × Block)} (hd : Written s t ws) (ho : OwnsSlots s ws) {n : Nat}
    (hn : n ≤ s.jMaxEntries) : liveWrites t n = ws.take (n - journalFirst s) := by
  induction n with
  | zero => simp [liveWrites]
  | succ n ih =>
    rw [liveWrites_succ, ih (by omega)]
    have hstale : n < journalFirst s ∨ journalFirst s + ws.length ≤ n → slotPending t t.disk n = none := by
      intro hc
      rw [hd.others n (by omega) hc, slotPending_eq, ho.noStale n (by omega) hc]
      rfl
    by_cases hlo : n < journalFirst s
    · rw [hstale (.inl hlo), Nat.sub_eq_zero_of_le (by omega : n ≤ journalFirst s),
        Nat.sub_eq_zero_of_le hlo]
      simp
    · by_cases hhi : journalFirst s + ws.length ≤ n
      · rw [hstale (.inr hhi), take_of_length_le (by omega), take_of_length_le (by omega)]
        simp
      · obtain ⟨j, rfl⟩ := Nat.exists_eq_add_of_le (Nat.le_of_not_lt hlo)
        have hj : j < ws.length := by omega
        have htarget : (UInt32.ofNat ws[j].1).toNat = ws[j].1 := by
          have := (ho.targets _ (getElem_mem hj)).1
          rw [UInt32.toNat_ofNat', Nat.mod_eq_of_lt (by omega)]
        rw [hd.mine j hj, htarget, Nat.add_sub_cancel_left,
          show journalFirst s + j + 1 - journalFirst s = j + 1 by omega,
          take_succ_eq_append_getElem hj]
        rfl

theorem HeaderLoaded.begin (hl : HeaderLoaded s) : HeaderLoaded (sdfsJournalBegin s) := by
  have hb : sdfsJournalBegin s = journalSaveHeader s
      (JHeader.setCount (JHeader.setDirty (sdfsReadBlock s s.jStart) 0) 0) := by
    rw [sdfsJournalBegin]
    simp only [hl.magic, ne_eq, not_true_eq_false, if_false]
  rw [hb]
  exact (saveHeader_loaded hl.area hl.ready (by simp [hl.magic])).1

theorem clean_eq (hl : HeaderLoaded s) : ∃ h, sdfsJournalClean s = journalSaveHeader s h ∧
    JHeader.magic h = sdfsJournalHdrMagic ∧ JHeader.head h = 0 ∧ JHeader.count h = 0 := by
  rw [sdfsJournalClean, hl.loaded]
  exact ⟨_, rfl, by simp [hl.magic], by simp, by simp⟩

theorem HeaderLoaded.clean (hl : HeaderLoaded s) : HeaderLoaded (sdfsJournalClean s) := by
  obtain ⟨h, he, hm, -⟩ := clean_eq hl
  rw [he]
  exact (saveHeader_loaded hl.area hl.ready hm).1

/-- A run is its last transaction, begun in `transactionStart`. -/
theorem journalRun_transaction (hl : HeaderLoaded s) (ops : List JournalOp) :
    HeaderLoaded (transactionStart s ops) ∧ HeaderLoaded (journalRun s ops) ∧
    journalRun s ops = writeAll (transactionStart s ops) (pendingWrites ops) ∧
    journalRun s ops = (ops.foldl (fun (p : Volume × Volume) op => match op with
      | .writeBlock _ _ => (p.1, journalStep p.2 op)
      | _ => (journalStep p.2 op, journalStep p.2 op)) (s, s)).2 := by
  induction ops using List.reverseRecOn with
  | nil => exact ⟨hl, hl, rfl, rfl⟩
  | append_singleton ops op ih =>
    obtain ⟨h1, h2, h3, h4⟩ := ih
    have hrun : journalRun s (ops ++ [op]) = journalStep (journalRun s ops) op := by
      simp [journalRun]
    cases op with
    | begin =>
      simp only [transactionStart, pendingWrites, foldl_append, foldl_cons,
        foldl_nil, hrun, ← h4]
      exact ⟨h2.begin, h2.begin, rfl, trivial⟩
    | clean =>
      simp only [transactionStart, pendingWrites, foldl_append, foldl_cons,
        foldl_nil, hrun, ← h4]
      exact ⟨h2.clean, h2.clean, rfl, trivial⟩
    | writeBlock target data =>
      have hstep := journalWriteBlock_step h2 (target, data)
      have hp : pendingWrites (ops ++ [.writeBlock target data]) =
          pendingWrites ops ++ [(target, data)] := by
        simp [pendingWrites]
      have hs : transactionStart s (ops ++ [.writeBlock target data]) = transactionStart s ops := by
        simp [transactionStart]
      rw [hp, hs, writeAll_snoc, ← h3, hrun]
      refine ⟨h1, hstep.loaded, rfl, ?_⟩
      simp only [foldl_append, foldl_cons, foldl_nil, ← h4]

/-- **Replay applies exactly the pending transaction** when nothing was
journaled and the header is idle, or when the transaction did not wrap around
the slot ring and found no live slot of an earlier one beside it. -/
theorem replay_exact_of_ownsSlots {s : Volume} (hl : HeaderLoaded s) (ops : List JournalOp)
    (hc : (pendingWrites ops = [] ∧ HeaderIdle (transactionStart s ops)) ∨
      OwnsSlots (transactionStart s ops) (pendingWrites ops)) :
    ReplayExact (journalRun s ops) (pendingWrites ops) := by
  obtain ⟨hstart, hrun, heq, -⟩ := journalRun_transaction hl ops
  set s1 := transactionStart s ops
  set ws := pendingWrites ops with hws
  rcases hc with ⟨hnil, hidle⟩ | ho
  · rw [hnil] at heq ⊢
    rw [heq]
    exact ⟨fun b _ hne => absurd (replay_idle hstart hidle b) hne, fun b d _ h => by cases h⟩
  · have hd : Written s1 (journalRun s ops) ws := by
      rw [heq]
      exact writeAll_written hstart ws ho.noWrap
    set t := journalRun s ops
    have hout : ∀ b, Outside t b ↔ Outside s1 b := fun b => by
      simp only [Outside, hd.frame.start, hd.frame.max]
    have hfit : journalFirst s1 + ws.length ≤ s1.jMaxEntries := ho.noWrap
    have hlive : liveWrites t t.jMaxEntries = ws := by
      rw [hd.frame.max, liveWrites_written hd ho le_rfl, take_of_length_le (by omega)]
    have hslots : ∀ w ∈ liveWrites t t.jMaxEntries, Outside t w.1 := by
      rw [hlive]
      exact fun w hw => (hout _).mpr (ho.targets w hw)
    by_cases hidle : HeaderIdle t
    · -- an idle header means that nothing was written
      have hnil : ws = [] := by
        by_contra hne
        rcases hidle with h0 | h0
        · rw [hd.dirty hne] at h0
          exact absurd h0 (by decide)
        · have hcount := hd.count
          have hcnt := ho.counter
          have hpos := length_pos_iff.mpr hne
          rw [h0, Nat.mod_eq_of_lt hcnt] at hcount
          simp only [UInt32.reduceToNat] at hcount
          omega
      rw [hnil]
      exact ⟨fun b _ hne => absurd (replay_idle hrun hidle b) hne, fun b d _ h => by cases h⟩
    · have hread : ∀ b, Outside t b →
          sdfsReadBlock (sdfsJournalReplay t).2 b = (lastWrite ws b).getD (sdfsReadBlock t b) := by
        intro b hb
        rw [replay_busy hrun hidle hslots hb, hlive]
      refine ⟨fun b hb hne => ?_, fun b d hb hlast => by rw [hread b hb, hlast, getD_some]⟩
      cases hlast : lastWrite ws b with
      | none => exact absurd (by rw [hread b hb, hlast, getD_none]) hne
      | some d => exact ⟨d, lastWrite_isSome hlast⟩

/-- A two-slot journal at block 2 of an empty disk, opened by `sdfs_journal_begin`. -/
def emptyJournal : Volume :=
  sdfsJournalBegin (sdfsJournalInit (Volume.boot fun _ => Buf.zero) 2 5)

/-- An image to journal. -/
def oneBlock : Block := Buf.zero.set 0 1

theorem emptyJournal_eq : ∃ h, emptyJournal =
      journalSaveHeader (sdfsJournalInit (Volume.boot fun _ => Buf.zero) 2 5) h ∧
    JHeader.magic h = sdfsJournalHdrMagic ∧ JHeader.head h = 0 ∧ JHeader.count h = 0 := by
  refine ⟨JHeader.setCount (JHeader.setDirty (JHeader.setMagic Buf.zero sdfsJournalHdrMagic) 0) 0,
    ?_, by decide, by decide, by decide⟩
  rw [emptyJournal, sdfsJournalBegin, if_pos (by decide)]

theorem emptyJournal_loaded : HeaderLoaded emptyJournal ∧ journalFirst emptyJournal = 0 ∧
    (JHeader.count (sdfsReadBlock emptyJournal emptyJournal.jStart)).toNat = 0 ∧
    ∀ b, b < 2 ^ 29 → b ≠ 2 → sdfsReadBlock emptyJournal b = Buf.zero := by
  obtain ⟨h, he, hm, hh, hc⟩ := emptyJournal_eq
  obtain ⟨h1, h2, h3⟩ := saveHeader_loaded
    (s := sdfsJournalInit (Volume.boot fun _ => Buf.zero) 2 5) ⟨by decide, by decide⟩ rfl hm
  rw [← he] at h1 h2 h3
  have h2' : sdfsReadBlock emptyJournal emptyJournal.jStart =
      JHeader.setCrc h (crc32Calc h 4 (sdfsBlockSize - 4)) := h2
  refine ⟨h1, ?_, ?_, fun b hb hne => h3 b hb hne⟩
  · rw [journalFirst, journalSlot, h2', (head_frame _ _).2.2.2, hh]
    rfl
  · rw [h2', (count_frame _ _).2.2.2, hc]
    rfl

theorem outside_emptyJournal (hf : JournalFrame emptyJournal t) {b : Nat} (h1 : 100 ≤ b) (h2 : b < 200) :
    Outside t b :=
  ⟨by omega, .inr (by rw [hf.start, hf.max]; show 2 + 2 * 2 < b; omega)⟩

theorem emptyJournal_ownsSlots : OwnsSlots emptyJournal [(100, oneBlock), (101, oneBlock)] := by
  obtain ⟨hl, hfirst, hcount, hzero⟩ := emptyJournal_loaded
  refine ⟨by rw [hfirst]; decide, ?_, ?_, by rw [hcount]; decide⟩
  · intro i hi _
    have hi' : i < 2 := hi
    have hH : journalEntryHdr emptyJournal i < 2 ^ 29 ∧ journalEntryHdr emptyJournal i ≠ 2 := by
      show 2 + 1 + 2 * i < 2 ^ 29 ∧ 2 + 1 + 2 * i ≠ 2
      omega
    have hz : JEntry.magic (Buf.zero : Block) = 0 := by decide
    rw [slotLive, hzero _ hH.1 hH.2, hz]
    rfl
  · intro w hw
    have hw' : w.1 = 100 ∨ w.1 = 101 := by
      rcases mem_pair.mp hw with rfl | rfl
      · exact .inl rfl
      · exact .inr rfl
    exact outside_emptyJournal ⟨rfl, rfl, fun _ _ => rfl⟩ (by omega) (by omega)

/-- Two images are journaled into an empty journal and replayed. -/
theorem replay_exact_emptyJournal :
    ReplayExact (journalRun emptyJournal [.writeBlock 100 oneBlock, .writeBlock 101 oneBlock])
      [(100, oneBlock), (101, oneBlock)] :=
  replay_exact_of_ownsSlots emptyJournal_loaded.1
    [.writeBlock 100 oneBlock, .writeBlock 101 oneBlock] (.inr emptyJournal_ownsSlots)

/-- The images of blocks 100 and 101 are journaled and the journal is cleaned;
then block 100 is journaled again. Slot 1 still holds the old image of 101. -/
def staleRun : List JournalOp :=
  [.writeBlock 100 oneBlock, .writeBlock 101 oneBlock, .clean, .writeBlock 100 oneBlock]

/-- Slot 1 is live at the end of `staleRun`, and block 101 has not been written. -/
theorem staleRun_slots : HeaderLoaded (journalRun emptyJournal staleRun) ∧
    JournalFrame emptyJournal (journalRun emptyJournal staleRun) ∧
    ¬ HeaderIdle (journalRun emptyJournal staleRun) ∧
    liveWrites (journalRun emptyJournal staleRun) 2 = [(100, oneBlock), (101, oneBlock)] ∧
    sdfsReadBlock (journalRun emptyJournal staleRun) 101 = Buf.zero := by
  obtain ⟨hl, hfirst, -, hzero⟩ := emptyJournal_loaded
  have hw := writeAll_written hl [(100, oneBlock), (101, oneBlock)] (by rw [hfirst]; decide)
  set t := writeAll emptyJournal [(100, oneBlock), (101, oneBlock)]
  obtain ⟨h, hclean, hm, hhead, hcount⟩ := clean_eq hw.loaded
  obtain ⟨hcl, hcf⟩ := saveHeader_frame hw.loaded ⟨rfl, rfl, fun _ _ => rfl⟩ hw.loaded.ready hm
  obtain ⟨-, hcr, -⟩ := saveHeader_loaded hw.loaded.area hw.loaded.ready hm
  rw [← hclean] at hcl hcf hcr
  set u := sdfsJournalClean t
  have hu0 : journalFirst u = 0 := by
    have : sdfsReadBlock u u.jStart = _ := (congrArg _ hcf.start).trans hcr
    rw [journalFirst, this, journalSlot, (head_frame _ _).2.2.2, hhead]
    exact ite_self 0
  have hs := journalWriteBlock_step hcl (100, oneBlock)
  have hrun : journalRun emptyJournal staleRun = (sdfsJournalWriteBlock u 100 oneBlock).2 := rfl
  rw [hrun]
  set v := (sdfsJournalWriteBlock u 100 oneBlock).2
  have hmax : t.jMaxEntries = 2 := hw.frame.max
  have humax : u.jMaxEntries = 2 := hcf.max.trans hmax
  -- slot 1 is as the first transaction left it
  have hut : slotPending u u.disk 1 = slotPending t t.disk 1 := by
    rw [hclean]
    exact saveHeader_slot hw.loaded.area (by rw [hmax]; decide) h
  have hvu : slotPending v v.disk 1 = slotPending u u.disk 1 :=
    hs.others 1 (by rw [humax]; decide) (by rw [hu0]; decide)
  have ht1 := hw.mine 1 (by decide)
  rw [hfirst] at ht1
  have h0 := hs.slot
  rw [hu0] at h0
  have hfv : JournalFrame emptyJournal v := (hw.frame.trans hcf).trans hs.frame
  refine ⟨hs.loaded, hfv, ?_, ?_, ?_⟩
  · rintro (hd | hd)
    · rw [hs.dirty] at hd
      exact absurd hd (by decide)
    · rw [hs.count, (congrArg _ hcf.start).trans hcr, (count_frame _ _).2.2.2,
        hcount] at hd
      exact absurd hd (by decide)
  · rw [liveWrites_succ, liveWrites_succ, h0, hvu.trans (hut.trans ht1)]
    rfl
  · have hout : Outside emptyJournal 101 :=
      outside_emptyJournal ⟨rfl, rfl, fun _ _ => rfl⟩ (by decide) (by decide)
    rw [hfv.out 101 hout, hzero 101 (by decide) (by decide)]

/-- Replay rewrites block 101, which the pending transaction does not name. -/
theorem replay_applies_stale_slot : HeaderLoaded emptyJournal ∧
    (pendingWrites staleRun).length ≤ emptyJournal.jMaxEntries ∧
    ¬ ReplayExact (journalRun emptyJournal staleRun) (pendingWrites staleRun) := by
  obtain ⟨hl, hf, hbusy, hlive, hzero⟩ := staleRun_slots
  refine ⟨emptyJournal_loaded.1, by decide, fun hex => ?_⟩
  set t := journalRun emptyJournal staleRun
  have hmax : t.jMaxEntries = 2 := hf.max
  have hout : Outside t 101 := outside_emptyJournal hf (by decide) (by decide)
  have hslots : ∀ w ∈ liveWrites t t.jMaxEntries, Outside t w.1 := by
    rw [hmax, hlive]
    intro w hw
    rcases mem_pair.mp hw with rfl | rfl
    · exact outside_emptyJournal hf (by decide) (by decide)
    · exact hout
  have hread := replay_busy hl hbusy hslots hout
  rw [hmax, hlive] at hread
  have hlast : lastWrite [(100, oneBlock), (101, oneBlock)] 101 = some oneBlock := rfl
  rw [hlast, getD_some] at hread
  -- byte 0 of block 101 goes from 0 to 1
  obtain ⟨d, hd⟩ := hex.changed 101 hout fun heq => by
    have h0 : oneBlock 0 = (Buf.zero : Block) 0 := by rw [← hread, heq, hzero]
    exact absurd h0 (by decide)
  have hp : pendingWrites staleRun = [(100, oneBlock)] := rfl
  rw [hp, mem_singleton] at hd
  exact absurd (congrArg Prod.fst hd) (by simp)

end LiwusOS.Fs
