import LiwusOS.Fs.Store

/-! # Journal replay

`sdfs_journal_replay` walks all slots in index order and applies every one
that is committed with a matching CRC; neither the sequence number nor the
count is consulted. So its effect is that of the live slots, oldest index
first, whichever transaction filled them. A slot's block is written to its target
before the slot is marked, so the disk always asks for the writes that are still to
be made, over one that holds those made so far. -/

namespace LiwusOS.Fs
open LiwusOS.Lib Function List Buf

/-! ## Header fields -/

section Fields

variable (h : Block) (v : UInt32)

@[simp] theorem JHeader.dirty_setDirty : dirty (setDirty h v) = v := u32_putU32 _ _ _
@[simp] theorem JHeader.count_setCount : count (setCount h v) = v := u32_putU32 _ _ _
@[simp] theorem JHeader.head_setHead : head (setHead h v) = v := u32_putU32 _ _ _

@[simp] theorem JHeader.magic_frame : magic (setDirty h v) = magic h ∧ magic (setCount h v) = magic h ∧
    magic (setHead h v) = magic h ∧ magic (setSequence h v) = magic h ∧
    magic (setCrc h v) = magic h := by
  simp (disch := omega) only [magic, setDirty, setCount, setHead, setSequence, setCrc,
    u32_putU32_ne, and_self]

@[simp] theorem JHeader.dirty_frame : dirty (setCount h v) = dirty h ∧ dirty (setHead h v) = dirty h ∧
    dirty (setSequence h v) = dirty h ∧ dirty (setCrc h v) = dirty h := by
  simp (disch := omega) only [dirty, setCount, setHead, setSequence, setCrc, u32_putU32_ne, and_self]

@[simp] theorem JHeader.count_frame : count (setDirty h v) = count h ∧ count (setHead h v) = count h ∧
    count (setSequence h v) = count h ∧ count (setCrc h v) = count h := by
  simp (disch := omega) only [count, setDirty, setHead, setSequence, setCrc, u32_putU32_ne, and_self]

@[simp] theorem JHeader.head_frame : head (setDirty h v) = head h ∧ head (setCount h v) = head h ∧
    head (setSequence h v) = head h ∧ head (setCrc h v) = head h := by
  simp (disch := omega) only [head, setDirty, setCount, setSequence, setCrc, u32_putU32_ne, and_self]

end Fields

section
variable (sequence target crc : UInt32)
include sequence

theorem JEntry.magic_make : magic (make sequence target crc) = sdfsJournalMagic := by
  rw [magic, make]
  simp (disch := omega) only [u32_putU32_ne, u32_set_ne, u32_putU32]

theorem JEntry.status_make : status (make sequence target crc) = journalStatusCommitted := by
  rw [status, make, putU32_outside _ _ (by omega), putU32_outside _ _ (by omega),
    set_self]

theorem JEntry.target_make : targetBlock (make sequence target crc) = target := by
  rw [targetBlock, make, u32_putU32_ne _ _ (by omega), u32_putU32]

theorem JEntry.crc_make : entryCrc (make sequence target crc) = crc := by
  rw [entryCrc, make, u32_putU32]

end

/-! ## The journal area -/

/-- The area has at least one slot and addresses of its own. -/
structure JournalArea (s : Volume) : Prop where
  slots : 0 < s.jMaxEntries
  fits : s.jStart + 2 * s.jMaxEntries < 2 ^ 29

/-- A block outside the journal area. -/
def Outside (s : Volume) (b : Nat) : Prop :=
  b < 2 ^ 29 ∧ (b < s.jStart ∨ s.jStart + 2 * s.jMaxEntries < b)

/-- The write slot `i` asks for. -/
def slotWrite (s : Volume) (i : Nat) : Nat × Block :=
  ((JEntry.targetBlock (sdfsReadBlock s (journalEntryHdr s i))).toNat,
    sdfsReadBlock s (journalEntryData s i))

/-- The writes of the live slots below `n`, in index order. -/
def liveWrites (s : Volume) : Nat → List (Nat × Block)
  | 0 => []
  | n + 1 => liveWrites s n ++ if slotLive s n then [slotWrite s n] else []

/-- The data of the last write to `b` in a list of writes. -/
def lastWrite (ws : List (Nat × Block)) (b : Nat) : Option Block :=
  (ws.reverse.find? fun w => w.1 = b).map Prod.snd

theorem lastWrite_snoc (ws : List (Nat × Block)) (w : Nat × Block) (b : Nat) :
    lastWrite (ws ++ [w]) b = if w.1 = b then some w.2 else lastWrite ws b := by
  unfold lastWrite
  rw [reverse_append]
  by_cases h : w.1 = b <;> simp [h]

theorem lastWrite_isSome {ws : List (Nat × Block)} {b : Nat} {d : Block}
    (h : lastWrite ws b = some d) : (b, d) ∈ ws := by
  induction ws using List.reverseRecOn with
  | nil => cases h
  | append_singleton ws w ih =>
    rw [lastWrite_snoc] at h
    split at h
    · rename_i hb
      cases h
      subst hb
      simp
    · exact mem_append_left _ (ih h)

/-- The writes of a list, the first one first. -/
def applyWrites (d : Disk) (ws : List (Nat × Block)) : Disk := ws.foldl (fun d w => update d (lba w.1) w.2) d

theorem applyWrites_congr {A : Nat → Prop} {d d' : Disk} (ws : List (Nat × Block)) (h : ∀ l, ¬ A l → d' l = d l) :
    ∀ l, ¬ A l → applyWrites d' ws l = applyWrites d ws l := by
  induction ws generalizing d d' with
  | nil => exact h
  | cons w ws ih =>
    refine ih fun l hl => ?_
    show update d' (lba w.1) w.2 l = update d (lba w.1) w.2 l
    rw [update_apply, update_apply, h l hl]

theorem applyWrites_lastWrite (d : Disk) {ws : List (Nat × Block)} {b : Nat} (hb : b < 2 ^ 29)
    (h : ∀ w ∈ ws, w.1 < 2 ^ 29) : applyWrites d ws (lba b) = (lastWrite ws b).getD (d (lba b)) := by
  induction ws using List.reverseRecOn with
  | nil => rfl
  | append_singleton ws w ih =>
    have hlast : applyWrites d (ws ++ [w]) = update (applyWrites d ws) (lba w.1) w.2 := by
      rw [applyWrites, foldl_append]
      rfl
    rw [lastWrite_snoc, hlast]
    split
    · rename_i hw
      rw [hw, update_self]
      rfl
    · rename_i hw
      have hne : lba b ≠ lba w.1 := fun he => hw (lba_inj hb (h w (by simp)) he).symm
      rw [update_of_ne hne, ih fun w hw => h w (mem_append_left _ hw)]

/-! ## What a disk asks for -/

/-- The addresses of the journal. -/
def JournalCell (s : Volume) (l : Nat) : Prop := ∃ k ≤ 2 * s.jMaxEntries, l = lba (s.jStart + k)

/-- The write that a slot of these two blocks asks for. -/
def pendingWrite (hdr data : Block) : Option (Nat × Block) :=
  if JEntry.magic hdr == sdfsJournalMagic && JEntry.status hdr == journalStatusCommitted &&
      JEntry.entryCrc hdr == crc32Calc data 0 sdfsBlockSize then some ((JEntry.targetBlock hdr).toNat, data)
  else none

def slotPending (s : Volume) (d : Disk) (i : Nat) : Option (Nat × Block) :=
  pendingWrite (d (lba (journalEntryHdr s i))) (d (lba (journalEntryData s i)))

def slotWrites (s : Volume) (d : Disk) : List (Nat × Block) :=
  (List.range s.jMaxEntries).filterMap (slotPending s d)

def HeaderPending (s : Volume) (d : Disk) : Prop :=
  let h := d (lba s.jStart)
  JHeader.magic h = sdfsJournalHdrMagic ∧ JHeader.dirty h ≠ 0 ∧ JHeader.count h ≠ 0

/-- No live slot writes into the journal. -/
def TargetsOutside (s : Volume) (d : Disk) : Prop :=
  ∀ i < s.jMaxEntries, ∀ w, slotPending s d i = some w → ¬ JournalCell s (lba w.1)

open Classical in
/-- The disk a replay is to leave, apart from the journal. -/
noncomputable def recovered (s : Volume) (d : Disk) : Disk :=
  if HeaderPending s d then applyWrites d (slotWrites s d) else d

variable {s : Volume} {d d' : Disk} {i n : Nat} {w : Nat × Block}

theorem slotPending_eq (s : Volume) (i : Nat) :
    slotPending s s.disk i = if slotLive s i then some (slotWrite s i) else none := rfl

theorem liveWrites_succ (s : Volume) (n : Nat) :
    liveWrites s (n + 1) = liveWrites s n ++ (slotPending s s.disk n).toList := by
  rw [liveWrites, slotPending_eq]
  split <;> rfl

theorem liveWrites_eq (s : Volume) (n : Nat) : liveWrites s n = (List.range n).filterMap (slotPending s s.disk) := by
  induction n with
  | zero => rfl
  | succ n ih =>
    rw [liveWrites_succ, ih, range_succ, filterMap_append, filterMap_cons]
    cases slotPending s s.disk n <;> rfl

theorem journalEntryHdr_eq (s : Volume) (i : Nat) : journalEntryHdr s i = s.jStart + (1 + 2 * i) := Nat.add_assoc ..

theorem journalEntryData_eq (s : Volume) (i : Nat) : journalEntryData s i = s.jStart + (2 + 2 * i) := by
  rw [journalEntryData, journalEntryHdr_eq]
  omega

theorem slotPending_update {l : Nat} {x : Block} (hh : lba (journalEntryHdr s i) ≠ l)
    (hd : lba (journalEntryData s i) ≠ l) : slotPending s (update d l x) i = slotPending s d i :=
  congrArg₂ pendingWrite (update_of_ne hh _ _) (update_of_ne hd _ _)

theorem slotPending_outside {l : Nat} {x : Block} (hl : ¬ JournalCell s l) (hi : i < s.jMaxEntries) :
    slotPending s (update d l x) i = slotPending s d i :=
  slotPending_update (fun h => hl ⟨1 + 2 * i, by omega, by rw [← h, journalEntryHdr_eq]⟩)
    fun h => hl ⟨2 + 2 * i, by omega, by rw [← h, journalEntryData_eq]⟩

/-- The blocks of the journal lie side by side, so they have addresses of their own. -/
theorem lba_add_ne {a j k : Nat} (hj : j < 2 ^ 29) (hk : k < 2 ^ 29) (h : j ≠ k) : lba (a + j) ≠ lba (a + k) := by
  simp only [lba, sdfsSectorsPerBlock]
  omega

theorem slotPending_cell {k : Nat} {x : Block} (hfit : 2 * s.jMaxEntries < 2 ^ 29) (hi : i < s.jMaxEntries)
    (hk : k < 2 ^ 29) (h1 : k ≠ 1 + 2 * i) (h2 : k ≠ 2 + 2 * i) :
    slotPending s (update d (lba (s.jStart + k)) x) i = slotPending s d i := by
  refine slotPending_update ?_ ?_
  · rw [journalEntryHdr_eq]
    exact lba_add_ne (by omega) hk h1.symm
  · rw [journalEntryData_eq]
    exact lba_add_ne (by omega) hk h2.symm

theorem pendingWrite_replayed (data : Block) : pendingWrite (Buf.zero.set 0 journalStatusReplayed) data = none := by
  have hmagic : (JEntry.magic (Buf.zero.set 0 journalStatusReplayed) == sdfsJournalMagic) = false := by decide
  simp [pendingWrite, hmagic]

/-- With the slots below `n` done, slot `n` comes first. -/
theorem slotWrites_split (h : n < s.jMaxEntries) (hdone : ∀ i < n, slotPending s d i = none) :
    slotWrites s d = (slotPending s d n).toList ++
      (List.range' (n + 1) (s.jMaxEntries - (n + 1))).filterMap (slotPending s d) := by
  have hrange := range'_append_1 (s := 0) (m := n) (n := s.jMaxEntries - (n + 1) + 1)
  rw [Nat.zero_add, show n + (s.jMaxEntries - (n + 1) + 1) = s.jMaxEntries by omega, ← range_eq_range',
    ← range_eq_range', range'_succ] at hrange
  have hnil : (List.range n).filterMap (slotPending s d) = [] :=
    filterMap_eq_nil_iff.mpr fun i hi => hdone i (mem_range.mp hi)
  rw [slotWrites, ← hrange, filterMap_append, hnil, nil_append, filterMap_cons]
  cases slotPending s d n <;> rfl

/-! ## The rounds of a replay -/

/-- On the way from the disk `d` the same result is in sight, and the slots below `n` are done. -/
structure Running (s : Volume) (d d' : Disk) (n : Nat) : Prop where
  header : d' (lba s.jStart) = d (lba s.jStart)
  done : ∀ i < n, slotPending s d' i = none
  outside : TargetsOutside s d'
  redo : ∀ l, ¬ JournalCell s l → applyWrites d' (slotWrites s d') l = applyWrites d (slotWrites s d) l

/-- The write to the target is made once more by the slot, which is still live. -/
theorem Running.put (h : Running s d d' n) (hn : n < s.jMaxEntries) (hw : slotPending s d' n = some w) :
    Running s d (update d' (lba w.1) w.2) n := by
  have hout := h.outside n hn w hw
  have hsame : ∀ i < s.jMaxEntries, slotPending s (update d' (lba w.1) w.2) i = slotPending s d' i :=
    fun i hi => slotPending_outside hout hi
  refine ⟨?_, fun i hi => ?_, fun i hi w' hw' => ?_, fun l hl => ?_⟩
  · exact (update_of_ne (fun he => hout ⟨0, Nat.zero_le _, he.symm⟩) _ _).trans h.header
  · rw [hsame i (by omega)]
    exact h.done i hi
  · exact h.outside i hi w' (by rwa [hsame i hi] at hw')
  · have hlist : slotWrites s (update d' (lba w.1) w.2) = slotWrites s d' :=
      filterMap_congr fun i hi => hsame i (mem_range.mp hi)
    have hagain : ∀ ws, applyWrites (update d' (lba w.1) w.2) (w :: ws) = applyWrites d' (w :: ws) := by
      intro ws
      rw [applyWrites, foldl_cons, update_idem]
      rfl
    rw [hlist, ← h.redo l hl, slotWrites_split hn h.done, hw]
    exact congrFun (hagain _) l

/-- A slot whose block is in place is marked. -/
theorem Running.mark (h : Running s d d' n) (hn : n < s.jMaxEntries) (hfit : 2 * s.jMaxEntries < 2 ^ 29)
    (hw : slotPending s d' n = some w) (hput : d' (lba w.1) = w.2) :
    Running s d (update d' (lba (journalEntryHdr s n)) (Buf.zero.set 0 journalStatusReplayed)) (n + 1) := by
  have hself : slotPending s (update d' (lba (journalEntryHdr s n)) (Buf.zero.set 0 journalStatusReplayed)) n =
      none := by
    rw [slotPending, update_self]
    exact pendingWrite_replayed _
  rw [journalEntryHdr_eq] at hself ⊢
  set m := update d' (lba (s.jStart + (1 + 2 * n))) (Buf.zero.set 0 journalStatusReplayed)
  have hsame : ∀ i < s.jMaxEntries, i ≠ n → slotPending s m i = slotPending s d' i :=
    fun i hi hin => slotPending_cell hfit hi (by omega) (by omega) (by omega)
  have hdone : ∀ i < n + 1, slotPending s m i = none := by
    intro i hi
    rcases Nat.lt_succ_iff_lt_or_eq.mp hi with hi | rfl
    · rw [hsame i (by omega) (by omega)]
      exact h.done i hi
    · exact hself
  refine ⟨?_, hdone, fun i hi w hw => ?_, fun l hl => ?_⟩
  · exact (update_of_ne (lba_add_ne (j := 0) (by omega) (by omega) (by omega)) _ _).trans h.header
  · by_cases hin : i = n
    · rw [hin, hself] at hw
      cases hw
    · exact h.outside i hi w (by rwa [hsame i hi hin] at hw)
  · have hrest : slotWrites s m = (List.range' (n + 1) (s.jMaxEntries - (n + 1))).filterMap (slotPending s d') := by
      rw [slotWrites_split hn fun i hi => hdone i (by omega), hself]
      refine filterMap_congr fun i hi => ?_
      rw [mem_range'_1] at hi
      exact hsame i (by omega) (by omega)
    rw [hrest, ← h.redo l hl, slotWrites_split hn h.done, hw]
    show applyWrites _ _ l = applyWrites (update d' (lba w.1) w.2) _ l
    rw [← hput, update_eq_self]
    refine applyWrites_congr (A := JournalCell s) _ (fun l hl => ?_) l hl
    exact update_of_ne (fun he => hl ⟨1 + 2 * n, by omega, he⟩) _ _

/-- What replay makes of the disk `d'` is what it makes of `d`. -/
structure Resumes (s : Volume) (d d' : Disk) : Prop where
  outside : TargetsOutside s d'
  same : ∀ l, ¬ JournalCell s l → recovered s d' l = recovered s d l

theorem Running.resumes (h : Running s d d' n) (hp : HeaderPending s d) : Resumes s d d' := by
  have hp' : HeaderPending s d' := by
    rw [HeaderPending, h.header]
    exact hp
  refine ⟨h.outside, fun l hl => ?_⟩
  rw [recovered, if_pos hp', recovered, if_pos hp]
  exact h.redo l hl

theorem replaySlot_none (h : slotPending s s.disk n = none) : replaySlot s n = s := by
  rw [slotPending_eq] at h
  exact if_neg fun hlive => by rw [if_pos hlive] at h; cases h

theorem replaySlot_some (h : slotPending s s.disk n = some w) :
    replaySlot s n = sdfsWriteBlock (sdfsWriteBlock s w.1 w.2) (journalEntryHdr s n)
      (Buf.zero.set 0 journalStatusReplayed) := by
  rw [slotPending_eq] at h
  split at h
  · rename_i hlive
    cases h
    exact if_pos hlive
  · cases h

/-- The disks gone through, from the last one back. -/
theorem replaySlots_running (h : TargetsOutside s s.disk) (hp : HeaderPending s s.disk)
    (hfit : 2 * s.jMaxEntries < 2 ^ 29) : n ≤ s.jMaxEntries → ∃ d p,
      (replaySlots s n).2 = { s with disk := d, past := p ++ s.past } ∧ Running s s.disk d n ∧
      ∀ x ∈ d :: p, Resumes s s.disk x := by
  induction n with
  | zero =>
    have hrun : Running s s.disk s.disk 0 := ⟨rfl, nofun, h, fun _ _ => rfl⟩
    exact fun _ => ⟨s.disk, [], rfl, hrun, forall_mem_singleton.mpr (hrun.resumes hp)⟩
  | succ n ih =>
    intro hn
    obtain ⟨d, p, heq, hrun, hall⟩ := ih (by omega)
    have hstep : (replaySlots s (n + 1)).2 = replaySlot (replaySlots s n).2 n := rfl
    rw [hstep, heq]
    cases hw : slotPending s d n with
    | none =>
      refine ⟨d, p, replaySlot_none hw, { hrun with done := fun i hi => ?_ }, hall⟩
      rcases Nat.lt_succ_iff_lt_or_eq.mp hi with hi | rfl
      · exact hrun.done i hi
      · exact hw
    | some w =>
      have hput := hrun.put hn hw
      have hmark := hput.mark hn hfit ((slotPending_outside (hrun.outside n hn w hw) hn).trans hw) (update_self _ _ _)
      exact ⟨_, _ :: d :: p, replaySlot_some hw, hmark, forall_mem_cons.mpr ⟨hmark.resumes hp,
        forall_mem_cons.mpr ⟨hput.resumes hp, hall⟩⟩⟩

/-- With all slots done a cleared header leaves what there was to recover. -/
theorem Running.save (h : Running s d d' s.jMaxEntries) (hp : HeaderPending s d) (hfit : 2 * s.jMaxEntries < 2 ^ 29)
    {x : Block} (hx : JHeader.dirty x = 0) :
    (∀ l, ¬ JournalCell s l → update d' (lba s.jStart) x l = recovered s d l) ∧
      Resumes s d (update d' (lba s.jStart) x) := by
  have hnone : ∀ i < s.jMaxEntries, slotPending s (update d' (lba s.jStart) x) i = none :=
    fun i hi => (slotPending_cell (k := 0) hfit hi (by omega) (by omega) (by omega)).trans (h.done i hi)
  have hdisk : ∀ l, ¬ JournalCell s l → update d' (lba s.jStart) x l = recovered s d l := by
    intro l hl
    have hnil : slotWrites s d' = [] := filterMap_eq_nil_iff.mpr fun i hi => h.done i (mem_range.mp hi)
    have hredo := h.redo l hl
    rw [hnil] at hredo
    rw [recovered, if_pos hp, ← hredo]
    exact update_of_ne (fun he => hl ⟨0, by omega, he⟩) _ _
  refine ⟨hdisk, fun i hi w hw => ?_, fun l hl => ?_⟩
  · rw [hnone i hi] at hw
    cases hw
  · have hclear : ¬ HeaderPending s (update d' (lba s.jStart) x) := by
      rintro ⟨-, hdirty, -⟩
      rw [update_self] at hdirty
      exact hdirty hx
    rw [recovered, if_neg hclear]
    exact hdisk l hl

/-- **A replay leaves what there was to recover**, and all disks on its way ask for the same. -/
theorem replay_recovers (h : TargetsOutside s s.disk) (hfit : 2 * s.jMaxEntries < 2 ^ 29)
    (hloaded : s.jHeader.isSome = true) (hready : s.jReady = true) : ∃ p, (sdfsJournalReplay s).2.past = p ++ s.past ∧
      (∀ l, ¬ JournalCell s l → (sdfsJournalReplay s).2.disk l = recovered s s.disk l) ∧
      ∀ x ∈ (sdfsJournalReplay s).2.disk :: p, Resumes s s.disk x := by
  have hguard : ¬ (s.jHeader.isNone || !s.jReady) = true := by
    rw [hready, Option.isNone_eq_false_iff.mpr hloaded]
    decide
  rw [sdfsJournalReplay, if_neg hguard]
  have hkeep : ¬ HeaderPending s s.disk → ∃ p, s.past = p ++ s.past ∧
      (∀ l, ¬ JournalCell s l → s.disk l = recovered s s.disk l) ∧ ∀ x ∈ s.disk :: p, Resumes s s.disk x :=
    fun hp => ⟨[], rfl, fun l _ => by rw [recovered, if_neg hp], forall_mem_singleton.mpr ⟨h, fun _ _ => rfl⟩⟩
  dsimp only
  split
  · rename_i hmagic
    exact hkeep fun hp => hmagic hp.1
  · rename_i hmagic
    split
    · rename_i hclean
      exact hkeep fun hp => not_or.mpr hp.2 hclean
    · rename_i hclean
      have hp : HeaderPending s s.disk := ⟨not_not.mp hmagic, not_or.mp hclean⟩
      obtain ⟨d, p, heq, hrun, hall⟩ := replaySlots_running (s := journalLoadHeader s) h hp hfit le_rfl
      have hclear : ∀ h c, JHeader.dirty (JHeader.setCrc
          (JHeader.setHead (JHeader.setCount (JHeader.setDirty h 0) 0) 0) c) = 0 := fun h c => by
        simp
      obtain ⟨hdisk, hlast⟩ := hrun.save hp hfit (hclear _ _)
      have hsame : ∀ {x}, Resumes (journalLoadHeader s) s.disk x → Resumes s s.disk x := fun hr => { hr with }
      rw [heq]
      exact ⟨d :: p, rfl, hdisk, forall_mem_cons.mpr ⟨hsame hlast, fun x hx => hsame (hall x hx)⟩⟩

/-! ## Any number of interruptions -/

/-- A replay of `s` is stopped, after any of its writes or at the end, and `t` is there
with the header loaded again. -/
def Interrupted (s t : Volume) : Prop :=
  ∃ d h p, (sdfsJournalReplay s).2.past = p ++ s.past ∧ d ∈ (sdfsJournalReplay s).2.disk :: p ∧
    t = { s with disk := d, jHeader := some h }

/-- What a run of stopped replays leads to. -/
theorem interrupted_resumes {t : Volume} (h : TargetsOutside s s.disk) (hfit : 2 * s.jMaxEntries < 2 ^ 29)
    (hloaded : s.jHeader.isSome = true) (hready : s.jReady = true) (hrun : Relation.ReflTransGen Interrupted s t) :
    ∃ d o, t = { s with disk := d, jHeader := o } ∧ o.isSome = true ∧ Resumes s s.disk d := by
  induction hrun with
  | refl => exact ⟨s.disk, s.jHeader, rfl, hloaded, h, fun _ _ => rfl⟩
  | tail _ hstep ih =>
    obtain ⟨d, o, rfl, ho, hres⟩ := ih
    obtain ⟨d', header, p, hp, hd', rfl⟩ := hstep
    obtain ⟨p', hp', -, hall⟩ := replay_recovers (s := { s with disk := d, jHeader := o }) hres.outside hfit ho hready
    rw [hp'] at hp
    have hnext := hall d' (append_cancel_right hp ▸ hd')
    exact ⟨d', some header, rfl, rfl, hnext.outside, fun l hl => (hnext.same l hl).trans (hres.same l hl)⟩

/-- However often replay is stopped, a run to the end leaves every block outside the
journal as one run without a stop does. -/
theorem replay_survives_interruption {s t : Volume} (hloaded : s.jHeader.isSome = true) (hready : s.jReady = true)
    (hmax : s.jMaxEntries ≤ sdfsJournalMaxEntries) (h : TargetsOutside s s.disk)
    (hrun : Relation.ReflTransGen Interrupted s t) (b : Nat) (hb : ¬ JournalCell s (lba b)) :
    sdfsReadBlock (sdfsJournalReplay t).2 b = sdfsReadBlock (sdfsJournalReplay s).2 b := by
  have hfit : 2 * s.jMaxEntries < 2 ^ 29 := by
    have h31 : s.jMaxEntries ≤ 31 := hmax
    omega
  obtain ⟨-, -, hs, -⟩ := replay_recovers h hfit hloaded hready
  obtain ⟨d, o, rfl, ho, hres⟩ := interrupted_resumes h hfit hloaded hready hrun
  obtain ⟨-, -, ht, -⟩ := replay_recovers (s := { s with disk := d, jHeader := o }) hres.outside hfit ho hready
  exact (ht _ hb).trans ((hres.same _ hb).trans (hs _ hb).symm)

/-- A journal at block 10 with two slots, both for block 50. -/
def twoSlotVolume : Volume :=
  { Volume.boot fun l =>
      if l = lba 10 then JHeader.setCount (JHeader.setDirty (JHeader.setMagic Buf.zero sdfsJournalHdrMagic) 1) 2
      else if l = lba 11 then JEntry.make 1 50 (crc32Calc Buf.zero 0 sdfsBlockSize)
      else if l = lba 12 then Buf.zero
      else if l = lba 13 then JEntry.make 2 50 (crc32Calc (fun _ => 9) 0 sdfsBlockSize)
      else if l = lba 14 then fun _ => 9
      else fun _ => 7 with
    jStart := 10
    jMaxEntries := 2
    jReady := true
    jHeader := some Buf.zero }

theorem pendingWrite_make (sequence target : UInt32) (data : Block) :
    pendingWrite (JEntry.make sequence target (crc32Calc data 0 sdfsBlockSize)) data = some (target.toNat, data) := by
  simp [pendingWrite, JEntry.magic_make, JEntry.status_make, JEntry.crc_make, JEntry.target_make]

/-- Of the slots of a disk on which they have not been touched. -/
theorem twoSlot_pending {d : Disk} (h : ∀ b, 11 ≤ b → b ≤ 14 → d (lba b) = twoSlotVolume.disk (lba b)) :
    slotPending twoSlotVolume d 0 = some (50, Buf.zero) ∧ slotPending twoSlotVolume d 1 = some (50, fun _ => 9) := by
  constructor
  · rw [slotPending, h _ (by decide) (by decide), h _ (by decide) (by decide)]
    exact pendingWrite_make 1 50 Buf.zero
  · rw [slotPending, h _ (by decide) (by decide), h _ (by decide) (by decide)]
    exact pendingWrite_make 2 50 fun _ => 9

theorem twoSlot_outside : TargetsOutside twoSlotVolume twoSlotVolume.disk := by
  obtain ⟨h0, h1⟩ := twoSlot_pending fun _ _ _ => rfl
  intro i hi w hw
  have hw : w.1 = 50 := by
    obtain rfl | rfl : i = 0 ∨ i = 1 := by
      have hi' : i < 2 := hi
      omega
    · rw [h0] at hw
      exact congrArg Prod.fst (Option.some.inj hw).symm
    · rw [h1] at hw
      exact congrArg Prod.fst (Option.some.inj hw).symm
  rintro ⟨k, hk, he⟩
  have hk' : k ≤ 4 := hk
  rw [hw] at he
  exact lba_add_ne (a := 10) (j := 40) (by omega) (by omega) (by omega) he

/-- Slot 0 has been written to block 50 and is not marked yet. -/
def twoSlotStopped : Volume := { twoSlotVolume with disk := update twoSlotVolume.disk (lba 50) Buf.zero }

theorem replaySlot_past (s : Volume) (n : Nat) : ∃ p, (replaySlot s n).past = p ++ s.past := by
  unfold replaySlot
  split
  · exact ⟨[_, _], rfl⟩
  · exact ⟨[], rfl⟩

theorem twoSlot_header : HeaderPending twoSlotVolume twoSlotVolume.disk := by
  have h : twoSlotVolume.disk (lba 10) =
      JHeader.setCount (JHeader.setDirty (JHeader.setMagic Buf.zero sdfsJournalHdrMagic) 1) 2 := rfl
  rw [HeaderPending, show twoSlotVolume.jStart = 10 from rfl, h]
  have hmagic : JHeader.magic (JHeader.setMagic Buf.zero sdfsJournalHdrMagic) = sdfsJournalHdrMagic := u32_putU32 _ _ _
  simp [hmagic]

theorem replay_past (hloaded : s.jHeader.isSome = true) (hready : s.jReady = true) (hp : HeaderPending s s.disk) :
    (sdfsJournalReplay s).2.past = (replaySlots (journalLoadHeader s) s.jMaxEntries).2.disk ::
      (replaySlots (journalLoadHeader s) s.jMaxEntries).2.past := by
  have hguard : ¬ (s.jHeader.isNone || !s.jReady) = true := by
    rw [hready, Option.isNone_eq_false_iff.mpr hloaded]
    decide
  rw [sdfsJournalReplay, if_neg hguard]
  dsimp only
  split
  · rename_i hmagic
    exact absurd hp.1 hmagic
  · split
    · rename_i hclean
      exact absurd hclean (not_or.mpr hp.2)
    · rfl

theorem twoSlot_interrupted : Interrupted twoSlotVolume twoSlotStopped := by
  have hfirst : (replaySlot (journalLoadHeader twoSlotVolume) 0).past = [twoSlotStopped.disk, twoSlotVolume.disk] := by
    rw [replaySlot_some (s := journalLoadHeader twoSlotVolume) (twoSlot_pending fun _ _ _ => rfl).1]
    rfl
  obtain ⟨p, hp⟩ := replaySlot_past (replaySlot (journalLoadHeader twoSlotVolume) 0) 1
  rw [hfirst] at hp
  have hpast := replay_past (s := twoSlotVolume) rfl rfl twoSlot_header
  rw [show (replaySlots (journalLoadHeader twoSlotVolume) twoSlotVolume.jMaxEntries).2.past = _ from hp] at hpast
  refine ⟨twoSlotStopped.disk, Buf.zero, _, hpast.trans (append_nil _).symm, ?_, rfl⟩
  exact .tail _ (.tail _ (mem_append_right _ (.head _)))

theorem replay_survives_interruption_twoSlots : TargetsOutside twoSlotVolume twoSlotVolume.disk ∧
    Interrupted twoSlotVolume twoSlotStopped ∧ ∀ b, ¬ JournalCell twoSlotVolume (lba b) →
      sdfsReadBlock (sdfsJournalReplay twoSlotStopped).2 b = sdfsReadBlock (sdfsJournalReplay twoSlotVolume).2 b :=
  ⟨twoSlot_outside, twoSlot_interrupted,
    replay_survives_interruption rfl rfl (by decide) twoSlot_outside (.single twoSlot_interrupted)⟩

end LiwusOS.Fs
