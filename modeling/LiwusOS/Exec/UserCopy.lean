import LiwusOS.Exec.Execve
import LiwusOS.Mm.UserConfined

/-! # What the kernel reads from user memory

`walk_user_pt` sees the pages that user mode sees, so a string or a pointer that
the program has in its memory is what `strncpy_from_user` and `copy_from_user`
return. -/

namespace LiwusOS.Exec
open LiwusOS.Lib List
open Option (map_some bind_some map_eq_some_iff)
open LiwusOS.Mm

/-- `walk_user_pt` finds the pages of user mode. -/
theorem walkUserPt_iff {vm : Vm} (hp : Plain vm.table 3 vm.currentDirectory.pml4) (v : Nat) :
    walkUserPt vm v = true ↔ ∃ a, vm.lookup (pagePath v) = some a ∧ a.user = true := by
  unfold walkUserPt Vm.lookup pagePath
  dsimp only
  cases hp1 : (vm.table vm.currentDirectory.pml4 (vaddrPml4i v)).present with
  | false => simp [translate_absent hp1]
  | true =>
  obtain ⟨hl1, hplain⟩ := hp _ hp1
  rw [translate_child (Pte.child_eq hp1 hl1)]
  generalize vm.table vm.currentDirectory.pml4 (vaddrPml4i v) = e1 at hplain ⊢
  cases hp2 : (vm.table e1.frame (vaddrPdpi v)).present with
  | false => simp [translate_absent hp2]
  | true =>
  rw [translate_child (Pte.child_eq hp2 (hplain _ hp2).1)]
  generalize vm.table e1.frame (vaddrPdpi v) = e2
  cases hp3 : (vm.table e2.frame (vaddrPdi v)).present with
  | false => simp [translate_absent hp3]
  | true =>
  cases hl3 : (vm.table e2.frame (vaddrPdi v)).large with
  | true => simp [Mm.translate, hp3, hl3, Mapping.user, Pte.user, Bool.and_assoc]
  | false =>
  rw [translate_child (Pte.child_eq hp3 hl3)]
  generalize vm.table e2.frame (vaddrPdi v) = e3
  cases hp4 : (vm.table e3.frame (vaddrPti v)).present with
  | false => simp [translate_absent hp4]
  | true => simp [Mm.translate, hp4, Mapping.user, Pte.user, Bool.and_assoc]

/-- The byte at `v`, where user mode may read it. -/
def userByte (vm : Vm) (v : Nat) : Option UInt8 := if walkUserPt vm v then vm.load v else none

theorem walkUserPt_page (vm : Vm) (v : Nat) : walkUserPt vm (v / 4096 * 4096) = walkUserPt vm v := by
  have hpath := pagePath_page v
  simp only [pagePath, cons.injEq, and_true] at hpath
  obtain ⟨h1, h2, h3, h4⟩ := hpath
  rw [walkUserPt, walkUserPt, h1, h2, h3, h4]

/-- User mode may access the byte at `v`. -/
def Accessible (vm : Vm) (v : Nat) : Prop := ∃ a, vm.lookup (pagePath v) = some a ∧ a.user = true

section Check
variable {vm : Vm} {v : Nat}

/-- What `walk_user_pt` lets pass is accessible, whatever the tables hold. -/
theorem walkUserPt_accessible (h : walkUserPt vm v = true) : Accessible vm v := by
  simp only [walkUserPt, Bool.and_eq_true] at h
  obtain ⟨⟨⟨hp1, hu1⟩, hp2, hu2⟩, h⟩ := h
  unfold Accessible Vm.lookup pagePath
  simp only [Pte.user] at hu1 hu2 h
  simp only [Mm.translate, hp1, hp2, Bool.not_true, Bool.false_eq_true, if_false]
  split
  · exact ⟨_, rfl, by simp [Mapping.user, hu1]⟩
  split
  · exact ⟨_, rfl, by simp [Mapping.user, hu1, hu2]⟩
  split at h
  · obtain ⟨hp3, hu3⟩ := Bool.and_eq_true_iff.mp h
    simp_all [Mapping.user]
  · simp only [Bool.and_eq_true] at h
    simp_all [Mapping.user]

theorem byteAt_accessible (h : Accessible vm v) (hv : v < userAddrMax) : ∃ x, vm.byteAt v = some x := by
  obtain ⟨a, ha, -⟩ := h
  have hcan : canonical v = true := by unfold userAddrMax at hv; rw [canonical, decide_eq_true (by omega), Bool.true_or]
  rw [Vm.lookup] at ha
  exact ⟨_, by rw [Vm.byteAt, if_pos hcan, ha, map_some]⟩

/-- Looking up the pages of a range is looking up its bytes. -/
theorem validateUserPointer_walks (ptr size : Nat) : validateUserPointer vm ptr size = true ↔ size = 0 ∨
    ptr + size < 2 ^ 64 ∧ userAddrMin ≤ ptr ∧ ptr + size ≤ userAddrMax ∧
      ∀ v, ptr ≤ v → v < ptr + size → walkUserPt vm v = true := by
  simp only [validateUserPointer, Bool.or_eq_true, Bool.and_eq_true, decide_eq_true_eq, all_eq_true, mem_range,
    and_assoc, roundDownPage]
  by_cases h0 : size = 0
  · simp [h0]
  refine or_congr_right (and_congr_right fun _ => and_congr_right fun _ => and_congr_right fun _ =>
    ⟨fun h v hlo hhi => ?_, fun h i hi => ?_⟩)
  · have hpage := h (v / 4096 - ptr / 4096) (by omega)
    rwa [show ptr / 4096 * 4096 + (v / 4096 - ptr / 4096) * 4096 = v / 4096 * 4096 by omega, walkUserPt_page] at hpage
  · -- the first byte of the range on this page
    have hbyte := h (max ptr (ptr / 4096 * 4096 + i * 4096)) (by omega) (by omega)
    rwa [← walkUserPt_page, show max ptr (ptr / 4096 * 4096 + i * 4096) / 4096 * 4096 = ptr / 4096 * 4096 + i * 4096 by
      omega] at hbyte

end Check

theorem userByte_some {vm : Vm} {v : Nat} {b : UInt8} (h : userByte vm v = some b) :
    walkUserPt vm v = true ∧ vm.load v = some b := by
  rw [userByte] at h
  split at h
  · exact ⟨‹_›, h⟩
  · cases h

/-! Words and strings in a memory that is read with `rd`. -/

/-- A little-endian word of `size` bytes at a user address. -/
structure WordAt (rd : Nat → Option UInt8) (size v w : Nat) : Prop where
  low : userAddrMin ≤ v
  high : v + size ≤ userAddrMax
  fits : w < 256 ^ size
  bytes : ∀ i < size, rd (v + i) = some (UInt8.ofNat (w / 256 ^ i))

/-- A terminated string at a user address. -/
structure StringAt (rd : Nat → Option UInt8) (v : Nat) (s : List UInt8) : Prop where
  low : userAddrMin ≤ v
  high : v + s.length < userAddrMax
  bytes : ∀ i (h : i < s.length), rd (v + i) = some s[i]
  nonzero : 0 ∉ s
  terminator : rd (v + s.length) = some 0

/-- Bytes other than NUL at `v`, below the end of user memory. -/
structure BytesAt (rd : Nat → Option UInt8) (v : Nat) (s : List UInt8) : Prop where
  high : v + s.length ≤ userAddrMax
  bytes : ∀ i < s.length, rd (v + i) = s[i]?
  nonzero : 0 ∉ s

/-- The bytes at `v` before a NUL, or `n` of them. -/
def Reads (rd : Nat → Option UInt8) (v n : Nat) (s : List UInt8) : Prop :=
  BytesAt rd v s ∧ (s.length = n ∨ s.length < n ∧ v + s.length < userAddrMax ∧ rd (v + s.length) = some 0)

section Read
variable {vm : Vm} {rd rd' : Nat → Option UInt8} {v w : Nat} {s : List UInt8}

/-- Bytes put together again. -/
theorem foldr_bytes (n w : Nat) (hw : w < 256 ^ n) :
    ((List.range n).map fun i => UInt8.ofNat (w / 256 ^ i)).foldr (fun b x => b.toNat + 256 * x) 0 = w := by
  induction n generalizing w with
  | zero =>
    rw [pow_zero] at hw
    simp
    omega
  | succ n ih =>
    have hdiv : w / 256 < 256 ^ n := by
      rw [pow_succ] at hw
      omega
    have hmap : (List.range n).map (fun i => UInt8.ofNat (w / 256 ^ (i + 1))) =
        (List.range n).map fun i => UInt8.ofNat (w / 256 / 256 ^ i) := by
      refine map_congr_left fun i _ => ?_
      rw [Nat.div_div_eq_div_mul, pow_succ, Nat.mul_comm 256]
    rw [range_succ_eq_map, map_cons, map_map, foldr_cons]
    change _ + 256 * ((List.range n).map (fun i => UInt8.ofNat (w / 256 ^ (i + 1)))).foldr _ 0 = w
    rw [hmap, ih _ hdiv, pow_zero, Nat.div_one, UInt8.toNat_ofNat']
    omega

theorem mapM_eq_some {α β : Type} {f : α → Option β} {g : α → β} {l : List α} (h : ∀ x ∈ l, f x = some (g x)) :
    l.mapM f = some (l.map g) := by
  induction l with
  | nil => rfl
  | cons x l ih =>
    rw [mapM_cons, h x (.head _), ih fun y hy => h y (.tail _ hy)]
    rfl

/-- `copy_from_user` reads a pointer that is there. -/
theorem WordAt.copyPointer (h : WordAt (userByte vm) 8 v w) : copyPointer vm v = some (some w) := by
  have hlow := h.low
  have hhigh := h.high
  have hmax : userAddrMax < 2 ^ 64 := by decide
  have hvalid : validateUserPointer vm v 8 = true := by
    refine (validateUserPointer_walks v 8).mpr (.inr ⟨by omega, hlow, hhigh, fun u hlo hhi => ?_⟩)
    have hbyte := h.bytes (u - v) (by omega)
    rw [Nat.add_sub_cancel' hlo] at hbyte
    exact (userByte_some hbyte).1
  have hbytes : (List.range 8).mapM (fun i => vm.load ((v + i) % 2 ^ 64)) =
      some ((List.range 8).map fun i => UInt8.ofNat (w / 256 ^ i)) := by
    refine mapM_eq_some fun i hi => ?_
    have hi' := mem_range.mp hi
    rw [Nat.mod_eq_of_lt (by omega)]
    exact (userByte_some (h.bytes i hi')).2
  rw [Exec.copyPointer, if_pos hvalid, loadWord, hbytes, map_some, map_some, foldr_bytes 8 w h.fits]

theorem bytesAt_cons {c : UInt8} : BytesAt rd v (c :: s) ↔ rd v = some c ∧ c ≠ 0 ∧ BytesAt rd (v + 1) s := by
  have hadd : ∀ i, v + 1 + i = v + (i + 1) := fun i => by omega
  constructor
  · intro h
    have hhigh := h.high
    rw [length_cons, ← hadd] at hhigh
    refine ⟨h.bytes 0 (Nat.succ_pos _), fun hc => h.nonzero (hc ▸ mem_cons_self), hhigh, fun i hi => ?_,
      fun hm => h.nonzero (.tail _ hm)⟩
    rw [hadd, h.bytes (i + 1) (Nat.succ_lt_succ hi), getElem?_cons_succ]
  · rintro ⟨h0, hc, h⟩
    refine ⟨by rw [length_cons, ← hadd]; exact h.high, fun i hi => ?_, fun hm => ?_⟩
    · cases i with
      | zero => exact h0
      | succ i => rw [← hadd, h.bytes i (Nat.lt_of_succ_lt_succ hi), getElem?_cons_succ]
    · exact (mem_cons.mp hm).elim (fun h => hc h.symm) h.nonzero

theorem reads_succ {n : Nat} : Reads rd v (n + 1) s ↔ v < userAddrMax ∧
    ∃ c, rd v = some c ∧ if c = 0 then s = [] else ∃ s', s = c :: s' ∧ Reads rd (v + 1) n s' := by
  cases s with
  | nil =>
    constructor
    · rintro ⟨-, h | ⟨-, hv, h0⟩⟩
      · cases h
      · exact ⟨hv, 0, h0, by rw [if_pos rfl]⟩
    · rintro ⟨hv, c, hc, h⟩
      split at h
      · rename_i h0
        exact ⟨⟨hv.le, nofun, not_mem_nil⟩, .inr ⟨Nat.succ_pos _, hv, h0 ▸ hc⟩⟩
      · obtain ⟨s', h, -⟩ := h
        cases h
  | cons c s =>
    have hadd : v + (s.length + 1) = v + 1 + s.length := by omega
    simp only [Reads, bytesAt_cons, length_cons, hadd, Nat.add_right_cancel_iff, Nat.add_lt_add_iff_right]
    constructor
    · rintro ⟨⟨h0, hc, h⟩, hend⟩
      have := h.high
      exact ⟨by omega, c, h0, by rw [if_neg hc]; exact ⟨s, rfl, h, hend⟩⟩
    · rintro ⟨hv, d, hd, h⟩
      split at h
      · cases h
      · obtain ⟨s', heq, h, hend⟩ := h
        cases heq
        exact ⟨⟨hd, ‹_›, h⟩, hend⟩

/-- The loop of `strncpy_from_user`. Before byte `i` the page of the byte before
it has been looked up. -/
theorem copyString_iff {src n i : Nat} (hi : i = 0 ∨ walkUserPt vm (src + i - 1) = true)
    (hle : src + i ≤ userAddrMax) : ∃ o, copyString vm src n i = some o ∧
      ∀ s, o = some s ↔ Reads (userByte vm) (src + i) n s := by
  induction n generalizing i with
  | zero =>
    refine ⟨some [], rfl, fun s => ⟨?_, fun h => ?_⟩⟩
    · rintro ⟨⟩
      exact ⟨⟨hle, nofun, not_mem_nil⟩, .inl rfl⟩
    · rw [eq_nil_of_length_eq_zero (h.2.resolve_right fun hlt => absurd hlt.1 (Nat.not_lt_zero _))]
  | succ n ih =>
    have hmax : userAddrMax < 2 ^ 64 := by decide
    rw [copyString, Nat.mod_eq_of_lt (by omega)]
    simp only [reads_succ]
    by_cases hend : src + i ≥ userAddrMax
    · exact ⟨none, if_pos hend, fun s => iff_of_false nofun fun h => absurd h.1 (not_lt.mpr hend)⟩
    rw [if_neg hend]
    by_cases hwalk : walkUserPt vm (src + i) = true
    · obtain ⟨x, hx⟩ := byteAt_accessible (walkUserPt_accessible hwalk) (by omega)
      have hload : vm.load (src + i) = some (vm.page x.1 x.2) := by rw [Vm.load, hx, map_some]
      rw [if_neg (by simp [hwalk]), hload, bind_some, userByte, if_pos hwalk, hload]
      generalize vm.page x.1 x.2 = c
      have hlt : src + i < userAddrMax := by omega
      by_cases h0 : c = 0
      · exact ⟨some [], if_pos h0, fun s => by simp [h0, hlt, eq_comm]⟩
      · obtain ⟨o, ho, hrest⟩ := ih (i := i + 1) (.inr hwalk) (by omega)
        rw [if_neg h0, ho]
        refine ⟨o.map (c :: ·), rfl, fun s => ?_⟩
        simp only [map_eq_some_iff, hrest, hlt, true_and, Option.some.injEq, exists_eq_left', if_neg h0]
        exact exists_congr fun s' => by rw [and_comm, eq_comm]; rfl
    · -- the string enters the page here: the byte before it is on another page
      have hnew : (src + i) % 4096 = 0 ∨ i = 0 := by
        by_contra hold
        rw [not_or] at hold
        have hprev := hi.resolve_left hold.2
        rw [← walkUserPt_page, show (src + i - 1) / 4096 * 4096 = (src + i) / 4096 * 4096 by omega,
          walkUserPt_page] at hprev
        exact hwalk hprev
      rw [if_pos ⟨hnew, Bool.not_eq_true _ ▸ hwalk⟩, userByte, if_neg hwalk]
      exact ⟨none, rfl, fun s => iff_of_false nofun fun ⟨_, c, h, _⟩ => by cases h⟩

/-- `strncpy_from_user` returns what is there, up to one byte before the end of
its buffer. -/
theorem strncpyFromUser_iff {src maxlen : Nat} (hmax : 0 < maxlen) : ∃ o, strncpyFromUser vm src maxlen = some o ∧
    ∀ s, o = some s ↔ isUserAddr src = true ∧ Reads (userByte vm) src (maxlen - 1) s := by
  rw [strncpyFromUser, if_neg (by omega)]
  by_cases h : isUserAddr src = true
  · have hlt := h
    simp only [isUserAddr, Bool.and_eq_true, decide_eq_true_eq] at hlt
    obtain ⟨o, ho, hs⟩ := @copyString_iff vm src (maxlen - 1) 0 (.inl rfl) (hlt.2.le)
    exact ⟨o, by rw [if_pos h, ho], fun s => by rw [hs, and_iff_right h, Nat.add_zero]⟩
  · exact ⟨none, if_neg h, fun s => iff_of_false (Option.some_ne_none s).symm fun hs => h hs.1⟩

theorem StringAt.bytesAt (h : StringAt rd v s) : BytesAt rd v s :=
  ⟨h.high.le, fun i hi => by rw [h.bytes i hi, getElem?_eq_getElem hi], h.nonzero⟩

theorem StringAt.isUserAddr (h : StringAt rd v s) : isUserAddr v = true := by
  have hlow := h.low
  have hhigh := h.high
  simp only [Mm.isUserAddr, Bool.and_eq_true, decide_eq_true_eq]
  omega

/-- `strncpy_from_user` reads a string that is there. -/
theorem Reads.strncpyFromUser (h : Reads (userByte vm) v 254 s) (hv : isUserAddr v = true) :
    strncpyFromUser vm v 255 = some (some s) := by
  obtain ⟨o, ho, hread⟩ := @strncpyFromUser_iff vm v 255 (by decide)
  rw [ho, (hread s).mpr ⟨hv, h⟩]

theorem StringAt.reads (h : StringAt rd v s) (hs : s.length ≤ 254) : Reads rd v 254 s :=
  ⟨h.bytesAt, (Nat.lt_or_eq_of_le hs).symm.imp id fun hlt => ⟨hlt, h.high, h.terminator⟩⟩

/-- One string at most is at an address. -/
theorem StringAt.unique {s' : List UInt8} (h : StringAt rd v s) (h' : StringAt rd v s') : s = s' := by
  have hle : ∀ {s s' : List UInt8}, StringAt rd v s → StringAt rd v s' → s.length ≤ s'.length := by
    intro s s' h h'
    by_contra hlt
    have hbyte := h.bytes s'.length (by omega)
    rw [h'.terminator, Option.some.injEq] at hbyte
    exact h.nonzero (hbyte ▸ getElem_mem _)
  have hlen : s.length = s'.length := Nat.le_antisymm (hle h h') (hle h' h)
  refine ext_getElem hlen fun i hi hi' => ?_
  have hbyte := h.bytes i hi
  rw [h'.bytes i hi', Option.some.injEq] at hbyte
  exact hbyte.symm

/-- One word. -/
theorem WordAt.unique {size w' : Nat} (h : WordAt rd size v w) (h' : WordAt rd size v w') : w = w' := by
  have hbytes : (List.range size).map (fun i => UInt8.ofNat (w / 256 ^ i)) =
      (List.range size).map fun i => UInt8.ofNat (w' / 256 ^ i) := by
    refine map_congr_left fun i hi => ?_
    have hbyte := h.bytes i (mem_range.mp hi)
    rw [h'.bytes i (mem_range.mp hi), Option.some.injEq] at hbyte
    exact hbyte.symm
  rw [← foldr_bytes size w h.fits, ← foldr_bytes size w' h'.fits, hbytes]

end Read

/-! ## Argument vectors -/

/-- The strings of an argument vector: at most 16, each of at most 254 bytes, with
a NULL after the last one when there is room for it. -/
structure ArgsAt (rd : Nat → Option UInt8) (argv : Nat) (strs : List (List UInt8)) : Prop where
  count : strs.length ≤ maxArgs
  short : ∀ s ∈ strs, s.length ≤ 254
  strings : ∀ i (h : i < strs.length), ∃ p, p ≠ 0 ∧ WordAt rd 8 (argv + 8 * i) p ∧ StringAt rd p strs[i]
  terminator : strs.length < maxArgs → WordAt rd 8 (argv + 8 * strs.length) 0

/-- What is read of such a vector. The terminator of a string of 254 bytes is not. -/
structure ArgsRead (rd : Nat → Option UInt8) (argv : Nat) (strs : List (List UInt8)) : Prop where
  count : strs.length ≤ maxArgs
  strings : ∀ i (h : i < strs.length), ∃ p, p ≠ 0 ∧ isUserAddr p = true ∧ WordAt rd 8 (argv + 8 * i) p ∧
    Reads rd p 254 strs[i]
  terminator : strs.length < maxArgs → WordAt rd 8 (argv + 8 * strs.length) 0

section Args
variable {vm : Vm} {rd rd' : Nat → Option UInt8} {argv : Nat} {strs : List (List UInt8)}

theorem ArgsAt.read (h : ArgsAt rd argv strs) : ArgsRead rd argv strs := by
  refine ⟨h.count, fun i hi => ?_, h.terminator⟩
  obtain ⟨p, hp, hword, hstr⟩ := h.strings i hi
  exact ⟨p, hp, hstr.isUserAddr, hword, hstr.reads (h.short _ (getElem_mem hi))⟩

theorem ArgsRead.readArgv (h : ArgsRead (userByte vm) argv strs) {n i : Nat} (hi : i ≤ strs.length)
    (hn : i + n = maxArgs) : readArgv vm argv n i = some (some (strs.drop i)) := by
  have hcount := h.count
  induction n generalizing i with
  | zero =>
    rw [drop_eq_nil_of_le (by omega)]
    rfl
  | succ n ih =>
    rw [Exec.readArgv]
    by_cases hend : i = strs.length
    · have hword := h.terminator (by omega)
      have hhigh := hword.high
      unfold userAddrMax at hhigh
      rw [← hend] at hword hhigh
      rw [Nat.mod_eq_of_lt (by omega), hword.copyPointer, bind_some, drop_eq_nil_of_le (by omega)]
      exact if_pos rfl
    · have hlt : i < strs.length := by omega
      obtain ⟨p, hp, huser, hword, hstr⟩ := h.strings i hlt
      have hhigh := hword.high
      unfold userAddrMax at hhigh
      rw [Nat.mod_eq_of_lt (by omega), hword.copyPointer, bind_some]
      dsimp only
      rw [if_neg hp, hstr.strncpyFromUser huser, bind_some]
      dsimp only
      rw [ih (by omega) (by omega), map_some, map_some, drop_eq_getElem_cons hlt]

/-- The bytes of the pointers of a vector. -/
def PointerByte (argv : Nat) (strs : List (List UInt8)) (v : Nat) : Prop := argv ≤ v ∧ v < argv + 8 * strs.length

/-- The other bytes that are read: the NULL behind the pointers, and the strings. -/
def ReadByte (rd : Nat → Option UInt8) (argv : Nat) (strs : List (List UInt8)) (v : Nat) : Prop :=
  strs.length < maxArgs ∧ argv + 8 * strs.length ≤ v ∧ v < argv + 8 * strs.length + 8 ∨
  ∃ i, ∃ h : i < strs.length, ∃ p, WordAt rd 8 (argv + 8 * i) p ∧ p ≤ v ∧ v < p + min (strs[i].length + 1) 254

theorem WordAt.congr {size v w : Nat} (h : WordAt rd size v w) (hrd : ∀ i < size, rd' (v + i) = rd (v + i)) :
    WordAt rd' size v w := ⟨h.low, h.high, h.fits, fun i hi => (hrd i hi).trans (h.bytes i hi)⟩

theorem Reads.congr {v n : Nat} {s : List UInt8} (h : Reads rd v n s)
    (hrd : ∀ i < min (s.length + 1) n, rd' (v + i) = rd (v + i)) : Reads rd' v n s := by
  obtain ⟨hbytes, hend⟩ := h
  have hle : s.length ≤ n := hend.elim Nat.le_of_eq fun hlt => hlt.1.le
  refine ⟨⟨hbytes.high, fun i hi => ?_, hbytes.nonzero⟩, hend.imp id fun ⟨hlt, hhigh, hterm⟩ => ⟨hlt, hhigh, ?_⟩⟩
  · rw [hrd i (by omega), hbytes.bytes i hi]
  · rw [hrd _ (by omega), hterm]

theorem ArgsRead.congr (h : ArgsRead rd argv strs) (hp : ∀ v, PointerByte argv strs v → rd' v = rd v)
    (hr : ∀ v, ReadByte rd argv strs v → rd' v = rd v) : ArgsRead rd' argv strs := by
  refine ⟨h.count, fun i hi => ?_, fun hlt =>
    (h.terminator hlt).congr fun j hj => hr _ (.inl ⟨hlt, by omega, by omega⟩)⟩
  obtain ⟨p, hne, huser, hword, hstr⟩ := h.strings i hi
  refine ⟨p, hne, huser, hword.congr fun j hj => hp _ ⟨by omega, by omega⟩, hstr.congr fun j hj => hr _ (.inr ?_)⟩
  exact ⟨i, hi, p, hword, by omega, by omega⟩

theorem WordAt.byte {size v w u : Nat} (h : WordAt rd size v w) (hlo : v ≤ u) (hhi : u < v + size) :
    isUserAddr u = true ∧ ∃ b, rd u = some b := by
  have hlow := h.low
  have hhigh := h.high
  unfold userAddrMin userAddrMax at *
  have hbyte := h.bytes (u - v) (by omega)
  rw [Nat.add_sub_cancel' hlo] at hbyte
  exact ⟨isUserAddr_iff.mpr ⟨by omega, by omega⟩, _, hbyte⟩

/-- The bytes that matter are user memory. -/
theorem ArgsRead.byte (h : ArgsRead rd argv strs) {v : Nat} (hv : PointerByte argv strs v ∨ ReadByte rd argv strs v) :
    isUserAddr v = true ∧ ∃ b, rd v = some b := by
  rcases hv with ⟨hlo, hhi⟩ | ⟨hlt, hlo, hhi⟩ | ⟨i, hi, p, hword, hlo, hhi⟩
  · obtain ⟨p, -, -, hword, -⟩ := h.strings ((v - argv) / 8) (by omega)
    exact hword.byte (by omega) (by omega)
  · exact (h.terminator hlt).byte hlo hhi
  · obtain ⟨q, -, huser, hword', hbytes, hend⟩ := h.strings i hi
    cases hword.unique hword'
    have hlow := (isUserAddr_iff.mp huser).1
    have hhigh := hbytes.high
    by_cases hin : v - p < strs[i].length
    · have hbyte := hbytes.bytes (v - p) hin
      rw [Nat.add_sub_cancel' hlo, getElem?_eq_getElem hin] at hbyte
      unfold userAddrMax at hhigh
      exact ⟨isUserAddr_iff.mpr ⟨by omega, by omega⟩, _, hbyte⟩
    · obtain ⟨hlt, hmax, hterm⟩ := hend.resolve_left (by omega)
      obtain rfl : v = p + strs[i].length := by omega
      unfold userAddrMax at hmax
      exact ⟨isUserAddr_iff.mpr ⟨by omega, by omega⟩, _, hterm⟩

end Args

end LiwusOS.Exec
