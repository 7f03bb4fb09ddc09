import LiwusOS.Exec.ExecPages
import LiwusOS.Exec.UserCopy

/-! # The stack of a new program

Its pages are on frames of their own, so what `do_execve` pushes can be read back
from there. -/

namespace LiwusOS.Exec
open LiwusOS.Lib Function List Option
open LiwusOS.Mm

/-- The bytes from `lo` up to `hi` are user memory with the contents `buf`, each in
a place of its own. -/
structure Window (vm : Vm) (lo hi : Nat) (buf : Buf) : Prop where
  user : ∀ v, lo ≤ v → v < hi → walkUserPt vm v = true
  apart : ∀ v w, lo ≤ v → v < hi → lo ≤ w → w < hi → vm.byteAt v = vm.byteAt w → v = w
  shows : ∀ v, lo ≤ v → v < hi → vm.load v = some (buf v)

namespace Window
variable {vm : Vm} {lo hi : Nat} {buf : Buf}

section
variable (h : Window vm lo hi buf)
include h

theorem userByte {v : Nat} (hlo : lo ≤ v) (hhi : v < hi) : userByte vm v = some (buf v) := by
  rw [Exec.userByte, if_pos (h.user v hlo hhi), h.shows v hlo hhi]

theorem congr {buf' : Buf} (heq : Buf.EqOn buf buf' lo hi) : Window vm lo hi buf' :=
  ⟨h.user, h.apart, fun v hlo hhi => (h.shows v hlo hhi).trans (congrArg some (heq v hlo hhi))⟩

theorem store {v : Nat} (hlo : lo ≤ v) (hhi : v < hi) (b : UInt8) :
    ∃ vm', vm.store v b = some vm' ∧ Window vm' lo hi (buf.set v b) := by
  obtain ⟨x, hx, -⟩ := map_eq_some_iff.mp (h.shows v hlo hhi)
  have hstore : vm.store v b = some (vm.put x.1 x.2 b) := by rw [Vm.store, hx, map_some]
  obtain ⟨hsame, hpage⟩ := Vm.store_stores hstore
  refine ⟨_, hstore, ?_, ?_, ?_⟩
  · intro w hw hw'
    rw [hsame]
    exact h.user w hw hw'
  · intro w w' hw hw' hw1 hw1' heq
    rw [hsame.byteAt, hsame.byteAt] at heq
    exact h.apart w w' hw hw' hw1 hw1' heq
  · intro w hw hw'
    obtain ⟨⟨f, i⟩, hy, hbyte⟩ := map_eq_some_iff.mp (h.shows w hw hw')
    rw [Vm.load, hsame.byteAt, hy, map_some, some.injEq]
    dsimp only at hbyte ⊢
    rw [hpage, hbyte]
    by_cases hv : w = v
    · subst hv
      simp [Vm.lastStore, hy, Buf.set_self]
    · -- another address is another place
      have hne : vm.byteAt v ≠ some (f, i) := fun heq => hv (h.apart w v hw hw' hlo hhi (hy.trans heq.symm))
      simp [Vm.lastStore, hne, Buf.set_ne _ _ hv]

theorem storeBytes (h64 : hi ≤ 2 ^ 64) {v n : Nat} (hlo : lo ≤ v) (hhi : v + n ≤ hi)
    (src : Buf) : ∃ vm', vm.storeBytes v src n = some vm' ∧ Window vm' lo hi (buf.copy v src n) := by
  induction n with
  | zero => exact ⟨vm, rfl, h.congr fun i _ _ => (Buf.copy_outside buf src (by omega)).symm⟩
  | succ n ih =>
    obtain ⟨vm₁, h1, hw⟩ := ih (by omega)
    obtain ⟨vm₂, h2, hw⟩ := hw.store (v := v + n) (by omega) (by omega) (src n)
    refine ⟨vm₂, ?_, hw.congr fun i _ _ => ?_⟩
    · rw [Vm.storeBytes, h1, Option.bind_some, Nat.mod_eq_of_lt (by omega), h2]
    · by_cases hi : i = v + n
      · rw [hi, Buf.set_self, Buf.copy, if_pos (by omega), Nat.add_sub_cancel_left]
      · rw [Buf.set_ne _ _ hi, Buf.copy, Buf.copy]
        by_cases hin : v ≤ i ∧ i < v + n
        · rw [if_pos hin, if_pos (by omega)]
        · rw [if_neg hin, if_neg (by omega)]

/-- A word that the window shows. -/
theorem wordAt {size v w : Nat} (hlo : lo ≤ v) (hhi : v + size ≤ hi)
    (hmin : userAddrMin ≤ lo) (hmax : hi ≤ userAddrMax) (hw : w < 256 ^ size)
    (hb : ∀ i < size, buf (v + i) = UInt8.ofNat (w / 256 ^ i)) : WordAt (Exec.userByte vm) size v w :=
  ⟨by omega, by omega, hw, fun i hi => hb i hi ▸ h.userByte (by omega) (by omega)⟩

theorem stringAt {v : Nat} {s : List UInt8} (hlo : lo ≤ v) (hhi : v + s.length < hi)
    (hmin : userAddrMin ≤ lo) (hmax : hi ≤ userAddrMax) (hs : 0 ∉ s)
    (hb : ∀ i ≤ s.length, buf (v + i) = s.getD i 0) : StringAt (Exec.userByte vm) v s := by
  refine ⟨by omega, by omega, fun i hi => ?_, hs, ?_⟩
  · rw [h.userByte (by omega) (by omega), hb i (by omega), getD_eq_getElem _ _ hi]
  · rw [h.userByte (by omega) hhi, hb _ le_rfl, getD_eq_default _ _ le_rfl]

end

end Window

/-! ## The pages -/

section Pages
variable {vm vm' : Vm} {n : Nat}

/-- `n` stack pages on clear frames, each above the one before. -/
structure StackPages (vm : Vm) (n : Nat) (frame : Nat → Nat) : Prop where
  page : ∀ i < n, PageOn vm (pagePath (pageAddr execStackBase i)) (frame i)
  clear : ∀ i < n, vm.page (frame i) = fun _ => 0
  order : ∀ i j, i < j → j < n → frame i < frame j
  below : ∀ i < n, frame i < vm.heap.top

theorem mapStack_pages (hk : vm.Ready) (hn : n < 2 ^ 31)
    (h : mapStack vm n = some vm') : StackPages vm' n (stackFrame vm [] vm.heap.kheapCurrent) := by
  induction n generalizing vm' with
  | zero => exact ⟨nofun, nofun, nofun, nofun⟩
  | succ n ih =>
    rw [mapStack_succ] at h
    obtain ⟨vm₁, h1, h2⟩ := bind_eq_some_iff.mp h
    have hp := ih (by omega) h1
    have hm := mapStack_mapped hk h1
    obtain ⟨_, hlast, habove, hbelow, ho2, -, hclear, hkeep⟩ := mapStackPage_spec hm.overlays.maps.ok h2
    obtain ⟨f, hpage, rfl⟩ := ho2.onNew _ (.head _)
    replace hlast := (hlast.trans hm.frame).symm
    have hold : ∀ i < n, stackFrame vm [] vm.heap.kheapCurrent i < f := fun i hi =>
      Nat.lt_of_lt_of_le (hp.below i hi) habove
    refine ⟨?_, ?_, ?_, ?_⟩
    · intro i hi
      rcases Nat.lt_succ_iff_lt_or_eq.mp hi with hi | rfl
      · obtain ⟨w, u, hu⟩ := hp.page i hi
        refine ⟨w, u, ho2.maps.userPage rfl ho2.length rfl (fun hm => ?_) hu⟩
        refine region_ne execStackBase hi (by omega) ((mem_singleton.mp hm).trans ?_)
        rw [pageAddr, pagePath_mod]
      · rw [hlast, pageAddr, pagePath_mod]
        exact hpage
    · intro i hi
      rcases Nat.lt_succ_iff_lt_or_eq.mp hi with hi | rfl
      · rw [hkeep _ (Nat.ne_of_lt (hold i hi)), hp.clear i hi]
      · rw [hlast, hclear]
    · intro i j hij hj
      rcases Nat.lt_succ_iff_lt_or_eq.mp hj with hj | rfl
      · exact hp.order i j hij hj
      · rw [hlast]
        exact hold i hij
    · intro i hi
      rcases Nat.lt_succ_iff_lt_or_eq.mp hi with hi | rfl
      · exact Nat.lt_trans (hold i hi) hbelow
      · rw [hlast]
        exact hbelow

/-- The stack is a window on zeros. -/
theorem mapStack_window (hk : vm.Ready)
    (h : mapStack vm 16 = some vm') : Window vm' execStackBase execStackTop Buf.zero := by
  have hp := mapStack_pages hk (by decide) h
  generalize stackFrame vm [] vm.heap.kheapCurrent = frame at hp
  have hspace := (mapStack_mapped hk h).overlays.maps.ok.space
  -- the page of an address
  have hplace : ∀ v, execStackBase ≤ v → v < execStackTop → ∃ i a, v = execStackBase + i * 4096 + v % 4096 ∧ i < 16 ∧
      vm'.lookup (pagePath v) = some a ∧ a.user = true ∧ vm'.byteAt v = some (frame i, Fin.ofNat 4096 v) := by
    intro v hlo hhi
    unfold execStackBase execStackTop at hlo hhi
    have hi : (v - execStackBase) / 4096 < 16 := by unfold execStackBase execStackTop; omega
    have hv : v = execStackBase + (v - execStackBase) / 4096 * 4096 + v % 4096 := by
      unfold execStackBase execStackTop
      omega
    obtain ⟨w, u, a, ha, hu, -, hacc⟩ := hp.page _ hi
    have hframe : a.frame = frame ((v - execStackBase) / 4096) := congrArg Prod.fst (some.inj hacc)
    have hpath : pagePath (pageAddr execStackBase ((v - execStackBase) / 4096)) = pagePath v := by
      rw [pageAddr, pagePath_mod, ← pagePath_page v]
      congr 1
      unfold execStackBase execStackTop at *
      omega
    rw [hpath] at ha
    have hcan : canonical v = true := by
      rw [canonical, decide_eq_true (show v < 2 ^ 47 by omega), Bool.true_or]
    refine ⟨_, a, hv, hi, ha, hu, ?_⟩
    rw [Vm.lookup] at ha
    rw [Vm.byteAt, if_pos hcan, ha, map_some, hframe]
  refine ⟨fun v hlo hhi => ?_, fun v w hv hv' hw hw' heq => ?_, fun v hlo hhi => ?_⟩
  · obtain ⟨-, a, -, -, ha, hu, -⟩ := hplace v hlo hhi
    exact (walkUserPt_iff hspace.plain v).mpr ⟨a, ha, hu⟩
  · obtain ⟨i, -, hvi, hi, -, -, hbv⟩ := hplace v hv hv'
    obtain ⟨j, -, hwj, hj, -, -, hbw⟩ := hplace w hw hw'
    rw [hbv, hbw, some.injEq, Prod.mk.injEq, Fin.ext_iff, Fin.val_ofNat, Fin.val_ofNat] at heq
    have hij : i = j := by
      rcases Nat.lt_trichotomy i j with hlt | heq' | hlt
      · exact absurd heq.1 (Nat.ne_of_lt (hp.order i j hlt hj))
      · exact heq'
      · exact absurd heq.1.symm (Nat.ne_of_lt (hp.order j i hlt hi))
    omega
  · obtain ⟨i, -, -, hi, -, -, hb⟩ := hplace v hlo hhi
    rw [Vm.load, hb, map_some]
    exact congrArg some (congrFun (hp.clear i hi) _)

end Pages

/-! ## Pushing -/

section Push
variable {vm : Vm} {lo hi : Nat} {buf : Buf}

/-- The bytes that strings take with their terminators. -/
def stringBytes (strs : List (List UInt8)) : Nat := (strs.map fun s => s.length + 1).sum

/-- Strings on the stack: at `ptrs`, from `low` up to `top`. -/
structure Strings (buf : Buf) (low top : Nat) (ptrs : List Nat) (strs : List (List UInt8)) : Prop where
  count : ptrs.length = strs.length
  within : ∀ i (h : i < ptrs.length) (h' : i < strs.length), low ≤ ptrs[i] ∧ ptrs[i] + strs[i].length < top
  bytes : ∀ i (h : i < ptrs.length) (h' : i < strs.length), ∀ j ≤ strs[i].length,
    buf (ptrs[i] + j) = strs[i].getD j 0
  apart : ∀ i j (h : i < ptrs.length) (h' : j < ptrs.length) (hs : j < strs.length), i < j →
    ptrs[j] + strs[j].length < ptrs[i]

theorem pushStrings_spec (hw : Window vm lo hi buf) (h64 : hi ≤ 2 ^ 64) (top : Nat) (strs : List (List UInt8))
    (hlo : lo + stringBytes strs ≤ top) (hhi : top ≤ hi) :
    ∃ ptrs vm' buf', pushStrings vm top strs = some (ptrs, top - stringBytes strs, vm') ∧ Window vm' lo hi buf' ∧
      Strings buf' (top - stringBytes strs) top ptrs strs ∧ Buf.EqOn buf buf' top hi := by
  induction strs generalizing vm buf top with
  | nil => exact ⟨[], vm, buf, rfl, hw, ⟨rfl, nofun, nofun, nofun⟩, fun _ _ _ => rfl⟩
  | cons s rest ih =>
    have hsum : stringBytes (s :: rest) = s.length + 1 + stringBytes rest := sum_cons
    obtain ⟨vm₁, h1, hw1⟩ := hw.storeBytes h64 (v := top - (s.length + 1)) (n := s.length + 1) (by omega) (by omega)
      fun i => s.getD i 0
    obtain ⟨ptrs, vm₂, buf₂, h2, hw2, hstr, hkeep⟩ := ih hw1 (top - (s.length + 1)) (by omega) (by omega)
    have hlow : top - (s.length + 1) - stringBytes rest = top - stringBytes (s :: rest) := by omega
    rw [hlow] at h2 hstr
    have hcopied : ∀ i, top - (s.length + 1) ≤ i → i < hi → buf₂ i =
        buf.copy (top - (s.length + 1)) (fun i => s.getD i 0) (s.length + 1) i :=
      fun i h1 h2 => (hkeep i h1 h2).symm
    refine ⟨(top - (s.length + 1)) :: ptrs, vm₂, buf₂, ?_, hw2, ⟨?_, ?_, ?_, ?_⟩, fun i h1 h2 => ?_⟩
    · rw [pushStrings, h1, Option.bind_some, h2, map_some]
    · rw [length_cons, length_cons, hstr.count]
    · intro i hi hi'
      cases i with
      | zero =>
        simp only [getElem_cons_zero]
        omega
      | succ i =>
        simp only [getElem_cons_succ]
        have := hstr.within i (Nat.lt_of_succ_lt_succ hi) (Nat.lt_of_succ_lt_succ hi')
        omega
    · intro i hi hi' j hj
      cases i with
      | zero =>
        simp only [getElem_cons_zero] at hj ⊢
        rw [hcopied _ (by omega) (by omega), Buf.copy, if_pos (by omega), Nat.add_sub_cancel_left]
      | succ i => exact hstr.bytes i (Nat.lt_of_succ_lt_succ hi) (Nat.lt_of_succ_lt_succ hi') j hj
    · intro i j hi hj hj' hij
      obtain ⟨j, rfl⟩ := Nat.exists_eq_succ_of_ne_zero (Nat.ne_zero_of_lt hij)
      cases i with
      | zero => exact (hstr.within j (Nat.lt_of_succ_lt_succ hj) (Nat.lt_of_succ_lt_succ hj')).2
      | succ i =>
        exact hstr.apart i j (Nat.lt_of_succ_lt_succ hi) (Nat.lt_of_succ_lt_succ hj) (Nat.lt_of_succ_lt_succ hj')
          (Nat.lt_of_succ_lt_succ hij)
    · rw [hcopied i (by omega) h2, Buf.copy_outside _ _ (by omega)]

/-- Words below `top`, the first one highest. -/
def Words (buf : Buf) (size top : Nat) (ws : List Nat) : Prop :=
  ∀ j (h : j < ws.length), ∀ i < size, buf (top - size * (j + 1) + i) = UInt8.ofNat (ws[j] / 256 ^ i)

theorem pushWords_spec (hw : Window vm lo hi buf) (h64 : hi ≤ 2 ^ 64) (size top : Nat) (ws : List Nat)
    (hlo : lo + size * ws.length ≤ top) (hhi : top ≤ hi) :
    ∃ vm' buf', pushWords size top vm ws = some (top - size * ws.length, vm') ∧ Window vm' lo hi buf' ∧
      Words buf' size top ws ∧ Buf.EqOn buf buf' top hi := by
  induction ws generalizing vm buf top with
  | nil => exact ⟨vm, buf, rfl, hw, nofun, fun _ _ _ => rfl⟩
  | cons w rest ih =>
    rw [length_cons, Nat.mul_succ] at hlo ⊢
    obtain ⟨vm₁, h1, hw1⟩ := hw.storeBytes h64 (v := top - size) (n := size) (by omega) (by omega)
      fun i => UInt8.ofNat (w / 256 ^ i)
    obtain ⟨vm₂, buf₂, h2, hw2, hwords, hkeep⟩ := ih hw1 (top - size) (by omega) (by omega)
    refine ⟨vm₂, buf₂, ?_, hw2, ?_, fun i h1 h2 => ?_⟩
    · have hfirst : pushWord size top vm w = some (top - size, vm₁) := by rw [pushWord, h1, map_some]
      rw [pushWords, foldlM_cons]
      dsimp only
      rw [hfirst, bind_eq_bind, Option.bind_some]
      have hend : top - (size * rest.length + size) = top - size - size * rest.length := by omega
      rw [hend]
      exact h2
    · intro j hj i hi
      cases j with
      | zero =>
        rw [Nat.zero_add, Nat.mul_one, getElem_cons_zero, ← hkeep _ (by omega) (by omega), Buf.copy,
          if_pos (by omega), Nat.add_sub_cancel_left]
      | succ j =>
        have hplace : top - size * (j + 1 + 1) = top - size - size * (j + 1) := by
          rw [Nat.mul_succ]
          omega
        rw [hplace, getElem_cons_succ]
        exact hwords j (Nat.lt_of_succ_lt_succ hj) i hi
    · rw [← hkeep i (by omega) h2, Buf.copy_outside _ _ (by omega)]

end Push

end LiwusOS.Exec
