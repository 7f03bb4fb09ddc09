import LiwusOS.Exec.ExecIntact
import LiwusOS.Exec.UserStack

/-! # The arguments of a new program

`do_execve` reads `argv` and its strings after the segments and the stack of the
new program have been mapped, so it delivers what is there by then. -/

namespace LiwusOS.Exec
open LiwusOS.Lib List Option
open LiwusOS.Mm

/-- The size of a word on the stack of a program of the class. -/
def wordSize (cls : UInt8) : Nat := if cls = elfClass32 then 4 else 8

/-- `argc` at `rsp`, and above it pointers to the strings. -/
structure Delivered (cls : UInt8) (vm : Vm) (rsp : Nat) (strs : List (List UInt8)) : Prop where
  argc : WordAt (userByte vm) (wordSize cls) rsp strs.length
  argv : ∀ i (h : i < strs.length), ∃ p, WordAt (userByte vm) (wordSize cls) (rsp + wordSize cls * (i + 1)) p ∧
    StringAt (userByte vm) p strs[i]

theorem Delivered.unique {cls : UInt8} {vm : Vm} {rsp : Nat} {strs strs' : List (List UInt8)}
    (h : Delivered cls vm rsp strs) (h' : Delivered cls vm rsp strs') : strs = strs' := by
  refine ext_getElem (h.argc.unique h'.argc) fun i hi hi' => ?_
  obtain ⟨p, hword, hstr⟩ := h.argv i hi
  obtain ⟨p', hword', hstr'⟩ := h'.argv i hi'
  obtain rfl := hword.unique hword'
  exact hstr.unique hstr'

/-- `argc`, the pointers and a NULL word from `rsp` up, and behind them the strings,
each below the one before, all inside the stack. -/
structure ArgBlock (cls : UInt8) (vm : Vm) (rsp : Nat) (strs : List (List UInt8)) (ptrs : List Nat) : Prop where
  count : ptrs.length = strs.length
  argc : WordAt (userByte vm) (wordSize cls) rsp strs.length
  argv : ∀ i (h : i < ptrs.length), WordAt (userByte vm) (wordSize cls) (rsp + wordSize cls * (i + 1)) ptrs[i]
  null : WordAt (userByte vm) (wordSize cls) (rsp + wordSize cls * (strs.length + 1)) 0
  strings : ∀ i (h : i < ptrs.length) (h' : i < strs.length), StringAt (userByte vm) ptrs[i] strs[i]
  bottom : execStackBase ≤ rsp
  behind : ∀ i (h : i < ptrs.length), rsp + wordSize cls * (strs.length + 2) ≤ ptrs[i]
  top : ∀ i (h : i < ptrs.length) (h' : i < strs.length), ptrs[i] + strs[i].length < execStackTop
  apart : ∀ i j (h : i < ptrs.length) (h' : j < ptrs.length) (hs : j < strs.length), i < j →
    ptrs[j] + strs[j].length < ptrs[i]

/-- On a fresh stack the strings are laid out in this way. -/
theorem pushArgs_block {vm : Vm} (cls : UInt8) {args : List (List UInt8)}
    (hw : Window vm execStackBase execStackTop Buf.zero) (hcount : args.length ≤ maxArgs)
    (hbytes : stringBytes args ≤ 32 * 1024) (hnul : ∀ s ∈ args, 0 ∉ s) :
    ∃ rsp vm' ptrs, pushArgs cls vm args = some (rsp, vm') ∧ ArgBlock cls vm' rsp args ptrs := by
  obtain ⟨ptrs, vm₁, buf₁, h1, hw1, hstrs, -⟩ := pushStrings_spec hw (by decide) execStackTop args
    (by unfold execStackBase execStackTop; omega) le_rfl
  obtain ⟨low, hlow⟩ : ∃ low, execStackTop - stringBytes args = low := ⟨_, rfl⟩
  rw [hlow] at h1 hstrs
  obtain ⟨zeros, hzeros⟩ : ∃ zeros, (if cls = elfClass32 then [0, 0] else [0, 0, 0, 0] : List Nat) = zeros := ⟨_, rfl⟩
  have hz : zeros.length ≤ 4 ∧ 0 < zeros.length ∧ zeros[zeros.length - 1]? = some 0 := by
    rw [← hzeros]
    split <;> decide
  have hsize : wordSize cls = 4 ∨ wordSize cls = 8 := by
    unfold wordSize
    split
    · exact .inl rfl
    · exact .inr rfl
  set k := zeros.length + args.length with hk
  have hlen : (zeros ++ ptrs.reverse ++ [args.length]).length = k + 1 := by
    rw [length_append, length_append, length_reverse, hstrs.count, length_singleton]
  -- all words are in the upper part of the stack
  have hfit : wordSize cls * (k + 1) ≤ 168 := by
    unfold maxArgs at hcount
    rcases hsize with h | h
    · rw [h]
      omega
    · rw [h]
      omega
  obtain ⟨vm₂, buf₂, h2, hw2, hwords, hkeep⟩ := pushWords_spec hw1 (by decide) (wordSize cls)
    (low / 16 * 16) (zeros ++ ptrs.reverse ++ [args.length])
    (by rw [hlen]; unfold execStackBase execStackTop at *; omega) (by unfold execStackTop at *; omega)
  rw [hlen] at h2
  refine ⟨low / 16 * 16 - wordSize cls * (k + 1), vm₂, ptrs, ?_, ?_⟩
  · rw [pushArgs, h1, Option.bind_some]
    dsimp only
    rw [hzeros]
    exact h2
  · have hmin : userAddrMin ≤ execStackBase := by decide
    have hmax : execStackTop ≤ userAddrMax := by decide
    -- the word that was pushed as number `j`
    have hword : ∀ j w, (zeros ++ ptrs.reverse ++ [args.length])[j]? = some w → w < 2 ^ 32 →
        WordAt (userByte vm₂) (wordSize cls) (low / 16 * 16 - wordSize cls * (j + 1)) w := by
      intro j w hj hlt
      obtain ⟨hjlt, heq⟩ := List.getElem?_eq_some_iff.mp hj
      rw [hlen] at hjlt
      have hmul : wordSize cls * (j + 1) ≤ wordSize cls * (k + 1) :=
        Nat.mul_le_mul_left _ (by omega)
      have hone : wordSize cls * (j + 1) = wordSize cls * j + wordSize cls := Nat.mul_succ ..
      refine hw2.wordAt ?_ ?_ hmin hmax ?_ fun i hi => ?_
      · unfold execStackBase execStackTop at *
        omega
      · unfold execStackTop at *
        omega
      · rcases hsize with h | h
        · rw [h]
          exact hlt.trans_le (by decide)
        · rw [h]
          exact hlt.trans_le (by decide)
      · rw [← heq]
        exact hwords j (by rw [hlen]; exact hjlt) i hi
    -- counted from `rsp`
    have hplace : ∀ j ≤ k, low / 16 * 16 - wordSize cls * (k + 1) + wordSize cls * j =
        low / 16 * 16 - wordSize cls * (k - j + 1) := by
      intro j hj
      have hsplit : k + 1 = k - j + 1 + j := by omega
      rw [hsplit, Nat.mul_add] at hfit ⊢
      unfold execStackTop at *
      omega
    refine ⟨hstrs.count, ?_, fun i hi => ?_, ?_, fun i hi hi' => ?_, ?_, fun i hi => ?_, fun i hi hi' =>
      (hstrs.within i hi hi').2, hstrs.apart⟩
    · refine hword (k) args.length ?_ (by unfold maxArgs at hcount; omega)
      rw [getElem?_append_right (by rw [length_append, length_reverse, hstrs.count]),
        length_append, length_reverse, hstrs.count, Nat.sub_self]
      rfl
    · have hip : i < args.length := hstrs.count ▸ hi
      have hhi := (hstrs.within i hi hip).2
      rw [hplace _ (by omega)]
      refine hword _ _ ?_ (by unfold execStackTop at *; omega)
      have hrev : args.length - 1 - i < ptrs.reverse.length := by
        rw [length_reverse, hstrs.count]
        omega
      rw [show k - (i + 1) = zeros.length + (args.length - 1 - i) by omega, append_assoc,
        getElem?_append_right (by omega), Nat.add_sub_cancel_left,
        getElem?_append_left hrev, getElem?_eq_getElem hrev, getElem_reverse]
      congr 2
      rw [hstrs.count]
      omega
    · rw [hplace _ (by omega)]
      refine hword _ _ ?_ (by decide)
      rw [show k - (args.length + 1) = zeros.length - 1 by omega, append_assoc,
        getElem?_append_left (by omega)]
      exact hz.2.2
    · have hlo := (hstrs.within i hi hi').1
      refine hw2.stringAt (by unfold execStackBase execStackTop at *; omega) (hstrs.within i hi hi').2 hmin hmax
        (hnul _ (getElem_mem hi')) fun j hj => ?_
      rw [← hkeep _ (by omega) (by have := (hstrs.within i hi hi').2; omega)]
      exact hstrs.bytes i hi hi' j hj
    · unfold execStackBase execStackTop at *
      omega
    · have hlo := (hstrs.within i hi (hstrs.count ▸ hi)).1
      have hle : wordSize cls * (args.length + 2) ≤ wordSize cls * (k + 1) :=
        Nat.mul_le_mul_left _ (by omega)
      unfold execStackTop at *
      omega

/-- **The initial stack of a program holds its arguments.** -/
theorem initial_stack_wellFormed {vm vm₁ : Vm} (cls : UInt8) {args : List (List UInt8)} (hk : vm.heap.Ready)
    (hs : vm.Space vm.currentDirectory.pml4) (hstack : mapStack vm 16 = some vm₁) (hcount : args.length ≤ maxArgs)
    (hbytes : stringBytes args ≤ 32 * 1024) (hnul : ∀ s ∈ args, 0 ∉ s) :
    ∃ rsp vm' ptrs, pushArgs cls vm₁ args = some (rsp, vm') ∧ ArgBlock cls vm' rsp args ptrs :=
  pushArgs_block cls (mapStack_window ⟨hk, hs⟩ hstack) hcount hbytes hnul

/-- The arguments "A" and "BC" of the first program. -/
theorem initial_stack_booted : ∃ vm vm₁ rsp vm' ptrs, booted = some vm ∧ mapStack vm 16 = some vm₁ ∧
    pushArgs 2 vm₁ [[65], [66, 67]] = some (rsp, vm') ∧ ArgBlock 2 vm' rsp [[65], [66, 67]] ptrs := by
  obtain ⟨vm, hvm, vm₁, hstack, -⟩ : ∃ vm ∈ booted, ∃ vm₁ ∈ mapStack vm 16, True := by
    rw [booted, bootHeap_largeInitrd]
    decide +kernel
  obtain ⟨-, -, hk, hs⟩ := booted_space hvm
  obtain ⟨rsp, vm', ptrs, hpush, hblock⟩ := @initial_stack_wellFormed _ _ 2 [[65], [66, 67]] hk hs hstack (by decide)
    (by decide) (by decide)
  exact ⟨vm, vm₁, rsp, vm', ptrs, hvm, hstack, hpush, hblock⟩

/-! ## The call -/

/-- The pages of the segments of a program. -/
def imagePages (cls : UInt8) (file : Buf) : List (List (Fin 512)) := (imageSegments cls file).flatMap segmentPages

section Kept
variable (files : Files) (vm : Vm) (filename : Nat) (cls : UInt8) (file : Buf) (v : Nat)

end Kept

section Call
variable {files : Files} {s s' : ExecState} {vm vm₁ vm₂ vm₃ : Vm} {filename argv last last' entry v : Nat}
  {cls : UInt8} {file : Buf} {S : List (List (Fin 512))}

/-- The memory when `do_execve` reads the arguments. -/
structure Replaced (files : Files) (vm : Vm) (filename : Nat) (cls : UInt8) (file : Buf) (vm₁ vm₂ vm₃ : Vm) :
    Prop where
  prepared : Prepared vm vm₁ (copyStores files vm filename)
  current : vm₁.heap.kheapCurrent = endWithCopy files vm filename
  segments : Overlays 0x7 (Handed vm₁) vm₁ vm₂ (imagePages cls file)
  spent : ∃ fs, Spent vm₁.heap vm₂.heap (vm₁.missing (imagePages cls file)) fs
  pages : ∀ f i, f ≠ 0 → f ∉ vm.heap.pmm.free →
    vm₂.page f i = (vm.lastStore (callStores files vm filename) (f, i)).getD (vm.page f i)
  stack : mapStack vm₂ 16 = some vm₃

namespace Replaced
variable (h : Replaced files vm filename cls file vm₁ vm₂ vm₃)
include h

theorem window : Window vm₃ execStackBase execStackTop Buf.zero := mapStack_window h.segments.maps.ok h.stack

end Replaced

end Call

end LiwusOS.Exec
