import LiwusOS.Mm.Vmm

/-! # Memory through virtual addresses

What the kernel does when it follows a pointer: the processor translates the
address, page by page, in the current directory. `CR0.WP` is clear, so a store
needs a present page only. `none` is a fault, which the kernel does not survive. -/

namespace LiwusOS.Mm
open Function Option

/-- The two halves of the address space that the processor accepts. -/
def canonical (v : Nat) : Bool := v < 2 ^ 47 || 2 ^ 64 - 2 ^ 47 ≤ v

namespace Vm

/-- The frame of the byte at `v`, and its place there. -/
def byteAt (vm : Vm) (v : Nat) : Option (Nat × Fin 4096) :=
  if canonical v then
    (translate vm.table vm.currentDirectory.pml4 (pagePath v)).map fun a => (a.frame, Fin.ofNat 4096 v)
  else none

def load (vm : Vm) (v : Nat) : Option UInt8 := (vm.byteAt v).map fun (f, i) => vm.page f i

def put (vm : Vm) (f : Nat) (i : Fin 4096) (b : UInt8) : Vm :=
  { vm with page := update vm.page f (update (vm.page f) i b) }

def store (vm : Vm) (v : Nat) (b : UInt8) : Option Vm := (vm.byteAt v).map fun (f, i) => vm.put f i b

/-- The first `n` bytes of `src` to `v`: `memcpy`, or `memset` for a constant `src`. -/
def storeBytes (vm : Vm) (v : Nat) (src : Nat → UInt8) : Nat → Option Vm
  | 0 => some vm
  | n + 1 => (vm.storeBytes v src n).bind fun vm => vm.store ((v + n) % 2 ^ 64) (src n)

end Vm

section Stores
variable {vm vm' : Vm} {v n : Nat} {b : UInt8} {src : Nat → UInt8}

/-- Only contents differ. -/
def Vm.SameTables (vm vm' : Vm) : Prop := vm' = { vm with page := vm'.page }

theorem Vm.SameTables.trans {vm'' : Vm} (h : vm.SameTables vm') (h' : vm'.SameTables vm'') : vm.SameTables vm'' := by
  unfold Vm.SameTables at *
  rw [h', h]

theorem Vm.SameTables.byteAt (h : vm.SameTables vm') : vm'.byteAt v = vm.byteAt v := by
  rw [h]
  rfl

theorem Vm.store_same (h : vm.store v b = some vm') : vm.SameTables vm' := by
  obtain ⟨⟨f, i⟩, -, rfl⟩ := map_eq_some_iff.mp h
  rfl

theorem Vm.storeBytes_same (h : vm.storeBytes v src n = some vm') : vm.SameTables vm' := by
  induction n generalizing vm' with
  | zero =>
    cases h
    rfl
  | succ n ih =>
    obtain ⟨vm₁, h1, h2⟩ := bind_eq_some_iff.mp h
    exact (ih h1).trans (Vm.store_same h2)

/-! ### Lists of stores -/

/-- The stores that copy `n` bytes of `src` to `v`. -/
def bytesTo (v : Nat) (src : Nat → UInt8) (n : Nat) : List (Nat × UInt8) :=
  (List.range n).map fun i => ((v + i) % 2 ^ 64, src i)

/-- What the last of the stores `ws` that reaches the byte `b` puts there. -/
def Vm.lastStore (vm : Vm) (ws : List (Nat × UInt8)) (b : Nat × Fin 4096) : Option UInt8 :=
  ws.reverse.findSome? fun w => if vm.byteAt w.1 = some b then some w.2 else none

/-- From `vm` to `vm'` the stores `ws` were made. -/
structure Vm.Stores (vm vm' : Vm) (ws : List (Nat × UInt8)) : Prop where
  same : vm.SameTables vm'
  page : ∀ f i, vm'.page f i = (vm.lastStore ws (f, i)).getD (vm.page f i)

theorem Vm.lastStore_append (vm : Vm) (ws ws' : List (Nat × UInt8)) (x : Nat × Fin 4096) :
    vm.lastStore (ws ++ ws') x = (vm.lastStore ws' x).or (vm.lastStore ws x) := by
  rw [Vm.lastStore, List.reverse_append, List.findSome?_append]
  rfl

theorem Vm.lastStore_append_getD (vm : Vm) (ws ws' : List (Nat × UInt8)) (x : Nat × Fin 4096) (c : UInt8) :
    (vm.lastStore (ws ++ ws') x).getD c = (vm.lastStore ws' x).getD ((vm.lastStore ws x).getD c) := by
  rw [Vm.lastStore_append]
  cases vm.lastStore ws' x with
  | none => rfl
  | some d => rfl

/-- Only where addresses lead matters. -/
theorem Vm.lastStore_congr (h : ∀ v, vm'.byteAt v = vm.byteAt v) (ws : List (Nat × UInt8)) (x : Nat × Fin 4096) :
    vm'.lastStore ws x = vm.lastStore ws x := by
  simp only [Vm.lastStore, h]

theorem Vm.Stores.nil (vm : Vm) : vm.Stores vm [] := ⟨rfl, fun _ _ => rfl⟩

theorem Vm.Stores.append {vm'' : Vm} {ws ws' : List (Nat × UInt8)} (h : vm.Stores vm' ws) (h' : vm'.Stores vm'' ws') :
    vm.Stores vm'' (ws ++ ws') := by
  refine ⟨h.same.trans h'.same, fun f i => ?_⟩
  rw [h'.page, h.page, Vm.lastStore_congr (fun _ => h.same.byteAt), Vm.lastStore_append_getD]

theorem Vm.store_stores (h : vm.store v b = some vm') : vm.Stores vm' [(v, b)] := by
  refine ⟨Vm.store_same h, fun f k => ?_⟩
  obtain ⟨⟨g, i⟩, hx, rfl⟩ := map_eq_some_iff.mp h
  simp only [Vm.lastStore, List.reverse_singleton, List.findSome?_singleton, hx, some.injEq, Prod.mk.injEq, Vm.put]
  by_cases hf : f = g
  · subst hf
    by_cases hi : k = i
    · subst hi
      simp
    · simp [hi, Ne.symm hi]
  · simp [hf, Ne.symm hf]

/-- The byte at `v` is what it was once the stores `ws` are made. -/
def Vm.Kept (vm : Vm) (ws : List (Nat × UInt8)) (v : Nat) : Prop :=
  ∀ f i, vm.byteAt v = some (f, i) → ∀ c ∈ vm.lastStore ws (f, i), c = vm.page f i

/-- Stores to mapped addresses do not fault. -/
theorem Vm.storeBytes_mapped (src : Nat → UInt8) (h : ∀ i < n, (vm.byteAt ((v + i) % 2 ^ 64)).isSome = true) :
    ∃ vm', vm.storeBytes v src n = some vm' := by
  induction n with
  | zero => exact ⟨vm, rfl⟩
  | succ n ih =>
    obtain ⟨vm₁, h1⟩ := ih fun i hi => h i (by omega)
    obtain ⟨x, hx⟩ := isSome_iff_exists.mp (h n (by omega))
    rw [← (Vm.storeBytes_same h1).byteAt] at hx
    refine ⟨vm₁.put x.1 x.2 (src n), ?_⟩
    rw [Vm.storeBytes, h1, bind_some, Vm.store, hx, map_some]

end Stores
end LiwusOS.Mm
