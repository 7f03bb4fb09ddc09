import Mathlib.Tactic

/-! # Byte buffers and little-endian fields

A buffer is the byte at each offset. The operations are the ones C code
performs on raw memory: single stores, `memcpy` of a range, and packed
little-endian fields. Every read of a field depends only on the bytes it
covers, and every write changes only those; the layout proofs above this
module use nothing else. -/

namespace LiwusOS.Lib

variable {hi i lo off off' : Nat}

abbrev Buf := Nat → UInt8

namespace Buf

/-- Two buffers agree on the offsets `lo ≤ i < hi`. -/
def EqOn (b c : Buf) (lo hi : Nat) : Prop := ∀ i, lo ≤ i → i < hi → b i = c i

theorem EqOn.mono {b c : Buf} {lo' hi' : Nat} (h : EqOn b c lo hi) (hlo : lo ≤ lo') (hhi : hi' ≤ hi) :
    EqOn b c lo' hi' :=
  fun i h1 h2 => h i (by omega) (by omega)

theorem EqOn.symm {b c : Buf} (h : EqOn b c lo hi) : EqOn c b lo hi :=
  fun i h1 h2 => (h i h1 h2).symm

theorem EqOn.trans {b c d : Buf} (h : EqOn b c lo hi) (h' : EqOn c d lo hi) : EqOn b d lo hi :=
  fun i h1 h2 => (h i h1 h2).trans (h' i h1 h2)

/-- `memset(buf, 0, n)` for a buffer nothing reads past `n`. -/
def zero : Buf := fun _ => 0

def set (b : Buf) (off : Nat) (v : UInt8) : Buf := fun i => if i = off then v else b i

/-- `memcpy(b + off, src, len)`. -/
def copy (b : Buf) (off : Nat) (src : Buf) (len : Nat) : Buf :=
  fun i => if off ≤ i ∧ i < off + len then src (i - off) else b i

/-- The `n` bytes from `off` on. -/
def bytes (b : Buf) (off : Nat) : Nat → List UInt8
  | 0 => []
  | n + 1 => b off :: bytes b (off + 1) n

/-- `memcpy(b + off, l, l.length)` from an array of bytes. -/
def putBytes (b : Buf) (off : Nat) (l : List UInt8) : Buf :=
  fun i => if off ≤ i ∧ i < off + l.length then l.getD (i - off) 0 else b i

def u16 (b : Buf) (off : Nat) : UInt16 :=
  UInt16.ofNat ((b off).toNat + 256 * (b (off + 1)).toNat)

def putU16 (b : Buf) (off : Nat) (v : UInt16) : Buf := fun i =>
  if i = off then UInt8.ofNat v.toNat
  else if i = off + 1 then UInt8.ofNat (v.toNat / 256)
  else b i

def u32 (b : Buf) (off : Nat) : UInt32 :=
  UInt32.ofNat ((b off).toNat + 256 * (b (off + 1)).toNat + 65536 * (b (off + 2)).toNat +
    16777216 * (b (off + 3)).toNat)

def putU32 (b : Buf) (off : Nat) (v : UInt32) : Buf := fun i =>
  if i = off then UInt8.ofNat v.toNat
  else if i = off + 1 then UInt8.ofNat (v.toNat / 256)
  else if i = off + 2 then UInt8.ofNat (v.toNat / 65536)
  else if i = off + 3 then UInt8.ofNat (v.toNat / 16777216)
  else b i

/-- A `uint64_t`, as a number. -/
def u64 (b : Buf) (off : Nat) : Nat := (b.u32 off).toNat + 2 ^ 32 * (b.u32 (off + 4)).toNat

/-! ## What a write leaves alone -/

theorem set_ne (b : Buf) (v : UInt8) (h : i ≠ off) : b.set off v i = b i := by
  simp [set, h]

@[simp] theorem set_self (b : Buf) (off : Nat) (v : UInt8) : b.set off v off = v := by
  simp [set]

theorem copy_outside (b src : Buf) {len : Nat} (h : i < off ∨ off + len ≤ i) : b.copy off src len i = b i := by
  have hn : ¬(off ≤ i ∧ i < off + len) := by omega
  simp [copy, hn]

theorem copy_inside (b src : Buf) {len : Nat} (h1 : off ≤ i) (h2 : i < off + len) :
    b.copy off src len i = src (i - off) := by
  simp [copy, h1, h2]

theorem putBytes_outside (b : Buf) {l : List UInt8} (h : i < off ∨ off + l.length ≤ i) :
    b.putBytes off l i = b i := by
  have hn : ¬(off ≤ i ∧ i < off + l.length) := by omega
  simp [putBytes, hn]

theorem putU16_outside (b : Buf) (v : UInt16) (h : i < off ∨ off + 2 ≤ i) : b.putU16 off v i = b i := by
  have h0 : i ≠ off := by omega
  have h1 : i ≠ off + 1 := by omega
  simp [putU16, h0, h1]

theorem putU32_outside (b : Buf) (v : UInt32) (h : i < off ∨ off + 4 ≤ i) : b.putU32 off v i = b i := by
  have h0 : i ≠ off := by omega
  have h1 : i ≠ off + 1 := by omega
  have h2 : i ≠ off + 2 := by omega
  have h3 : i ≠ off + 3 := by omega
  simp [putU32, h0, h1, h2, h3]

/-! ## Reads depend only on their bytes -/

theorem u16_congr {b c : Buf} (h : EqOn b c off (off + 2)) : b.u16 off = c.u16 off := by
  simp only [u16, h off (by omega) (by omega), h (off + 1) (by omega) (by omega)]

theorem u32_congr {b c : Buf} (h : EqOn b c off (off + 4)) : b.u32 off = c.u32 off := by
  simp only [u32, h off (by omega) (by omega), h (off + 1) (by omega) (by omega),
    h (off + 2) (by omega) (by omega), h (off + 3) (by omega) (by omega)]

@[simp] theorem length_bytes (b : Buf) (off n : Nat) : (b.bytes off n).length = n := by
  induction n generalizing off with
  | zero => rfl
  | succ n ih => simp [bytes, ih]

theorem getElem?_bytes (b : Buf) (off n i : Nat) (h : i < n) : (b.bytes off n)[i]? = some (b (off + i)) := by
  induction n generalizing off i with
  | zero => omega
  | succ n ih =>
    cases i with
    | zero => simp [bytes]
    | succ i =>
      simp only [bytes, List.getElem?_cons_succ]
      rw [ih (off + 1) i (by omega)]
      congr 2
      omega

/-! ## Round trips -/

theorem bytes_const {b : Buf} {v : UInt8} (h : ∀ k, b k = v) (off n : Nat) : b.bytes off n = List.replicate n v := by
  induction n generalizing off with
  | zero => rfl
  | succ n ih => rw [bytes, h, ih, List.replicate_succ]

theorem bytes_append (b : Buf) (off n m : Nat) : b.bytes off (n + m) = b.bytes off n ++ b.bytes (off + n) m := by
  induction n generalizing off with
  | zero => simp [bytes]
  | succ n ih =>
    have hoff : off + (n + 1) = off + 1 + n := by omega
    rw [Nat.add_right_comm, bytes, bytes, ih, hoff, List.cons_append]

/-- Equal bytes, wherever they lie. -/
theorem bytes_shift {b c : Buf} {n off' : Nat} (h : ∀ i < n, b (off + i) = c (off' + i)) :
    b.bytes off n = c.bytes off' n := by
  apply List.ext_getElem?
  intro i
  by_cases hi : i < n
  · rw [getElem?_bytes _ _ _ _ hi, getElem?_bytes _ _ _ _ hi, h i hi]
  · simp [hi]

theorem bytes_congr {b c : Buf} {n : Nat} (h : EqOn b c off (off + n)) : b.bytes off n = c.bytes off n :=
  bytes_shift fun i _ => h _ (by omega) (by omega)

theorem bytes_copy (b src : Buf) (off n : Nat) : (b.copy off src n).bytes off n = src.bytes 0 n :=
  bytes_shift fun i _ => by
    rw [copy_inside _ _ (by omega) (by omega), Nat.add_sub_cancel_left, Nat.zero_add]

section
variable (b : Buf)
include b

theorem bytes_putBytes (off : Nat) (l : List UInt8) : (b.putBytes off l).bytes off l.length = l := by
  apply List.ext_getElem?
  intro i
  by_cases h : i < l.length
  · rw [getElem?_bytes _ _ _ _ h]
    simp [putBytes, h]
  · rw [List.getElem?_eq_none (by simpa using h), List.getElem?_eq_none (by simpa using h)]

@[simp] theorem u16_putU16 (off : Nat) (v : UInt16) : (b.putU16 off v).u16 off = v := by
  have hv := v.toNat_lt
  apply UInt16.toNat_inj.mp
  simp [u16, putU16]
  omega

@[simp] theorem u32_putU32 (off : Nat) (v : UInt32) : (b.putU32 off v).u32 off = v := by
  have hv := v.toNat_lt
  apply UInt32.toNat_inj.mp
  simp [u32, putU32]
  omega

/-! ## Fields that do not overlap -/

theorem eqOn_putU16 (v : UInt16) (h : hi ≤ off ∨ off + 2 ≤ lo) : (b.putU16 off v).EqOn b lo hi :=
  fun _ _ _ => putU16_outside b v (by omega)

theorem eqOn_putU32 (v : UInt32) (h : hi ≤ off ∨ off + 4 ≤ lo) : (b.putU32 off v).EqOn b lo hi :=
  fun _ _ _ => putU32_outside b v (by omega)

theorem eqOn_set (v : UInt8) (h : hi ≤ off ∨ off + 1 ≤ lo) : (b.set off v).EqOn b lo hi :=
  fun _ _ _ => set_ne b v (by omega)

theorem u16_putU16_ne (v : UInt16) (h : off' + 2 ≤ off ∨ off + 2 ≤ off') : (b.putU16 off v).u16 off' = b.u16 off' :=
  u16_congr (eqOn_putU16 b v h)

theorem u32_putU16_ne (v : UInt16) (h : off' + 4 ≤ off ∨ off + 2 ≤ off') : (b.putU16 off v).u32 off' = b.u32 off' :=
  u32_congr (eqOn_putU16 b v h)

theorem u32_putU32_ne (v : UInt32) (h : off' + 4 ≤ off ∨ off + 4 ≤ off') : (b.putU32 off v).u32 off' = b.u32 off' :=
  u32_congr (eqOn_putU32 b v h)

theorem u32_set_ne (v : UInt8) (h : off' + 4 ≤ off ∨ off + 1 ≤ off') : (b.set off v).u32 off' = b.u32 off' :=
  u32_congr (eqOn_set b v h)

theorem bytes_putU16_ne {n : Nat} (v : UInt16) (h : off' + n ≤ off ∨ off + 2 ≤ off') :
    (b.putU16 off v).bytes off' n = b.bytes off' n :=
  bytes_congr (eqOn_putU16 b v h)

theorem bytes_putU32_ne {n : Nat} (v : UInt32) (h : off' + n ≤ off ∨ off + 4 ≤ off') :
    (b.putU32 off v).bytes off' n = b.bytes off' n :=
  bytes_congr (eqOn_putU32 b v h)

end

end Buf

end LiwusOS.Lib
