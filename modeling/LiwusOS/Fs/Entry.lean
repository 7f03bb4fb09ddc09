import LiwusOS.Fs.Volume

/-! # Directory entries (`sdfs.c`): serialised form

A record is `type`, `name_len`, the name, then 24 bytes of fields of which the
last two are never written. A tombstone is recognised by its type byte alone,
and `sdfs_entry_deserialize` reports it as one unit without looking at the
name length. -/

namespace LiwusOS.Fs
open LiwusOS.Lib Buf

def sdfsTypeFree : UInt8 := 0
def sdfsTypeFile : UInt8 := 1
def sdfsTypeDir : UInt8 := 2
def sdfsTypeDel : UInt8 := 3

def sdfsPermExec : UInt16 := 0x001
/-- `SDFS_DEFAULT_PERM`: the bits 0x100, 0x200, 0x010 and 0x004. -/
def sdfsDefaultPerm : UInt16 := 0x100 ||| 0x200 ||| 0x010 ||| 0x004

/-- `sdfs_entry_t` without its position. `name` holds the `name_len` bytes of
the name array, of which there are at most 255. -/
structure Entry where
  type : UInt8
  name : List UInt8
  startBlock : UInt32
  fileSize : UInt32
  createdTime : UInt32
  modifiedTime : UInt32
  uid : UInt16
  gid : UInt16
  permissions : UInt16
deriving DecidableEq

/-- An entry with `e.block` and `e.block_offset`. -/
structure Located where
  entry : Entry
  block : Nat
  blockOffset : Nat
deriving DecidableEq

/-- `2 + name_len + 24`. -/
def Entry.size (e : Entry) : Nat := 2 + e.name.length + 24

/-- The part of a name before its first NUL, as `strcmp` reads it. -/
def cString (l : List UInt8) : List UInt8 := l.takeWhile (· != 0)

/-- `strcmp(a, b) == 0`. -/
def strcmpEq (a b : List UInt8) : Bool := cString a == cString b

/-- `type == SDFS_TYPE_FREE || type == SDFS_TYPE_DEL`. -/
def isTombstone (type : UInt8) : Bool := type == sdfsTypeFree || type == sdfsTypeDel

/-- The stores of `sdfs_entry_serialize` at `buf + pos`. -/
def putEntry (buf : Block) (pos : Nat) (e : Entry) : Block :=
  let buf := buf.set pos e.type
  let buf := buf.set (pos + 1) (UInt8.ofNat e.name.length)
  let buf := buf.putBytes (pos + 2) e.name
  let off := pos + 2 + e.name.length
  let buf := buf.putU32 off e.startBlock
  let buf := buf.putU32 (off + 4) e.fileSize
  let buf := buf.putU32 (off + 8) e.createdTime
  let buf := buf.putU32 (off + 12) e.modifiedTime
  let buf := buf.putU16 (off + 16) e.uid
  let buf := buf.putU16 (off + 18) e.gid
  buf.putU16 (off + 20) e.permissions

/-- `sdfs_entry_serialize`; `none` is its -1. -/
def sdfsEntrySerialize (buf : Block) (pos bufSize : Nat) (e : Entry) : Option Block :=
  if e.size > bufSize then none else some (putEntry buf pos e)

/-- The fields of a V2 record at `pos`. -/
def entryV2 (buf : Block) (pos : Nat) : Entry :=
  let len := (buf (pos + 1)).toNat
  let off := pos + 2 + len
  { type := buf pos
    name := buf.bytes (pos + 2) len
    startBlock := buf.u32 off
    fileSize := buf.u32 (off + 4)
    createdTime := buf.u32 (off + 8)
    modifiedTime := buf.u32 (off + 12)
    uid := buf.u16 (off + 16)
    gid := buf.u16 (off + 18)
    permissions := buf.u16 (off + 20) }

/-- The fields of a legacy V1 record at `pos`. -/
def entryV1 (buf : Block) (pos : Nat) : Entry :=
  let len := (buf (pos + 1)).toNat
  let off := pos + 2 + len
  { type := buf pos
    name := buf.bytes (pos + 2) len
    startBlock := buf.u32 off
    fileSize := buf.u32 (off + 4)
    createdTime := buf.u32 (off + 8)
    modifiedTime := buf.u32 (off + 8)
    uid := 0
    gid := 0
    permissions := sdfsDefaultPerm }

/-- What `sdfs_entry_deserialize` returns: -1, 1 for a tombstone, or an entry
with its size. -/
inductive Deser where
  | bad
  | tombstone
  | entry (e : Entry) (size : Nat)

def sdfsEntryDeserialize (buf : Block) (pos bufSize : Nat) : Deser :=
  if bufSize < 2 then .bad
  else if isTombstone (buf pos) then .tombstone
  else
    let nameLen := (buf (pos + 1)).toNat
    if 2 + nameLen + 24 ≤ bufSize then
      if nameLen = 0 then .bad else .entry (entryV2 buf pos) (2 + nameLen + 24)
    else if 2 + nameLen + 12 ≤ bufSize then
      if nameLen = 0 then .bad else .entry (entryV1 buf pos) (2 + nameLen + 12)
    else .bad

/-! ## Round trip -/

/-- The name and the fields are stored behind the first two bytes. -/
theorem putEntry_front (buf : Block) (e : Entry) {pos i : Nat} (h : i < pos + 2 ∨ pos + e.size ≤ i) :
    putEntry buf pos e i = (buf.set pos e.type).set (pos + 1) (UInt8.ofNat e.name.length) i := by
  simp only [Entry.size] at h
  unfold putEntry
  rw [putU16_outside _ _ (by omega), putU16_outside _ _ (by omega),
    putU16_outside _ _ (by omega), putU32_outside _ _ (by omega),
    putU32_outside _ _ (by omega), putU32_outside _ _ (by omega),
    putU32_outside _ _ (by omega), putBytes_outside _ (by omega)]

theorem putEntry_outside (buf : Block) (e : Entry) {pos i : Nat}
    (h : i < pos ∨ pos + e.size ≤ i) : putEntry buf pos e i = buf i := by
  have hsize : 2 ≤ e.size := by
    unfold Entry.size
    omega
  rw [putEntry_front _ _ (by omega), set_ne _ _ (by omega), set_ne _ _ (by omega)]

theorem putEntry_type (buf : Block) (pos : Nat) (e : Entry) : putEntry buf pos e pos = e.type := by
  rw [putEntry_front _ _ (by omega), set_ne _ _ (by omega), set_self]

theorem putEntry_nameLen (buf : Block) (pos : Nat) (e : Entry) :
    putEntry buf pos e (pos + 1) = UInt8.ofNat e.name.length := by
  rw [putEntry_front _ _ (by omega), set_self]

theorem putEntry_name (buf : Block) (pos : Nat) (e : Entry) :
    (putEntry buf pos e).bytes (pos + 2) e.name.length = e.name := by
  unfold putEntry
  rw [bytes_putU16_ne _ _ (by omega), bytes_putU16_ne _ _ (by omega),
    bytes_putU16_ne _ _ (by omega), bytes_putU32_ne _ _ (by omega),
    bytes_putU32_ne _ _ (by omega), bytes_putU32_ne _ _ (by omega),
    bytes_putU32_ne _ _ (by omega), bytes_putBytes]

/-- A record written by `sdfs_entry_serialize` reads back as the entry. -/
theorem entryV2_putEntry (buf : Block) (pos : Nat) (e : Entry) (hlen : e.name.length ≤ 255) :
    entryV2 (putEntry buf pos e) pos = e := by
  have hl : (putEntry buf pos e (pos + 1)).toNat = e.name.length := by
    rw [putEntry_nameLen]
    simp only [UInt8.toNat_ofNat']
    omega
  have hname := putEntry_name buf pos e
  have htype := putEntry_type buf pos e
  obtain ⟨type, name, startBlock, fileSize, createdTime, modifiedTime, uid, gid, permissions⟩ := e
  simp only [entryV2, hl, hname, htype, Entry.mk.injEq, true_and]
  unfold putEntry
  simp (disch := omega) only [u32_putU16_ne, u32_putU32_ne, u16_putU16_ne,
    u32_putU32, u16_putU16, and_self]

/-- `entryV2` looks at the record's bytes only. -/
theorem entryV2_congr {b c : Block} {pos : Nat}
    (h : b.EqOn c pos (pos + 2 + (b (pos + 1)).toNat + 24)) : entryV2 b pos = entryV2 c pos := by
  have h0 := h pos (by omega) (by omega)
  have h1 := h (pos + 1) (by omega) (by omega)
  simp only [entryV2, Entry.mk.injEq, ← h1, ← h0, true_and]
  exact ⟨bytes_congr (h.mono (by omega) (by omega)),
    u32_congr (h.mono (by omega) (by omega)), u32_congr (h.mono (by omega) (by omega)),
    u32_congr (h.mono (by omega) (by omega)), u32_congr (h.mono (by omega) (by omega)),
    u16_congr (h.mono (by omega) (by omega)), u16_congr (h.mono (by omega) (by omega)),
    u16_congr (h.mono (by omega) (by omega))⟩

@[simp] theorem entryV2_name_length (b : Block) (pos : Nat) : (entryV2 b pos).name.length = (b (pos + 1)).toNat := by
  simp [entryV2]

end LiwusOS.Fs
