import LiwusOS.Fs.Path

/-! # Path-based operations (`sdfs.c`)

`sdfs_write_file` and `sdfs_read_file` test the result of `sdfs_resolve_full`
for non-zero, and its -1 passes as "found" with the local entry never written.
What that entry then holds is the argument `junk`. -/

namespace LiwusOS.Fs
open LiwusOS.Lib

/-- Payload bytes of a data block. -/
def sdfsDataSize : Nat := 4092

def pathIsRoot (path : CStr) : Bool := path.bytes == [slash]

/-- The entry a new file or directory gets. -/
def newEntry (type : UInt8) (name : List UInt8) (startBlock : Nat) (now : UInt32)
    (permissions : UInt16) : Entry where
  type := type
  name := name
  startBlock := UInt32.ofNat startBlock
  fileSize := 0
  createdTime := now
  modifiedTime := now
  uid := 0
  gid := 0
  permissions := permissions

/-- What `sdfs_create_file` and `sdfs_create_dir` do below a resolved parent. -/
def createIn (fuel : Nat) (s : Volume) (parent : Nat) (name : List UInt8) (type : UInt8)
    (permissions : UInt16) : Option (Int × Volume) :=
  (sdfsDirFindEntry s name fuel parent).bind fun found =>
    if found.isSome then some (-1, s) else
    let (startBlock, s) := sdfsAllocBlock s
    if startBlock = 0 then some (-1, s) else
    (sdfsDirAddEntry (newEntry type name startBlock s.timerTicks permissions) fuel s parent).map
      fun (ret, s) => if ret ≠ 0 then (-1, sdfsFreeBlock s startBlock) else (0, s)

def createPath (fuel : Nat) (s : Volume) (path : CStr) (type : UInt8) (permissions : UInt16) :
    Option (Int × Volume) :=
  if !s.mounted ∨ path.bytes.head? ≠ some slash ∨ pathIsRoot path then some (-1, s) else
  (sdfsResolveParent fuel s path).bind fun parent =>
    match parent with
    | none => some (-1, s)
    | some (block, name) => createIn fuel s block name type permissions

def sdfsCreateFile (fuel : Nat) (s : Volume) (path : CStr) : Option (Int × Volume) :=
  createPath fuel s path sdfsTypeFile sdfsDefaultPerm

def sdfsCreateDir (fuel : Nat) (s : Volume) (path : CStr) : Option (Int × Volume) :=
  createPath fuel s path sdfsTypeDir (sdfsDefaultPerm ||| sdfsPermExec)

/-- A data block as the loop of `sdfs_write_file` fills it. -/
def dataBlock (next : Nat) (src : Buf) (toWrite : Nat) : Block :=
  ((Buf.zero : Block).putU32 0 (UInt32.ofNat next)).copy 4 src toWrite

/-- The loop of `sdfs_write_file`: `false` when it ran out of blocks. `bound`
is for the walk of `sdfs_free_chain` on that exit. -/
def writeLoop (bound : Nat) (buffer : Buf) (startBlock : Nat) :
    Nat → Volume → Nat → Nat → Nat → Option (Bool × Volume)
  | 0, _, _, _, _ => none
  | fuel + 1, s, curBlock, remaining, src =>
    if remaining = 0 then some (true, s) else
    let toWrite := if remaining > sdfsDataSize then sdfsDataSize else remaining
    let (nextBlock, s) := if remaining > toWrite then sdfsAllocBlockRaw s else (0, s)
    if remaining > toWrite ∧ nextBlock = 0 then
      (sdfsFreeChain bound s startBlock).map fun s => (false, s)
    else
      let s := sdfsWriteBlock s curBlock (dataBlock nextBlock (fun i => buffer (src + i)) toWrite)
      writeLoop bound buffer startBlock fuel s nextBlock (remaining - toWrite) (src + toWrite)

/-- The allocation part of `sdfs_write_file`: the start block of the new chain,
or 0. -/
def writeChain (fuel : Nat) (s : Volume) (buffer : Buf) (size : Nat) : Option (Nat × Volume) :=
  if size = 0 then some (sdfsAllocBlock s)
  else
    let (startBlock, s) := sdfsAllocBlockRaw s
    if startBlock = 0 then some (0, s)
    else (writeLoop fuel buffer startBlock fuel s startBlock size 0).map
      fun (done, s) => (if done then startBlock else 0, s)

/-- The entry `sdfs_write_file` records; `existing` is the entry it replaces. -/
def writtenEntry (existing : Option Entry) (name : List UInt8) (startBlock : Nat) (size now : UInt32) :
    Entry where
  type := sdfsTypeFile
  name := name
  startBlock := UInt32.ofNat startBlock
  fileSize := size
  createdTime := (existing.map Entry.createdTime).getD now
  modifiedTime := now
  uid := (existing.map Entry.uid).getD 0
  gid := (existing.map Entry.gid).getD 0
  permissions := (existing.map Entry.permissions).getD sdfsDefaultPerm

/-- `sdfs_write_file` from the second `sdfs_resolve_parent` on. -/
def writeBody (fuel : Nat) (s : Volume) (path : CStr) (existing : Option Entry) (buffer : Buf)
    (size : UInt32) : Option (UInt32 × Volume) :=
  (sdfsResolveParent fuel s path).bind fun parent =>
    match parent with
    | none => some (0, s)
    | some (block, name) =>
      (writeChain fuel s buffer size.toNat).bind fun (startBlock, s) =>
        if startBlock = 0 then some (0, s) else
        let e := writtenEntry existing name startBlock size s.timerTicks
        (if existing.isSome then (sdfsDirRemoveEntry name fuel s block).map Prod.snd
          else some s).bind fun s =>
        (sdfsDirAddEntry e fuel s block).bind fun (ret, s) =>
          if ret ≠ 0 then (sdfsFreeChain fuel s startBlock).map fun s => (0, s)
          else some (size, s)

def sdfsWriteFile (fuel : Nat) (junk : Entry) (s : Volume) (path : CStr) (buffer : Buf)
    (size : UInt32) : Option (UInt32 × Volume) :=
  if !s.mounted then some (0, s) else
  (sdfsResolveFull fuel s path).bind fun r =>
    match r with
    | .absent => writeBody fuel s path none buffer size
    | .noParent => overwrite s junk
    | .found l => overwrite s l.entry
where
  /-- The branch `if (exists)`. -/
  overwrite (s : Volume) (existing : Entry) : Option (UInt32 × Volume) :=
    if existing.type ≠ sdfsTypeFile then some (0, s)
    else (sdfsFreeChain fuel s existing.startBlock.toNat).bind fun s =>
      writeBody fuel s path (some existing) buffer size

/-- What `sdfs_read_file` hands out: `*size_out`, and the bytes it copied from
the chain. If the chain ends early the rest of the buffer is not initialised. -/
structure FileContents where
  size : UInt32
  bytes : List UInt8
deriving DecidableEq

/-- The copy loop of `sdfs_read_file`. -/
def readLoop (s : Volume) : Nat → Nat → Nat → Option (List UInt8)
  | 0, _, _ => none
  | fuel + 1, curBlock, remaining =>
    if remaining = 0 ∨ curBlock = 0 then some [] else
    let toCopy := if remaining > sdfsDataSize then sdfsDataSize else remaining
    (readLoop s fuel (sdfsGetNextBlock s curBlock) (remaining - toCopy)).map
      ((sdfsReadBlock s curBlock).bytes 4 toCopy ++ ·)

def readEntry (fuel : Nat) (s : Volume) (e : Entry) : Option (Option FileContents) :=
  if e.type ≠ sdfsTypeFile then some none
  else if e.fileSize = 0 then some (some ⟨0, []⟩)
  else (readLoop s fuel e.startBlock.toNat e.fileSize.toNat).map fun bytes =>
    some ⟨e.fileSize, bytes⟩

def sdfsReadFile (fuel : Nat) (junk : Entry) (s : Volume) (path : CStr) :
    Option (Option FileContents) :=
  if !s.mounted then some none else
  (sdfsResolveFull fuel s path).bind fun r =>
    match r with
    | .absent => some none
    | .noParent => readEntry fuel s junk
    | .found l => readEntry fuel s l.entry

def sdfsDelete (fuel : Nat) (s : Volume) (path : CStr) : Option (Int × Volume) :=
  if !s.mounted ∨ pathIsRoot path then some (-1, s) else
  (sdfsResolveParent fuel s path).bind fun parent =>
    match parent with
    | none => some (-1, s)
    | some (block, name) =>
      (sdfsDirFindEntry s name fuel block).bind fun found =>
        match found with
        | none => some (-1, s)
        | some l =>
          if l.entry.type = sdfsTypeDir then
            (sdfsDirCountEntries s fuel l.entry.startBlock.toNat).bind fun n =>
              if n > 0 then some (-1, s)
              else unlink (sdfsFreeBlock s l.entry.startBlock.toNat) block name
          else (sdfsFreeChain fuel s l.entry.startBlock.toNat).bind fun s => unlink s block name
where
  unlink (s : Volume) (block : Nat) (name : List UInt8) : Option (Int × Volume) :=
    (sdfsDirRemoveEntry name fuel s block).map fun (_, s) => (0, s)

def sdfsRename (fuel : Nat) (s : Volume) (oldPath newPath : CStr) : Option (Int × Volume) :=
  if !s.mounted ∨ pathIsRoot oldPath ∨ pathIsRoot newPath then some (-1, s) else
  (sdfsResolveParent fuel s oldPath).bind fun oldParent =>
  match oldParent with
  | none => some (-1, s)
  | some (oldBlock, oldName) =>
  (sdfsDirFindEntry s oldName fuel oldBlock).bind fun found =>
  match found with
  | none => some (-1, s)
  | some l =>
  (sdfsResolveParent fuel s newPath).bind fun newParent =>
  match newParent with
  | none => some (-1, s)
  | some (newBlock, newName) =>
  (sdfsDirFindEntry s newName fuel newBlock).bind fun clash =>
  if clash.isSome then some (-1, s) else
  (sdfsDirRemoveEntry oldName fuel s oldBlock).bind fun (_, s) =>
  let e := l.entry
  (sdfsDirAddEntry { e with name := newName, modifiedTime := s.timerTicks } fuel s newBlock).bind
    fun (ret, s) =>
  if ret ≠ 0 then
    (sdfsDirAddEntry { e with name := oldName } fuel s oldBlock).map fun (_, s) => (-1, s)
  else some (0, s)

def sdfsSetPermissions (fuel : Nat) (s : Volume) (path : CStr) (perm : UInt16) :
    Option (Int × Volume) :=
  if !s.mounted then some (-1, s) else
  (sdfsResolveParent fuel s path).bind fun parent =>
    match parent with
    | none => some (-1, s)
    | some (block, name) =>
      (sdfsDirFindEntry s name fuel block).bind fun found =>
        match found with
        | none => some (-1, s)
        | some l =>
          let e := { l.entry with permissions := perm, modifiedTime := s.timerTicks }
          (sdfsDirRemoveEntry name fuel s block).bind fun (_, s) => sdfsDirAddEntry e fuel s block

/-! ## Queries -/

/-- The entry a caller goes on with that tests the result of `sdfs_resolve_full` for
non-zero. -/
def Resolved.taken (junk : Entry) : Resolved → Option Entry
  | .absent => none
  | .noParent => some junk
  | .found l => some l.entry

/-- `sdfs_path_info`: `none` for -1, or 0 with `*is_dir_out` and `*size_out`. -/
def sdfsPathInfo (fuel : Nat) (junk : Entry) (s : Volume) (path : CStr) : Option (Option (Bool × UInt32)) :=
  if !s.mounted then some none
  else if pathIsRoot path then some (some (true, 0))
  else (sdfsResolveFull fuel s path).map fun r =>
    (r.taken junk).map fun e => (e.type == sdfsTypeDir, e.fileSize)

/-- `sdfs_list_dir_entry`: `none` for -1, or 0 with its three outputs. `index` is an
`int` that is compared with a count. -/
def sdfsListDirEntry (fuel : Nat) (junk : Entry) (s : Volume) (path : CStr) (index : UInt32) :
    Option (Option (List UInt8 × Bool × UInt32)) :=
  if !s.mounted then some none else
  (if pathIsRoot path then some (some s.rootBlock)
    else (sdfsResolveFull fuel s path).map fun r =>
      (r.taken junk).bind fun e => if e.type ≠ sdfsTypeDir then none else some e.startBlock.toNat).bind fun dir =>
  match dir with
  | none => some none
  | some dirBlock =>
    (sdfsDirFindByIndex s fuel dirBlock index.toNat).map fun out =>
      out.map fun l => (l.entry.name, l.entry.type == sdfsTypeDir, l.entry.fileSize)

/-- `sdfs_get_permissions`: `none` for -1, or 0 with `*perm`. -/
def sdfsGetPermissions (fuel : Nat) (junk : Entry) (s : Volume) (path : CStr) : Option (Option UInt16) :=
  if !s.mounted then some none
  else if pathIsRoot path then some (some (sdfsDefaultPerm ||| sdfsPermExec))
  else (sdfsResolveFull fuel s path).map fun r => (r.taken junk).map Entry.permissions

end LiwusOS.Fs
