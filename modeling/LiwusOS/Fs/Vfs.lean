import LiwusOS.Fs.Path

/-! # Opening a path (`vfs.c`)

The file systems behind the mounts are a parameter: `finddir` is `finddir_fs` for
nodes of type `N`. It may run out of fuel, so there are two levels of options; a
component that does not fit into `part` is undefined behaviour and gives `none`
too. -/

namespace LiwusOS.Fs
open LiwusOS.Lib

structure Mount (N : Type) where
  path : List UInt8
  root : N

section Open
variable {N : Type}

/-- The first loop of `vfs_open`: of the mounts whose path begins `path`, the
longest; of several, the first. -/
def bestMatch (path : List UInt8) (mounts : List (Mount N)) : Option (Mount N) :=
  mounts.foldl (fun best m =>
    if m.path.isPrefixOf path && best.all fun b => b.path.length < m.path.length then some m else best) none

/-- With no match, the mount at "/". -/
def mountOf (path : List UInt8) (mounts : List (Mount N)) : Option (Mount N) :=
  (bestMatch path mounts).or (mounts.find? fun m => m.path == [slash])

def dropSlash : List UInt8 → List UInt8
  | [] => []
  | c :: cs => if c = slash then cs else c :: cs

/-- `remaining`: the part of the path below the mount. -/
def remainingPath (m : Mount N) (path : List UInt8) : List UInt8 :=
  if m.path = [slash] then dropSlash path else dropSlash (path.drop m.path.length)

/-- The values of `part`. A slash at the end of the path starts no component. -/
def pathParts (path : List UInt8) : List (List UInt8) :=
  if (splitSlash path).getLast? = some [] then (splitSlash path).dropLast else splitSlash path

/-- The loop over the components. -/
def walkParts (finddir : N → List UInt8 → Option (Option N)) : N → List (List UInt8) → Option (Option N)
  | current, [] => some (some current)
  | current, part :: rest =>
    if part.length ≥ 128 then none else
    (finddir current part).bind fun
      | none => some none
      | some next => walkParts finddir next rest

def vfsOpen (finddir : N → List UInt8 → Option (Option N)) (fsRoot : Option N) (mounts : List (Mount N))
    (path : List UInt8) : Option (Option N) :=
  if path = [] then some fsRoot else
  match mountOf path mounts with
  | none => some none
  | some m => walkParts finddir m.root (pathParts (remainingPath m path))

end Open

/-! ## Components -/

theorem pathParts_piece {p w : List UInt8} (hw : w ∈ pathParts p) : w.Sublist p ∧ slash ∉ w := by
  rw [pathParts] at hw
  split at hw
  · exact splitSlash_piece (List.mem_of_mem_dropLast hw)
  · exact splitSlash_piece hw

end LiwusOS.Fs
