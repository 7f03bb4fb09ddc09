import LiwusOS.Fs.Dir

/-! # Path resolution (`sdfs.c`) -/

namespace LiwusOS.Fs
open LiwusOS.Lib List

/-- A NUL-terminated string: its bytes before the terminator. -/
structure CStr where
  bytes : List UInt8
  noNul : ∀ c ∈ bytes, c ≠ 0

def slash : UInt8 := 47

/-- The pieces of a string between its slashes, empty ones included. -/
def splitSlash : List UInt8 → List (List UInt8)
  | [] => [[]]
  | c :: cs =>
    if c = slash then [] :: splitSlash cs
    else match splitSlash cs with
      | [] => [[c]]
      | w :: ws => (c :: w) :: ws

/-! ## Pieces -/

/-- A piece is a part of the string without a slash. -/
theorem splitSlash_piece {p w : List UInt8} (hw : w ∈ splitSlash p) : w <+ p ∧ slash ∉ w := by
  induction p generalizing w with
  | nil =>
    rw [mem_singleton.mp hw]
    exact ⟨.slnil, not_mem_nil⟩
  | cons x p ih =>
    rw [splitSlash] at hw
    split at hw
    · rcases mem_cons.mp hw with rfl | hw
      · exact ⟨nil_sublist _, not_mem_nil⟩
      · exact ⟨(ih hw).1.cons x, (ih hw).2⟩
    · rename_i hx
      split at hw
      · rw [mem_singleton.mp hw, mem_singleton]
        exact ⟨by simp, fun h => hx h.symm⟩
      · rename_i w0 ws heq
        rw [heq] at ih
        rcases mem_cons.mp hw with rfl | hw
        · obtain ⟨hsub, hno⟩ := ih (.head _)
          rw [mem_cons, not_or]
          exact ⟨hsub.cons_cons x, fun h => hx h.symm, hno⟩
        · obtain ⟨hsub, hno⟩ := ih (.tail _ hw)
          exact ⟨hsub.cons x, hno⟩

/-! ## Resolution -/

/-- The part of a path after its last slash. -/
def pathLeaf (path : List UInt8) : List UInt8 := (splitSlash path).getLast?.getD []

/-- The components `sdfs_resolve_parent` descends through: it skips slashes, so
empty pieces do not count. -/
def parentComponents (path : List UInt8) : List (List UInt8) :=
  (splitSlash path).dropLast.filter (· ≠ [])

/-- The component loop of `sdfs_resolve_parent`. -/
def resolveWalk (fuel : Nat) (s : Volume) : Nat → List (List UInt8) → Option (Option Nat)
  | cur, [] => some (some cur)
  | cur, comp :: rest =>
    (sdfsDirFindEntry s comp fuel cur).bind fun found =>
      match found with
      | none => some none
      | some l =>
        if l.entry.type ≠ sdfsTypeDir then some none
        else resolveWalk fuel s l.entry.startBlock.toNat rest

/-- `sdfs_resolve_parent`: the parent directory's block and the leaf name, or
`some none` for -1. -/
def sdfsResolveParent (fuel : Nat) (s : Volume) (path : CStr) : Option (Option (Nat × List UInt8)) :=
  if path.bytes.head? ≠ some slash ∨ path.bytes.length < 2 then some none
  else if path.bytes.length ≥ 511 then some none
  else if pathLeaf path.bytes = [] then some none
  else (resolveWalk fuel s s.rootBlock (parentComponents path.bytes)).map fun parent =>
    parent.map fun block => (block, (pathLeaf path.bytes).take 255)

/-- What `sdfs_resolve_full` returns: -1 with `*out` untouched, 0, or 1 with an
entry. -/
inductive Resolved where
  | noParent
  | absent
  | found (l : Located)

def sdfsResolveFull (fuel : Nat) (s : Volume) (path : CStr) : Option Resolved :=
  (sdfsResolveParent fuel s path).bind fun parent =>
    match parent with
    | none => some .noParent
    | some (block, name) =>
      (sdfsDirFindEntry s name fuel block).map fun found =>
        match found with
        | none => .absent
        | some l => .found l

end LiwusOS.Fs
