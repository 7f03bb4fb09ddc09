import LiwusOS.Fat.Listing

/-! # Paths to subdirectories

`fat32_resolve_directory` tests its look-ups with `!status <= 0`, which is true for a
component that is found. -/

namespace LiwusOS.Fat
open LiwusOS.Lib LiwusOS.Fs

/-- The components looked up one below the other, each of them a directory with a start
cluster of its own: what `fat32_resolve_directory` is for. -/
def walkDirectories (fuel : Nat) (g : Statics) (d : Sectors) : Nat → List (List UInt8) → Option (Option Nat)
  | current, [] => some (some current)
  | current, part :: rest =>
    (fat32FindEntryInDir fuel g d current part).bind fun found =>
      match found with
      | none => some none
      | some lookup =>
        if dirAttr lookup.entry &&& 0x10 = 0 ∨ fat32EntryStartCluster lookup.entry < 2 then some none
        else walkDirectories fuel g d (fat32EntryStartCluster lookup.entry) rest

def dirParts (path : List UInt8) : List (List UInt8) := (splitSlash path).filter (· ≠ [])

/-- The walk over the components of a path comes to the directory at `c`. -/
def LeadsTo (g : Statics) (d : Sectors) (path : List UInt8) (c : Nat) : Prop :=
  ∃ fuel, walkDirectories fuel g d g.rootDirFirstCluster (dirParts path) = some (some c)

/-- `fat32_resolve_directory` returns 0 with `c` exactly when the walk comes to `c`. -/
def ResolvesExactly (g : Statics) (d : Sectors) (path : List UInt8) : Prop :=
  ∀ c, (∃ fuel, fat32ResolveDirectory fuel g d path = some (some c)) ↔ LeadsTo g d path c

variable {g : Statics} {d : Sectors}

/-- A path with a component is never resolved. -/
theorem resolveParts_ne_some (fuel current c : Nat) (part : List UInt8) (rest : List (List UInt8)) :
    resolveParts fuel g d current (part :: rest) ≠ some (some c) := by
  intro h
  rw [resolveParts] at h
  split at h
  · cases h
  · obtain ⟨found, -, h⟩ := Option.bind_eq_some_iff.mp h
    split at h
    · cases h
    · rw [if_pos (by decide)] at h
      cases h

/-- Only the root is resolved: the claim of the walk is met by paths without a
component, and by those that lead nowhere. -/
theorem resolves_iff_root (hm : g.mounted = true) {path : List UInt8} (hp : path.head? = some slash) :
    ResolvesExactly g d path ↔ dirParts path = [] ∨ ∀ c, ¬ LeadsTo g d path c := by
  have hpath : path ≠ [] := by
    rintro rfl
    cases hp
  have hresolve : ∀ fuel, fat32ResolveDirectory fuel g d path =
      if path = [47] then some (some g.rootDirFirstCluster)
      else resolveParts fuel g d g.rootDirFirstCluster (dirParts path) := by
    intro fuel
    rw [fat32ResolveDirectory, if_neg (by simp [hm, hpath]), dirParts]
  cases hparts : dirParts path with
  | nil =>
    have hroot : ∀ fuel, fat32ResolveDirectory fuel g d path = some (some g.rootDirFirstCluster) := by
      intro fuel
      rw [hresolve, hparts, resolveParts, ite_self]
    refine iff_of_true (fun c => ?_) (.inl rfl)
    simp only [hroot, LeadsTo, hparts, walkDirectories]
  | cons part rest =>
    have hnot : path ≠ [47] := by
      rintro rfl
      cases hparts
    have hnone : ∀ c, ¬ ∃ fuel, fat32ResolveDirectory fuel g d path = some (some c) := by
      rintro c ⟨fuel, h⟩
      rw [hresolve, if_neg hnot, hparts] at h
      exact resolveParts_ne_some fuel _ c part rest h
    constructor
    · exact fun h => .inr fun c hc => hnone c ((h c).mpr hc)
    · rintro (h | h) c
      · cases h
      · exact iff_of_false (hnone c) (h c)

/-! ## A directory in the root -/

/-- A root with the directory "A" at cluster 5. -/
def oneDirectoryDisk : Sectors := fun lba =>
  if lba = 1 then Buf.zero.putU32 8 0x0FFFFFFF
  else if lba = 2 then
    Buf.zero.copy 0 ((shortSlot [65, 32, 32, 32, 32, 32, 32, 32, 32, 32, 32]).set 11 0x10) 32
  else Buf.zero

theorem oneDirectory_chain : DirChain smallVolume oneDirectoryDisk 2 [2] := dirChain_of (n := 2) (by decide +kernel)

/-- "/" is resolved, and "/B", which does not exist, is not. -/
theorem resolves_iff_root_missing : smallVolume.mounted = true ∧ ResolvesExactly smallVolume oneDirectoryDisk [47] ∧
    dirParts [47, 66] = [[66]] ∧ ResolvesExactly smallVolume oneDirectoryDisk [47, 66] := by
  have hset := findEntry_live (m := 16) oneDirectory_chain rfl [66] []
  obtain ⟨missing, hmissing, hnone⟩ : ∃ missing ∈ fat32FindEntryInDir 1 smallVolume oneDirectoryDisk 2 [66],
      missing.isNone := by decide +kernel
  rw [← hset.only 1 _ hmissing, Option.isNone_iff_eq_none.mp hnone] at hset
  have hparts : dirParts [47, 66] = [[66]] := by decide
  have hnowhere : ∀ c, ¬ LeadsTo smallVolume oneDirectoryDisk [47, 66] c := by
    rintro c ⟨fuel, hf⟩
    rw [hparts, walkDirectories] at hf
    obtain ⟨found, hfound, hf⟩ := Option.bind_eq_some_iff.mp hf
    rw [hset.only fuel _ hfound] at hf
    cases hf
  exact ⟨rfl, (resolves_iff_root rfl rfl).mpr (.inl (by decide)), hparts,
    (resolves_iff_root rfl rfl).mpr (.inr hnowhere)⟩

/-- "/A" leads to cluster 5 and is refused. -/
theorem directoryA_refused : DirChain smallVolume oneDirectoryDisk 2 [2] ∧
    LeadsTo smallVolume oneDirectoryDisk [47, 65] 5 ∧
    fat32ResolveDirectory 1 smallVolume oneDirectoryDisk [47, 65] = some none ∧
    ¬ ResolvesExactly smallVolume oneDirectoryDisk [47, 65] := by
  have hlead : LeadsTo smallVolume oneDirectoryDisk [47, 65] 5 := ⟨1, by decide +kernel⟩
  refine ⟨oneDirectory_chain, hlead, by decide +kernel, fun h => ?_⟩
  obtain ⟨fuel, hf⟩ := (h 5).mpr hlead
  exact resolveParts_ne_some fuel _ 5 [65] [] hf

end LiwusOS.Fat
