import LiwusOS.Fs.File
import LiwusOS.Lib.Fuel

/-! # Paths through a directory that is not there

`sdfs_resolve_full` returns -1 for them, which its callers take for "found". -/

namespace LiwusOS.Fs
open LiwusOS.Lib Option

/-- A directory on the way to the path's last component does not resolve. -/
def MissingParent (s : Volume) (path : CStr) : Prop :=
  path.bytes.head? = some slash ∧ ∃ way, way <+: parentComponents path.bytes ∧
    ∀ fuel b, resolveWalk fuel s s.rootBlock way ≠ some (some b)

/-- The five calls report a failure and change nothing. -/
structure FailsCleanly (s : Volume) (path : CStr) (junk : Entry) (index : UInt32) (buffer : Buf) (size : UInt32) :
    Prop where
  info : Settles (sdfsPathInfo · junk s path) none
  list : Settles (sdfsListDirEntry · junk s path index) none
  permissions : Settles (sdfsGetPermissions · junk s path) none
  read : Settles (sdfsReadFile · junk s path) none
  write : Settles (sdfsWriteFile · junk s path buffer size) (0, s)

variable {s : Volume} {path : CStr} {fuel : Nat}

/-- A walk that arrives has passed all directories on its way. -/
theorem resolveWalk_append {cur b : Nat} {way rest : List (List UInt8)}
    (h : resolveWalk fuel s cur (way ++ rest) = some (some b)) : ∃ c, resolveWalk fuel s cur way = some (some c) := by
  induction way generalizing cur with
  | nil => exact ⟨cur, rfl⟩
  | cons comp way ih =>
    rw [List.cons_append, resolveWalk, bind_eq_some_iff] at h
    obtain ⟨found, hfind, h⟩ := h
    cases found with
    | none => cases h
    | some l =>
      rw [resolveWalk, hfind, bind_some]
      dsimp only at h ⊢
      split at h
      · cases h
      · rename_i htype
        rw [if_neg htype]
        exact ih h

theorem MissingParent.noParent (h : MissingParent s path) {r : Resolved} (hr : sdfsResolveFull fuel s path = some r) :
    r = .noParent := by
  obtain ⟨-, way, ⟨rest, hway⟩, hmiss⟩ := h
  rw [sdfsResolveFull, bind_eq_some_iff] at hr
  obtain ⟨parent, hparent, hr⟩ := hr
  cases parent with
  | none => exact (some.inj hr).symm
  | some p =>
    rw [sdfsResolveParent] at hparent
    split at hparent
    · cases hparent
    split at hparent
    · cases hparent
    split at hparent
    · cases hparent
    obtain ⟨block, hwalk, hblock⟩ := map_eq_some_iff.mp hparent
    cases block with
    | none => cases hblock
    | some b =>
      rw [← hway] at hwalk
      obtain ⟨c, hc⟩ := resolveWalk_append hwalk
      exact absurd hc (hmiss fuel c)

/-- Whoever goes on with an entry goes on with the local one. -/
theorem MissingParent.map_ne_none {α : Type} (h : MissingParent s path) (junk : Entry) (g : Entry → α) :
    (sdfsResolveFull fuel s path).map (fun r => (r.taken junk).map g) ≠ some none := by
  intro hf
  obtain ⟨r, hr, htaken⟩ := map_eq_some_iff.mp hf
  rw [h.noParent hr] at htaken
  cases htaken

/-- `sdfs_path_info` and `sdfs_get_permissions` never fail on such a path: they report
what the local entry happens to hold. -/
theorem missing_parent_never_clean (hm : s.mounted = true) (h : MissingParent s path) (junk : Entry) (index : UInt32)
    (buffer : Buf) (size : UInt32) :
    (∀ fuel, sdfsPathInfo fuel junk s path ≠ some none) ∧ (∀ fuel, sdfsGetPermissions fuel junk s path ≠ some none) ∧
      ¬ FailsCleanly s path junk index buffer size := by
  have hinfo : ∀ fuel, sdfsPathInfo fuel junk s path ≠ some none := by
    intro fuel hf
    rw [sdfsPathInfo, hm, if_neg (by decide)] at hf
    split at hf
    · cases hf
    · exact h.map_ne_none junk _ hf
  refine ⟨hinfo, fun fuel hf => ?_, fun hclean => ?_⟩
  · rw [sdfsGetPermissions, hm, if_neg (by decide)] at hf
    split at hf
    · cases hf
    · exact h.map_ne_none junk _ hf
  · obtain ⟨N, hN⟩ := hclean.info.enough
    exact hinfo N (hN N (Nat.le_refl N))

/-! ## A path below nothing -/

/-- An empty volume with every block marked. -/
def bareVolume : Volume :=
  { Volume.boot (fun _ => Buf.zero) with
    mounted := true
    totalBlocks := 100
    rootBlock := 20
    bitmapCache := some fun _ => 255
    bitmapBytes := 4096 }

/-- "/a/b". -/
def nestedPath : CStr := ⟨[47, 97, 47, 98], by decide +kernel⟩

/-- Left on the stack: an entry for a file of five bytes at block 21. -/
def leftover : Entry := ⟨sdfsTypeFile, [], 21, 5, 0, 0, 0, 0, 0⟩

theorem nestedPath_missing : MissingParent bareVolume nestedPath := by
  refine ⟨rfl, [[97]], by decide, fun fuel b h => ?_⟩
  cases fuel with
  | zero => cases h
  | succ fuel =>
    rw [resolveWalk, sdfsDirFindEntry, if_neg (by decide), if_pos (by decide +kernel)] at h
    cases h

theorem missing_parent_never_clean_nestedPath : bareVolume.mounted = true ∧ MissingParent bareVolume nestedPath ∧
    ¬ FailsCleanly bareVolume nestedPath leftover 0 Buf.zero 1 :=
  ⟨rfl, nestedPath_missing, (missing_parent_never_clean rfl nestedPath_missing leftover 0 Buf.zero 1).2.2⟩

/-- "/a/b" has a size, five bytes are read from it, and writing to it frees block 21. -/
theorem nestedPath_found : MissingParent bareVolume nestedPath ∧
    sdfsPathInfo 2 leftover bareVolume nestedPath = some (some (false, 5)) ∧
    sdfsReadFile 2 leftover bareVolume nestedPath = some (some ⟨5, [0, 0, 0, 0, 0]⟩) ∧
    sdfsBitmapTest bareVolume 21 = true ∧
    ((sdfsWriteFile 2 leftover bareVolume nestedPath Buf.zero 1).map fun r => (r.1, sdfsBitmapTest r.2 21)) =
      some (0, false) :=
  ⟨nestedPath_missing, by decide +kernel, by decide +kernel, by decide +kernel, by decide +kernel⟩

end LiwusOS.Fs
