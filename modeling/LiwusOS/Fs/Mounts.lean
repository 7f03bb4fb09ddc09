import LiwusOS.Fs.Vfs

/-! # The mount a path lies under

`vfs_open` and `vfs_create` take the longest mount path that the path begins with,
compared by characters. The mount a path lies under by components is the longest
one that the path equals or continues with a slash. -/

namespace LiwusOS.Fs
open LiwusOS.Lib List

section Create
variable {N : Type}

/-- The loop of `vfs_create`: every part before a slash is looked up and the
last one created; a slash at the end leaves nothing to create. -/
def createParts (finddir create : N → List UInt8 → Option (Option N)) : N → List (List UInt8) → Option (Option N)
  | _, [] => some none
  | current, [part] =>
    if part = [] then some none else if part.length ≥ 128 then none else create current part
  | current, part :: rest =>
    if part.length ≥ 128 then none else
    (finddir current part).bind fun
      | none => some none
      | some next => createParts finddir create next rest

/-- `create` is the node's own function, NULL for a node that is no directory or has none. -/
def vfsCreate (finddir create : N → List UInt8 → Option (Option N)) (mounts : List (Mount N)) (path : List UInt8) :
    Option (Option N) :=
  if path = [] then some none else
  match mountOf path mounts with
  | none => some none
  | some m => createParts finddir create m.root (splitSlash (remainingPath m path))

/-! ## By components -/

/-- The path is the mount point or lies below it. -/
def Mount.Covers (m : Mount N) (path : List UInt8) : Prop :=
  m.path = [slash] ∨ m.path = path ∨ m.path ++ [slash] <+: path

instance (m : Mount N) (path : List UInt8) : Decidable (m.Covers path) := inferInstanceAs (Decidable (_ ∨ _ ∨ _))

/-- Of the mounts the path lies under, the longest; of several, the first. -/
def coveringMount (path : List UInt8) (mounts : List (Mount N)) : Option (Mount N) :=
  (mounts.filter fun m => m.Covers path).argmax fun m => m.path.length

/-- What is left of the path below the mount. -/
def Mount.below (m : Mount N) (path : List UInt8) : List UInt8 :=
  if m.path = [slash] then path.drop 1 else path.drop (m.path.length + 1)

/-- Opening and creating start from the mount the path lies under and walk what is
left of the path. -/
structure ComponentWise (mounts : List (Mount N)) (path : List UInt8) : Prop where
  start : mountOf path mounts = coveringMount path mounts
  opens : ∀ finddir fsRoot, vfsOpen finddir fsRoot mounts path = (coveringMount path mounts).elim (some none) fun m =>
    walkParts finddir m.root (pathParts (m.below path))
  creates : ∀ finddir create, vfsCreate finddir create mounts path =
    (coveringMount path mounts).elim (some none) fun m =>
      createParts finddir create m.root (splitSlash (m.below path))

end Create

/-! ## The longest -/

variable {N : Type} {mounts : List (Mount N)} {path : List UInt8} {m : Mount N}

/-- The first of the longest, if `p` holds of it, is the first of the longest with `p`. -/
theorem argmax_filter {α : Type} {f : α → Nat} {p : α → Bool} {b : α} (hb : p b) {l : List α}
    (h : l.argmax f = some b) : (l.filter p).argmax f = some b := by
  induction l using List.reverseRecOn generalizing b with
  | nil => cases h
  | append_singleton l a ih =>
    rw [argmax_concat] at h
    rw [filter_append]
    cases hl : l.argmax f with
    | none =>
      rw [argmax_eq_none.mp hl] at h ⊢
      cases h
      simp [hb]
    | some c =>
      rw [hl] at h
      dsimp only at h
      split at h
      · rename_i hlt
        cases h
        have hless : ∀ x ∈ l, f x < f a := fun x hx => Nat.lt_of_le_of_lt (le_of_mem_argmax hx hl) hlt
        rw [filter_cons_of_pos hb, filter_nil, argmax_concat]
        cases hrest : (l.filter p).argmax f with
        | none => rfl
        | some d => exact if_pos (hless d (mem_of_mem_filter (argmax_mem hrest)))
      · rename_i hge
        cases h
        have hrest := ih hb hl
        by_cases ha : p a
        · rw [filter_cons_of_pos ha, filter_nil, argmax_concat, hrest]
          exact if_neg hge
        · rw [filter_cons_of_neg ha, filter_nil, append_nil, hrest]

theorem bestMatch_eq_argmax (path : List UInt8) (mounts : List (Mount N)) :
    bestMatch path mounts = (mounts.filter fun m => m.path.isPrefixOf path).argmax fun m => m.path.length := by
  rw [bestMatch, List.argmax, foldl_filter]
  congr 1
  funext best m
  cases best with
  | none => simp [argAux]
  | some b => by_cases hp : m.path.isPrefixOf path <;> simp [argAux, hp]

/-- An absolute path begins with every mount path that covers it. -/
theorem Mount.Covers.isPrefix (h : m.Covers path) (habs : path.head? = some slash) : m.path <+: path := by
  rcases h with h | h | h
  · cases path with
    | nil => cases habs
    | cons c rest =>
      cases habs
      exact ⟨rest, by rw [h]; rfl⟩
  · exact ⟨[], by rw [h, append_nil]⟩
  · exact (prefix_append _ _).trans h

theorem remainingPath_covers (h : m.Covers path) (habs : path.head? = some slash) :
    remainingPath m path = m.below path := by
  have hdrop : ∀ rest, dropSlash (slash :: rest) = rest := fun rest => by rw [dropSlash, if_pos rfl]
  rw [remainingPath, Mount.below]
  split
  · cases path with
    | nil => cases habs
    | cons c rest =>
      cases habs
      exact hdrop rest
  · rename_i hroot
    rcases h.resolve_left hroot with rfl | ⟨rest, rfl⟩
    · simp [dropSlash]
    · rw [append_assoc, drop_left, drop_append]
      simp [hdrop]

/-- A mount path that the path only runs into is never the longest. -/
theorem componentWise_iff (mounts : List (Mount N)) (habs : path.head? = some slash) :
    ComponentWise mounts path ↔ ∀ m ∈ mounts, m.path <+: path → ¬ m.Covers path →
      ∃ m' ∈ mounts, m'.Covers path ∧ m.path.length < m'.path.length := by
  have hmem : ∀ {b : Mount N}, coveringMount path mounts = some b → b ∈ mounts ∧ b.Covers path := fun h => by
    simpa using argmax_mem h
  have hlongest : ∀ {b : Mount N}, bestMatch path mounts = some b → ∀ m ∈ mounts, m.path <+: path →
      m.path.length ≤ b.path.length := fun h m hm hp => by
    rw [bestMatch_eq_argmax] at h
    exact le_of_mem_argmax (f := fun m : Mount N => m.path.length)
      (mem_filter.mpr ⟨hm, isPrefixOf_iff_prefix.mpr hp⟩) h
  have hnone : bestMatch path mounts = none → ∀ m ∈ mounts, ¬ m.path <+: path := fun h m hm hp => by
    rw [bestMatch_eq_argmax, argmax_eq_none, filter_eq_nil_iff] at h
    exact h m hm <| isPrefixOf_iff_prefix.mpr hp
  constructor
  · rintro ⟨hstart, -, -⟩ m hm hp hnot
    obtain ⟨b, hb⟩ := Option.ne_none_iff_exists'.mp fun h => hnone h m hm hp
    obtain ⟨hbm, hcovers⟩ := hmem (b := b) (by rw [← hstart, mountOf, hb, Option.some_or])
    refine ⟨b, hbm, hcovers, Nat.lt_of_le_of_ne (hlongest hb m hm hp) fun hlen => hnot ?_⟩
    have heq : m.path = b.path :=
      (prefix_of_prefix_length_le hp (hcovers.isPrefix habs) hlen.le).eq_of_length hlen
    rwa [Mount.Covers, heq]
  · intro h
    have hstart : mountOf path mounts = coveringMount path mounts := by
      cases hb : bestMatch path mounts with
      | none =>
        have hroot : mounts.find? (fun m => m.path == [slash]) = none :=
          List.find?_eq_none.mpr fun m hm hp =>
            hnone hb m hm (Mount.Covers.isPrefix (.inl (eq_of_beq hp)) habs)
        have hcover : coveringMount path mounts = none :=
          argmax_eq_none.mpr (filter_eq_nil_iff.mpr fun m hm hp =>
            hnone hb m hm ((of_decide_eq_true hp).isPrefix habs))
        rw [mountOf, hb, hroot, hcover, Option.none_or]
      | some b =>
        have hb' := hb
        rw [bestMatch_eq_argmax] at hb'
        obtain ⟨hbm, hbp⟩ := mem_filter.mp (argmax_mem hb')
        have hcovers : b.Covers path := by
          by_contra hnot
          obtain ⟨m', hm', hc', hlt⟩ := h b hbm (List.isPrefixOf_iff_prefix.mp hbp) hnot
          exact not_lt.mpr (hlongest hb m' hm' (hc'.isPrefix habs)) hlt
        -- a mount that covers the path is among those it begins with
        have hsub : mounts.filter (fun m => m.Covers path) =
            (mounts.filter fun m => m.path.isPrefixOf path).filter fun m => m.Covers path := by
          rw [filter_filter]
          refine filter_congr fun m _ => ?_
          by_cases hc : m.Covers path
          · simp [hc, isPrefixOf_iff_prefix.mpr (hc.isPrefix habs)]
          · simp [hc]
        rw [mountOf, hb, Option.some_or, coveringMount, hsub]
        exact (argmax_filter (p := fun m => m.Covers path) (decide_eq_true hcovers) hb').symm
    have hne : path ≠ [] := fun heq => by rw [heq] at habs; cases habs
    have hwalk : ∀ walk : Mount N → List UInt8 → Option (Option N),
        (match mountOf path mounts with
          | none => some none
          | some m => walk m (remainingPath m path)) =
        (coveringMount path mounts).elim (some none) fun m => walk m (m.below path) := by
      intro walk
      rw [hstart]
      cases hc : coveringMount path mounts with
      | none => rfl
      | some b =>
        dsimp only
        rw [remainingPath_covers (hmem hc).2 habs]
        rfl
    refine ⟨hstart, fun finddir fsRoot => ?_, fun finddir create => ?_⟩
    · rw [vfsOpen, if_neg hne]
      exact hwalk fun m rest => walkParts finddir m.root (pathParts rest)
    · rw [vfsCreate, if_neg hne]
      exact hwalk fun m rest => createParts finddir create m.root (splitSlash rest)

/-- A root and a mount at "/mnt". -/
def twoMounts : List (Mount Nat) := [⟨[47, 109, 110, 116], 1⟩, ⟨[47], 0⟩]

/-- "/mnt/x". -/
theorem componentWise_twoMounts : ComponentWise twoMounts [47, 109, 110, 116, 47, 120] :=
  (componentWise_iff twoMounts (by decide)).mpr (by decide)

/-- "/mntx" is looked up in the mount at "/mnt", as its file "x". -/
theorem mount_by_characters : ¬ ComponentWise twoMounts [47, 109, 110, 116, 120] ∧
    vfsOpen (fun node part => some (if node = 1 ∧ part = [120] then some 7 else none)) none twoMounts
      [47, 109, 110, 116, 120] = some (some 7) := by
  refine ⟨fun h => ?_, by decide⟩
  have hroots : (mountOf [47, 109, 110, 116, 120] twoMounts).map Mount.root ≠
      (coveringMount [47, 109, 110, 116, 120] twoMounts).map Mount.root := by decide
  exact hroots (congrArg _ h.start)

end LiwusOS.Fs
