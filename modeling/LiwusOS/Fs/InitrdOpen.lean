import LiwusOS.Fs.InitrdWalk

/-! # Opening what the ramdisk lists

`initrd_readdir` lists whole archive names; `vfs_open` asks `initrd_finddir` for
one component after the other, and a file node has no components below it. -/

namespace LiwusOS.Fs.Initrd
open LiwusOS.Lib List Option

variable {parts : List (List UInt8)} {c data name : List UInt8} {e : TarEntry} {node : TarNode}

/-! ## Components -/

section Open
variable {mem : Buf} {location : Nat} {entries : List TarEntry}

/-- `initrd_finddir` on the list of entries. -/
def findNode (entries : List TarEntry) (node : TarNode) (name : List UInt8) : Option TarNode :=
  if !node.isDir then none
  else if name = houseName ∧ node.name = initrdName then some houseNode
  else if name = localhostName ∧ node.name = houseName then some localhostNode
  else (entryNamed entries name).map fun e => fileNode name e.data.length

section
variable (h : Archive mem location entries)
include h

theorem finddir_settles (node : TarNode) (hn : 0 ∉ name) :
    Settles (fun n => initrdFinddir n mem location node name) (findNode entries node name) := by
  unfold initrdFinddir findNode
  split
  · exact .const _
  · split
    · exact .const _
    · split
      · exact .const _
      · obtain ⟨r, hr, hf⟩ := getFile_settles h hn
        have hmap := hr.map fun r => r.map fun (x : Nat × Nat) => fileNode name x.2
        generalize entryNamed entries name = found at hf
        cases hf with
        | none => exact hmap
        | some _ => exact hmap

/-- The loop of `vfs_open` on the list of entries. -/
def walkNodes (entries : List TarEntry) : TarNode → List (List UInt8) → Option TarNode
  | node, [] => some node
  | node, c :: rest => (findNode entries node c).bind fun next => walkNodes entries next rest

theorem walk_settles (hp : ∀ c ∈ parts, 0 ∉ c ∧ c.length < 128) :
    Settles (fun n => walkParts (initrdFinddir n mem location) node parts) (walkNodes entries node parts) := by
  induction parts generalizing node with
  | nil => exact .const _
  | cons c rest ih =>
    obtain ⟨hnul, hlen⟩ := hp c (.head _)
    simp only [walkParts, if_neg (not_le.mpr hlen)]
    have hf := finddir_settles h node hnul
    rw [walkNodes]
    cases hnext : findNode entries node c with
    | none =>
      rw [hnext] at hf
      exact hf.bind (.const none)
    | some next =>
      rw [hnext] at hf
      exact hf.bind (ih fun c hc => hp c (.tail _ hc))

/-- A listed name, opened below "/". -/
theorem openTar_settles (hnul : 0 ∉ name) (hlen : name.length < 128) :
    Settles (fun n => openTar n mem location (slash :: name)) (walkNodes entries tarRoot (pathParts name)) := by
  have hmount : mountOf (slash :: name) [⟨[slash], tarRoot⟩] = some ⟨[slash], tarRoot⟩ := by
    simp [mountOf, bestMatch]
  have hrest : remainingPath (⟨[slash], tarRoot⟩ : Mount TarNode) (slash :: name) = name := by
    simp [remainingPath, dropSlash]
  simp only [openTar, vfsOpen, if_neg (cons_ne_nil slash name), hmount, hrest]
  refine walk_settles h fun c hc => ⟨fun h0 => hnul ?_, Nat.lt_of_le_of_lt (pathParts_piece hc).1.length_le hlen⟩
  exact (pathParts_piece hc).1.subset h0

/-- The bytes of a file node. -/
theorem read_settles (hn : 0 ∉ name) (he : entryNamed entries name = some e)
    (length : Nat) {offset size : Nat} (hsize : offset + size < 2 ^ 32) :
    Settles (fun n => readFs n mem location (fileNode name length) offset size) ((e.data.drop offset).take size) := by
  obtain ⟨r, hr, hf⟩ := getFile_settles h hn
  rw [he] at hf
  cases hf with
  | @some p _ hdata =>
    have hbytes : ∀ k, offset + k ≤ e.data.length → mem.bytes (p + offset) k = (e.data.drop offset).take k := by
      intro k hk
      refine ext_getElem ?_ fun i hi hi' => ?_
      · rw [Buf.length_bytes, length_take, length_drop]
        omega
      · rw [Buf.length_bytes] at hi
        have hb := Buf.getElem?_bytes mem (p + offset) k i hi
        rw [getElem?_eq_getElem (by rw [Buf.length_bytes]; exact hi), some.injEq] at hb
        rw [hb, getElem_take, getElem_drop, Nat.add_assoc]
        exact hdata (offset + i) (by omega)
    have hmap := hr.map fun r => r.elim [] fun q => if offset > q.2 then []
      else if (offset + size) % 2 ^ 32 > q.2 then mem.bytes (q.1 + offset) (q.2 - offset)
      else mem.bytes (q.1 + offset) size
    dsimp only [Option.elim] at hmap
    rw [Nat.mod_eq_of_lt hsize] at hmap
    have hval : (if offset > e.data.length then [] else
        if offset + size > e.data.length then mem.bytes (p + offset) (e.data.length - offset)
        else mem.bytes (p + offset) size) = (e.data.drop offset).take size := by
      split
      · rw [drop_eq_nil_of_le (by omega), take_nil]
      · split
        · rw [hbytes _ (by omega), take_of_length_le (by rw [length_drop]),
            take_of_length_le (by rw [length_drop]; omega)]
        · exact hbytes size (by omega)
    rw [← hval]
    refine .congr (fun n => ?_) hmap
    change initrdRead n mem location (fileNode name length) offset size = _
    rw [initrdRead, Nat.mod_eq_of_lt hsize]
    refine congrArg (Option.map · _) (funext fun r => ?_)
    rcases r with _ | ⟨_, _⟩ <;> rfl

end

/-! ## What a listed name opens -/

/-- The path can be opened, and `data` is read through the node. -/
def Opened (mem : Buf) (location : Nat) (path data : List UInt8) : Prop :=
  ∃ node, Settles (fun n => openTar n mem location path) (some node) ∧
    ∀ offset size, offset + size < 2 ^ 32 →
      Settles (fun n => readFs n mem location node offset size) ((data.drop offset).take size)

def HasData (entries : List TarEntry) (name data : List UInt8) : Prop :=
  ∃ e ∈ entries, normalizeName e.name = name ∧ e.data = data

/-- The components of a path to `data`: a file in one of the three directories, or
one of these, where nothing can be read. -/
def LeadsTo (entries : List TarEntry) (data : List UInt8) : List (List UInt8) → Prop
  | [] => data = []
  | [c] => if c = houseName then data = [] else HasData entries c data
  | [h, c] => h = houseName ∧ if c = localhostName then data = [] else HasData entries c data
  | [h, l, c] => h = houseName ∧ l = localhostName ∧ HasData entries c data
  | _ => False

/-- What can be read through a node. -/
def nodeData (entries : List TarEntry) (node : TarNode) : List UInt8 :=
  if node.read then ((entryNamed entries node.name).map TarEntry.data).getD [] else []

/-- The file node of a component. -/
def fileOf (entries : List TarEntry) (c : List UInt8) : Option TarNode :=
  (entryNamed entries c).map fun e => fileNode c e.data.length

theorem findNode_root (c : List UInt8) :
    findNode entries tarRoot c = if c = houseName then some houseNode else fileOf entries c := by
  by_cases hc : c = houseName
  · rw [if_pos hc, findNode, if_neg (by decide), if_pos ⟨hc, rfl⟩]
  · rw [if_neg hc, findNode, if_neg (by decide), if_neg fun h => hc h.1, if_neg fun h => absurd h.2 (by decide)]
    rfl

theorem findNode_house (c : List UInt8) :
    findNode entries houseNode c = if c = localhostName then some localhostNode else fileOf entries c := by
  by_cases hc : c = localhostName
  · rw [if_pos hc, findNode, if_neg (by decide), if_neg fun h => absurd h.2 (by decide), if_pos ⟨hc, rfl⟩]
  · rw [if_neg hc, findNode, if_neg (by decide), if_neg fun h => absurd h.2 (by decide), if_neg fun h => hc h.1]
    rfl

theorem findNode_localhost (c : List UInt8) : findNode entries localhostNode c = fileOf entries c := by
  rw [findNode, if_neg (by decide), if_neg fun h => absurd h.2 (by decide), if_neg fun h => absurd h.2 (by decide)]
  rfl

/-- The walk from `node` reaches a node with the data. -/
def Reaches (entries : List TarEntry) (data : List UInt8) (node : TarNode) (parts : List (List UInt8)) : Prop :=
  ∃ n, walkNodes entries node parts = some n ∧ nodeData entries n = data

theorem reaches_nil (hread : node.read = false) : Reaches entries data node [] ↔ data = [] := by
  have hdata : nodeData entries node = [] := if_neg (by simp [hread])
  constructor
  · rintro ⟨n, hn, rfl⟩
    cases hn
    exact hdata
  · rintro rfl
    exact ⟨node, rfl, hdata⟩

theorem reaches_dir {next : TarNode} (hfind : findNode entries node c = some next) :
    Reaches entries data node (c :: parts) ↔ Reaches entries data next parts := by
  rw [Reaches, walkNodes, hfind]
  rfl

section
variable (hnodup : (entries.map fun e => normalizeName e.name).Nodup)
include hnodup

/-- The entry of a name is the only one. -/
theorem entryNamed_iff (hc : slash ∉ c) :
    entryNamed entries c = some e ↔ e ∈ entries ∧ normalizeName e.name = c := by
  constructor
  · intro h
    have heq := find?_some h
    rw [beq_iff_eq, normalizeName_flat hc] at heq
    exact ⟨mem_of_find?_eq_some h, heq⟩
  · intro ⟨hm, heq⟩
    cases hfound : entryNamed entries c with
    | none =>
      have hnone := find?_eq_none.mp hfound e hm
      rw [beq_iff_eq, normalizeName_flat hc] at hnone
      exact absurd heq hnone
    | some e' =>
      have heq' := find?_some hfound
      rw [beq_iff_eq, normalizeName_flat hc] at heq'
      have hsame := inj_on_of_nodup_map hnodup (mem_of_find?_eq_some hfound) hm (heq'.trans heq.symm)
      rw [hsame]

theorem fileOf_data (hc : slash ∉ c) :
    (∃ node, fileOf entries c = some node ∧ nodeData entries node = data) ↔
      HasData entries c data := by
  constructor
  · intro ⟨node, hnode, hdata⟩
    obtain ⟨e, he, rfl⟩ := map_eq_some_iff.mp hnode
    obtain ⟨hm, heq⟩ := (entryNamed_iff hnodup hc).mp he
    refine ⟨e, hm, heq, ?_⟩
    rw [← hdata, nodeData, if_pos (by rfl)]
    change _ = ((entryNamed entries c).map TarEntry.data).getD []
    rw [he]
    rfl
  · intro ⟨e, hm, heq, hdata⟩
    have he := (entryNamed_iff hnodup hc).mpr ⟨hm, heq⟩
    refine ⟨fileNode c e.data.length, by rw [fileOf, he, map_some], ?_⟩
    rw [nodeData, if_pos (by rfl)]
    change ((entryNamed entries c).map TarEntry.data).getD [] = data
    rw [he]
    exact hdata

/-- Below a component that is a file there is nothing. -/
theorem reaches_file (hc : slash ∉ c) (hfind : findNode entries node c = fileOf entries c) :
    Reaches entries data node (c :: parts) ↔ parts = [] ∧ HasData entries c data := by
  rw [Reaches, walkNodes, hfind]
  cases parts with
  | nil =>
    rw [show (fileOf entries c).bind (walkNodes entries · []) = fileOf entries c from bind_fun_some _,
      and_iff_right rfl]
    exact fileOf_data hnodup hc
  | cons d rest =>
    refine iff_of_false ?_ fun h => cons_ne_nil _ _ h.1
    rw [fileOf]
    cases entryNamed entries c <;> exact fun ⟨n, hn, _⟩ => nomatch hn

/-- Where the walk over the components of a path ends. -/
theorem walkNodes_leads (hp : ∀ c ∈ parts, slash ∉ c) (data : List UInt8) :
    Reaches entries data tarRoot parts ↔ LeadsTo entries data parts := by
  cases parts with
  | nil => exact reaches_nil rfl
  | cons h rest =>
    have hroot : findNode entries tarRoot h = _ := findNode_root h
    split at hroot
    · next hh =>
      rw [reaches_dir hroot]
      cases rest with
      | nil => rw [reaches_nil rfl, LeadsTo, if_pos hh]
      | cons l rest =>
        have hhouse : findNode entries houseNode l = _ := findNode_house l
        split at hhouse
        · next hl =>
          rw [reaches_dir hhouse]
          cases rest with
          | nil => rw [reaches_nil rfl, LeadsTo, if_pos hl, and_iff_right hh]
          | cons c rest =>
            rw [reaches_file hnodup (hp c (by simp)) (findNode_localhost c)]
            cases rest <;> simp [LeadsTo, hh, hl]
        · next hl =>
          rw [reaches_file hnodup (hp l (by simp)) hhouse]
          rcases rest with _ | ⟨c, _ | _⟩ <;> simp [LeadsTo, hh, hl]
    · next hh =>
      rw [reaches_file hnodup (hp h (.head _)) hroot]
      rcases rest with _ | ⟨l, _ | ⟨c, _ | _⟩⟩ <;> simp [LeadsTo, hh]

end

/-- A node that the walk reaches: nothing is read through it, or its entry is. -/
def Backed (entries : List TarEntry) (node : TarNode) : Prop :=
  node.read = false ∨ ∃ c e, 0 ∉ c ∧ entryNamed entries c = some e ∧ node = fileNode c e.data.length

theorem findNode_backed {next : TarNode} (hc : 0 ∉ c) (h : findNode entries node c = some next) :
    Backed entries next := by
  rw [findNode] at h
  split at h
  · cases h
  · split at h
    · cases h
      exact .inl rfl
    · split at h
      · cases h
        exact .inl rfl
      · obtain ⟨e, he, rfl⟩ := map_eq_some_iff.mp h
        exact .inr ⟨c, e, hc, he, rfl⟩

theorem walkNodes_backed {next : TarNode} (hp : ∀ c ∈ parts, 0 ∉ c) (hb : Backed entries node)
    (h : walkNodes entries node parts = some next) : Backed entries next := by
  induction parts generalizing node with
  | nil =>
    cases h
    exact hb
  | cons c rest ih =>
    obtain ⟨node', hfind, h⟩ := bind_eq_some_iff.mp h
    exact ih (fun d hd => hp d (.tail _ hd)) (findNode_backed (hp c (.head _)) hfind) h

theorem Backed.settles (h : Archive mem location entries) (hb : Backed entries node) {offset size : Nat}
    (hsize : offset + size < 2 ^ 32) : Settles (fun n => readFs n mem location node offset size)
      (((nodeData entries node).drop offset).take size) := by
  rcases hb with hread | ⟨c, e, hc, he, rfl⟩
  · simp only [readFs, nodeData, hread, Bool.false_eq_true, if_false, drop_nil, take_nil]
    exact .const _
  · have hdata : nodeData entries (fileNode c e.data.length) = e.data := by
      change ((entryNamed entries c).map TarEntry.data).getD [] = e.data
      rw [he]
      rfl
    rw [hdata]
    exact read_settles h hc he _ hsize

theorem nodeData_lt (h : Archive mem location entries) (node : TarNode) :
    (nodeData entries node).length < 2 ^ 32 := by
  rw [nodeData]
  split
  · cases he : entryNamed entries node.name with
    | none => decide
    | some e => exact h.data_lt (mem_of_find?_eq_some he)
  · decide

/-- When a name of the archive opens to `data`. -/
theorem opened_iff (h : Archive mem location entries)
    (hnodup : (entries.map fun e => normalizeName e.name).Nodup) (hnul : 0 ∉ name) (hlen : name.length < 128)
    (hdata : data.length < 2 ^ 32) :
    Opened mem location (slash :: name) data ↔ LeadsTo entries data (pathParts name) := by
  have hopen := openTar_settles h hnul hlen
  have hparts : ∀ c ∈ pathParts name, 0 ∉ c := fun c hc h0 => hnul ((pathParts_piece hc).1.subset h0)
  have hread : ∀ {node}, walkNodes entries tarRoot (pathParts name) = some node → ∀ {offset size},
      offset + size < 2 ^ 32 → Settles (fun n => readFs n mem location node offset size)
        (((nodeData entries node).drop offset).take size) :=
    fun hnode _ _ hsize => (walkNodes_backed hparts (.inl rfl) hnode).settles h hsize
  rw [← walkNodes_leads hnodup (fun c hc => (pathParts_piece hc).2) data]
  constructor
  · intro ⟨node, hnode, hall⟩
    have hwalk := hopen.unique hnode
    refine ⟨node, hwalk, ?_⟩
    -- a read of the longer of the two lengths returns both in full
    have hmax : 0 + max (nodeData entries node).length data.length < 2 ^ 32 := by
      have := nodeData_lt h node
      omega
    have hsame := (hread hwalk hmax).unique (hall 0 _ hmax)
    rw [drop_zero, drop_zero, take_of_length_le (Nat.le_max_left ..),
      take_of_length_le (Nat.le_max_right ..)] at hsame
    exact hsame
  · intro ⟨node, hwalk, hnode⟩
    rw [hwalk] at hopen
    exact ⟨node, hopen, fun offset size hsize => hnode ▸ hread hwalk hsize⟩

end Open

/-- When every regular file that the ramdisk lists can be opened and read under
its listed name. -/
theorem listed_opens_iff {mem : Buf} {location : Nat} {entries : List TarEntry} (h : Archive mem location entries)
    (hnodup : (entries.map fun e => normalizeName e.name).Nodup) :
    (∀ i e, entries[i]? = some e → e.Regular → ∃ name,
      Settles (fun n => readdirFs n mem location tarRoot i) (some name) ∧
      Opened mem location (slash :: name) e.data) ↔
    ∀ e ∈ entries, e.Regular → LeadsTo entries e.data (pathParts (normalizeName e.name)) := by
  have hiff : ∀ e ∈ entries, Opened mem location (slash :: normalizeName e.name) e.data ↔
      LeadsTo entries e.data (pathParts (normalizeName e.name)) := by
    intro e he
    obtain ⟨address, hh⟩ := h.header he
    exact opened_iff h hnodup (fun h0 => hh.noNul (mem_normalizeName h0))
      (normalizeName_length.trans_lt hh.short) (h.data_lt he)
  constructor
  · intro hall e he hreg
    obtain ⟨i, hi, rfl⟩ := mem_iff_getElem.mp he
    have hi' := getElem?_eq_getElem hi
    obtain ⟨name, hlist, hopen⟩ := hall i _ hi' hreg
    have hname := hlist.unique (readdir_settles h hi')
    cases hname
    exact (hiff _ he).mp hopen
  · intro hall i e hi hreg
    have he := mem_of_getElem? hi
    exact ⟨_, readdir_settles h hi, (hiff e he).mpr (hall e he hreg)⟩

/-! ## Two archives of one file -/

/-- The file "a" with the byte 1. -/
def fileA : TarEntry := ⟨[97], 48, [1]⟩

/-- The file "a/b" with the byte 1. -/
def fileAB : TarEntry := ⟨[97, 47, 98], 48, [1]⟩

/-- The flat file opens. -/
theorem fileA_opens : Archive (tarImage [fileA]) 0 [fileA] ∧ fileA.Regular ∧ ∃ name,
    Settles (fun n => readdirFs n (tarImage [fileA]) 0 tarRoot 0) (some name) ∧
    Opened (tarImage [fileA]) 0 (slash :: name) fileA.data := by
  have harch : Archive (tarImage [fileA]) 0 [fileA] :=
    ⟨⟨by decide, by decide, by decide, by decide, rfl, .succ rfl (fun _ => rfl) (.const _), rfl, by decide⟩,
      by decide, show tarImage _ _ = 0 by decide +kernel⟩
  refine ⟨harch, .inl rfl, (listed_opens_iff harch (by decide)).mpr (fun e he _ => ?_) 0 fileA rfl (.inl rfl)⟩
  cases mem_singleton.mp he
  exact ⟨fileA, he, rfl, rfl⟩

/-- The file with a slash in its name is listed and cannot be opened. -/
theorem fileAB_listed_not_opened : Archive (tarImage [fileAB]) 0 [fileAB] ∧
    ([fileAB].map fun e => normalizeName e.name).Nodup ∧ fileAB.Regular ∧
    Settles (fun n => readdirFs n (tarImage [fileAB]) 0 tarRoot 0) (some [97, 47, 98]) ∧
    Settles (fun n => openTar n (tarImage [fileAB]) 0 [47, 97, 47, 98]) none := by
  have harch : Archive (tarImage [fileAB]) 0 [fileAB] :=
    ⟨⟨by decide, by decide, by decide, by decide, rfl, .succ rfl (fun _ => rfl) (.const _), rfl, by decide⟩,
      by decide, show tarImage _ _ = 0 by decide +kernel⟩
  have hlist := readdir_settles harch (i := 0) (e := fileAB) rfl
  have hopen := @openTar_settles [97, 47, 98] _ _ _ harch (by decide) (by decide)
  exact ⟨harch, by decide, .inl rfl, hlist, hopen⟩

end LiwusOS.Fs.Initrd
