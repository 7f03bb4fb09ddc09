import LiwusOS.Fs.Initrd

/-! # Archives in memory

What the loops of `initrd.c` find in an archive, in terms of its list of entries,
and the image of a list of entries. -/

namespace LiwusOS.Fs.Initrd
open LiwusOS.Lib List

/-! ## Strings in memory -/

structure CStrAt (mem : Buf) (p : Nat) (s : List UInt8) : Prop where
  noNul : 0 ∉ s
  bytes : ∀ i (h : i < s.length), mem (p + i) = s[i]
  terminator : mem (p + s.length) = 0

section Strings
variable {mem : Buf} {p : Nat} {s : List UInt8}

theorem CStrAt.cons_iff {c : UInt8} : CStrAt mem p (c :: s) ↔ c ≠ 0 ∧ mem p = c ∧ CStrAt mem (p + 1) s := by
  constructor
  · intro h
    refine ⟨fun hc => h.noNul (hc ▸ (.head _)), h.bytes 0 (Nat.zero_lt_succ _),
      fun hm => h.noNul (.tail _ hm), fun i hi => ?_, ?_⟩
    · rw [Nat.add_assoc, Nat.add_comm 1]
      exact h.bytes (i + 1) (Nat.succ_lt_succ hi)
    · rw [Nat.add_assoc, Nat.add_comm 1]
      exact h.terminator
  · intro h
    obtain ⟨hc, hp, hs⟩ := h
    refine ⟨fun hm => ?_, fun i hi => ?_, ?_⟩
    · exact (mem_cons.mp hm).elim (fun h0 => hc h0.symm) hs.noNul
    · cases i with
      | zero => exact hp
      | succ i =>
        have hb := hs.bytes i (Nat.lt_of_succ_lt_succ hi)
        rw [Nat.add_assoc, Nat.add_comm 1] at hb
        exact hb
    · rw [length_cons, Nat.add_comm s.length, ← Nat.add_assoc]
      exact hs.terminator

theorem strcmpAt_iff (h : CStrAt mem p s) {t : List UInt8} (ht : 0 ∉ t) : strcmpAt mem p t = true ↔ s = t := by
  induction t generalizing p s with
  | nil =>
    rw [strcmpAt, beq_iff_eq]
    cases s with
    | nil => exact iff_of_true h.terminator rfl
    | cons c s =>
      obtain ⟨hc, hp, -⟩ := CStrAt.cons_iff.mp h
      exact iff_of_false (fun h0 => hc (hp.symm.trans h0)) (cons_ne_nil _ _)
  | cons d t ih =>
    rw [strcmpAt, Bool.and_eq_true, beq_iff_eq]
    cases s with
    | nil =>
      have hp : mem p = 0 := h.terminator
      exact iff_of_false (fun hd => ht (hp ▸ hd.1 ▸ (.head _))) (cons_ne_nil _ _).symm
    | cons c s =>
      obtain ⟨-, hp, hs⟩ := CStrAt.cons_iff.mp h
      rw [hp, ih hs fun hm => ht (.tail _ hm), List.cons.injEq]

theorem strcpyAt_eq (h : CStrAt mem p s) {n : Nat} (hn : s.length < n) : strcpyAt mem n p = some s := by
  induction n generalizing p s with
  | zero => cases hn
  | succ n ih =>
    rw [strcpyAt]
    cases s with
    | nil => exact if_pos h.terminator
    | cons c s =>
      obtain ⟨hc, hp, hs⟩ := CStrAt.cons_iff.mp h
      rw [if_neg (fun h0 => hc (hp.symm.trans h0)), ih hs (Nat.lt_of_succ_lt_succ hn), Option.map_some, hp]

/-- The three cases of `normalize_initrd_name`. -/
theorem normalizeName_cases (s : List UInt8) :
    (∃ t, s = 46 :: 47 :: t ∧ normalizeName s = t) ∨ (∃ t, s = 47 :: t ∧ normalizeName s = t) ∨
    (¬ (∃ t, s = 46 :: 47 :: t) ∧ ¬ (∃ t, s = 47 :: t) ∧ normalizeName s = s) := by
  unfold normalizeName
  split
  · exact .inl ⟨_, rfl, rfl⟩
  · exact .inr (.inl ⟨_, rfl, rfl⟩)
  · rename_i h1 h2
    exact .inr (.inr ⟨fun ⟨t, ht⟩ => h1 t ht, fun ⟨t, ht⟩ => h2 t ht, rfl⟩)

theorem CStrAt.normalize (h : CStrAt mem p s) : CStrAt mem (normalizeAt mem p) (normalizeName s) := by
  rcases normalizeName_cases s with ⟨t, rfl, heq⟩ | ⟨t, rfl, heq⟩ | ⟨h1, h2, heq⟩
  · obtain ⟨-, hp, hs⟩ := CStrAt.cons_iff.mp h
    obtain ⟨-, hp', hs'⟩ := CStrAt.cons_iff.mp hs
    rw [heq, normalizeAt, if_pos ⟨hp, hp'⟩]
    exact hs'
  · obtain ⟨-, hp, hs⟩ := CStrAt.cons_iff.mp h
    rw [heq, normalizeAt, if_neg (fun hc => by rw [hp] at hc; exact absurd hc.1 (by decide)), if_pos hp]
    exact hs
  · have hfirst : ∀ {c : UInt8}, c ≠ 0 → mem p = c → ∃ t, s = c :: t := by
      intro c hc hp
      cases s with
      | nil => exact absurd (hp.symm.trans h.terminator) hc
      | cons d t =>
        obtain ⟨-, hd, -⟩ := CStrAt.cons_iff.mp h
        exact ⟨t, by rw [hd.symm.trans hp]⟩
    have hdot : ¬ (mem p = 46 ∧ mem (p + 1) = 47) := by
      intro ⟨hp, hp'⟩
      obtain ⟨t, rfl⟩ := hfirst (by decide) hp
      obtain ⟨-, -, hs⟩ := CStrAt.cons_iff.mp h
      cases t with
      | nil => exact absurd (hp'.symm.trans hs.terminator) (by decide)
      | cons d t =>
        obtain ⟨-, hd, -⟩ := CStrAt.cons_iff.mp hs
        exact h1 ⟨t, by rw [hd.symm.trans hp']⟩
    rw [heq, normalizeAt, if_neg hdot, if_neg fun hp => h2 (hfirst (by decide) hp)]
    exact h

theorem normalizeName_flat (h : slash ∉ s) : normalizeName s = s := by
  rcases normalizeName_cases s with ⟨t, rfl, -⟩ | ⟨t, rfl, -⟩ | ⟨-, -, heq⟩
  · exact absurd (.tail _ (.head _)) h
  · exact absurd mem_cons_self h
  · exact heq

theorem mem_normalizeName {c : UInt8} (h : c ∈ normalizeName s) : c ∈ s := by
  rcases normalizeName_cases s with ⟨t, rfl, heq⟩ | ⟨t, rfl, heq⟩ | ⟨-, -, heq⟩
  · rw [heq] at h
    exact .tail _ (.tail _ h)
  · rw [heq] at h
    exact .tail _ h
  · rwa [heq] at h

theorem normalizeName_length : (normalizeName s).length ≤ s.length := by
  rcases normalizeName_cases s with ⟨t, rfl, heq⟩ | ⟨t, rfl, heq⟩ | ⟨-, -, heq⟩
  · rw [heq, length_cons, length_cons]
    omega
  · rw [heq]
    exact Nat.le_succ _
  · rw [heq]

end Strings

variable {e : TarEntry} {mem : Buf}

/-! ## The walk over the headers -/

section Walk
variable {mem : Buf} {address : Nat} {entries : List TarEntry}

theorem HeaderAt.cstr (h : HeaderAt mem address e) : CStrAt mem address e.name :=
  ⟨h.noNul, h.name, h.terminator⟩

theorem HeaderAt.first (h : HeaderAt mem address e) : mem address ≠ 0 := by
  obtain ⟨c, s, hs⟩ := exists_cons_of_ne_nil h.named
  have hc := h.cstr
  rw [hs] at hc
  obtain ⟨hne, hp, -⟩ := CStrAt.cons_iff.mp hc
  rw [hp]
  exact hne

theorem nextHeader_span (h : address + e.span < 2 ^ 32) : nextHeader address e.data.length = address + e.span := by
  unfold nextHeader TarEntry.span at *
  omega

/-- What a scan for entries with `P` finds, from entry `i` on. -/
def Scanned (mem : Buf) (P : Nat → TarEntry → Bool) (r : Nat ⊕ Nat × Nat) : Nat → List TarEntry → Prop
  | i, [] => r = .inl i
  | i, e :: es =>
    if P i e then ∃ address, HeaderAt mem address e ∧ r = .inr (i, address) else Scanned mem P r (i + 1) es

theorem scan_settles {T : Nat → Nat → Bool} {P : Nat → TarEntry → Bool}
    (htest : ∀ k address e, HeaderAt mem address e → T k address = P k e) (h : Archive mem address entries)
    (i : Nat) : ∃ r, Settles (fun n => scan mem T n i address) r ∧ Scanned mem P r i entries := by
  induction entries generalizing address i with
  | nil =>
    have hz : mem address = 0 := h
    refine ⟨.inl i, .succ rfl (fun n => ?_) (.const _), rfl⟩
    rw [scan, if_pos hz]
  | cons e entries ih =>
    obtain ⟨hh, hspan, hrest⟩ := h
    have hT := htest i address e hh
    by_cases hP : P i e = true
    · refine ⟨.inr (i, address), .succ rfl (fun n => ?_) (.const _), ?_⟩
      · rw [scan, if_neg hh.first, if_pos (hT.trans hP)]
      · rw [Scanned, if_pos hP]
        exact ⟨address, hh, rfl⟩
    · obtain ⟨r, hr, hs⟩ := ih hrest (i + 1)
      rw [← nextHeader_span hspan] at hr
      have hround := hh.size.bind (g := fun n filesize => scan mem T n (i + 1) (nextHeader address filesize)) hr
      refine ⟨r, .succ rfl (fun n => ?_) hround, ?_⟩
      · rw [scan, if_neg hh.first, if_neg (hT ▸ hP)]
      · rwa [Scanned, if_neg hP]

variable {i : Nat} {r : Nat ⊕ Nat × Nat}

theorem Scanned.find {P : TarEntry → Bool} (h : Scanned mem (fun _ => P) r i entries) :
    (entries.find? P = none ∧ ∃ n, r = .inl n) ∨
    ∃ e n address, entries.find? P = some e ∧ r = .inr (n, address) ∧ HeaderAt mem address e := by
  induction entries generalizing i with
  | nil => exact .inl ⟨rfl, i, h⟩
  | cons e es ih =>
    rw [Scanned] at h
    split at h
    · next hP =>
      obtain ⟨address, hh, rfl⟩ := h
      exact .inr ⟨e, i, address, find?_cons_of_pos hP, rfl, hh⟩
    · next hP =>
      rw [find?_cons_of_neg hP]
      exact ih h

theorem Scanned.index {index : Nat} (h : Scanned mem (fun k _ => k == index) r i entries) (hi : i ≤ index)
    (he : entries[index - i]? = some e) : ∃ address, HeaderAt mem address e ∧ r = .inr (index, address) := by
  induction entries generalizing i with
  | nil => cases he
  | cons e' es ih =>
    rw [Scanned] at h
    simp only [beq_iff_eq] at h
    split at h
    · next heq =>
      rw [heq, Nat.sub_self] at he
      cases he
      exact heq ▸ h
    · next hne =>
      have hsucc : index - i = index - (i + 1) + 1 := by omega
      rw [hsucc] at he
      exact ih h (by omega) he

/-- Data of an entry, or none. -/
inductive FileAt (mem : Buf) : Option (Nat × Nat) → Option TarEntry → Prop
  | none : FileAt mem none none
  | some {p e} : (∀ i (h : i < e.data.length), mem (p + i) = e.data[i]) → FileAt mem (some (p, e.data.length)) (some e)

/-- The entry that `initrd_get_file` returns. -/
def entryNamed (entries : List TarEntry) (name : List UInt8) : Option TarEntry :=
  entries.find? fun e => normalizeName e.name == normalizeName name

section
variable (h : Archive mem address entries)
include h

theorem getFile_settles {name : List UInt8} (hn : 0 ∉ name) :
    ∃ r, Settles (fun n => initrdGetFile n mem address name) r ∧ FileAt mem r (entryNamed entries name) := by
  have htest : ∀ (k : Nat) (address : Nat) (e : TarEntry), HeaderAt mem address e →
      nameEquals mem address name = (normalizeName e.name == normalizeName name) := by
    intro _ address e hh
    rw [Bool.eq_iff_iff, beq_iff_eq]
    exact strcmpAt_iff hh.cstr.normalize fun hm => hn (mem_normalizeName hm)
  obtain ⟨r, hr, hs⟩ := scan_settles htest h 0
  rcases hs.find with ⟨hnone, n, rfl⟩ | ⟨e, n, address, hfirst, rfl, hh⟩
  · refine ⟨none, hr.bind (.const none), ?_⟩
    rw [entryNamed, hnone]
    exact .none
  · refine ⟨some (address + 512, e.data.length), hr.bind (hh.size.map fun size => some (address + 512, size)), ?_⟩
    rw [entryNamed, hfirst]
    exact .some hh.data

/-- `initrd_readdir` lists the entries in order. -/
theorem readdir_settles {i : Nat} (hi : entries[i]? = some e) :
    Settles (fun n => readdirFs n mem address tarRoot i) (some (normalizeName e.name)) := by
  obtain ⟨r, hr, hs⟩ := scan_settles (T := fun k _ => k == i) (P := fun k _ => k == i) (fun _ _ _ _ => rfl) h 0
  obtain ⟨address, hh, rfl⟩ := hs.index (Nat.zero_le i) hi
  have hcopy : strcpyAt mem 128 (normalizeAt mem address) = some (normalizeName e.name) :=
    strcpyAt_eq hh.cstr.normalize (normalizeName_length.trans_lt hh.short)
  have hlast : Settles (fun _ : Nat => (strcpyAt mem 128 (normalizeAt mem address)).map some)
      (some (normalizeName e.name)) := by
    rw [hcopy]
    exact .const _
  exact hr.bind hlast

theorem Archive.data_lt (he : e ∈ entries) : e.data.length < 2 ^ 32 := by
  induction entries generalizing address with
  | nil => cases he
  | cons e' rest ih =>
    obtain ⟨-, hspan, hrest⟩ := h
    rcases mem_cons.mp he with rfl | he
    · unfold TarEntry.span at hspan
      omega
    · exact ih hrest he

theorem Archive.header (he : e ∈ entries) : ∃ address, HeaderAt mem address e := by
  induction entries generalizing address with
  | nil => cases he
  | cons e' rest ih =>
    obtain ⟨hh, -, hrest⟩ := h
    rcases mem_cons.mp he with rfl | he
    · exact ⟨address, hh⟩
    · exact ih hrest he

end

end Walk

/-! ## Images -/

def tarHeader (e : TarEntry) : Buf := fun i =>
  if i < e.name.length then e.name.getD i 0
  else if 124 ≤ i ∧ i < 135 then UInt8.ofNat (48 + e.data.length / 8 ^ (134 - i) % 8)
  else if i = typeflagOff then e.typeflag
  else 0

def tarImage : List TarEntry → Buf
  | [] => Buf.zero
  | e :: rest => fun i =>
    if i < 512 then tarHeader e i
    else if i < 512 + e.data.length then e.data.getD (i - 512) 0
    else if i < e.span then 0
    else tarImage rest (i - e.span)

end LiwusOS.Fs.Initrd
