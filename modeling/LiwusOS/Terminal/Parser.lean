import Mathlib.Data.List.TakeWhile

/-! # Splitting a command line (`parser.c`)

`terminal_parse_line` writes a NUL over each separator and each quote, so that
the arguments are strings inside the line. -/

namespace LiwusOS.Terminal
open List

def terminalMaxArgs : Nat := 16

def space : UInt8 := 32
def quote : UInt8 := 34

/-- The line with `p` between `done` and `rest`. The NUL behind the line is left
out: `*p` is 0 when `rest` is empty. -/
structure Scan where
  done : List UInt8
  rest : List UInt8
  inQuotes : Bool
  deriving DecidableEq, Repr

/-- The loop over leading spaces. -/
def skipSpaces (inQuotes : Bool) (done : List UInt8) : List UInt8 → Scan
  | [] => ⟨done, [], inQuotes⟩
  | c :: rest =>
    if c = space ∧ inQuotes = false then skipSpaces inQuotes (done ++ [0]) rest else ⟨done, c :: rest, inQuotes⟩

/-- The loop that finds the end of an argument. -/
def findEnd (inQuotes : Bool) (done : List UInt8) : List UInt8 → Scan
  | [] => ⟨done, [], inQuotes⟩
  | c :: rest =>
    if c = quote then ⟨done ++ [0], rest, !inQuotes⟩
    else if c = space ∧ inQuotes = false then ⟨done ++ [0], rest, inQuotes⟩
    else findEnd inQuotes (done ++ [c]) rest

/-- The outer loop, with room for `n` more arguments. Every pass that does not
leave it adds one. -/
def parseArgs : Nat → Scan → List Nat → Scan × List Nat
  | 0, s, argv => (s, argv)
  | n + 1, s, argv =>
    if s.rest = [] then (s, argv) else
    let s := skipSpaces s.inQuotes s.done s.rest
    match s.rest with
    | [] => (s, argv)
    | c :: rest =>
      if c = quote then
        let s : Scan := ⟨s.done ++ [0], rest, !s.inQuotes⟩
        if s.rest = [] then (s, argv)
        else parseArgs n (findEnd s.inQuotes s.done s.rest) (argv ++ [s.done.length])
      else parseArgs n (findEnd s.inQuotes s.done s.rest) (argv ++ [s.done.length])

/-- What the call leaves: the line, and `argv` as offsets in it with `NULL` at the end. -/
structure Parsed where
  argc : Nat
  argv : List (Option Nat)
  line : List UInt8
  deriving DecidableEq, Repr

/-- `terminal_parse_line`, on the bytes of the line before its NUL. -/
def terminalParseLine (line : List UInt8) : Parsed :=
  let (s, argv) := parseArgs (terminalMaxArgs - 1) ⟨[], line, false⟩ []
  ⟨argv.length, argv.map some ++ [none], s.done ++ s.rest⟩

/-- The string at an offset in a line. -/
def stringAt (line : List UInt8) (offset : Nat) : List UInt8 := (line.drop offset).takeWhile (· ≠ 0)

/-! ## Command lines -/

inductive Item where
  | word (text : List UInt8)
  | quoted (text : List UInt8)
  deriving DecidableEq, Repr

namespace Item

def text : Item → List UInt8
  | word t => t
  | quoted t => t

/-- As it is typed. -/
def typed : Item → List UInt8
  | word t => t
  | quoted t => quote :: t ++ [quote]

def Valid : Item → Prop
  | word t => t ≠ [] ∧ ∀ c ∈ t, c ≠ space ∧ c ≠ quote ∧ c ≠ 0
  | quoted t => ∀ c ∈ t, c ≠ quote ∧ c ≠ 0

end Item

/-- Items, each with the number of spaces behind it. -/
def typedItems (items : List (Item × Nat)) : List UInt8 := items.flatMap fun p => p.1.typed ++ replicate p.2 space

/-! ## The loops -/

theorem skipSpaces_replicate (k : Nat) {done rest : List UInt8} (h : rest.head? ≠ some space) :
    skipSpaces false done (replicate k space ++ rest) = ⟨done ++ replicate k 0, rest, false⟩ := by
  induction k generalizing done with
  | zero =>
    cases rest with
    | nil => simp [skipSpaces]
    | cons c rest =>
      have hc : c ≠ space := fun heq => h (heq ▸ rfl)
      simp [skipSpaces, hc]
  | succ k ih =>
    rw [replicate_succ, cons_append, skipSpaces, if_pos ⟨rfl, rfl⟩, ih, append_assoc, replicate_succ]
    rfl

theorem findEnd_append {q : Bool} {done text rest : List UInt8} (h : ∀ c ∈ text, c ≠ quote ∧ (c = space → q = true)) :
    findEnd q done (text ++ rest) = findEnd q (done ++ text) rest := by
  induction text generalizing done with
  | nil => rw [nil_append, append_nil]
  | cons c text ih =>
    obtain ⟨hquote, hspace⟩ := h c mem_cons_self
    have hin : ¬ (c = space ∧ q = false) := fun ⟨heq, hq⟩ => by simp [hspace heq] at hq
    rw [cons_append, findEnd, if_neg hquote, if_neg hin, ih fun d hd => h d (mem_cons_of_mem _ hd), append_assoc]
    rfl

/-- A string ends where the line does or at the next NUL. -/
theorem stringAt_append {done text tail : List UInt8} (htext : ∀ c ∈ text, c ≠ 0) (htail : tail.head?.getD 0 = 0) :
    stringAt (done ++ (text ++ tail)) done.length = text := by
  rw [stringAt, drop_left, takeWhile_append_of_pos fun c hc => decide_eq_true (htext c hc)]
  cases tail with
  | nil => exact append_nil _
  | cons c tail =>
    rw [takeWhile_cons_of_neg (by simpa using htail), append_nil]

/-! ## One pass -/

/-- A pass over an item with a space or nothing behind it: a quoted string is taken
up to its second quote, a word up to the space. -/
theorem parseArgs_item {item : Item} {n k : Nat} {done rest : List UInt8} {argv : List Nat} (hv : item.Valid)
    (hsep : rest.head?.getD space = space) : ∃ lead sep rest',
      parseArgs (n + 1) ⟨done, replicate k space ++ (item.typed ++ rest), false⟩ argv =
        parseArgs n ⟨done ++ lead ++ item.text ++ sep, rest', false⟩ (argv ++ [(done ++ lead).length]) ∧
      (sep = [0] ∨ sep = [] ∧ rest' = []) ∧ (rest' = rest ∨ rest = space :: rest') := by
  cases item with
  | quoted text =>
    have hskip := @skipSpaces_replicate k done (quote :: (text ++ [quote] ++ rest)) (by simp [space, quote])
    have hend : findEnd true (done ++ replicate k 0 ++ [0]) (text ++ ([quote] ++ rest)) =
        ⟨done ++ replicate k 0 ++ [0] ++ text ++ [0], rest, false⟩ := by
      rw [findEnd_append fun c hc => ⟨(hv c hc).1, fun _ => rfl⟩]
      rfl
    refine ⟨replicate k 0 ++ [0], [0], rest, ?_, .inl rfl, .inl rfl⟩
    rw [Item.typed, cons_append, cons_append, parseArgs, if_neg (by simp), hskip]
    dsimp only
    rw [if_pos rfl, append_assoc text, if_neg (by simp), ← append_assoc done]
    exact congrArg (parseArgs n · _) hend
  | word text =>
    obtain ⟨c, text, rfl⟩ := exists_cons_of_ne_nil hv.1
    obtain ⟨hspace, hquote, -⟩ := hv.2 c mem_cons_self
    have hskip := @skipSpaces_replicate k done (c :: (text ++ rest)) (by simpa using hspace)
    have hend := @findEnd_append false (done ++ replicate k 0) (c :: text) rest fun d hd =>
      ⟨(hv.2 d hd).2.1, fun heq => absurd heq (hv.2 d hd).1⟩
    have hpass : parseArgs (n + 1) ⟨done, replicate k space ++ (c :: text ++ rest), false⟩ argv =
        parseArgs n (findEnd false (done ++ replicate k 0 ++ c :: text) rest)
          (argv ++ [(done ++ replicate k 0).length]) := by
      rw [cons_append, parseArgs, if_neg (by simp), hskip]
      dsimp only
      rw [if_neg hquote, ← cons_append, hend]
    cases rest with
    | nil => exact ⟨_, [], [], hpass.trans (by rw [append_nil]; rfl), .inr ⟨rfl, rfl⟩, .inl rfl⟩
    | cons d rest =>
      obtain rfl : d = space := hsep
      exact ⟨_, [0], rest, hpass, .inl rfl, .inr rfl⟩

/-! ## The whole line -/

/-- The items of a line become the next arguments. A last word without a space
behind it ends with the line. -/
theorem parseArgs_items {items : List (Item × Nat)} {n k : Nat} {done : List UInt8} {argv : List Nat}
    (hv : ∀ p ∈ items, p.1.Valid) (hgap : ∀ p ∈ items.dropLast, 0 < p.2) (hn : items.length ≤ n) :
    ∃ tail q ps, parseArgs (n + 1) ⟨done, replicate k space ++ typedItems items, false⟩ argv =
        (⟨done ++ tail, [], q⟩, argv ++ ps) ∧
      ps.map (stringAt (done ++ tail)) = items.map (·.1.text) := by
  induction items generalizing n k done argv with
  | nil =>
    refine ⟨replicate k 0, false, [], ?_, rfl⟩
    have hskip := @skipSpaces_replicate k done [] nofun
    rw [typedItems, flatMap_nil, parseArgs]
    split
    · obtain rfl : k = 0 := by simpa using ‹replicate k space ++ [] = []›
      simp
    · rw [hskip, append_nil]
  | cons p items ih =>
    obtain ⟨item, g⟩ := p
    obtain ⟨n, rfl⟩ := Nat.exists_eq_succ_of_ne_zero (Nat.ne_zero_of_lt hn)
    have hitem := hv _ mem_cons_self
    have htext : ∀ c ∈ item.text, c ≠ 0 := by
      cases item with
      | quoted text => exact fun c hc => (hitem c hc).2
      | word text => exact fun c hc => (hitem.2 c hc).2.2
    have hlast : (0 < g ∨ items = []) ∧ ∀ p ∈ items.dropLast, 0 < p.2 := by
      cases items with
      | nil => exact ⟨.inr rfl, nofun⟩
      | cons p items => exact ⟨.inl (hgap _ mem_cons_self), fun p hp => hgap p (mem_cons_of_mem _ hp)⟩
    have hsep : (replicate g space ++ typedItems items).head?.getD space = space := by
      cases g with
      | succ g => rfl
      | zero => rw [hlast.1.resolve_left (Nat.lt_irrefl 0)]; rfl
    have htyped : typedItems ((item, g) :: items) = item.typed ++ (replicate g space ++ typedItems items) := by
      rw [typedItems, flatMap_cons, append_assoc]
      rfl
    obtain ⟨lead, sep, rest, hpass, hends, hrest⟩ := @parseArgs_item item (n + 1) k done _ argv hitem hsep
    obtain ⟨g', rfl⟩ : ∃ g', rest = replicate g' space ++ typedItems items := by
      rcases hrest with rfl | hrest
      · exact ⟨g, rfl⟩
      · cases g with
        | succ g => exact ⟨g, (cons.inj hrest).2.symm⟩
        | zero =>
          rw [hlast.1.resolve_left (Nat.lt_irrefl 0)] at hrest
          cases hrest
    obtain ⟨tail, q, ps, hrun, htexts⟩ := @ih n g' (done ++ lead ++ item.text ++ sep)
      (argv ++ [(done ++ lead).length]) (fun p hp => hv p (mem_cons_of_mem _ hp)) hlast.2 (Nat.le_of_succ_le_succ hn)
    have hline : done ++ (lead ++ item.text ++ sep ++ tail) = done ++ lead ++ (item.text ++ (sep ++ tail)) := by
      simp only [append_assoc]
    have hzero : (sep ++ tail).head?.getD 0 = 0 := by
      rcases hends with rfl | ⟨rfl, hempty⟩
      · rfl
      · rw [hempty] at hrun
        have hsame := congrArg (·.1.done) hrun
        rw [nil_append, self_eq_append_right.mp hsame]
        rfl
    refine ⟨lead ++ item.text ++ sep ++ tail, q, (done ++ lead).length :: ps, ?_, ?_⟩
    · rw [htyped, hpass, hrun]
      simp only [append_assoc, singleton_append]
    · rw [map_cons, map_cons, hline, stringAt_append htext hzero, ← htexts]
      simp only [append_assoc]

/-- **`terminal_parse_line` splits a command line into its items.** -/
theorem terminalParseLine_items (lead : Nat) (items : List (Item × Nat)) (hv : ∀ p ∈ items, p.1.Valid)
    (hgap : ∀ p ∈ items.dropLast, 0 < p.2) (hn : items.length < terminalMaxArgs - 1) :
    let r := terminalParseLine (replicate lead space ++ typedItems items)
    r.argc = items.length ∧
      r.argv.map (Option.map (stringAt r.line)) = items.map (fun p => some p.1.text) ++ [none] := by
  obtain ⟨tail, q, ps, hrun, htexts⟩ := @parseArgs_items items (terminalMaxArgs - 2) lead [] [] hv hgap
    (Nat.le_of_lt_succ hn)
  have hr : terminalParseLine (replicate lead space ++ typedItems items) =
      ⟨ps.length, ps.map some ++ [none], tail⟩ := by
    rw [terminalParseLine, show terminalMaxArgs - 1 = terminalMaxArgs - 2 + 1 from rfl, hrun]
    simp
  have hlen := congrArg length htexts
  rw [length_map, length_map] at hlen
  have hsome := congrArg (map some) htexts
  rw [map_map, map_map] at hsome
  rw [hr]
  refine ⟨hlen, ?_⟩
  rw [map_append, map_map]
  exact congrArg (· ++ [none]) hsome

/-- `  ls "" "a b"`. -/
theorem terminalParseLine_quoted :
    let r := terminalParseLine [32, 32, 108, 115, 32, 34, 34, 32, 34, 97, 32, 98, 34]
    r.argc = 3 ∧ r.argv.map (Option.map (stringAt r.line)) = [some [108, 115], some [], some [97, 32, 98], none] :=
  terminalParseLine_items 2 [(.word [108, 115], 1), (.quoted [], 1), (.quoted [97, 32, 98], 0)]
    (by simp [Item.Valid, space, quote]) (by decide) (by decide)

end LiwusOS.Terminal
