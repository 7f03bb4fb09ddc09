import LiwusOS.Lib.Bytes

/-! # The text input widget (`text_input.c`)

The text is a NUL-terminated string in a buffer of `capacity` bytes, and an
edit moves the bytes behind the cursor. Down stops at the end of the next line;
Up stops at the end of the text only. -/

namespace LiwusOS.Gui
open LiwusOS.Lib List

structure TextInput where
  text : Buf
  capacity : Nat
  cursorPos : Nat
  focused : Bool

def newline : UInt8 := 10

/-- Keyboard events. -/
inductive KeyEvent where
  | char (unicode : Nat)
  | down (keycode : Nat)

namespace TextInput

def strlen (d : TextInput) : Nat := ((range d.capacity).find? fun i => d.text i = 0).getD d.capacity

/-- `memmove(b + dst, b + src, n)`. -/
def memmove (b : Buf) (dst src n : Nat) : Buf := b.copy dst (fun i => b (src + i)) n

def insert (d : TextInput) (c : UInt8) : TextInput :=
  if d.strlen + 1 < d.capacity then
    { d with
      text := (memmove d.text (d.cursorPos + 1) d.cursorPos (d.strlen - d.cursorPos + 1)).set d.cursorPos c
      cursorPos := d.cursorPos + 1 }
  else d

def backspace (d : TextInput) : TextInput :=
  if 0 < d.cursorPos then
    { d with
      text := (memmove d.text (d.cursorPos - 1) d.cursorPos (d.strlen - d.cursorPos + 1)).set (d.strlen - 1) 0
      cursorPos := d.cursorPos - 1 }
  else d

/-- A character, in the code that `text_input_on_event` and `text_input_type_char` both have. -/
def edit (d : TextInput) (unicode : Nat) : TextInput :=
  if unicode = 8 ∨ unicode = 127 then d.backspace
  else if unicode = 10 ∨ unicode = 13 then d.insert newline
  else if 32 ≤ unicode ∧ unicode ≤ 126 then d.insert (UInt8.ofNat unicode)
  else d

/-- The scan back to the start of a line. -/
def lineStart (b : Buf) : Nat → Nat
  | 0 => 0
  | n + 1 => if b n = newline then n + 1 else lineStart b n

/-- The scan to the end of a line, over at most `k` bytes. -/
def lineEnd (b : Buf) (pos : Nat) : Nat → Nat
  | 0 => pos
  | k + 1 => if b pos = newline then pos else lineEnd b (pos + 1) k

/-- `prev_line_start + 1` is the start of the line that ends before `line_start`. -/
def up (d : TextInput) : TextInput :=
  let start := lineStart d.text d.cursorPos
  if 0 < start then
    let prev := lineStart d.text (start - 1)
    { d with cursorPos := min (prev + (d.cursorPos - start)) d.strlen }
  else d

def down (d : TextInput) : TextInput :=
  let start := lineStart d.text d.cursorPos
  let stop := lineEnd d.text d.cursorPos (d.strlen - d.cursorPos)
  if stop < d.strlen then
    let nextEnd := lineEnd d.text (stop + 1) (d.strlen - (stop + 1))
    { d with cursorPos := min (min (stop + 1 + (d.cursorPos - start)) nextEnd) d.strlen }
  else d

def left (d : TextInput) : TextInput := { d with cursorPos := d.cursorPos - 1 }

def right (d : TextInput) : TextInput := if d.cursorPos < d.strlen then { d with cursorPos := d.cursorPos + 1 } else d

/-- The keyboard part of `text_input_on_event`. -/
def onEvent (d : TextInput) (e : KeyEvent) : Bool × TextInput :=
  if d.focused then
    (true, match e with
      | .char unicode => d.edit unicode
      | .down 0x48 => d.up
      | .down 0x50 => d.down
      | .down 0x4B => d.left
      | .down 0x4D => d.right
      | .down _ => d)
  else (false, d)

end TextInput

/-! ## Lines -/

/-- The line with `pos` in it starts at `start`. -/
structure StartsLine (b : Buf) (pos start : Nat) : Prop where
  le : start ≤ pos
  first : start = 0 ∨ b (start - 1) = newline
  inside : ∀ i, start ≤ i → i < pos → b i ≠ newline

/-- In a text of `len` bytes the line with `pos` in it ends at `stop`. -/
structure EndsLine (b : Buf) (len pos stop : Nat) : Prop where
  ge : pos ≤ stop
  le : stop ≤ len
  last : stop = len ∨ b stop = newline
  inside : ∀ i, pos ≤ i → i < stop → b i ≠ newline

/-- Up goes to the previous line, no further right than its end. -/
def TextInput.UpLaw (d d' : TextInput) : Prop :=
  ∀ start, StartsLine d.text d.cursorPos start →
    (start = 0 → d'.cursorPos = d.cursorPos) ∧
    (0 < start → ∀ prev, StartsLine d.text (start - 1) prev →
      d'.cursorPos = prev + min (d.cursorPos - start) (start - 1 - prev))

/-- Down goes to the next line, no further right than its end. -/
def TextInput.DownLaw (d d' : TextInput) : Prop :=
  ∀ start stop, StartsLine d.text d.cursorPos start → EndsLine d.text d.strlen d.cursorPos stop →
    (stop = d.strlen → d'.cursorPos = d.cursorPos) ∧
    (stop < d.strlen → ∀ nextEnd, EndsLine d.text d.strlen (stop + 1) nextEnd →
      d'.cursorPos = stop + 1 + min (d.cursorPos - start) (nextEnd - (stop + 1)))

/-- The column is on the previous line too. -/
def TextInput.PreviousReaches (d : TextInput) : Prop :=
  ∀ start prev, StartsLine d.text d.cursorPos start → 0 < start → StartsLine d.text (start - 1) prev →
    d.cursorPos - start ≤ start - 1 - prev

section Lines
variable {b : Buf} {len pos start stop k : Nat}

theorem lineStart_starts (b : Buf) (pos : Nat) : StartsLine b pos (TextInput.lineStart b pos) := by
  induction pos with
  | zero => exact ⟨le_rfl, .inl rfl, nofun⟩
  | succ n ih =>
    rw [TextInput.lineStart]
    split
    · exact ⟨le_rfl, .inr ‹_›, fun i h1 h2 => absurd h2 (Nat.not_lt.mpr h1)⟩
    · refine ⟨Nat.le_succ_of_le ih.le, ih.first, fun i h1 h2 => ?_⟩
      rcases Nat.lt_succ_iff_lt_or_eq.mp h2 with hlt | rfl
      · exact ih.inside i h1 hlt
      · assumption

theorem StartsLine.le_start {start' : Nat} (h : StartsLine b pos start) (h' : StartsLine b pos start') :
    start' ≤ start := by
  by_contra hlt
  rcases h'.first with h0 | hnl
  · omega
  · exact h.inside (start' - 1) (by omega) (by have := h'.le; omega) hnl

theorem StartsLine.eq (h : StartsLine b pos start) : TextInput.lineStart b pos = start :=
  Nat.le_antisymm (h.le_start (lineStart_starts b pos)) ((lineStart_starts b pos).le_start h)

theorem EndsLine.eq (h : EndsLine b len pos stop) (hk : pos + k = len) : TextInput.lineEnd b pos k = stop := by
  induction k generalizing pos with
  | zero =>
    have := h.ge
    have := h.le
    rw [TextInput.lineEnd]
    omega
  | succ k ih =>
    rw [TextInput.lineEnd]
    split
    · by_contra hne
      exact h.inside pos le_rfl (Nat.lt_of_le_of_ne h.ge hne) ‹_›
    · rename_i hnl
      have hlt : pos < stop := by
        refine Nat.lt_of_le_of_ne h.ge fun heq => ?_
        rcases h.last with hl | hl
        · omega
        · exact hnl (heq ▸ hl)
      exact ih ⟨hlt, h.le, h.last, fun i hi => h.inside i (Nat.le_of_succ_le hi)⟩ (by omega)

end Lines

/-- When the arrow keys go to the neighbouring line. -/
theorem vertical_moves_iff {d : TextInput} (hf : d.focused = true) (hc : d.cursorPos ≤ d.strlen) :
    (d.UpLaw (d.onEvent (.down 0x48)).2 ∧ d.DownLaw (d.onEvent (.down 0x50)).2) ↔ d.PreviousReaches := by
  have hup : (d.onEvent (.down 0x48)).2 = d.up := by rw [TextInput.onEvent, if_pos hf]
  have hdown : (d.onEvent (.down 0x50)).2 = d.down := by rw [TextInput.onEvent, if_pos hf]
  rw [hup, hdown]
  have hlaw : d.DownLaw d.down := by
    intro start stop hstart hstop
    rw [TextInput.down, hstart.eq, hstop.eq (by omega)]
    refine ⟨fun heq => by rw [if_neg (by omega)], fun hlt nextEnd hnext => ?_⟩
    rw [if_pos hlt, hnext.eq (by omega)]
    have := hnext.le
    have := hnext.ge
    dsimp only
    omega
  refine ⟨fun ⟨h, _⟩ start prev hstart hpos hprev => ?_, fun h => ⟨fun start hstart => ⟨?_, ?_⟩, hlaw⟩⟩
  · have heq := (h start hstart).2 hpos prev hprev
    rw [TextInput.up, hstart.eq, if_pos hpos, hprev.eq] at heq
    have := hstart.le
    have := hprev.le
    dsimp only at heq
    omega
  · intro h0
    rw [TextInput.up, hstart.eq, if_neg (by omega)]
  · intro hpos prev hprev
    have := h start prev hstart hpos hprev
    have := hstart.le
    have := hprev.le
    rw [TextInput.up, hstart.eq, if_pos hpos, hprev.eq]
    dsimp only
    omega

/-- In "ab" and "cd" below it the column is on both lines. -/
theorem vertical_moves_equalLines :
    let d : TextInput := ⟨Buf.zero.putBytes 0 [97, 98, 10, 99, 100], 16, 4, true⟩
    d.UpLaw (d.onEvent (.down 0x48)).2 ∧ d.DownLaw (d.onEvent (.down 0x50)).2 := by
  intro d
  refine (vertical_moves_iff rfl (by decide)).mpr fun start prev hstart _ hprev => ?_
  obtain rfl : 3 = start := hstart.eq
  obtain rfl : 0 = prev := hprev.eq
  decide

/-- Up from the end of "bcd", below "a", stays on its line. -/
theorem up_stays_on_line :
    let d : TextInput := ⟨Buf.zero.putBytes 0 [97, 10, 98, 99, 100], 16, 5, true⟩
    d.strlen = 5 ∧ (d.onEvent (.down 0x48)).2.cursorPos = 3 ∧ StartsLine d.text 3 2 ∧
      ¬ d.UpLaw (d.onEvent (.down 0x48)).2 := by
  intro d
  have hcur : StartsLine d.text 5 2 := ⟨by decide, by decide, fun i h1 h2 => by interval_cases i <;> decide⟩
  refine ⟨by decide, by decide, ⟨by decide, by decide, fun i h1 h2 => by interval_cases i; decide⟩, fun h => ?_⟩
  have hprev : StartsLine d.text 1 0 := ⟨by decide, by decide, fun i h1 h2 => by interval_cases i; decide⟩
  have hcol : 3 = 0 + min (5 - 2) (2 - 1 - 0) := (h 2 hcur).2 (by decide) 0 hprev
  exact absurd hcol (by decide)

end LiwusOS.Gui
