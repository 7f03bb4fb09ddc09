import LiwusOS.Lib.RingBuffer

/-! # Pipes (`pipe_t`)

The pipe branches of `sys_read` and `sys_write`. A system call runs with
interrupts off, so it is one step up to the point where it calls `switch_task`:
a reader of an empty pipe gives up the processor and looks again when it runs
next. The user's buffers are valid, so copying does not fail. -/

namespace LiwusOS.Ipc
open LiwusOS.Lib List

def pipeBufSize : Nat := 4096

/-- `pipe_t`. The positions are only ever written modulo `PIPE_BUF_SIZE`. -/
structure Pipe where
  buffer : Nat → UInt8
  readPos : Fin 4096
  writePos : Fin 4096
  bytesAvail : Nat
  refcount : Int

/-- A pipe as `sys_pipe` makes it. -/
def newPipe : Pipe := ⟨fun _ => 0, 0, 0, 0, 2⟩

/-- The copy loop of `sys_read` with `rest` bytes to go, in chunks that end at
the end of the buffer. -/
def readLoop (p : Pipe) (rest : Nat) : List UInt8 × Pipe :=
  if rest = 0 then ([], p) else
  let chunk := min rest (pipeBufSize - p.readPos)
  let bytes := (List.range chunk).map fun k => p.buffer (p.readPos + k)
  let (more, p) := readLoop
    { p with readPos := Fin.ofNat 4096 (p.readPos + chunk), bytesAvail := p.bytesAvail - chunk } (rest - chunk)
  (bytes ++ more, p)
termination_by rest
decreasing_by
  unfold pipeBufSize
  omega

/-- The bytes that `sys_read` copies out; none while the reader has to wait. -/
def sysReadPipe (p : Pipe) (count : Nat) : Option (List UInt8) × Pipe :=
  if p.bytesAvail = 0 then
    if p.refcount ≤ 0 then (some [], p) else (none, p)
  else
    let (bytes, p) := readLoop p (min count p.bytesAvail)
    (some bytes, p)

/-- `sizeof(tmp)` of `sys_write`. -/
def stagingSize : Nat := 64

/-- The copy loop of `sys_write`. The bytes of a chunk are counted when all of
them are in the buffer. -/
def writeLoop (p : Pipe) : List UInt8 → Pipe
  | [] => p
  | b :: data =>
    let tmp := (b :: data).take stagingSize
    let stored := store pipeBufSize p.buffer p.writePos tmp
    writeLoop
      { p with
        buffer := stored.1
        writePos := Fin.ofNat 4096 stored.2
        bytesAvail := p.bytesAvail + tmp.length }
      ((b :: data).drop stagingSize)
termination_by data => data.length
decreasing_by
  simp only [length_drop, length_cons, stagingSize]
  omega

/-- The result of `sys_write` and the pipe after it; what does not fit is not
written. -/
def sysWritePipe (p : Pipe) (data : List UInt8) : Nat × Pipe :=
  let space := pipeBufSize - p.bytesAvail
  if space = 0 then (0, p)
  else ((data.take space).length, writeLoop p (data.take space))

/-! ## Contents -/

namespace Pipe

/-- The bytes in the pipe, in the order in which they will be read. -/
def contents (p : Pipe) : List UInt8 := window pipeBufSize p.buffer p.readPos p.bytesAvail

/-- The positions and the count fit together. -/
structure Ok (p : Pipe) : Prop where
  avail : p.bytesAvail ≤ pipeBufSize
  writePos : p.writePos.val = (p.readPos + p.bytesAvail) % pipeBufSize

end Pipe

variable {p : Pipe}

theorem contents_length : p.contents.length = p.bytesAvail := window_length

/-- A chunk is the front of the contents. -/
theorem contents_split {n : Nat} (hn : n ≤ p.bytesAvail) : p.contents =
    window pipeBufSize p.buffer p.readPos n ++
      ({ p with readPos := Fin.ofNat 4096 (p.readPos + n), bytesAvail := p.bytesAvail - n } : Pipe).contents := by
  have hsum : p.bytesAvail = n + (p.bytesAvail - n) := by omega
  have hpos : (Fin.ofNat 4096 (p.readPos + n)).val = (p.readPos + n) % pipeBufSize := rfl
  rw [Pipe.contents, hsum, window_append, Pipe.contents]
  dsimp only
  rw [hpos, window_mod, Nat.add_sub_cancel_left]

/-- What the copy loop reads, and what it leaves. -/
structure ReadBytes (p p' : Pipe) (bytes : List UInt8) (n : Nat) : Prop where
  contents : p.contents = bytes ++ p'.contents
  length : bytes.length = n
  ok : p.Ok → p'.Ok
  refcount : p'.refcount = p.refcount

theorem readLoop_spec (rest : Nat) (h : rest ≤ p.bytesAvail) :
    ReadBytes p (readLoop p rest).2 (readLoop p rest).1 rest := by
  induction rest using Nat.strongRecOn generalizing p with
  | ind rest ih =>
    rw [readLoop]
    split
    · rename_i h0
      exact ⟨rfl, h0.symm, id, rfl⟩
    · have hread := p.readPos.isLt
      have hbuf : pipeBufSize = 4096 := rfl
      generalize hchunk : min rest (pipeBufSize - p.readPos) = chunk
      have hle : chunk ≤ rest := by omega
      have hwin : window pipeBufSize p.buffer p.readPos chunk =
          (List.range chunk).map fun k => p.buffer (p.readPos + k) := window_eq_slice (by omega)
      have hsub := ih (rest - chunk) (by omega)
        (p := { p with readPos := Fin.ofNat 4096 (p.readPos + chunk), bytesAvail := p.bytesAvail - chunk })
        (Nat.sub_le_sub_right h chunk)
      refine ⟨?_, ?_, fun hok => hsub.ok ⟨?_, ?_⟩, hsub.refcount⟩
      · rw [contents_split (Nat.le_trans hle h), hwin, hsub.contents, append_assoc]
      · rw [length_append, hsub.length, length_map, length_range]
        omega
      · exact Nat.le_trans (Nat.sub_le _ _) hok.avail
      · have hpos : (Fin.ofNat 4096 (p.readPos + chunk)).val = (p.readPos + chunk) % pipeBufSize := rfl
        dsimp only
        rw [hok.writePos, hpos, Nat.mod_add_mod]
        congr 1
        omega

/-- What the copy loop writes. -/
structure WroteBytes (p p' : Pipe) (data : List UInt8) : Prop where
  contents : p'.contents = p.contents ++ data
  ok : p'.Ok
  refcount : p'.refcount = p.refcount

theorem writeLoop_spec (data : List UInt8) (hok : p.Ok) (h : p.bytesAvail + data.length ≤ pipeBufSize) :
    WroteBytes p (writeLoop p data) data := by
  induction hn : data.length using Nat.strongRecOn generalizing p data with
  | ind n ih =>
    cases data with
    | nil =>
      rw [writeLoop]
      exact ⟨(append_nil _).symm, hok, rfl⟩
    | cons b data =>
      rw [writeLoop]
      generalize htmp : (b :: data).take stagingSize = tmp
      generalize hrest : (b :: data).drop stagingSize = rest
      have hdata : tmp ++ rest = b :: data := by rw [← htmp, ← hrest, take_append_drop]
      have hlen : tmp.length + rest.length = n := by rw [← hn, ← hdata, length_append]
      have hpos : 0 < tmp.length := by rw [← htmp]; simp [stagingSize]
      have hroom : p.bytesAvail + tmp.length ≤ pipeBufSize := by omega
      obtain ⟨h1, h2⟩ := store_spec p.buffer p.readPos.val tmp hroom
      rw [← hok.writePos] at h1 h2
      have hwrite : (Fin.ofNat 4096 (store pipeBufSize p.buffer p.writePos tmp).2).val =
          (p.readPos + (p.bytesAvail + tmp.length)) % pipeBufSize := by
        rw [h2]
        exact Nat.mod_mod _ _
      have hsub := ih rest.length (by omega) rest (p := { p with
          buffer := (store pipeBufSize p.buffer p.writePos tmp).1
          writePos := Fin.ofNat 4096 (store pipeBufSize p.buffer p.writePos tmp).2
          bytesAvail := p.bytesAvail + tmp.length }) ⟨hroom, hwrite⟩ (by dsimp only; omega) rfl
      refine ⟨?_, hsub.ok, hsub.refcount⟩
      rw [hsub.contents, ← hdata, ← append_assoc]
      congr 1

theorem sysReadPipe_cases (p : Pipe) (count : Nat) :
    (sysReadPipe p count = (none, p) ∧ p.bytesAvail = 0 ∧ 0 < p.refcount) ∨
    ∃ bytes p', sysReadPipe p count = (some bytes, p') ∧ ReadBytes p p' bytes (min count p.bytesAvail) := by
  rw [sysReadPipe]
  split
  · rename_i h0
    split
    · refine .inr ⟨[], p, rfl, rfl, by simp [h0], id, rfl⟩
    · rename_i href
      exact .inl ⟨rfl, h0, Int.not_le.mp href⟩
  · exact .inr ⟨_, _, rfl, readLoop_spec _ (Nat.min_le_right _ _)⟩

theorem sysWritePipe_spec (data : List UInt8) (hok : p.Ok) :
    WroteBytes p (sysWritePipe p data).2 (data.take (sysWritePipe p data).1) := by
  have havail := hok.avail
  rw [sysWritePipe]
  split
  · exact ⟨(append_nil _).symm, hok, rfl⟩
  · rw [length_take, ← take_eq_take_min]
    exact writeLoop_spec _ hok (by rw [length_take]; omega)

/-! ## Runs -/

/-- Calls on the descriptors of one pipe. Other calls change its count of
descriptors only. -/
inductive PipeCall where
  | read (count : Nat)
  | write (data : List UInt8)
  | refs (refcount : Int)

/-- A pipe with all bytes that writes accepted and that reads returned. -/
structure Traffic where
  pipe : Pipe
  accepted : List UInt8
  read : List UInt8

namespace Traffic

def step (t : Traffic) : PipeCall → Traffic
  | .read count =>
    let (bytes, p) := sysReadPipe t.pipe count
    { t with pipe := p, read := t.read ++ bytes.getD [] }
  | .write data =>
    let (n, p) := sysWritePipe t.pipe data
    { t with pipe := p, accepted := t.accepted ++ data.take n }
  | .refs refcount => { t with pipe := { t.pipe with refcount := refcount } }

/-- The bytes that were accepted and not yet read are in the pipe. -/
structure Inv (t : Traffic) : Prop where
  bytes : t.accepted = t.read ++ t.pipe.contents
  ok : t.pipe.Ok

variable {t : Traffic}

theorem Inv.step (h : t.Inv) (call : PipeCall) : (t.step call).Inv := by
  cases call with
  | read count =>
    rcases sysReadPipe_cases t.pipe count with ⟨heq, -⟩ | ⟨bytes, p', heq, hr⟩
    · simp only [Traffic.step, heq, Option.getD_none, append_nil]
      exact ⟨h.bytes, h.ok⟩
    · simp only [Traffic.step, heq, Option.getD_some]
      refine ⟨?_, hr.ok h.ok⟩
      dsimp only
      rw [h.bytes, hr.contents, append_assoc]
  | write data =>
    have hw := sysWritePipe_spec data h.ok
    refine ⟨?_, hw.ok⟩
    simp only [Traffic.step]
    rw [h.bytes, hw.contents, append_assoc]
  | refs refcount => exact ⟨h.bytes, h.ok.avail, h.ok.writePos⟩

theorem newPipe_inv : (⟨newPipe, [], []⟩ : Traffic).Inv := ⟨rfl, Nat.zero_le _, rfl⟩

theorem Inv.run (h : t.Inv) (calls : List PipeCall) : (calls.foldl Traffic.step t).Inv := by
  induction calls generalizing t with
  | nil => exact h
  | cons call calls ih => exact ih (h.step call)

/-- **Pipes are lossless FIFOs**: after any calls on a new pipe what was read is
a prefix of what was accepted, and the counters say how much is left. -/
theorem pipe_fifo (calls : List PipeCall) :
    let t := calls.foldl Traffic.step ⟨newPipe, [], []⟩
    t.read <+: t.accepted ∧ t.pipe.bytesAvail = t.accepted.length - t.read.length ∧
    t.read.length ≤ t.accepted.length ∧ t.pipe.bytesAvail ≤ pipeBufSize ∧
    t.pipe.writePos.val = (t.pipe.readPos + t.pipe.bytesAvail) % pipeBufSize := by
  intro t
  have h : t.Inv := newPipe_inv.run calls
  have hlen : t.accepted.length = t.read.length + t.pipe.bytesAvail := by
    rw [h.bytes, length_append, contents_length]
  exact ⟨⟨t.pipe.contents, h.bytes.symm⟩, by omega, by omega, h.ok.avail, h.ok.writePos⟩

end Traffic
end LiwusOS.Ipc
