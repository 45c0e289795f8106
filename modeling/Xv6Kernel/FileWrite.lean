import Xv6Kernel.FileBytes

/-!
# Writers that share an open file

Any number of processes call `filewrite` with the same `struct file`.  A call
cuts its bytes into chunks; each chunk is a transaction of its own and is written
with the inode locked, at the offset that the file has then.

A step of a process is one statement of `filewrite`.  `writei` is a single step:
all that it reads and changes belongs to the inode that its caller has locked,
or is the free map, which nobody else uses here.  `end_op` commits in one step,
since `begin_op` lets nobody in before it is done.
-/

namespace Xv6Kernel

open TraceExecution StateHoare WordBytes BlockAllocation List

/-- `max` in `filewrite`. -/
abbrev maxChunk : ℕ := (maxOpBlocks - 1 - 1 - 2) / 2 * 512

structure WriteCall where
  addr : ℕ → Byte
  n : ℤ

/-- The statement of `filewrite` that comes next; `r` is what `writei`
returned. -/
inductive WritePc
  | entry
  | loop
  | beginOp
  | ilock
  | load
  | writei (off : BitVec 32)
  | advance (r : ℤ)
  | iunlock (r : ℤ)
  | endOp (r : ℤ)
  | check (r : ℤ)
  deriving DecidableEq

/-- A process in `filewrite`; `id` numbers the calls. -/
structure Writer where
  id : ℕ
  call : WriteCall
  i : ℕ
  pc : WritePc

def Writer.n1 (w : Writer) : ℤ :=
  if (maxChunk : ℤ) < w.call.n - w.i then maxChunk else w.call.n - w.i

structure WriteState (P : Type) where
  vol : Volume P
  writer : P → Option Writer
  calls : List WriteCall
  results : List (ℕ × ℤ)

inductive WriteAction
  | call (call : WriteCall)
  | advance

variable {P : Type}

namespace WriteState

variable [DecidableEq P]

def goto (s : WriteState P) (p : P) (w : Writer) (pc : WritePc) : WriteState P :=
  { s with writer := Function.update s.writer p (some { w with pc := pc }) }

def ret (s : WriteState P) (p : P) (w : Writer) (v : ℤ) : WriteState P :=
  { s with
    writer := Function.update s.writer p none
    results := s.results ++ [(w.id, v)] }

def setVol (s : WriteState P) (g : Volume P → Volume P) : WriteState P :=
  { s with vol := g s.vol }

def finish (s : WriteState P) (p : P) (w : Writer) : WriteState P :=
  s.ret p w (if (w.i : ℤ) = w.call.n then w.call.n else -1)

end WriteState

namespace Volume

def current (s : Volume P) (ip : ISlot) : DiskNode :=
  if (s.icache ip).valid then (s.icache ip).node else s.dinode (s.icache ip).inum

def addOff (s : Volume P) (f : Fin nfile) (r : ℤ) : Volume P :=
  { s with
    ftable := Function.update s.ftable f
      { s.ftable f with off := (s.ftable f).off + BitVec.ofInt 32 r } }

/-- `begin_op` lets an operation in. -/
def beginOp (s : Volume P) : Volume P := { s with outstanding := s.outstanding + 1 }

/-- The last operation commits, which empties the log. -/
def endOp (s : Volume P) : Volume P :=
  { s with
    outstanding := s.outstanding - 1
    logged := if s.outstanding = 1 then [] else s.logged }

end Volume

def lockInode (s : Volume P) (p : P) (ip : ISlot) : Outcome (Volume P) := do
  ensure (1 ≤ (s.icache ip).ref) "ilock"
  await ((s.icache ip).lock = none)
  ensure ((s.icache ip).valid = true ∨ (s.current ip).type ≠ .none)
    "ilock: no type"
  return s.setCore ip fun core =>
    { core with lock := some p, valid := true, node := s.current ip }

def unlockInode (s : Volume P) (ip : ISlot) : Outcome (Volume P) := do
  ensure ((s.icache ip).lock ≠ none ∧ 1 ≤ (s.icache ip).ref) "iunlock"
  return s.setCore ip fun core => { core with lock := none }

def writeResult : Option (BitVec 32) → ℤ
  | some n => n.toInt
  | none => -1

/-- The next statement of `filewrite(f, addr, n)` in process `p`. -/
def filewriteStep [DecidableEq P] (devsw : Devsw) (f : Fin nfile) (s : WriteState P) (p : P)
    (w : Writer) : Outcome (WriteState P) :=
  let file := s.vol.ftable f
  match w.pc with
  | .entry =>
      if file.writable then
        if file.ip.isSome then pure (s.goto p w .loop) else panic "filewrite"
      else pure (s.ret p w (-1))
  | .loop =>
      if w.i < w.call.n then pure (s.goto p w .beginOp)
      else pure (s.finish p w)
  | .beginOp => do
      await (s.vol.logged.length + (s.vol.outstanding + 1) * maxOpBlocks ≤ logSize)
      return (s.setVol (·.beginOp)).goto p w .ilock
  | .ilock => do
      let ip ← awaitSome file.ip
      let vol ← lockInode s.vol p ip
      return (s.setVol fun _ => vol).goto p w .load
  | .load => pure (s.goto p w (.writei file.off))
  | .writei off => do
      let ip ← awaitSome file.ip
      match Vol.writei devsw ip (fun k => w.call.addr (w.i + k)) off
          (BitVec.ofInt 32 w.n1) s.vol with
      | .ok r vol =>
          return (s.setVol fun _ => vol).goto p w (.advance (writeResult r))
      | .error stop _ => .error stop
  | .advance r =>
      if 0 < r then pure ((s.setVol (·.addOff f r)).goto p w (.iunlock r))
      else pure (s.goto p w (.iunlock r))
  | .iunlock r => do
      let ip ← awaitSome file.ip
      let vol ← unlockInode s.vol ip
      return (s.setVol fun _ => vol).goto p w (.endOp r)
  | .endOp r => pure ((s.setVol (·.endOp)).goto p w (.check r))
  | .check r =>
      if r < 0 then pure (s.finish p w)
      else if r ≠ w.n1 then panic "short filewrite"
      else pure (s.goto p { w with i := w.i + r.toNat } .loop)

def writePerform [DecidableEq P] (devsw : Devsw) (f : Fin nfile)
    (s : WriteState P) :
    P × WriteAction → Outcome (WriteState P)
  | (p, .call call) => do
      await (s.writer p = none)
      return { s with
        writer := Function.update s.writer p (some ⟨s.calls.length, call, 0, .entry⟩)
        calls := s.calls ++ [call] }
  | (p, .advance) => do
      let w ← awaitSome (s.writer p)
      filewriteStep devsw f s p w

namespace WriteCall

def chunkAt (c : WriteCall) (i : ℕ) : List Byte :=
  (List.range (min (c.n.toNat - i) maxChunk)).map fun k => c.addr (i + k)

def chunksTo (c : WriteCall) (i : ℕ) : List (List Byte) :=
  (List.range ((i + (maxChunk - 1)) / maxChunk)).map fun j =>
    c.chunkAt (j * maxChunk)

def chunks (c : WriteCall) : List (List Byte) := c.chunksTo c.n.toNat

def bytes (c : WriteCall) : List Byte := (List.range c.n.toNat).map c.addr

theorem chunksTo_zero (c : WriteCall) : c.chunksTo 0 = [] := rfl

theorem length_chunkAt (c : WriteCall) (i : ℕ) :
    (c.chunkAt i).length = min (c.n.toNat - i) maxChunk := by
  simp [chunkAt]

theorem chunksTo_next (c : WriteCall) {i : ℕ} (hi : maxChunk ∣ i) (hlt : i < c.n.toNat) :
    c.chunksTo (i + (c.chunkAt i).length) = c.chunksTo i ++ [c.chunkAt i] := by
  obtain ⟨j, rfl⟩ := hi
  have hcount : (maxChunk * j + (c.chunkAt (maxChunk * j)).length +
      (maxChunk - 1)) / maxChunk = j + 1 := by
    rw [length_chunkAt]
    change (1536 * j + min (c.n.toNat - 1536 * j) 1536 + 1535) / 1536 = j + 1
    change 1536 * j < c.n.toNat at hlt
    omega
  have hbefore : (maxChunk * j + (maxChunk - 1)) / maxChunk = j := by
    change (1536 * j + 1535) / 1536 = j
    omega
  rw [chunksTo, chunksTo, hcount, hbefore, range_succ, map_append, map_singleton, Nat.mul_comm]

theorem flatten_chunksTo (c : WriteCall) (j : ℕ) :
    (c.chunksTo (min (j * maxChunk) c.n.toNat)).flatten =
      (range (min (j * maxChunk) c.n.toNat)).map c.addr := by
  induction j with
  | zero => simp [chunksTo_zero]
  | succ j ih =>
    by_cases hlt : j * maxChunk < c.n.toNat
    · have hnext : min ((j + 1) * maxChunk) c.n.toNat =
          j * maxChunk + (c.chunkAt (j * maxChunk)).length := by
        rw [length_chunkAt, Nat.succ_mul]
        omega
      rw [min_eq_left hlt.le] at ih
      rw [hnext, chunksTo_next c (Nat.dvd_mul_left _ _) hlt, flatten_append,
        ih, range_add, map_append, length_chunkAt]
      simp [chunkAt]
    · rw [Nat.succ_mul, min_eq_right (by omega)]
      rw [min_eq_right (by omega)] at ih
      exact ih

theorem flatten_chunks (c : WriteCall) : c.chunks.flatten = c.bytes := by
  have hall := c.flatten_chunksTo c.n.toNat
  rw [min_eq_right (Nat.le_mul_of_pos_right _ (by decide))] at hall
  exact hall

theorem length_le_of_mem_chunks (c : WriteCall) {chunk : List Byte}
    (hmem : chunk ∈ c.chunks) : chunk.length ≤ maxChunk := by
  obtain ⟨j, _, rfl⟩ := mem_map.mp hmem
  rw [length_chunkAt]
  exact min_le_right _ _

end WriteCall

/-- The steps of process `p` in `filewrite`. -/
inductive WriteStep [DecidableEq P] (devsw : Devsw) (f : Fin nfile)
    (s : WriteState P) (p : P) (w : Writer) : WriteState P → Prop
  | enter (hpc : w.pc = .entry) : WriteStep devsw f s p w (s.goto p w .loop)
  | refuse (hpc : w.pc = .entry) : WriteStep devsw f s p w (s.ret p w (-1))
  | turn (hpc : w.pc = .loop) (hi : w.i < w.call.n) :
      WriteStep devsw f s p w (s.goto p w .beginOp)
  | leave (hpc : w.pc = .loop) (hi : ¬ w.i < w.call.n) :
      WriteStep devsw f s p w (s.finish p w)
  | beginOp (hpc : w.pc = .beginOp) :
      WriteStep devsw f s p w ((s.setVol (·.beginOp)).goto p w .ilock)
  | ilock {ip : ISlot} (hpc : w.pc = .ilock) (hip : (s.vol.ftable f).ip = some ip)
      (hlock : (s.vol.icache ip).lock = none) :
      WriteStep devsw f s p w ((s.setVol (·.setCore ip fun core =>
        { core with lock := some p, valid := true, node := s.vol.current ip })).goto
          p w .load)
  | load (hpc : w.pc = .load) :
      WriteStep devsw f s p w (s.goto p w (.writei (s.vol.ftable f).off))
  | writei {off : BitVec 32} {ip : ISlot} {r : Option (BitVec 32)} {vol : Volume P}
      (hpc : w.pc = .writei off) (hip : (s.vol.ftable f).ip = some ip)
      (hrun : Vol.writei devsw ip (fun k => w.call.addr (w.i + k)) off
        (BitVec.ofInt 32 w.n1) s.vol = .ok r vol) :
      WriteStep devsw f s p w
        ((s.setVol fun _ => vol).goto p w (.advance (writeResult r)))
  | advance {r : ℤ} (hpc : w.pc = .advance r) (hr : 0 < r) :
      WriteStep devsw f s p w ((s.setVol (·.addOff f r)).goto p w (.iunlock r))
  | skip {r : ℤ} (hpc : w.pc = .advance r) (hr : ¬ 0 < r) :
      WriteStep devsw f s p w (s.goto p w (.iunlock r))
  | iunlock {r : ℤ} {ip : ISlot} (hpc : w.pc = .iunlock r)
      (hip : (s.vol.ftable f).ip = some ip) :
      WriteStep devsw f s p w ((s.setVol (·.setCore ip fun core =>
        { core with lock := none })).goto p w (.endOp r))
  | endOp {r : ℤ} (hpc : w.pc = .endOp r) :
      WriteStep devsw f s p w
        ((s.setVol (·.endOp)).goto p w (.check r))
  | fail {r : ℤ} (hpc : w.pc = .check r) (hr : r < 0) :
      WriteStep devsw f s p w (s.finish p w)
  | next (hpc : w.pc = .check w.n1) (hr : 0 ≤ w.n1) :
      WriteStep devsw f s p w
        (s.goto p { w with i := w.i + w.n1.toNat } .loop)

theorem writeStep_of_filewriteStep [DecidableEq P] {devsw : Devsw} {f : Fin nfile}
    {s t : WriteState P} {p : P} {w : Writer}
    (hstep : filewriteStep devsw f s p w = .ok t) : WriteStep devsw f s p w t := by
  unfold filewriteStep at hstep
  cases hpc : w.pc with
  | entry =>
    simp only [hpc] at hstep
    split at hstep
    · split at hstep
      · obtain rfl := pure_eq_ok.mp hstep
        exact .enter hpc
      · simp at hstep
    · obtain rfl := pure_eq_ok.mp hstep
      exact .refuse hpc
  | loop =>
    simp only [hpc] at hstep
    split at hstep
    next hi =>
      obtain rfl := pure_eq_ok.mp hstep
      exact .turn hpc hi
    next hi =>
      obtain rfl := pure_eq_ok.mp hstep
      exact .leave hpc hi
  | beginOp =>
    simp only [hpc, bind_eq_ok, pure_eq_ok] at hstep
    obtain ⟨_, _, rfl⟩ := hstep
    exact .beginOp hpc
  | ilock =>
    simp only [hpc, lockInode, bind_eq_ok, awaitSome_eq_ok, ensure_eq_ok,
      await_eq_ok, pure_eq_ok, exists_const] at hstep
    obtain ⟨ip, hip, vol, ⟨_, hlock, _, rfl⟩, rfl⟩ := hstep
    exact .ilock hpc hip hlock
  | load =>
    simp only [hpc] at hstep
    obtain rfl := pure_eq_ok.mp hstep
    exact .load hpc
  | writei off =>
    simp only [hpc, bind_eq_ok, awaitSome_eq_ok] at hstep
    obtain ⟨ip, hip, hstep⟩ := hstep
    split at hstep
    next r vol hrun =>
      obtain rfl := pure_eq_ok.mp hstep
      exact .writei hpc hip hrun
    next => cases hstep
  | advance r =>
    simp only [hpc] at hstep
    split at hstep
    next hr =>
      obtain rfl := pure_eq_ok.mp hstep
      exact .advance hpc hr
    next hr =>
      obtain rfl := pure_eq_ok.mp hstep
      exact .skip hpc hr
  | iunlock r =>
    simp only [hpc, unlockInode, bind_eq_ok, awaitSome_eq_ok, ensure_eq_ok,
      pure_eq_ok, exists_const] at hstep
    obtain ⟨ip, hip, vol, ⟨_, rfl⟩, rfl⟩ := hstep
    exact .iunlock hpc hip
  | endOp r =>
    simp only [hpc] at hstep
    obtain rfl := pure_eq_ok.mp hstep
    exact .endOp hpc
  | check r =>
    simp only [hpc] at hstep
    split at hstep
    next hr =>
      obtain rfl := pure_eq_ok.mp hstep
      exact .fail hpc hr
    next hr =>
      split at hstep
      next => simp at hstep
      next hn1 =>
        obtain rfl := pure_eq_ok.mp hstep
        obtain rfl : r = w.n1 := not_not.mp hn1
        exact .next hpc (not_lt.mp hr)

end Xv6Kernel
