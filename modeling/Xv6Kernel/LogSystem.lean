import Xv6Kernel.TraceExecution

/-!
# The admission of file system operations to the log

`begin_op`, `log_write`, `end_op` and `commit` of `log.c` as a step system.  A
process calls them one after the other, and `advance` takes it through the call
it is in.  `log.lock` and `ptable.lock` belong to processes here; what happens
between an `acquire` and the matching `release` of `log.lock` is one step
unless the process goes to sleep, wakes sleepers or panics inside, since these
need `ptable.lock` as well.

`commit` runs without `log.lock`.  Its disk writes change nothing here and each
of its calls is one step; the step that matters is `log.lh.n = 0`.
-/

namespace Xv6Kernel

open TraceExecution

abbrev maxOpBlocks : ℕ := 10

abbrev logSize : ℕ := maxOpBlocks * 3

/-- Where a process stands with respect to the log. -/
inductive LogPc
  | outside
  | beginLoop
  | sleepPtable
  | sleepUnlock
  | sleepSched
  | asleep
  | woken
  | inOp
  | logWriting (blockno : ℕ)
  | ending
  | commitStart
  | commitLog
  | commitHead
  | commitInstall
  | commitClear
  | commitErase
  | commitAcquire
  | wakeupAll
  | releaseLog
  deriving DecidableEq, Repr

/-- `struct log`, the lock of the process table and the processes.  `block` is
`log.lh.block` up to `log.lh.n`. -/
structure LogSystem (P : Type) where
  lock : Option P
  ptableLock : Option P
  size : ℤ
  outstanding : ℤ
  committing : Bool
  block : List ℕ
  pc : P → LogPc

inductive LogAction (P : Type)
  | beginOp
  | logWrite (blockno : ℕ)
  | endOp
  | advance
  | kill (q : P)
  deriving DecidableEq, Repr

def absorb (block : List ℕ) (blockno : ℕ) : List ℕ :=
  if blockno ∈ block then block else block ++ [blockno]

theorem mem_absorb {block : List ℕ} {blockno b : ℕ} :
    b ∈ absorb block blockno ↔ b ∈ block ∨ b = blockno := by
  unfold absorb
  split <;> grind

theorem absorb_nodup {block : List ℕ} (hnodup : block.Nodup) (blockno : ℕ) :
    (absorb block blockno).Nodup := by
  unfold absorb
  split
  · exact hnodup
  next hnew => exact List.nodup_append.mpr ⟨hnodup, by simp, by grind⟩

theorem absorb_length_le (block : List ℕ) (blockno : ℕ) :
    block.length ≤ (absorb block blockno).length := by
  unfold absorb
  split <;> simp

theorem absorb_length_le_succ (block : List ℕ) (blockno : ℕ) :
    (absorb block blockno).length ≤ block.length + 1 := by
  unfold absorb
  split <;> simp

def LogPc.wake : LogPc → LogPc
  | .asleep => .woken
  | pc => pc

variable {P : Type} [DecidableEq P]

namespace LogSystem

@[simp] def setPc (s : LogSystem P) (p : P) (pc : LogPc) : LogSystem P :=
  { s with pc := Function.update s.pc p pc }

def Full (s : LogSystem P) : Prop :=
  s.committing = true ∨
    (logSize : ℤ) < s.block.length + (s.outstanding + 1) * maxOpBlocks

instance (s : LogSystem P) : Decidable s.Full := by
  unfold Full
  infer_instance

def beginOp (s : LogSystem P) (p : P) : Outcome (LogSystem P) := do
  await (s.pc p = .outside ∧ s.lock = none)
  return { s.setPc p .beginLoop with lock := some p }

def logWrite (s : LogSystem P) (p : P) (blockno : ℕ) : Outcome (LogSystem P) := do
  await (s.pc p = .inOp)
  ensure (¬ ((logSize : ℤ) ≤ s.block.length ∨ s.size - 1 ≤ s.block.length))
    "too big a transaction"
  ensure (¬ s.outstanding < 1) "log_write outside of trans"
  return s.setPc p (.logWriting blockno)

def endOp (s : LogSystem P) (p : P) : Outcome (LogSystem P) := do
  await (s.pc p = .inOp ∧ s.lock = none)
  return { s.setPc p .ending with lock := some p }

def kill (s : LogSystem P) (p q : P) : Outcome (LogSystem P) := do
  await (s.pc p = .outside ∧ s.ptableLock = none)
  return s.setPc q (s.pc q).wake

def advance (s : LogSystem P) (p : P) : Outcome (LogSystem P) :=
  match s.pc p with
  | .outside | .asleep | .inOp => blocked
  | .beginLoop =>
      if s.Full then return s.setPc p .sleepPtable
      else return { s.setPc p .inOp with
        outstanding := s.outstanding + 1
        lock := none }
  | .sleepPtable => do
      await (s.ptableLock = none)
      return { s.setPc p .sleepUnlock with ptableLock := some p }
  | .sleepUnlock => return { s.setPc p .sleepSched with lock := none }
  | .sleepSched => return { s.setPc p .asleep with ptableLock := none }
  | .woken => do
      await (s.lock = none)
      return { s.setPc p .beginLoop with lock := some p }
  | .logWriting blockno => do
      await (s.lock = none)
      return { s.setPc p .inOp with block := absorb s.block blockno }
  | .ending =>
      if s.committing = true then panic "log.committing"
      else if s.outstanding - 1 = 0 then
        return { s.setPc p .commitStart with
          outstanding := s.outstanding - 1
          committing := true
          lock := none }
      else return { s.setPc p .wakeupAll with outstanding := s.outstanding - 1 }
  | .commitStart =>
      if 0 < s.block.length then return s.setPc p .commitLog
      else return s.setPc p .commitAcquire
  | .commitLog => return s.setPc p .commitHead
  | .commitHead => return s.setPc p .commitInstall
  | .commitInstall => return s.setPc p .commitClear
  | .commitClear => return { s.setPc p .commitErase with block := [] }
  | .commitErase => return s.setPc p .commitAcquire
  | .commitAcquire => do
      await (s.lock = none)
      return { s.setPc p .wakeupAll with committing := false, lock := some p }
  | .wakeupAll => do
      await (s.ptableLock = none)
      return { s with
        pc := Function.update (fun q => (s.pc q).wake) p .releaseLog }
  | .releaseLog => return { s.setPc p .outside with lock := none }

def perform (s : LogSystem P) : P × LogAction P → Outcome (LogSystem P)
  | (p, .beginOp) => s.beginOp p
  | (p, .logWrite blockno) => s.logWrite p blockno
  | (p, .endOp) => s.endOp p
  | (p, .advance) => s.advance p
  | (p, .kill q) => s.kill p q

def step : LogSystem P → P × LogAction P → Option (LogSystem P) :=
  stepOf perform

def initial (P : Type) (size : ℤ) : LogSystem P where
  lock := none
  ptableLock := none
  size := size
  outstanding := 0
  committing := false
  block := []
  pc := fun _ => .outside

inductive StepOk (s : LogSystem P) (p : P) :
    LogAction P → LogSystem P → Prop
  | beginOp (hpc : s.pc p = .outside) (hlock : s.lock = none) :
      StepOk s p .beginOp { s.setPc p .beginLoop with lock := some p }
  | logWrite {blockno : ℕ} (hpc : s.pc p = .inOp)
      (hfits : ¬ ((logSize : ℤ) ≤ s.block.length ∨
        s.size - 1 ≤ s.block.length)) :
      StepOk s p (.logWrite blockno) (s.setPc p (.logWriting blockno))
  | endOp (hpc : s.pc p = .inOp) (hlock : s.lock = none) :
      StepOk s p .endOp { s.setPc p .ending with lock := some p }
  | kill {q : P} (hpc : s.pc p = .outside) (hptable : s.ptableLock = none) :
      StepOk s p (.kill q) (s.setPc q (s.pc q).wake)
  | wait (hpc : s.pc p = .beginLoop) (hfull : s.Full) :
      StepOk s p .advance (s.setPc p .sleepPtable)
  | enter (hpc : s.pc p = .beginLoop) (hfull : ¬ s.Full) :
      StepOk s p .advance
        { s.setPc p .inOp with outstanding := s.outstanding + 1, lock := none }
  | sleepPtable (hpc : s.pc p = .sleepPtable) (hptable : s.ptableLock = none) :
      StepOk s p .advance { s.setPc p .sleepUnlock with ptableLock := some p }
  | sleepUnlock (hpc : s.pc p = .sleepUnlock) :
      StepOk s p .advance { s.setPc p .sleepSched with lock := none }
  | sleepSched (hpc : s.pc p = .sleepSched) :
      StepOk s p .advance { s.setPc p .asleep with ptableLock := none }
  | woken (hpc : s.pc p = .woken) (hlock : s.lock = none) :
      StepOk s p .advance { s.setPc p .beginLoop with lock := some p }
  | logWriting {blockno : ℕ} (hpc : s.pc p = .logWriting blockno)
      (hlock : s.lock = none) :
      StepOk s p .advance
        { s.setPc p .inOp with block := absorb s.block blockno }
  | endLast (hpc : s.pc p = .ending) (hcommitting : s.committing = false)
      (hlast : s.outstanding - 1 = 0) :
      StepOk s p .advance
        { s.setPc p .commitStart with
          outstanding := s.outstanding - 1
          committing := true
          lock := none }
  | endOther (hpc : s.pc p = .ending) (hcommitting : s.committing = false)
      (hlast : s.outstanding - 1 ≠ 0) :
      StepOk s p .advance
        { s.setPc p .wakeupAll with outstanding := s.outstanding - 1 }
  | commitStart (hpc : s.pc p = .commitStart) (hblock : 0 < s.block.length) :
      StepOk s p .advance (s.setPc p .commitLog)
  | commitEmpty (hpc : s.pc p = .commitStart) (hblock : s.block = []) :
      StepOk s p .advance (s.setPc p .commitAcquire)
  | commitLog (hpc : s.pc p = .commitLog) :
      StepOk s p .advance (s.setPc p .commitHead)
  | commitHead (hpc : s.pc p = .commitHead) :
      StepOk s p .advance (s.setPc p .commitInstall)
  | commitInstall (hpc : s.pc p = .commitInstall) :
      StepOk s p .advance (s.setPc p .commitClear)
  | commitClear (hpc : s.pc p = .commitClear) :
      StepOk s p .advance { s.setPc p .commitErase with block := [] }
  | commitErase (hpc : s.pc p = .commitErase) :
      StepOk s p .advance (s.setPc p .commitAcquire)
  | commitAcquire (hpc : s.pc p = .commitAcquire) (hlock : s.lock = none) :
      StepOk s p .advance
        { s.setPc p .wakeupAll with committing := false, lock := some p }
  | wakeupAll (hpc : s.pc p = .wakeupAll) (hptable : s.ptableLock = none) :
      StepOk s p .advance
        { s with pc := Function.update (fun q => (s.pc q).wake) p .releaseLog }
  | releaseLog (hpc : s.pc p = .releaseLog) :
      StepOk s p .advance { s.setPc p .outside with lock := none }

variable {s t : LogSystem P} {p : P}

private theorem advance_ok (hok : s.advance p = .ok t) : StepOk s p .advance t := by
  unfold advance at hok
  cases hpc : s.pc p with
  | outside | asleep | inOp => simp [hpc] at hok
  | beginLoop =>
    simp only [hpc] at hok
    split at hok
    next hfull =>
      obtain rfl := pure_eq_ok.mp hok
      exact .wait hpc hfull
    next hfull =>
      obtain rfl := pure_eq_ok.mp hok
      exact .enter hpc hfull
  | sleepPtable =>
    simp only [hpc, bind_eq_ok, await_eq_ok, pure_eq_ok] at hok
    obtain ⟨_, hptable, rfl⟩ := hok
    exact .sleepPtable hpc hptable
  | sleepUnlock =>
    simp only [hpc, pure_eq_ok] at hok
    exact hok ▸ .sleepUnlock hpc
  | sleepSched =>
    simp only [hpc, pure_eq_ok] at hok
    exact hok ▸ .sleepSched hpc
  | woken =>
    simp only [hpc, bind_eq_ok, await_eq_ok, pure_eq_ok] at hok
    obtain ⟨_, hlock, rfl⟩ := hok
    exact .woken hpc hlock
  | logWriting blockno =>
    simp only [hpc, bind_eq_ok, await_eq_ok, pure_eq_ok] at hok
    obtain ⟨_, hlock, rfl⟩ := hok
    exact .logWriting hpc hlock
  | ending =>
    simp only [hpc] at hok
    split at hok
    · simp at hok
    next hcommitting =>
      rw [Bool.not_eq_true] at hcommitting
      split at hok
      next hlast =>
        obtain rfl := pure_eq_ok.mp hok
        exact .endLast hpc hcommitting hlast
      next hlast =>
        obtain rfl := pure_eq_ok.mp hok
        exact .endOther hpc hcommitting hlast
  | commitStart =>
    simp only [hpc] at hok
    split at hok
    next hblock =>
      obtain rfl := pure_eq_ok.mp hok
      exact .commitStart hpc hblock
    next hblock =>
      obtain rfl := pure_eq_ok.mp hok
      exact .commitEmpty hpc (by simpa using hblock)
  | commitLog =>
    simp only [hpc, pure_eq_ok] at hok
    exact hok ▸ .commitLog hpc
  | commitHead =>
    simp only [hpc, pure_eq_ok] at hok
    exact hok ▸ .commitHead hpc
  | commitInstall =>
    simp only [hpc, pure_eq_ok] at hok
    exact hok ▸ .commitInstall hpc
  | commitClear =>
    simp only [hpc, pure_eq_ok] at hok
    exact hok ▸ .commitClear hpc
  | commitErase =>
    simp only [hpc, pure_eq_ok] at hok
    exact hok ▸ .commitErase hpc
  | commitAcquire =>
    simp only [hpc, bind_eq_ok, await_eq_ok, pure_eq_ok] at hok
    obtain ⟨_, hlock, rfl⟩ := hok
    exact .commitAcquire hpc hlock
  | wakeupAll =>
    simp only [hpc, bind_eq_ok, await_eq_ok, pure_eq_ok] at hok
    obtain ⟨_, hptable, rfl⟩ := hok
    exact .wakeupAll hpc hptable
  | releaseLog =>
    simp only [hpc, pure_eq_ok] at hok
    exact hok ▸ .releaseLog hpc

theorem step_ok {action : LogAction P} (hstep : step s (p, action) = some t) :
    StepOk s p action t := by
  unfold step at hstep
  rw [stepOf_eq_some] at hstep
  cases action with
  | beginOp =>
    simp only [perform, beginOp, bind_eq_ok, await_eq_ok, pure_eq_ok] at hstep
    obtain ⟨_, ⟨hpc, hlock⟩, rfl⟩ := hstep
    exact .beginOp hpc hlock
  | logWrite blockno =>
    simp only [perform, logWrite, bind_eq_ok, await_eq_ok, ensure_eq_ok, pure_eq_ok] at hstep
    obtain ⟨_, hpc, _, hfits, _, _, rfl⟩ := hstep
    exact .logWrite hpc hfits
  | endOp =>
    simp only [perform, endOp, bind_eq_ok, await_eq_ok, pure_eq_ok] at hstep
    obtain ⟨_, ⟨hpc, hlock⟩, rfl⟩ := hstep
    exact .endOp hpc hlock
  | advance => exact advance_ok hstep
  | kill q =>
    simp only [perform, kill, bind_eq_ok, await_eq_ok, pure_eq_ok] at hstep
    obtain ⟨_, ⟨hpc, hptable⟩, rfl⟩ := hstep
    exact .kill hpc hptable

end LogSystem

end Xv6Kernel
