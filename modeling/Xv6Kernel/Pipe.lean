import Xv6Kernel.RingBuffer
import Xv6Kernel.TraceExecution
import Xv6Kernel.WordBytes
import Mathlib.Data.Multiset.Basic

/-!
# Pipes

One pipe of `pipe.c` shared by any number of processes, with the parts of
`sleep`, `wakeup`, `kill` and `fileclose` that act on it.  A label is one step
of one process.  Every test and every write of `pipe.c` is a step of its own,
so that what protects them is `p->lock` and not the model; `sleep` gives up
`p->lock` while it holds `ptable.lock`, as in the source.

A process inside `sleep` is SLEEPING at `asleep` and RUNNABLE at `woken`.  The
pipe has one `struct file` for each end, and `holders` lists the processes with
a descriptor of it, so that its length is `f->ref`; `pipeclose` is called for
the last one.  `stored` and `delivered` record the bytes that went through and
are read by no step.
-/

namespace Xv6Kernel

open TraceExecution RingBuffer WordBytes

abbrev pipesize : ℕ := 512

inductive PipeChan
  | nread
  | nwrite
  deriving DecidableEq, Repr

/-- The two loops that sleep: `pipewrite` before byte `i`, and `piperead`. -/
inductive PipeLoop
  | write (addr : List Byte) (i : ℕ)
  | read (n : ℕ)
  deriving DecidableEq, Repr

/-- A position in `pipe.c` at which `p->lock` is held. -/
inductive PipeCode
  | test (loop : PipeLoop)
  | writeStore (addr : List Byte) (i : ℕ)
  | writeWake (addr : List Byte) (i : ℕ)
  | writeEnd
  | readCopy (n i : ℕ)
  | readTake (n i : ℕ)
  | readEnd
  | closeSet (writable : Bool)
  | closeWake (writable : Bool)
  | closeTest
  | release
  deriving DecidableEq, Repr

inductive PipePc
  | outside
  | acquire (loop : PipeLoop)
  | acquireClose (writable : Bool)
  | locked (code : PipeCode)
  | sleepPtable (loop : PipeLoop)
  | sleepUnlock (loop : PipeLoop)
  | sleepSched (loop : PipeLoop)
  | asleep (loop : PipeLoop)
  | woken (loop : PipeLoop)
  deriving DecidableEq, Repr

open PipePc

structure PipeSystem (P : Type) where
  lock : Option P
  ptableLock : Option P
  ring : Ring Byte 32 pipesize
  readopen : Bool
  writeopen : Bool
  freed : Bool
  pc : P → PipePc
  killed : P → Bool
  holders : Bool → Multiset P
  stored : List Byte
  delivered : List Byte

inductive PipeAction (P : Type)
  | pipewrite (addr : List Byte)
  | piperead (n : ℕ)
  | share (writable : Bool) (q : P)
  | fileclose (writable : Bool)
  | kill (q : P)
  | advance
  deriving DecidableEq, Repr

def PipeLoop.chan : PipeLoop → PipeChan
  | .write _ _ => .nwrite
  | .read _ => .nread

def PipePc.wake (chan : PipeChan) : PipePc → PipePc
  | .asleep loop => if loop.chan = chan then .woken loop else .asleep loop
  | pc => pc

def PipePc.rouse : PipePc → PipePc
  | .asleep loop => .woken loop
  | pc => pc

variable {P : Type} [DecidableEq P]

namespace PipeSystem

@[simp] def setPc (s : PipeSystem P) (p : P) (pc : PipePc) : PipeSystem P :=
  { s with pc := Function.update s.pc p pc }

/-- `wakeup`, after which the caller stands at `pc`. -/
@[simp] def wakeup (s : PipeSystem P) (p : P) (chan : PipeChan) (pc : PipePc) : PipeSystem P :=
  { s with pc := Function.update (fun q => (s.pc q).wake chan) p pc }

@[simp] def leave (s : PipeSystem P) (p : P) : PipeSystem P :=
  { s.setPc p .outside with lock := none }

def closeEnd (s : PipeSystem P) (writable : Bool) : PipeSystem P :=
  { s with
    writeopen := if writable then false else s.writeopen
    readopen := if writable then s.readopen else false }

def runCode (s : PipeSystem P) (p : P) : PipeCode → Outcome (PipeSystem P)
  | .test (.write addr i) =>
      if i < addr.length then
        if s.ring.Full then
          if s.readopen = false ∨ s.killed p = true then return s.leave p
          else return s.setPc p (.locked (.writeWake addr i))
        else return s.setPc p (.locked (.writeStore addr i))
      else return s.setPc p (.locked .writeEnd)
  | .writeStore addr i =>
      return { s.setPc p (.locked (.test (.write addr (i + 1)))) with
        ring := s.ring.put (addr.getD i 0)
        stored := s.stored ++ [addr.getD i 0] }
  | .writeWake addr i => do
      await (s.ptableLock = none)
      return s.wakeup p .nread (.sleepPtable (.write addr i))
  | .writeEnd => do
      await (s.ptableLock = none)
      return s.wakeup p .nread (.locked .release)
  | .test (.read n) =>
      if s.ring.Empty ∧ s.writeopen = true then
        if s.killed p = true then return s.leave p
        else return s.setPc p (.sleepPtable (.read n))
      else return s.setPc p (.locked (.readCopy n 0))
  | .readCopy n i =>
      if i < n ∧ ¬ s.ring.Empty then
        return s.setPc p (.locked (.readTake n i))
      else return s.setPc p (.locked .readEnd)
  | .readTake n i =>
      return { s.setPc p (.locked (.readCopy n (i + 1))) with
        ring := s.ring.drop
        delivered := s.delivered ++ [s.ring.front] }
  | .readEnd => do
      await (s.ptableLock = none)
      return s.wakeup p .nwrite (.locked .release)
  | .closeSet writable =>
      return (s.closeEnd writable).setPc p (.locked (.closeWake writable))
  | .closeWake writable => do
      await (s.ptableLock = none)
      return s.wakeup p (if writable then .nread else .nwrite)
        (.locked .closeTest)
  | .closeTest =>
      if s.readopen = false ∧ s.writeopen = false then
        return { s.leave p with freed := true }
      else return s.leave p
  | .release => return s.leave p

def advance (s : PipeSystem P) (p : P) : Outcome (PipeSystem P) :=
  match s.pc p with
  | .outside | .asleep _ => blocked
  | .acquire loop => do
      await (s.lock = none)
      return { s.setPc p (.locked (.test loop)) with lock := some p }
  | .acquireClose writable => do
      await (s.lock = none)
      return { s.setPc p (.locked (.closeSet writable)) with lock := some p }
  | .locked code => s.runCode p code
  | .sleepPtable loop => do
      await (s.ptableLock = none)
      return { s.setPc p (.sleepUnlock loop) with ptableLock := some p }
  | .sleepUnlock loop =>
      return { s.setPc p (.sleepSched loop) with lock := none }
  | .sleepSched loop =>
      return { s.setPc p (.asleep loop) with ptableLock := none }
  | .woken loop => do
      await (s.ptableLock = none)
      return s.setPc p (.acquire loop)

@[simp] def addHolder (s : PipeSystem P) (writable : Bool) (q : P) : PipeSystem P :=
  { s with
    holders := Function.update s.holders writable
      (q ::ₘ s.holders writable) }

@[simp] def dropHolder (s : PipeSystem P) (writable : Bool) (q : P) : PipeSystem P :=
  { s with
    holders := Function.update s.holders writable
      ((s.holders writable).erase q) }

def perform (s : PipeSystem P) : P × PipeAction P → Outcome (PipeSystem P)
  | (p, .pipewrite addr) => do
      await (s.pc p = .outside ∧ p ∈ s.holders true)
      return s.setPc p (.acquire (.write addr 0))
  | (p, .piperead n) => do
      await (s.pc p = .outside ∧ p ∈ s.holders false)
      return s.setPc p (.acquire (.read n))
  | (p, .share writable q) => do
      await (s.pc p = .outside ∧ p ∈ s.holders writable)
      return s.addHolder writable q
  | (p, .fileclose writable) => do
      await (s.pc p = .outside ∧ p ∈ s.holders writable)
      if (s.holders writable).erase p = 0 then
        return (s.dropHolder writable p).setPc p (.acquireClose writable)
      else return s.dropHolder writable p
  | (_, .kill q) => do
      await (s.ptableLock = none)
      return { s.setPc q (s.pc q).rouse with
        killed := Function.update s.killed q true }
  | (p, .advance) => s.advance p

def step : PipeSystem P → P × PipeAction P → Option (PipeSystem P) :=
  stepOf perform

/-- The pipe that `pipealloc` has made for a process, in a page with arbitrary
contents. -/
def initial (creator : P) (data : Fin pipesize → Byte) : PipeSystem P where
  lock := none
  ptableLock := none
  ring := ⟨data, 0, 0⟩
  readopen := true
  writeopen := true
  freed := false
  pc := fun _ => .outside
  killed := fun _ => false
  holders := fun _ => {creator}
  stored := []
  delivered := []

/-! ## What one step can do -/

/-- The steps with `p->lock` held. -/
inductive CodeOk (s : PipeSystem P) (p : P) :
    PipeCode → PipeSystem P → Prop
  | giveUp {addr : List Byte} {i : ℕ} (hmore : i < addr.length)
      (hfull : s.ring.Full) (hquit : s.readopen = false ∨ s.killed p = true) :
      CodeOk s p (.test (.write addr i)) (s.leave p)
  | full {addr : List Byte} {i : ℕ} (hfull : s.ring.Full)
      (hopen : s.readopen = true) :
      CodeOk s p (.test (.write addr i))
        (s.setPc p (.locked (.writeWake addr i)))
  | room {addr : List Byte} {i : ℕ} (hfull : ¬ s.ring.Full) :
      CodeOk s p (.test (.write addr i))
        (s.setPc p (.locked (.writeStore addr i)))
  | written {addr : List Byte} {i : ℕ} :
      CodeOk s p (.test (.write addr i)) (s.setPc p (.locked .writeEnd))
  | writeStore {addr : List Byte} {i : ℕ} :
      CodeOk s p (.writeStore addr i)
        { s.setPc p (.locked (.test (.write addr (i + 1)))) with
          ring := s.ring.put (addr.getD i 0)
          stored := s.stored ++ [addr.getD i 0] }
  | writeWake {addr : List Byte} {i : ℕ} (hptable : s.ptableLock = none) :
      CodeOk s p (.writeWake addr i)
        (s.wakeup p .nread (.sleepPtable (.write addr i)))
  | writeEnd (hptable : s.ptableLock = none) :
      CodeOk s p .writeEnd (s.wakeup p .nread (.locked .release))
  | readKilled {n : ℕ} : CodeOk s p (.test (.read n)) (s.leave p)
  | readSleep {n : ℕ} (hempty : s.ring.Empty) (hopen : s.writeopen = true) :
      CodeOk s p (.test (.read n)) (s.setPc p (.sleepPtable (.read n)))
  | readReady {n : ℕ} :
      CodeOk s p (.test (.read n)) (s.setPc p (.locked (.readCopy n 0)))
  | readMore {n i : ℕ} (hempty : ¬ s.ring.Empty) :
      CodeOk s p (.readCopy n i) (s.setPc p (.locked (.readTake n i)))
  | readDone {n i : ℕ} :
      CodeOk s p (.readCopy n i) (s.setPc p (.locked .readEnd))
  | readTake {n i : ℕ} :
      CodeOk s p (.readTake n i)
        { s.setPc p (.locked (.readCopy n (i + 1))) with
          ring := s.ring.drop
          delivered := s.delivered ++ [s.ring.front] }
  | readEnd (hptable : s.ptableLock = none) :
      CodeOk s p .readEnd (s.wakeup p .nwrite (.locked .release))
  | closeSet {writable : Bool} :
      CodeOk s p (.closeSet writable)
        ((s.closeEnd writable).setPc p (.locked (.closeWake writable)))
  | closeWake {writable : Bool} (hptable : s.ptableLock = none) :
      CodeOk s p (.closeWake writable)
        (s.wakeup p (if writable then .nread else .nwrite)
          (.locked .closeTest))
  | closeFree (hread : s.readopen = false) (hwrite : s.writeopen = false) :
      CodeOk s p .closeTest { s.leave p with freed := true }
  | closeKeep : CodeOk s p .closeTest (s.leave p)
  | release : CodeOk s p .release (s.leave p)

inductive StepOk (s : PipeSystem P) (p : P) :
    PipeAction P → PipeSystem P → Prop
  | pipewrite {addr : List Byte} (hpc : s.pc p = .outside)
      (hholds : p ∈ s.holders true) :
      StepOk s p (.pipewrite addr) (s.setPc p (.acquire (.write addr 0)))
  | piperead {n : ℕ} (hpc : s.pc p = .outside)
      (hholds : p ∈ s.holders false) :
      StepOk s p (.piperead n) (s.setPc p (.acquire (.read n)))
  | share {writable : Bool} {q : P} (hholds : p ∈ s.holders writable) :
      StepOk s p (.share writable q) (s.addHolder writable q)
  | closeLast {writable : Bool} (hpc : s.pc p = .outside)
      (hlast : (s.holders writable).erase p = 0) :
      StepOk s p (.fileclose writable)
        ((s.dropHolder writable p).setPc p (.acquireClose writable))
  | closeOther {writable : Bool} (hpc : s.pc p = .outside) :
      StepOk s p (.fileclose writable) (s.dropHolder writable p)
  | kill {q : P} :
      StepOk s p (.kill q)
        { s.setPc q (s.pc q).rouse with
          killed := Function.update s.killed q true }
  | acquire {loop : PipeLoop} (hpc : s.pc p = .acquire loop)
      (hlock : s.lock = none) :
      StepOk s p .advance
        { s.setPc p (.locked (.test loop)) with lock := some p }
  | acquireClose {writable : Bool} (hpc : s.pc p = .acquireClose writable)
      (hlock : s.lock = none) :
      StepOk s p .advance
        { s.setPc p (.locked (.closeSet writable)) with lock := some p }
  | code {code : PipeCode} {t : PipeSystem P} (hpc : s.pc p = .locked code)
      (hcode : CodeOk s p code t) : StepOk s p .advance t
  | sleepPtable {loop : PipeLoop} (hpc : s.pc p = .sleepPtable loop)
      (hptable : s.ptableLock = none) :
      StepOk s p .advance
        { s.setPc p (.sleepUnlock loop) with ptableLock := some p }
  | sleepUnlock {loop : PipeLoop} (hpc : s.pc p = .sleepUnlock loop) :
      StepOk s p .advance { s.setPc p (.sleepSched loop) with lock := none }
  | sleepSched {loop : PipeLoop} (hpc : s.pc p = .sleepSched loop) :
      StepOk s p .advance { s.setPc p (.asleep loop) with ptableLock := none }
  | woken {loop : PipeLoop} (hpc : s.pc p = .woken loop) :
      StepOk s p .advance (s.setPc p (.acquire loop))

variable {s t : PipeSystem P} {p : P}

private theorem test_ok {loop : PipeLoop}
    (hok : s.runCode p (.test loop) = .ok t) : CodeOk s p (.test loop) t := by
  cases loop with
  | write addr i =>
    simp only [runCode] at hok
    split at hok
    next hmore =>
      split at hok
      next hfull =>
        split at hok
        next hquit =>
          obtain rfl := pure_eq_ok.mp hok
          exact .giveUp hmore hfull hquit
        next hquit =>
          obtain rfl := pure_eq_ok.mp hok
          rw [not_or, Bool.not_eq_false] at hquit
          exact .full hfull hquit.1
      next hfull =>
        obtain rfl := pure_eq_ok.mp hok
        exact .room hfull
    · obtain rfl := pure_eq_ok.mp hok
      exact .written
  | read n =>
    simp only [runCode] at hok
    split at hok
    next hwait =>
      split at hok
      · obtain rfl := pure_eq_ok.mp hok
        exact .readKilled
      · obtain rfl := pure_eq_ok.mp hok
        exact .readSleep hwait.1 hwait.2
    · obtain rfl := pure_eq_ok.mp hok
      exact .readReady

private theorem runCode_ok {code : PipeCode} (hok : s.runCode p code = .ok t) :
    CodeOk s p code t := by
  cases code with
  | test loop => exact test_ok hok
  | writeStore addr i =>
    simp only [runCode, pure_eq_ok] at hok
    exact hok ▸ .writeStore
  | writeWake addr i =>
    simp only [runCode, bind_eq_ok, await_eq_ok, pure_eq_ok] at hok
    obtain ⟨_, hptable, rfl⟩ := hok
    exact .writeWake hptable
  | writeEnd =>
    simp only [runCode, bind_eq_ok, await_eq_ok, pure_eq_ok] at hok
    obtain ⟨_, hptable, rfl⟩ := hok
    exact .writeEnd hptable
  | readCopy n i =>
    simp only [runCode] at hok
    split at hok
    next hmore =>
      obtain rfl := pure_eq_ok.mp hok
      exact .readMore hmore.2
    · obtain rfl := pure_eq_ok.mp hok
      exact .readDone
  | readTake n i =>
    simp only [runCode, pure_eq_ok] at hok
    exact hok ▸ .readTake
  | readEnd =>
    simp only [runCode, bind_eq_ok, await_eq_ok, pure_eq_ok] at hok
    obtain ⟨_, hptable, rfl⟩ := hok
    exact .readEnd hptable
  | closeSet writable =>
    simp only [runCode, pure_eq_ok] at hok
    exact hok ▸ .closeSet
  | closeWake writable =>
    simp only [runCode, bind_eq_ok, await_eq_ok, pure_eq_ok] at hok
    obtain ⟨_, hptable, rfl⟩ := hok
    exact .closeWake hptable
  | closeTest =>
    simp only [runCode] at hok
    split at hok
    next hclosed =>
      obtain rfl := pure_eq_ok.mp hok
      exact .closeFree hclosed.1 hclosed.2
    · obtain rfl := pure_eq_ok.mp hok
      exact .closeKeep
  | release =>
    simp only [runCode, pure_eq_ok] at hok
    exact hok ▸ .release

private theorem advance_ok (hok : s.advance p = .ok t) : StepOk s p .advance t := by
  unfold advance at hok
  cases hpc : s.pc p with
  | outside | asleep => simp [hpc] at hok
  | acquire loop =>
    simp only [hpc, bind_eq_ok, await_eq_ok, pure_eq_ok] at hok
    obtain ⟨_, hlock, rfl⟩ := hok
    exact .acquire hpc hlock
  | acquireClose writable =>
    simp only [hpc, bind_eq_ok, await_eq_ok, pure_eq_ok] at hok
    obtain ⟨_, hlock, rfl⟩ := hok
    exact .acquireClose hpc hlock
  | locked code =>
    simp only [hpc] at hok
    exact .code hpc (runCode_ok hok)
  | sleepPtable loop =>
    simp only [hpc, bind_eq_ok, await_eq_ok, pure_eq_ok] at hok
    obtain ⟨_, hptable, rfl⟩ := hok
    exact .sleepPtable hpc hptable
  | sleepUnlock loop =>
    simp only [hpc, pure_eq_ok] at hok
    exact hok ▸ .sleepUnlock hpc
  | sleepSched loop =>
    simp only [hpc, pure_eq_ok] at hok
    exact hok ▸ .sleepSched hpc
  | woken loop =>
    simp only [hpc, bind_eq_ok, await_eq_ok, pure_eq_ok] at hok
    obtain ⟨_, _, rfl⟩ := hok
    exact .woken hpc

theorem step_ok {action : PipeAction P} (hstep : step s (p, action) = some t) :
    StepOk s p action t := by
  unfold step at hstep
  rw [stepOf_eq_some] at hstep
  cases action with
  | pipewrite addr =>
    simp only [perform, bind_eq_ok, await_eq_ok, pure_eq_ok] at hstep
    obtain ⟨_, ⟨hpc, hholds⟩, rfl⟩ := hstep
    exact .pipewrite hpc hholds
  | piperead n =>
    simp only [perform, bind_eq_ok, await_eq_ok, pure_eq_ok] at hstep
    obtain ⟨_, ⟨hpc, hholds⟩, rfl⟩ := hstep
    exact .piperead hpc hholds
  | share writable q =>
    simp only [perform, bind_eq_ok, await_eq_ok, pure_eq_ok] at hstep
    obtain ⟨_, ⟨_, hholds⟩, rfl⟩ := hstep
    exact .share hholds
  | fileclose writable =>
    simp only [perform, bind_eq_ok, await_eq_ok] at hstep
    obtain ⟨_, ⟨hpc, _⟩, hrest⟩ := hstep
    split at hrest
    next hlast =>
      obtain rfl := pure_eq_ok.mp hrest
      exact .closeLast hpc hlast
    · obtain rfl := pure_eq_ok.mp hrest
      exact .closeOther hpc
  | kill q =>
    simp only [perform, bind_eq_ok, await_eq_ok, pure_eq_ok] at hstep
    obtain ⟨_, _, rfl⟩ := hstep
    exact .kill
  | advance => exact advance_ok hstep

/-! ## Who holds the locks -/

end PipeSystem

def PipePc.HoldsLock : PipePc → Prop
  | .locked _ | .sleepPtable _ | .sleepUnlock _ => True
  | _ => False

def PipePc.HoldsPtable : PipePc → Prop
  | .sleepUnlock _ | .sleepSched _ => True
  | _ => False

@[simp] theorem PipePc.wake_holdsLock (pc : PipePc) (chan : PipeChan) :
    (pc.wake chan).HoldsLock ↔ pc.HoldsLock := by
  cases pc <;> simp only [wake]
  split <;> rfl

@[simp] theorem PipePc.wake_holdsPtable (pc : PipePc) (chan : PipeChan) :
    (pc.wake chan).HoldsPtable ↔ pc.HoldsPtable := by
  cases pc <;> simp only [wake]
  split <;> rfl

@[simp] theorem PipePc.rouse_holdsLock (pc : PipePc) : pc.rouse.HoldsLock ↔ pc.HoldsLock := by
  cases pc <;> rfl

@[simp] theorem PipePc.rouse_holdsPtable (pc : PipePc) : pc.rouse.HoldsPtable ↔ pc.HoldsPtable := by
  cases pc <;> rfl

namespace PipeSystem

variable {s t : PipeSystem P} {p q : P} {action : PipeAction P}

/-- The lock fields name the process at a position that holds the lock. -/
structure LockInvariant (s : PipeSystem P) : Prop where
  lock : Owned s.lock fun p => (s.pc p).HoldsLock
  ptable : Owned s.ptableLock fun p => (s.pc p).HoldsPtable

omit [DecidableEq P] in
theorem lockInvariant_initial (creator : P) (data : Fin pipesize → Byte) :
    (initial creator data).LockInvariant := by
  constructor
  · intro p
    simp [initial, PipePc.HoldsLock]
  · intro p
    simp [initial, PipePc.HoldsPtable]

theorem CodeOk.others {code : PipeCode} (hcode : CodeOk s p code t) (hne : q ≠ p) :
    t.pc q = s.pc q ∨ ∃ chan, t.pc q = (s.pc q).wake chan := by
  cases hcode
  case writeWake | writeEnd => exact Or.inr ⟨.nread, by simp [hne]⟩
  case readEnd => exact Or.inr ⟨.nwrite, by simp [hne]⟩
  case closeWake writable _ =>
    exact Or.inr ⟨if writable then .nread else .nwrite, by simp [hne]⟩
  all_goals exact Or.inl (by simp [hne, closeEnd])

theorem CodeOk.actor {code : PipeCode} (hcode : CodeOk s p code t) :
    t.ptableLock = s.ptableLock ∧ ¬ (t.pc p).HoldsPtable ∧
      ((t.lock = s.lock ∧ (t.pc p).HoldsLock) ∨
        (t.lock = none ∧ ¬ (t.pc p).HoldsLock)) := by
  cases hcode <;> simp [PipePc.HoldsPtable, PipePc.HoldsLock, closeEnd]

private theorem LockInvariant.code (hs : s.LockInvariant) {code : PipeCode}
    (hpc : s.pc p = .locked code) (hcode : CodeOk s p code t) : t.LockInvariant := by
  obtain ⟨htable, hfree, hactor⟩ := hcode.actor
  have hlock : ∀ q, q ≠ p → ((t.pc q).HoldsLock ↔ (s.pc q).HoldsLock) := by
    intro q hne
    rcases hcode.others hne with heq | ⟨chan, heq⟩
    · rw [heq]
    · rw [heq, wake_holdsLock]
  have hptable : ∀ q, q ≠ p →
      ((t.pc q).HoldsPtable ↔ (s.pc q).HoldsPtable) := by
    intro q hne
    rcases hcode.others hne with heq | ⟨chan, heq⟩
    · rw [heq]
    · rw [heq, wake_holdsPtable]
  have hholds : (s.pc p).HoldsLock := by
    rw [hpc]
    trivial
  have hother : ¬ (s.pc p).HoldsPtable := by
    rw [hpc]
    exact id
  constructor
  · rcases hactor with ⟨heq, hkeep⟩ | ⟨heq, hleave⟩
    · rw [heq]
      exact hs.lock.keep (iff_of_true hkeep hholds) hlock
    · rw [heq]
      exact hs.lock.release hholds hleave hlock
  · rw [htable]
    exact hs.ptable.keep (iff_of_false hfree hother) hptable

private theorem update_holds {holds : PipePc → Prop} {pc : PipePc}
    (hne : q ≠ p) : holds (Function.update s.pc p pc q) ↔ holds (s.pc q) := by
  rw [Function.update_of_ne hne]

private theorem LockInvariant.move (hs : s.LockInvariant) (pc : PipePc)
    (hlock : pc.HoldsLock ↔ (s.pc p).HoldsLock) (hptable : pc.HoldsPtable ↔ (s.pc p).HoldsPtable) :
    (s.setPc p pc).LockInvariant := by
  constructor
  · exact hs.lock.keep (by simpa using hlock) fun q hne => update_holds hne
  · exact hs.ptable.keep (by simpa using hptable) fun q hne => update_holds hne

theorem LockInvariant.step (hs : s.LockInvariant)
    (hstep : StepOk s p action t) : t.LockInvariant := by
  cases hstep
  case code hpc hcode => exact hs.code hpc hcode
  case pipewrite hpc _ | piperead hpc _ | woken hpc =>
    exact hs.move _ (by rw [hpc]; rfl) (by rw [hpc]; rfl)
  case share | closeOther => exact ⟨hs.lock, hs.ptable⟩
  case closeLast writable hpc _ =>
    have hmove := hs.move (p := p) (.acquireClose writable) (by rw [hpc]; rfl) (by rw [hpc]; rfl)
    exact ⟨hmove.lock, hmove.ptable⟩
  case kill q =>
    have hmove := hs.move (p := q) (s.pc q).rouse (rouse_holdsLock _) (rouse_holdsPtable _)
    exact ⟨hmove.lock, hmove.ptable⟩
  case acquire hpc hfree | acquireClose hpc hfree =>
    constructor
    · exact (hfree ▸ hs.lock).take (by simp [PipePc.HoldsLock]) fun q hne => update_holds hne
    · exact hs.ptable.keep (by simp [hpc, PipePc.HoldsPtable]) fun q hne => update_holds hne
  case sleepPtable loop hpc hfree =>
    constructor
    · exact hs.lock.keep (by simp [hpc, PipePc.HoldsLock]) fun q hne => update_holds hne
    · exact (hfree ▸ hs.ptable).take (by simp [PipePc.HoldsPtable]) fun q hne => update_holds hne
  case sleepUnlock loop hpc =>
    constructor
    · exact hs.lock.release (by simp [hpc, PipePc.HoldsLock])
        (by simp [PipePc.HoldsLock]) fun q hne => update_holds hne
    · exact hs.ptable.keep (by simp [hpc, PipePc.HoldsPtable]) fun q hne => update_holds hne
  case sleepSched loop hpc =>
    constructor
    · exact hs.lock.keep (by simp [hpc, PipePc.HoldsLock]) fun q hne => update_holds hne
    · exact hs.ptable.release (by simp [hpc, PipePc.HoldsPtable])
        (by simp [PipePc.HoldsPtable]) fun q hne => update_holds hne

omit [DecidableEq P] in
theorem LockInvariant.owner (hs : s.LockInvariant) {code : PipeCode}
    (hpc : s.pc p = .locked code) : s.lock = some p := by
  apply (hs.lock p).mpr
  rw [hpc]
  trivial

omit [DecidableEq P] in
theorem LockInvariant.unique (hs : s.LockInvariant)
    (hp : (s.pc p).HoldsLock) (hq : (s.pc q).HoldsLock) : q = p := by
  have hlock := (hs.lock p).mpr hp
  rw [(hs.lock q).mpr hq] at hlock
  exact Option.some.inj hlock

end PipeSystem

def PipeCode.Entry : PipeCode → Prop
  | .test _ | .closeSet _ => True
  | _ => False

def PipePc.awaits : PipePc → Option PipeChan
  | .sleepPtable loop | .sleepUnlock loop | .sleepSched loop | .asleep loop =>
      some loop.chan
  | .locked (.writeWake _ _) => some .nwrite
  | _ => none

theorem PipePc.rouse_eq_locked {pc : PipePc} {code : PipeCode} :
    pc.rouse = .locked code ↔ pc = .locked code := by
  cases pc <;> simp [rouse]

theorem PipePc.awaits_of_rouse {pc : PipePc} {chan : PipeChan}
    (hrouse : pc.rouse.awaits = some chan) : pc.awaits = some chan := by
  cases pc
  case asleep => cases hrouse
  all_goals exact hrouse

theorem PipePc.awaits_of_wake {pc : PipePc} {chan woken : PipeChan}
    (hwake : (pc.wake woken).awaits = some chan) : pc.awaits = some chan := by
  cases pc
  case asleep loop =>
    simp only [wake] at hwake
    split at hwake
    · cases hwake
    · exact hwake
  all_goals exact hwake

namespace PipeSystem

variable {s t : PipeSystem P} {p : P}

/-- A step without `p->lock` changes nothing of the pipe, puts a process in
`pipe.c` at most at an entry, and makes no process wait that did not. -/
structure Quiet (s t : PipeSystem P) : Prop where
  ring : t.ring = s.ring
  readopen : t.readopen = s.readopen
  writeopen : t.writeopen = s.writeopen
  stored : t.stored = s.stored
  delivered : t.delivered = s.delivered
  arrives : ∀ q code, t.pc q = .locked code →
    s.pc q = .locked code ∨ code.Entry
  stays : ∀ q code, s.pc q = .locked code → t.pc q = .locked code
  awaits : ∀ q chan, (t.pc q).awaits = some chan →
    (s.pc q).awaits = some chan

private theorem quiet_of_move {pc : PipePc}
    (harrives : ∀ code, pc = .locked code → s.pc p = .locked code ∨ code.Entry)
    (hstays : ∀ code, s.pc p = .locked code → pc = .locked code)
    (hawaits : ∀ chan, pc.awaits = some chan → (s.pc p).awaits = some chan)
    (lock ptableLock : Option P) (killed : P → Bool)
    (holders : Bool → Multiset P) :
    Quiet s { s.setPc p pc with
      lock := lock
      ptableLock := ptableLock
      killed := killed
      holders := holders } := by
  refine ⟨rfl, rfl, rfl, rfl, rfl, ?_, ?_, ?_⟩
  · intro q code hq
    by_cases hne : q = p
    · subst q
      exact harrives code (by simpa using hq)
    · exact Or.inl (by simpa [hne] using hq)
  · intro q code hq
    by_cases hne : q = p
    · subst q
      simpa using hstays code hq
    · simpa [hne] using hq
  · intro q chan hq
    by_cases hne : q = p
    · subst q
      exact hawaits chan (by simpa using hq)
    · simpa [hne] using hq

theorem StepOk.quiet {action : PipeAction P} (hstep : StepOk s p action t) :
    Quiet s t ∨ (action = .advance ∧
      ∃ code, s.pc p = .locked code ∧ CodeOk s p code t) := by
  cases hstep
  case code code hpc hcode => exact Or.inr ⟨rfl, code, hpc, hcode⟩
  case share | closeOther =>
    exact Or.inl ⟨rfl, rfl, rfl, rfl, rfl, fun q code hq => Or.inl hq,
      fun q code hq => hq, fun q chan hq => hq⟩
  case kill q =>
    refine Or.inl (quiet_of_move ?_ ?_ ?_ _ _ _ _)
    · exact fun code hq => Or.inl (rouse_eq_locked.mp hq)
    · exact fun code hq => rouse_eq_locked.mpr hq
    · exact fun chan hq => awaits_of_rouse hq
  all_goals
    refine Or.inl (quiet_of_move ?_ ?_ ?_ _ _ _ _)
    all_goals simp [*, PipeCode.Entry, awaits]

end PipeSystem

end Xv6Kernel
