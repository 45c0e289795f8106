import Xv6Kernel.ProcTable
import Xv6Kernel.TraceExecution

/-!
# `sleep` and `wakeup`, statement by statement

`ProcSystem` treats a critical section on `ptable.lock` as one step.  Here
every statement of `sleep`, `wakeup1` and `kill` is a step of its own, and the
code that calls them is a parameter: a `Program` says, for a position in the
code and the contents of the memory, what a thread does next.

A spinlock belongs to a CPU, and the CPU runs with interrupts off while it
has one.  So the owner of a lock is recorded as the thread of control that
runs on the CPU: the kernel thread of a process, the scheduler thread of the
CPU, or an interrupt handler.  `ptable.lock` is the only lock that passes from
one to another, in `sched` and in the scheduler.

The scheduler may pick any RUNNABLE process.  The number of slots of the
process table, of CPUs, of spinlocks and of addresses that serve as channels
is arbitrary.  `wait` is the one caller that passes `&ptable.lock` to `sleep`,
and is left to `ProcSystem`.
-/

namespace Xv6Kernel

open TraceExecution

/-- The fields of `struct proc` that take part. -/
structure Task (A : Type) where
  state : ProcState
  chan : Option A
  killed : Bool
  pid : ℤ
  deriving DecidableEq, Repr

/-- A thread of control. -/
inductive Actor (n : ℕ) (C : Type)
  | proc (p : Fin n)
  | sched (c : C)
  | intr (c : C)
  deriving DecidableEq, Repr

/-- What a CPU runs, apart from interrupts: its scheduler thread, in front of
`acquire(&ptable.lock)` or in the loop over the table, or the kernel thread of a
process. -/
inductive CpuPc (n : ℕ)
  | start
  | scan
  | running (p : Fin n)
  deriving DecidableEq, Repr

/-- The next statement of `sleep`. -/
inductive SleepStage
  | acquire
  | release
  | setChan
  | setState
  | sched
  | swtch
  | unlock
  | relock
  deriving DecidableEq, Repr

/-- The next statement of `wakeup` or `kill`; the argument of `scan` is the loop
variable. -/
inductive ScanStage
  | acquire
  | scan (i : ℕ)
  | release
  deriving DecidableEq, Repr

/-- A position in the code: in the code `K` of the caller, or in one of the
functions here, which then returns to `next`. -/
inductive CodePc (A L K : Type)
  | code (k : K)
  | sleeping (stage : SleepStage) (chan : A) (lk : L) (next : K)
  | waking (stage : ScanStage) (chan : A) (next : K)
  | killing (stage : ScanStage) (pid : ℤ) (next : K)
  deriving DecidableEq, Repr

/-- What the code of a caller does at one of its positions. -/
inductive CodeAct (A L K M : Type)
  | acquire (lk : L) (next : K)
  | release (lk : L) (next : K)
  | sleep (chan : A) (lk : L) (next : K)
  | wakeup (chan : A) (next : K)
  | kill (pid : ℤ) (next : K)
  | store (mem : M) (next : K)
  | iret

/-- The code around `sleep` and `wakeup`: what a thread does at a position,
given `myproc()` if it is the thread of a process; the interrupts that
may arrive, and where their handler begins; and what devices do on their own.
The inputs `I` stand for all that is decided elsewhere. -/
structure Program (A L K M I : Type) where
  code : Option (Task A) → I → K → M → Outcome (CodeAct A L K M)
  interrupt : I → M → Outcome (M × K)
  device : I → M → Outcome M

structure SleepMachine (n : ℕ) (C A L K M : Type) where
  proc : Fin n → Task A
  ptable : Option (Actor n C)
  spin : L → Option (Actor n C)
  ncli : C → ℤ
  cpu : C → CpuPc n
  inIntr : C → Bool
  inYield : Fin n → Bool
  pc : Actor n C → CodePc A L K
  mem : M

inductive SleepMove (n : ℕ) (I : Type)
  | schedAcquire
  | dispatch (p : Fin n)
  | schedRelease
  | yield
  | yieldReturn
  | interrupt (i : I)
  | device (i : I)
  | run (i : I)
  deriving DecidableEq, Repr

def Task.wake {A : Type} [DecidableEq A] (chan : A) (task : Task A) : Task A :=
  if task.state = .sleeping ∧ task.chan = some chan then
    { task with state := .runnable }
  else task

def Task.kill {A : Type} (task : Task A) : Task A :=
  { task with
    killed := true
    state := if task.state = .sleeping then .runnable else task.state }

def CodePc.home {A L K : Type} : CodePc A L K → K
  | .code k => k
  | .sleeping _ _ _ next => next
  | .waking _ _ next => next
  | .killing _ _ next => next

def CodeAct.target {A L K M : Type} (k : K) : CodeAct A L K M → K
  | .acquire _ next => next
  | .release _ next => next
  | .sleep _ _ next => next
  | .wakeup _ next => next
  | .kill _ next => next
  | .store _ next => next
  | .iret => k

def CodeAct.result {A L K M : Type} (mem : M) : CodeAct A L K M → M
  | .store mem' _ => mem'
  | _ => mem

namespace SleepMachine

variable {n : ℕ} {C A L K M I : Type}
variable [DecidableEq C] [DecidableEq A] [DecidableEq L]

@[simp] def setTask (s : SleepMachine n C A L K M) (p : Fin n)
    (task : Task A) : SleepMachine n C A L K M :=
  { s with proc := Function.update s.proc p task }

@[simp] def setCpu (s : SleepMachine n C A L K M) (c : C) (pc : CpuPc n) :
    SleepMachine n C A L K M :=
  { s with cpu := Function.update s.cpu c pc }

@[simp] def setPc (s : SleepMachine n C A L K M) (a : Actor n C)
    (pc : CodePc A L K) : SleepMachine n C A L K M :=
  { s with pc := Function.update s.pc a pc }

@[simp] def setYield (s : SleepMachine n C A L K M) (p : Fin n)
    (inYield : Bool) : SleepMachine n C A L K M :=
  { s with inYield := Function.update s.inYield p inYield }

@[simp] def setIntr (s : SleepMachine n C A L K M) (c : C) (inIntr : Bool) :
    SleepMachine n C A L K M :=
  { s with inIntr := Function.update s.inIntr c inIntr }

@[simp] def setPtable (s : SleepMachine n C A L K M) (c : C)
    (owner : Option (Actor n C)) (d : ℤ) : SleepMachine n C A L K M :=
  { s with
    ptable := owner
    ncli := Function.update s.ncli c (s.ncli c + d) }

@[simp] def setSpin (s : SleepMachine n C A L K M) (c : C) (lk : L)
    (owner : Option (Actor n C)) (d : ℤ) : SleepMachine n C A L K M :=
  { s with
    spin := Function.update s.spin lk owner
    ncli := Function.update s.ncli c (s.ncli c + d) }

/-- `acquire(&ptable.lock)` by the thread `a` on the CPU `c`. -/
def acquirePtable (s : SleepMachine n C A L K M) (c : C) (a : Actor n C) :
    Outcome (SleepMachine n C A L K M) := do
  ensure (s.ptable ≠ some a) "acquire"
  await (s.ptable = none)
  return s.setPtable c (some a) 1

def releasePtable (s : SleepMachine n C A L K M) (c : C) (a : Actor n C) :
    Outcome (SleepMachine n C A L K M) := do
  ensure (s.ptable = some a) "release"
  return s.setPtable c none (-1)

def acquireSpin (s : SleepMachine n C A L K M) (c : C) (a : Actor n C)
    (lk : L) : Outcome (SleepMachine n C A L K M) := do
  ensure (s.spin lk ≠ some a) "acquire"
  await (s.spin lk = none)
  return s.setSpin c lk (some a) 1

def releaseSpin (s : SleepMachine n C A L K M) (c : C) (a : Actor n C)
    (lk : L) : Outcome (SleepMachine n C A L K M) := do
  ensure (s.spin lk = some a) "release"
  return s.setSpin c lk none (-1)

/-- `sched` called by the thread of `p`: `swtch` hands the CPU, and with it
`ptable.lock`, to the scheduler thread. -/
def enterSched (s : SleepMachine n C A L K M) (c : C) (p : Fin n) :
    Outcome (SleepMachine n C A L K M) := do
  ensure (s.ptable = some (.proc p)) "sched ptable.lock"
  ensure (s.ncli c = 1) "sched locks"
  ensure ((s.proc p).state ≠ .running) "sched running"
  return (s.setPtable c (some (.sched c)) 0).setCpu c .scan

def schedAcquire (s : SleepMachine n C A L K M) (c : C) :
    Outcome (SleepMachine n C A L K M) := do
  await (s.cpu c = .start ∧ s.inIntr c = false)
  let s ← s.acquirePtable c (.sched c)
  return s.setCpu c .scan

def dispatch (s : SleepMachine n C A L K M) (c : C) (p : Fin n) :
    Outcome (SleepMachine n C A L K M) := do
  await (s.cpu c = .scan ∧ (s.proc p).state = .runnable)
  return ((s.setTask p { s.proc p with state := .running }).setPtable c
    (some (.proc p)) 0).setCpu c (.running p)

def schedRelease (s : SleepMachine n C A L K M) (c : C) :
    Outcome (SleepMachine n C A L K M) := do
  await (s.cpu c = .scan)
  let s ← s.releasePtable c (.sched c)
  return s.setCpu c .start

def current (s : SleepMachine n C A L K M) (c : C) : Option (Fin n) :=
  match s.inIntr c, s.cpu c with
  | false, .running p => some p
  | _, _ => none

/-- The tail of `trap` on a clock tick, up to `swtch`. -/
def yield (s : SleepMachine n C A L K M) (c : C) :
    Outcome (SleepMachine n C A L K M) := do
  let p ← awaitSome (s.current c)
  await (s.ncli c = 0 ∧ s.inYield p = false ∧ (s.proc p).state = .running)
  let s ← s.acquirePtable c (.proc p)
  ((s.setTask p { s.proc p with state := .runnable }).setYield p true
    ).enterSched c p

/-- The `release` behind `sched` in `yield`, or the one in `forkret`. -/
def yieldReturn (s : SleepMachine n C A L K M) (c : C) :
    Outcome (SleepMachine n C A L K M) := do
  let p ← awaitSome (s.current c)
  await (s.inYield p = true)
  let s ← s.releasePtable c (.proc p)
  return s.setYield p false

def interrupt (program : Program A L K M I) (s : SleepMachine n C A L K M)
    (c : C) (i : I) : Outcome (SleepMachine n C A L K M) := do
  await (s.inIntr c = false ∧ s.ncli c = 0)
  let (mem, k) ← program.interrupt i s.mem
  return { (s.setIntr c true).setPc (.intr c) (.code k) with mem := mem }

def device (program : Program A L K M I) (s : SleepMachine n C A L K M)
    (i : I) : Outcome (SleepMachine n C A L K M) := do
  let mem ← program.device i s.mem
  return { s with mem := mem }

def runSleep (s : SleepMachine n C A L K M) (c : C) (p : Fin n)
    (chan : A) (lk : L) (next : K) :
    SleepStage → Outcome (SleepMachine n C A L K M)
  | .acquire => do
      let s ← s.acquirePtable c (.proc p)
      return s.setPc (.proc p) (.sleeping .release chan lk next)
  | .release => do
      let s ← s.releaseSpin c (.proc p) lk
      return s.setPc (.proc p) (.sleeping .setChan chan lk next)
  | .setChan =>
      return (s.setTask p { s.proc p with chan := some chan }).setPc (.proc p)
        (.sleeping .setState chan lk next)
  | .setState =>
      return (s.setTask p { s.proc p with state := .sleeping }).setPc (.proc p)
        (.sleeping .sched chan lk next)
  | .sched => do
      let s ← s.enterSched c p
      return s.setPc (.proc p) (.sleeping .swtch chan lk next)
  | .swtch =>
      return (s.setTask p { s.proc p with chan := none }).setPc (.proc p)
        (.sleeping .unlock chan lk next)
  | .unlock => do
      let s ← s.releasePtable c (.proc p)
      return s.setPc (.proc p) (.sleeping .relock chan lk next)
  | .relock => do
      let s ← s.acquireSpin c (.proc p) lk
      return s.setPc (.proc p) (.code next)

def runWakeup (s : SleepMachine n C A L K M) (c : C) (a : Actor n C)
    (chan : A) (next : K) : ScanStage → Outcome (SleepMachine n C A L K M)
  | .acquire => do
      let s ← s.acquirePtable c a
      return s.setPc a (.waking (.scan 0) chan next)
  | .scan i =>
      if h : i < n then
        return (s.setTask ⟨i, h⟩ ((s.proc ⟨i, h⟩).wake chan)).setPc a
          (.waking (.scan (i + 1)) chan next)
      else
        return s.setPc a (.waking .release chan next)
  | .release => do
      let s ← s.releasePtable c a
      return s.setPc a (.code next)

def runKill (s : SleepMachine n C A L K M) (c : C) (a : Actor n C)
    (pid : ℤ) (next : K) : ScanStage → Outcome (SleepMachine n C A L K M)
  | .acquire => do
      let s ← s.acquirePtable c a
      return s.setPc a (.killing (.scan 0) pid next)
  | .scan i =>
      if h : i < n then
        if (s.proc ⟨i, h⟩).pid = pid then
          return (s.setTask ⟨i, h⟩ (s.proc ⟨i, h⟩).kill).setPc a
            (.killing .release pid next)
        else
          return s.setPc a (.killing (.scan (i + 1)) pid next)
      else
        return s.setPc a (.killing .release pid next)
  | .release => do
      let s ← s.releasePtable c a
      return s.setPc a (.code next)

/-- The thread of control that runs on a CPU, outside of the scheduler and of
`yield`. -/
def actor (s : SleepMachine n C A L K M) (c : C) : Option (Actor n C) :=
  match s.inIntr c, s.cpu c with
  | true, _ => some (.intr c)
  | false, .running p => if s.inYield p then none else some (.proc p)
  | false, _ => none

def myproc (s : SleepMachine n C A L K M) : Actor n C → Option (Task A)
  | .proc p => some (s.proc p)
  | _ => none

/-- One step of the caller's code.  Handlers do not sleep, and only they end
with `iret`. -/
def runCode (s : SleepMachine n C A L K M) (c : C) :
    Actor n C → CodeAct A L K M → Outcome (SleepMachine n C A L K M)
  | a, .acquire lk next => do
      let s ← s.acquireSpin c a lk
      return s.setPc a (.code next)
  | a, .release lk next => do
      let s ← s.releaseSpin c a lk
      return s.setPc a (.code next)
  | .proc p, .sleep chan lk next =>
      return s.setPc (.proc p) (.sleeping .acquire chan lk next)
  | a, .wakeup chan next => return s.setPc a (.waking .acquire chan next)
  | a, .kill pid next => return s.setPc a (.killing .acquire pid next)
  | a, .store mem next => return { s.setPc a (.code next) with mem := mem }
  | .intr _, .iret => return s.setIntr c false
  | _, _ => blocked

def runActor (program : Program A L K M I) (s : SleepMachine n C A L K M)
    (c : C) (i : I) (a : Actor n C) : Outcome (SleepMachine n C A L K M) :=
  match a, s.pc a with
  | a, .code k => do
      let act ← program.code (s.myproc a) i k s.mem
      s.runCode c a act
  | .proc p, .sleeping stage chan lk next => s.runSleep c p chan lk next stage
  | _, .sleeping _ _ _ _ => blocked
  | a, .waking stage chan next => s.runWakeup c a chan next stage
  | a, .killing stage pid next => s.runKill c a pid next stage

def perform (program : Program A L K M I) (s : SleepMachine n C A L K M) :
    C × SleepMove n I → Outcome (SleepMachine n C A L K M)
  | (c, .schedAcquire) => s.schedAcquire c
  | (c, .dispatch p) => s.dispatch c p
  | (c, .schedRelease) => s.schedRelease c
  | (c, .yield) => s.yield c
  | (c, .yieldReturn) => s.yieldReturn c
  | (c, .interrupt i) => s.interrupt program c i
  | (_, .device i) => s.device program i
  | (c, .run i) => do
      let a ← awaitSome (s.actor c)
      s.runActor program c i a

def step (program : Program A L K M I) :
    SleepMachine n C A L K M → C × SleepMove n I →
      Option (SleepMachine n C A L K M) :=
  stepOf (perform program)

/-- No process has run yet.  Every slot is free or holds a RUNNABLE process,
which begins in `forkret` and continues at its place in the caller's code. -/
structure Initial (start : Fin n → K) (s : SleepMachine n C A L K M) :
    Prop where
  ptable : s.ptable = none
  spin : ∀ lk, s.spin lk = none
  ncli : ∀ c, s.ncli c = 0
  cpu : ∀ c, s.cpu c = .start
  inIntr : ∀ c, s.inIntr c = false
  inYield : ∀ p, s.inYield p = true
  pc : ∀ p, s.pc (.proc p) = .code (start p)
  idle : ∀ c, ∃ k, s.pc (.intr c) = .code k
  state : ∀ p, (s.proc p).state = .unused ∨ (s.proc p).state = .runnable
  chan : ∀ p, (s.proc p).chan = none

end SleepMachine

end Xv6Kernel
