import Xv6Kernel.ProcTable
import Xv6Kernel.TraceExecution

/-!
# CPUs, kernel threads and `ptable.lock`

The kernel as a step system.  Every CPU runs either its scheduler thread or
the kernel thread of one process; `swtch` moves it from the one to the other,
and `ptable.lock`, which belongs to a CPU, is carried across: it is acquired by
one thread and released by another.

A label is one atomic step of one CPU.  A critical section on `ptable.lock`
that does not call `sched` is one step, enabled when the lock is free.  A
section that does call `sched` ends in `swtch` and leaves the lock held: the
scheduler thread continues at `SchedPc.returned`, and the release comes later
from whichever thread the scheduler resumes.  The writes of `fork` and
`allocproc` that the source makes without the lock are steps of their own and
need no lock here either.

Timer interrupts call `yield` wherever the thread holds no spinlock, so a
thread keeps its position in the code next to a flag for being inside `yield`.
`SchedSource` selects between `proc.c` and the aging scheduler of `proc_3.c`.
-/

namespace Xv6Kernel

open TraceExecution

inductive SchedSource
  | proc
  | proc3
  deriving DecidableEq, Repr

/-- Where the scheduler thread of a CPU stands.  The argument of `scan` is the
loop variable `p`, from `0` to `nproc`; in `switched` and `returned` it is the
slot that `p` was set to before `swtch`. -/
inductive SchedPc
  | boot
  | booting (p : Slot)
  | start
  | scan (p : ℕ)
  | switched (p : Slot)
  | returned (p : Slot)
  deriving DecidableEq, Repr

/-- Where the kernel thread of a process stands. -/
inductive Pc
  | forkret
  | elsewhere
  | forkKalloc (np : Slot)
  | forkCopyuvm (np : Slot)
  | forkPublish (np : Slot)
  | waitLoop
  | waitSched
  | sleepSched (lk : ℕ)
  | sleepAcquire (lk : ℕ)
  | exited
  deriving DecidableEq, Repr

structure Thread where
  pc : Pc
  inYield : Bool
  deriving DecidableEq, Repr

structure Kernel (C : Type) where
  lock : Option C
  proc : Table
  nextpid : ℤ
  initproc : Option Slot
  cpuProc : C → Option Slot
  ncli : C → ℤ
  sched : C → SchedPc
  thread : Slot → Thread
  spin : ℕ → Option C

inductive Action
  | userinitAlloc (kstack pgdir : Option Page)
  | userinitPublish
  | acquirePtable
  | skip
  | dispatch (p : Slot)
  | afterSwtch
  | releasePtable
  | forkret
  | yield
  | yieldReturn
  | sleep (chan : Chan) (lk : ℕ)
  | sleepReturn
  | sleepAcquire
  | forkAlloc (np : Option Slot)
  | forkKalloc (kstack : Option Page)
  | forkCopyuvm (pgdir : Option Page)
  | forkPublish
  | exit
  | waitAcquire
  | waitScan
  | waitReturn
  | kill (pid : ℤ)
  | setPriority (pid newPriority : ℤ)
  | getPriority (pid : ℤ)
  | wakeup (chan : Chan)
  | trapKill
  | spinAcquire (lk : ℕ)
  | spinRelease (lk : ℕ)
  deriving DecidableEq, Repr

variable {C : Type} [DecidableEq C]

namespace Kernel

@[simp] def setProc (s : Kernel C) (p : Slot) (value : Proc) : Kernel C :=
  { s with proc := Function.update s.proc p value }

@[simp] def setSched (s : Kernel C) (c : C) (pc : SchedPc) : Kernel C :=
  { s with sched := Function.update s.sched c pc }

@[simp] def setThread (s : Kernel C) (p : Slot) (thread : Thread) : Kernel C :=
  { s with thread := Function.update s.thread p thread }

@[simp] def setPc (s : Kernel C) (p : Slot) (pc : Pc) : Kernel C :=
  s.setThread p { s.thread p with pc := pc }

@[simp] def setInYield (s : Kernel C) (p : Slot) (inYield : Bool) : Kernel C :=
  s.setThread p { s.thread p with inYield := inYield }

@[simp] def setCpuProc (s : Kernel C) (c : C) (p : Option Slot) : Kernel C :=
  { s with cpuProc := Function.update s.cpuProc c p }

/-- `acquire(&ptable.lock)`: spins while another CPU has the lock. -/
def acquirePtable (s : Kernel C) (c : C) : Outcome (Kernel C) := do
  ensure (s.lock ≠ some c) "acquire"
  await (s.lock = none)
  return { s with
    lock := some c
    ncli := Function.update s.ncli c (s.ncli c + 1) }

def releasePtable (s : Kernel C) (c : C) : Outcome (Kernel C) := do
  ensure (s.lock = some c) "release"
  return { s with
    lock := none
    ncli := Function.update s.ncli c (s.ncli c - 1) }

def acquireSpin (s : Kernel C) (c : C) (lk : ℕ) : Outcome (Kernel C) := do
  ensure (s.spin lk ≠ some c) "acquire"
  await (s.spin lk = none)
  return { s with
    spin := Function.update s.spin lk (some c)
    ncli := Function.update s.ncli c (s.ncli c + 1) }

def releaseSpin (s : Kernel C) (c : C) (lk : ℕ) : Outcome (Kernel C) := do
  ensure (s.spin lk = some c) "release"
  return { s with
    spin := Function.update s.spin lk none
    ncli := Function.update s.ncli c (s.ncli c - 1) }

/-- A critical section on `ptable.lock` without a call of `sched`. -/
def locked (s : Kernel C) (c : C) (body : Kernel C → Kernel C) :
    Outcome (Kernel C) := do
  ensure (s.lock ≠ some c) "acquire"
  await (s.lock = none)
  return body s

/-- `sched` called by the thread of `p`, up to the `swtch` into the scheduler
thread of `c`. -/
def enterSched (s : Kernel C) (c : C) (p : Slot) : Outcome (Kernel C) := do
  ensure (s.lock = some c) "sched ptable.lock"
  ensure (s.ncli c = 1) "sched locks"
  ensure ((s.proc p).state ≠ .running) "sched running"
  return s.setSched c (.returned p)

/-- `userinit` up to its second `acquire`.  When `allocproc` returns null the
kernel faults on `p->pgdir`. -/
def userinitAlloc (s : Kernel C) (c : C) (kstack pgdir : Option Page) :
    Outcome (Kernel C) := do
  await (s.sched c = .boot ∧ s.lock = none)
  match findUnused s.proc, kstack, pgdir with
  | none, _, _ => panic "trap"
  | some _, none, _ => panic "trap"
  | some _, some _, none => panic "userinit: out of memory?"
  | some p, some k, some g =>
      let proc := (s.proc p).embryo s.nextpid
      return { ((s.setProc p { proc with kstack := some k, pgdir := some g }
          ).setThread p ⟨.forkret, false⟩).setSched c (.booting p) with
        nextpid := succPid s.nextpid
        initproc := some p }

def userinitPublish (s : Kernel C) (c : C) : Outcome (Kernel C) :=
  match s.sched c with
  | .booting p =>
      s.locked c fun s =>
        (s.setProc p { s.proc p with state := .runnable }).setSched c .start
  | _ => blocked

def schedAcquire (s : Kernel C) (c : C) : Outcome (Kernel C) := do
  await (s.sched c = .start)
  let s ← s.acquirePtable c
  return s.setSched c (.scan 0)

def schedSkip (s : Kernel C) (c : C) : Outcome (Kernel C) :=
  match s.sched c with
  | .scan p =>
      if h : p < nproc then do
        await ((s.proc ⟨p, h⟩).state ≠ .runnable)
        return s.setSched c (.scan (p + 1))
      else blocked
  | _ => blocked

def chosen (s : Kernel C) (c : C) : Option Slot :=
  match s.sched c with
  | .scan p =>
      if h : p < nproc then
        if (s.proc ⟨p, h⟩).state = .runnable then some (highestp s.proc ⟨p, h⟩)
        else none
      else none
  | _ => none

def schedDispatch (s : Kernel C) (c : C) (p : Slot) : Outcome (Kernel C) := do
  await (s.chosen c = some p)
  ensure ((s.proc p).kstack ≠ none) "switchuvm: no kstack"
  ensure ((s.proc p).pgdir ≠ none) "switchuvm: no pgdir"
  return ((s.setCpuProc c (some p)).setProc p
    { s.proc p with state := .running }).setSched c (.switched p)

/-- The aging loop, absent from `proc.c`. -/
def age (source : SchedSource) (table : Table) : Table :=
  match source with
  | .proc => table
  | .proc3 => fun p => ageOne (table p)

/-- From the return of `swtch` to `p++`. -/
def schedAfterSwtch (source : SchedSource) (s : Kernel C) (c : C) : Outcome (Kernel C) :=
  match s.sched c with
  | .returned p =>
      return ({ s with proc := age source s.proc }.setCpuProc c none
        ).setSched c (.scan (p.val + 1))
  | _ => blocked

def schedRelease (s : Kernel C) (c : C) : Outcome (Kernel C) := do
  await (s.sched c = .scan nproc)
  let s ← s.releasePtable c
  return s.setSched c .start

/-! ## Steps of a process thread -/

def current (s : Kernel C) (c : C) : Option Slot :=
  match s.sched c with
  | .switched p => some p
  | _ => none

/-- The process whose thread runs on `c` and stands at `pc`, outside
`yield`. -/
def currentAt (s : Kernel C) (c : C) (pc : Pc) : Option Slot :=
  (s.current c).filter fun p => s.thread p = ⟨pc, false⟩

def forkret (s : Kernel C) (c : C) : Outcome (Kernel C) := do
  let p ← awaitSome (s.currentAt c .forkret)
  let s ← s.releasePtable c
  return s.setPc p .elsewhere

/-- The tail of `trap` on a clock tick. -/
def yield (s : Kernel C) (c : C) : Outcome (Kernel C) := do
  let p ← awaitSome (s.current c)
  await (s.ncli c = 0 ∧ (s.thread p).inYield = false ∧
    (s.proc p).state = .running)
  let s ← s.acquirePtable c
  ((s.setProc p { s.proc p with state := .runnable }).setInYield p true
    ).enterSched c p

def yieldReturn (s : Kernel C) (c : C) : Outcome (Kernel C) := do
  let p ← awaitSome (s.current c)
  await ((s.thread p).inYield = true)
  let s ← s.releasePtable c
  return s.setInYield p false

/-- `sleep(chan, lk)` for a lock other than `ptable.lock`, up to `swtch`. -/
def sleep (s : Kernel C) (c : C) (chan : Chan) (lk : ℕ) :
    Outcome (Kernel C) := do
  let p ← awaitSome (s.currentAt c .elsewhere)
  let s ← s.acquirePtable c
  let s ← s.releaseSpin c lk
  ((s.setProc p { s.proc p with chan := some chan, state := .sleeping }
    ).setPc p (.sleepSched lk)).enterSched c p

def sleepReturn (s : Kernel C) (c : C) : Outcome (Kernel C) := do
  let p ← awaitSome (s.current c)
  match s.thread p with
  | ⟨.sleepSched lk, false⟩ =>
      let s ← (s.setProc p { s.proc p with chan := none }).releasePtable c
      return s.setPc p (.sleepAcquire lk)
  | _ => blocked

def sleepAcquire (s : Kernel C) (c : C) : Outcome (Kernel C) := do
  let p ← awaitSome (s.current c)
  match s.thread p with
  | ⟨.sleepAcquire lk, false⟩ =>
      let s ← s.acquireSpin c lk
      return s.setPc p .elsewhere
  | _ => blocked

/-- `allocproc` called by `fork`, up to the release of `ptable.lock`. -/
def forkAlloc (s : Kernel C) (c : C) (np : Option Slot) :
    Outcome (Kernel C) := do
  let p ← awaitSome (s.currentAt c .elsewhere)
  await (findUnused s.proc = np)
  match np with
  | none => s.locked c id
  | some np =>
      s.locked c fun s =>
        { (s.setProc np ((s.proc np).embryo s.nextpid)).setPc p
            (.forkKalloc np) with
          nextpid := succPid s.nextpid }

/-- The rest of `allocproc`: the kernel stack and a context at `forkret`. -/
def forkKalloc (s : Kernel C) (c : C) (kstack : Option Page) :
    Outcome (Kernel C) := do
  let p ← awaitSome (s.current c)
  match s.thread p, kstack with
  | ⟨.forkKalloc np, false⟩, none =>
      return (s.setProc np
        { s.proc np with kstack := none, state := .unused }).setPc p .elsewhere
  | ⟨.forkKalloc np, false⟩, some k =>
      return ((s.setProc np { s.proc np with kstack := some k }).setThread np
        ⟨.forkret, false⟩).setPc p (.forkCopyuvm np)
  | _, _ => blocked

def forkCopyuvm (s : Kernel C) (c : C) (pgdir : Option Page) :
    Outcome (Kernel C) := do
  let p ← awaitSome (s.current c)
  match s.thread p, pgdir with
  | ⟨.forkCopyuvm np, false⟩, none =>
      return (s.setProc np
        { s.proc np with pgdir := none, kstack := none, state := .unused }
          ).setPc p .elsewhere
  | ⟨.forkCopyuvm np, false⟩, some g =>
      return (s.setProc np
        { s.proc np with pgdir := some g, parent := some p }).setPc p
          (.forkPublish np)
  | _, _ => blocked

def forkPublish (s : Kernel C) (c : C) : Outcome (Kernel C) := do
  let p ← awaitSome (s.current c)
  match s.thread p with
  | ⟨.forkPublish np, false⟩ =>
      s.locked c fun s =>
        (s.setProc np { s.proc np with state := .runnable }).setPc p .elsewhere
  | _ => blocked

def exit (s : Kernel C) (c : C) : Outcome (Kernel C) := do
  let p ← awaitSome (s.currentAt c .elsewhere)
  ensure (s.initproc ≠ some p) "init exiting"
  let s ← s.acquirePtable c
  ({ s with proc := exitTable p s.initproc s.proc }.setPc p .exited
    ).enterSched c p

def waitAcquire (s : Kernel C) (c : C) : Outcome (Kernel C) := do
  let p ← awaitSome (s.currentAt c .elsewhere)
  let s ← s.acquirePtable c
  return s.setPc p .waitLoop

def waitScan (s : Kernel C) (c : C) : Outcome (Kernel C) := do
  let p ← awaitSome (s.currentAt c .waitLoop)
  match Xv6Kernel.waitScan p s.proc with
  | .reap q =>
      let s ← (s.setProc q (s.proc q).reaped).releasePtable c
      return s.setPc p .elsewhere
  | .fail =>
      let s ← s.releasePtable c
      return s.setPc p .elsewhere
  | .sleep =>
      ((s.setProc p
        { s.proc p with chan := some (.proc p), state := .sleeping }).setPc p
          .waitSched).enterSched c p

def waitReturn (s : Kernel C) (c : C) : Outcome (Kernel C) := do
  let p ← awaitSome (s.currentAt c .waitSched)
  return (s.setProc p { s.proc p with chan := none }).setPc p .waitLoop

def tableCall (s : Kernel C) (c : C) (f : Table → Table) :
    Outcome (Kernel C) := do
  let _ ← awaitSome (s.currentAt c .elsewhere)
  s.locked c fun s => { s with proc := f s.proc }

/-- `wakeup`, called by a process or by an interrupt handler. -/
def wakeup (s : Kernel C) (c : C) (chan : Chan) : Outcome (Kernel C) := do
  await (s.ncli c = 0 ∨ (s.currentAt c .elsewhere).isSome)
  s.locked c fun s => { s with proc := wakeup1 (some chan) s.proc }

def trapKill (s : Kernel C) (c : C) : Outcome (Kernel C) := do
  let p ← awaitSome (s.currentAt c .elsewhere)
  return s.setProc p { s.proc p with killed := true }

def spinAcquire (s : Kernel C) (c : C) (lk : ℕ) : Outcome (Kernel C) := do
  let _ ← awaitSome (s.currentAt c .elsewhere)
  s.acquireSpin c lk

def spinRelease (s : Kernel C) (c : C) (lk : ℕ) : Outcome (Kernel C) := do
  let _ ← awaitSome (s.currentAt c .elsewhere)
  s.releaseSpin c lk

def perform (source : SchedSource) (s : Kernel C) :
    C × Action → Outcome (Kernel C)
  | (c, .userinitAlloc kstack pgdir) => s.userinitAlloc c kstack pgdir
  | (c, .userinitPublish) => s.userinitPublish c
  | (c, .acquirePtable) => s.schedAcquire c
  | (c, .skip) => s.schedSkip c
  | (c, .dispatch p) => s.schedDispatch c p
  | (c, .afterSwtch) => s.schedAfterSwtch source c
  | (c, .releasePtable) => s.schedRelease c
  | (c, .forkret) => s.forkret c
  | (c, .yield) => s.yield c
  | (c, .yieldReturn) => s.yieldReturn c
  | (c, .sleep chan lk) => s.sleep c chan lk
  | (c, .sleepReturn) => s.sleepReturn c
  | (c, .sleepAcquire) => s.sleepAcquire c
  | (c, .forkAlloc np) => s.forkAlloc c np
  | (c, .forkKalloc kstack) => s.forkKalloc c kstack
  | (c, .forkCopyuvm pgdir) => s.forkCopyuvm c pgdir
  | (c, .forkPublish) => s.forkPublish c
  | (c, .exit) => s.exit c
  | (c, .waitAcquire) => s.waitAcquire c
  | (c, .waitScan) => s.waitScan c
  | (c, .waitReturn) => s.waitReturn c
  | (c, .kill pid) => s.tableCall c fun table => (kill pid table).1
  | (c, .setPriority pid newPriority) =>
      s.tableCall c fun table => (setPriority pid newPriority table).1
  | (c, .getPriority _) => s.tableCall c id
  | (c, .wakeup chan) => s.wakeup c chan
  | (c, .trapKill) => s.trapKill c
  | (c, .spinAcquire lk) => s.spinAcquire c lk
  | (c, .spinRelease lk) => s.spinRelease c lk

def step (source : SchedSource) : Kernel C → C × Action → Option (Kernel C) :=
  stepOf (perform source)

/-- The machine when `main` calls `userinit`: the table is zero, and every
other CPU is about to enter its scheduler loop. -/
def initial (bootCpu : C) : Kernel C where
  lock := none
  proc := fun _ => Proc.zero
  nextpid := 1
  initproc := none
  cpuProc := fun _ => none
  ncli := fun _ => 0
  sched := fun c => if c = bootCpu then .boot else .start
  thread := fun _ => ⟨.exited, false⟩
  spin := fun _ => none

def Booted (source : SchedSource) (s : Kernel C) : Prop :=
  Reachable (step source) (fun start => ∃ bootCpu, start = initial bootCpu) s

end Kernel

end Xv6Kernel
