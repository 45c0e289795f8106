import Xv6Kernel.ProcTree
import Xv6Kernel.InodeLayer

/-!
# Open files and address spaces of processes

The kernel of `ProcSystem` with the fields `cwd` and `ofile` of `struct proc`,
and with the steps that write them or `pgdir`: `userinit`, the descriptor
calls, `chdir`, `exec`, `growproc`, the copy loop of `fork` and the close loop
of `exit`.

`fork` copies the descriptors between `copyuvm` and the critical section that
publishes the child, and `exit` closes them before the critical section that
makes it a zombie.  Both loops run without `ptable.lock`, one step a
descriptor, and may be preempted or, inside `fileclose` and `iput`, sleep.
`FilePhase` is the position of a thread in them.
-/

namespace Xv6Kernel

open TraceExecution

variable {C : Type} [DecidableEq C]

/-- Where a thread stands in the loops over descriptors of `exit` and
`fork`. -/
inductive FilePhase
  | user
  | exitFd (fd : ℕ)
  | exitCwd
  | exitDone
  | forkFd (np : Slot) (fd : ℕ)
  | forkCwd (np : Slot)
  | forkDone (np : Slot)
  deriving DecidableEq, Repr

structure FileKernel (C : Type) where
  kernel : Kernel C
  cwd : Slot → Option ISlot
  ofile : Slot → Fin nofile → Option (Fin nfile)
  phase : Slot → FilePhase

inductive FileAction
  | kernel (action : Action)
  | userinitCwd (ip : ISlot)
  | fdalloc (f : Fin nfile)
  | fdclear (fd : Fin nofile)
  | chdir (ip : ISlot)
  | exec (pgdir : Page)
  | growproc
  | forkDup
  | exitBegin
  | exitClose
  deriving DecidableEq, Repr

/-- `switchuvm`, as far as it can panic. -/
def switchuvm (p : Proc) : Outcome Unit := do
  ensure (p.kstack ≠ none) "switchuvm: no kstack"
  ensure (p.pgdir ≠ none) "switchuvm: no pgdir"

namespace FileKernel

@[simp] def setFd (s : FileKernel C) (p : Slot) (fd : Fin nofile)
    (f : Option (Fin nfile)) : FileKernel C :=
  { s with
    ofile := Function.update s.ofile p (Function.update (s.ofile p) fd f) }

@[simp] def setCwd (s : FileKernel C) (p : Slot) (ip : Option ISlot) : FileKernel C :=
  { s with cwd := Function.update s.cwd p ip }

@[simp] def setPhase (s : FileKernel C) (p : Slot) (phase : FilePhase) : FileKernel C :=
  { s with phase := Function.update s.phase p phase }

/-- A thread inside `exit` makes no system call, and the critical sections at
the end of `fork` and `exit` come after the loops over descriptors. -/
def allows : FilePhase → Action → Bool
  | phase, .exit => phase = .exitDone
  | .forkDone _, .forkPublish => true
  | _, .forkPublish => false
  | phase, .forkAlloc _ | phase, .waitAcquire | phase, .kill _
  | phase, .setPriority _ _ | phase, .getPriority _ | phase, .trapKill =>
      phase = .user
  | _, _ => true

def phaseOn (s : FileKernel C) (c : C) : FilePhase :=
  match s.kernel.current c with
  | some p => s.phase p
  | none => .user

/-- `userinit` sets `cwd` before it publishes init. -/
def bootReady (s : FileKernel C) (c : C) : Bool :=
  match s.kernel.sched c with
  | .booting p => (s.cwd p).isSome
  | _ => true

def nextPhase (s : FileKernel C) (p : Slot) : Action → FilePhase
  | .forkCopyuvm (some _) =>
      match (s.kernel.thread p).pc with
      | .forkCopyuvm np => .forkFd np 0
      | _ => s.phase p
  | .forkPublish | .exit => .user
  | _ => s.phase p

def afterKernel (s : FileKernel C) (c : C) (action : Action) (kernel : Kernel C) : FileKernel C :=
  { s with
    kernel := kernel
    phase := match s.kernel.current c with
      | some p => Function.update s.phase p (s.nextPhase p action)
      | none => s.phase }

def kernelStep (source : SchedSource) (s : FileKernel C) (c : C)
    (action : Action) : Outcome (FileKernel C) := do
  await (allows (s.phaseOn c) action = true)
  await (action = .userinitPublish → s.bootReady c = true)
  let kernel ← Kernel.perform source s.kernel (c, action)
  return s.afterKernel c action kernel

def userinitCwd (s : FileKernel C) (c : C) (ip : ISlot) : Outcome (FileKernel C) :=
  match s.kernel.sched c with
  | .booting p => return s.setCwd p (some ip)
  | _ => blocked

/-- The process that runs on `c` outside of `yield`, `fork` and `exit`. -/
def caller (s : FileKernel C) (c : C) : Option Slot :=
  (s.kernel.currentAt c .elsewhere).filter fun p => s.phase p = .user

def unusedFd (s : FileKernel C) (p : Slot) : Option (Fin nofile) :=
  (List.finRange nofile).find? fun fd => s.ofile p fd = none

def fdalloc (s : FileKernel C) (c : C) (f : Fin nfile) :
    Outcome (FileKernel C) := do
  let p ← awaitSome (s.caller c)
  match s.unusedFd p with
  | some fd => return s.setFd p fd (some f)
  | none => return s

def fdclear (s : FileKernel C) (c : C) (fd : Fin nofile) :
    Outcome (FileKernel C) := do
  let p ← awaitSome (s.caller c)
  return s.setFd p fd none

def chdir (s : FileKernel C) (c : C) (ip : ISlot) : Outcome (FileKernel C) := do
  let p ← awaitSome (s.caller c)
  return s.setCwd p (some ip)

/-- The end of `exec`: the new page directory is not null. -/
def exec (s : FileKernel C) (c : C) (pgdir : Page) : Outcome (FileKernel C) := do
  let p ← awaitSome (s.caller c)
  let proc := { s.kernel.proc p with pgdir := some pgdir }
  switchuvm proc
  return { s with kernel := s.kernel.setProc p proc }

def growproc (s : FileKernel C) (c : C) : Outcome (FileKernel C) := do
  let p ← awaitSome (s.caller c)
  switchuvm (s.kernel.proc p)
  return s

def forkDup (s : FileKernel C) (c : C) : Outcome (FileKernel C) := do
  let p ← awaitSome (s.kernel.current c)
  await ((s.kernel.thread p).inYield = false)
  match s.phase p with
  | .forkFd np i =>
      if h : i < nofile then
        if s.ofile p ⟨i, h⟩ = none then return s.setPhase p (.forkFd np (i + 1))
        else
          let copied := s.setFd np ⟨i, h⟩ (s.ofile p ⟨i, h⟩)
          return copied.setPhase p (.forkFd np (i + 1))
      else return s.setPhase p (.forkCwd np)
  | .forkCwd np => return (s.setCwd np (s.cwd p)).setPhase p (.forkDone np)
  | _ => blocked

def exitBegin (s : FileKernel C) (c : C) : Outcome (FileKernel C) := do
  let p ← awaitSome (s.caller c)
  ensure (s.kernel.initproc ≠ some p) "init exiting"
  return s.setPhase p (.exitFd 0)

def exitClose (s : FileKernel C) (c : C) : Outcome (FileKernel C) := do
  let p ← awaitSome (s.kernel.currentAt c .elsewhere)
  match s.phase p with
  | .exitFd i =>
      if h : i < nofile then
        return (s.setFd p ⟨i, h⟩ none).setPhase p (.exitFd (i + 1))
      else return s.setPhase p .exitCwd
  | .exitCwd => return (s.setCwd p none).setPhase p .exitDone
  | _ => blocked

def perform (source : SchedSource) (s : FileKernel C) :
    C × FileAction → Outcome (FileKernel C)
  | (c, .kernel action) => s.kernelStep source c action
  | (c, .userinitCwd ip) => s.userinitCwd c ip
  | (c, .fdalloc f) => s.fdalloc c f
  | (c, .fdclear fd) => s.fdclear c fd
  | (c, .chdir ip) => s.chdir c ip
  | (c, .exec pgdir) => s.exec c pgdir
  | (c, .growproc) => s.growproc c
  | (c, .forkDup) => s.forkDup c
  | (c, .exitBegin) => s.exitBegin c
  | (c, .exitClose) => s.exitClose c

def step (source : SchedSource) : FileKernel C → C × FileAction → Option (FileKernel C) :=
  stepOf (perform source)

def initial (bootCpu : C) : FileKernel C where
  kernel := Kernel.initial bootCpu
  cwd := fun _ => none
  ofile := fun _ _ => none
  phase := fun _ => .user

/-! ## What one step can do -/

inductive StepOk (source : SchedSource) (s : FileKernel C) (c : C) :
    FileAction → FileKernel C → Prop
  | kernel {action : Action} {kernel : Kernel C}
      (hphase : allows (s.phaseOn c) action = true)
      (hstep : Kernel.StepOk source s.kernel c action kernel) :
      StepOk source s c (.kernel action) (s.afterKernel c action kernel)
  | userinitCwd {p : Slot} {ip : ISlot}
      (hsched : s.kernel.sched c = .booting p) :
      StepOk source s c (.userinitCwd ip) (s.setCwd p (some ip))
  | files {p : Slot} {action : FileAction} {cwd : Option ISlot}
      {ofile : Fin nofile → Option (Fin nfile)}
      (haction : ∀ a, action ≠ .kernel a)
      (hsched : s.kernel.sched c = .switched p) (hphase : s.phase p = .user) :
      StepOk source s c action { s with
        cwd := Function.update s.cwd p cwd
        ofile := Function.update s.ofile p ofile }
  | exec {p : Slot} {pgdir : Page} (hsched : s.kernel.sched c = .switched p) :
      StepOk source s c (.exec pgdir) { s with
        kernel := s.kernel.setProc p
          { s.kernel.proc p with pgdir := some pgdir } }
  | growproc : StepOk source s c .growproc s
  | forkSkip {p np : Slot} {i : ℕ} {h : i < nofile}
      (hsched : s.kernel.sched c = .switched p)
      (hphase : s.phase p = .forkFd np i) (hnone : s.ofile p ⟨i, h⟩ = none) :
      StepOk source s c .forkDup (s.setPhase p (.forkFd np (i + 1)))
  | forkFd {p np : Slot} {i : ℕ} {h : i < nofile}
      (hsched : s.kernel.sched c = .switched p)
      (hphase : s.phase p = .forkFd np i) :
      StepOk source s c .forkDup
        ((s.setFd np ⟨i, h⟩ (s.ofile p ⟨i, h⟩)).setPhase p (.forkFd np (i + 1)))
  | forkEnd {p np : Slot} {i : ℕ} (hsched : s.kernel.sched c = .switched p)
      (hphase : s.phase p = .forkFd np i) (hlast : nofile ≤ i) :
      StepOk source s c .forkDup (s.setPhase p (.forkCwd np))
  | forkCwd {p np : Slot} (hsched : s.kernel.sched c = .switched p)
      (hphase : s.phase p = .forkCwd np) :
      StepOk source s c .forkDup
        ((s.setCwd np (s.cwd p)).setPhase p (.forkDone np))
  | exitBegin {p : Slot} (hsched : s.kernel.sched c = .switched p)
      (hphase : s.phase p = .user) :
      StepOk source s c .exitBegin (s.setPhase p (.exitFd 0))
  | exitFd {p : Slot} {i : ℕ} {h : i < nofile}
      (hsched : s.kernel.sched c = .switched p)
      (hphase : s.phase p = .exitFd i) :
      StepOk source s c .exitClose
        ((s.setFd p ⟨i, h⟩ none).setPhase p (.exitFd (i + 1)))
  | exitEnd {p : Slot} {i : ℕ} (hsched : s.kernel.sched c = .switched p)
      (hphase : s.phase p = .exitFd i) (hlast : nofile ≤ i) :
      StepOk source s c .exitClose (s.setPhase p .exitCwd)
  | exitCwd {p : Slot} (hsched : s.kernel.sched c = .switched p)
      (hphase : s.phase p = .exitCwd) :
      StepOk source s c .exitClose ((s.setCwd p none).setPhase p .exitDone)

section Inversion

variable {source : SchedSource} {s t : FileKernel C} {c : C}

omit [DecidableEq C] in
theorem caller_eq_some {p : Slot} :
    s.caller c = some p ↔ s.kernel.sched c = .switched p ∧
      s.kernel.thread p = ⟨.elsewhere, false⟩ ∧ s.phase p = .user := by
  unfold caller
  rw [Option.filter_eq_some_iff, Kernel.currentAt_eq_some]
  simp [and_assoc]

private theorem files_ok {action : FileAction} {p : Slot} (haction : ∀ a, action ≠ .kernel a)
    (hcaller : s.caller c = some p) (hkernel : t.kernel = s.kernel) (hphase : t.phase = s.phase)
    (hcwd : t.cwd = Function.update s.cwd p (t.cwd p))
    (hofile : t.ofile = Function.update s.ofile p (t.ofile p)) : StepOk source s c action t := by
  obtain ⟨hsched, _, huser⟩ := caller_eq_some.mp hcaller
  have ht : t = { s with
      cwd := Function.update s.cwd p (t.cwd p)
      ofile := Function.update s.ofile p (t.ofile p) } := by
    rw [← hcwd, ← hofile, ← hkernel, ← hphase]
  rw [ht]
  exact .files haction hsched huser

private theorem forkDup_ok (hok : s.forkDup c = .ok t) : StepOk source s c .forkDup t := by
  simp only [forkDup, bind_eq_ok, awaitSome_eq_ok, await_eq_ok, Kernel.current_eq_some] at hok
  obtain ⟨p, hsched, _, _, hok⟩ := hok
  split at hok
  · next np i hphase =>
    split at hok
    · next h =>
      split at hok
      · next hnone =>
        simp only [pure_eq_ok] at hok
        subst t
        exact .forkSkip (h := h) hsched hphase hnone
      · simp only [pure_eq_ok] at hok
        subst t
        exact .forkFd hsched hphase
    · next h =>
      simp only [pure_eq_ok] at hok
      subst t
      exact .forkEnd hsched hphase (Nat.le_of_not_lt h)
  · next np hphase =>
    simp only [pure_eq_ok] at hok
    subst t
    exact .forkCwd hsched hphase
  · simp at hok

private theorem exitClose_ok (hok : s.exitClose c = .ok t) : StepOk source s c .exitClose t := by
  simp only [exitClose, bind_eq_ok, awaitSome_eq_ok, Kernel.currentAt_eq_some] at hok
  obtain ⟨p, ⟨hsched, _⟩, hok⟩ := hok
  split at hok
  · next i hphase =>
    split at hok
    · next h =>
      simp only [pure_eq_ok] at hok
      subst t
      exact .exitFd hsched hphase
    · next h =>
      simp only [pure_eq_ok] at hok
      subst t
      exact .exitEnd hsched hphase (Nat.le_of_not_lt h)
  · next hphase =>
    simp only [pure_eq_ok] at hok
    subst t
    exact .exitCwd hsched hphase
  · simp at hok

theorem step_ok {action : FileAction} (hstep : step source s (c, action) = some t) :
    StepOk source s c action t := by
  unfold step at hstep
  rw [stepOf_eq_some] at hstep
  cases action with
  | kernel action =>
    simp only [perform, kernelStep, bind_eq_ok, await_eq_ok, pure_eq_ok] at hstep
    obtain ⟨_, hphase, _, _, kernel, hkernel, rfl⟩ := hstep
    refine .kernel hphase (Kernel.step_ok ?_)
    unfold Kernel.step
    rw [stepOf_eq_some]
    exact hkernel
  | userinitCwd ip =>
    simp only [perform, FileKernel.userinitCwd] at hstep
    split at hstep
    · next p hsched =>
      simp only [pure_eq_ok] at hstep
      subst t
      exact .userinitCwd hsched
    · simp at hstep
  | fdalloc f =>
    simp only [perform, fdalloc, bind_eq_ok, awaitSome_eq_ok] at hstep
    obtain ⟨p, hcaller, hstep⟩ := hstep
    split at hstep
    · simp only [pure_eq_ok] at hstep
      subst t
      exact files_ok (by simp) hcaller rfl rfl (by simp) (by simp)
    · simp only [pure_eq_ok] at hstep
      subst t
      exact files_ok (by simp) hcaller rfl rfl (by simp) (by simp)
  | fdclear fd =>
    simp only [perform, fdclear, bind_eq_ok, awaitSome_eq_ok, pure_eq_ok] at hstep
    obtain ⟨p, hcaller, rfl⟩ := hstep
    exact files_ok (by simp) hcaller rfl rfl (by simp) (by simp)
  | chdir ip =>
    simp only [perform, chdir, bind_eq_ok, awaitSome_eq_ok, pure_eq_ok] at hstep
    obtain ⟨p, hcaller, rfl⟩ := hstep
    exact files_ok (by simp) hcaller rfl rfl (by simp) (by simp)
  | exec pgdir =>
    simp only [perform, FileKernel.exec, bind_eq_ok, awaitSome_eq_ok, pure_eq_ok] at hstep
    obtain ⟨p, hcaller, _, _, rfl⟩ := hstep
    exact .exec (caller_eq_some.mp hcaller).1
  | growproc =>
    simp only [perform, FileKernel.growproc, bind_eq_ok, pure_eq_ok] at hstep
    obtain ⟨p, _, _, _, rfl⟩ := hstep
    exact .growproc
  | forkDup => exact forkDup_ok hstep
  | exitBegin =>
    simp only [perform, FileKernel.exitBegin, bind_eq_ok, awaitSome_eq_ok,
      ensure_eq_ok, pure_eq_ok] at hstep
    obtain ⟨p, hcaller, _, _, rfl⟩ := hstep
    obtain ⟨hsched, _, hphase⟩ := caller_eq_some.mp hcaller
    exact .exitBegin hsched hphase
  | exitClose => exact exitClose_ok hstep

end Inversion

end FileKernel

end Xv6Kernel
