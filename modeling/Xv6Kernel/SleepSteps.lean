import Xv6Kernel.SleepWakeup

/-!
# What one step around `sleep` can do

`RunOk` lists what the thread of control on a CPU can do next, `StepOk` what
the machine can do, with guards and resulting states.  Both lists are complete.
-/

namespace Xv6Kernel

open TraceExecution

namespace SleepMachine

variable {n : ℕ} {C A L K M I : Type}
variable [DecidableEq C] [DecidableEq A] [DecidableEq L]
variable {program : Program A L K M I}
variable {s t : SleepMachine n C A L K M} {c : C} {i : I} {a b : Actor n C}

/-! ## What one step can do -/

/-- The successful steps of the thread of control on a CPU. -/
inductive RunOk (program : Program A L K M I) (s : SleepMachine n C A L K M)
    (c : C) (i : I) : Actor n C → SleepMachine n C A L K M → Prop
  | acquire {a : Actor n C} {k next : K} {lk : L} (hpc : s.pc a = .code k)
      (hcode : program.code (s.myproc a) i k s.mem = .ok (.acquire lk next))
      (hlock : s.spin lk = none) :
      RunOk program s c i a ((s.setSpin c lk (some a) 1).setPc a (.code next))
  | release {a : Actor n C} {k next : K} {lk : L} (hpc : s.pc a = .code k)
      (hcode : program.code (s.myproc a) i k s.mem = .ok (.release lk next))
      (hlock : s.spin lk = some a) :
      RunOk program s c i a ((s.setSpin c lk none (-1)).setPc a (.code next))
  | sleep {p : Fin n} {k next : K} {chan : A} {lk : L}
      (hpc : s.pc (.proc p) = .code k)
      (hcode : program.code (s.myproc (.proc p)) i k s.mem =
        .ok (.sleep chan lk next)) :
      RunOk program s c i (.proc p)
        (s.setPc (.proc p) (.sleeping .acquire chan lk next))
  | wakeup {a : Actor n C} {k next : K} {chan : A} (hpc : s.pc a = .code k)
      (hcode : program.code (s.myproc a) i k s.mem = .ok (.wakeup chan next)) :
      RunOk program s c i a (s.setPc a (.waking .acquire chan next))
  | kill {a : Actor n C} {k next : K} {pid : ℤ} (hpc : s.pc a = .code k)
      (hcode : program.code (s.myproc a) i k s.mem = .ok (.kill pid next)) :
      RunOk program s c i a (s.setPc a (.killing .acquire pid next))
  | store {a : Actor n C} {k next : K} {mem : M} (hpc : s.pc a = .code k)
      (hcode : program.code (s.myproc a) i k s.mem = .ok (.store mem next)) :
      RunOk program s c i a { s.setPc a (.code next) with mem := mem }
  | iret {d : C} {k : K} (hpc : s.pc (.intr d) = .code k)
      (hcode : program.code (s.myproc (.intr d)) i k s.mem = .ok .iret) :
      RunOk program s c i (.intr d) (s.setIntr c false)
  | sleepAcquire {p : Fin n} {chan : A} {lk : L} {next : K}
      (hpc : s.pc (.proc p) = .sleeping .acquire chan lk next)
      (hlock : s.ptable = none) :
      RunOk program s c i (.proc p)
        ((s.setPtable c (some (.proc p)) 1).setPc (.proc p)
          (.sleeping .release chan lk next))
  | sleepRelease {p : Fin n} {chan : A} {lk : L} {next : K}
      (hpc : s.pc (.proc p) = .sleeping .release chan lk next)
      (hlock : s.spin lk = some (.proc p)) :
      RunOk program s c i (.proc p)
        ((s.setSpin c lk none (-1)).setPc (.proc p)
          (.sleeping .setChan chan lk next))
  | sleepChan {p : Fin n} {chan : A} {lk : L} {next : K}
      (hpc : s.pc (.proc p) = .sleeping .setChan chan lk next) :
      RunOk program s c i (.proc p)
        ((s.setTask p { s.proc p with chan := some chan }).setPc (.proc p)
          (.sleeping .setState chan lk next))
  | sleepState {p : Fin n} {chan : A} {lk : L} {next : K}
      (hpc : s.pc (.proc p) = .sleeping .setState chan lk next) :
      RunOk program s c i (.proc p)
        ((s.setTask p { s.proc p with state := .sleeping }).setPc (.proc p)
          (.sleeping .sched chan lk next))
  | sleepSched {p : Fin n} {chan : A} {lk : L} {next : K}
      (hpc : s.pc (.proc p) = .sleeping .sched chan lk next)
      (hlock : s.ptable = some (.proc p))
      (hstate : (s.proc p).state ≠ .running) :
      RunOk program s c i (.proc p)
        (((s.setPtable c (some (.sched c)) 0).setCpu c .scan).setPc (.proc p)
          (.sleeping .swtch chan lk next))
  | sleepSwtch {p : Fin n} {chan : A} {lk : L} {next : K}
      (hpc : s.pc (.proc p) = .sleeping .swtch chan lk next) :
      RunOk program s c i (.proc p)
        ((s.setTask p { s.proc p with chan := none }).setPc (.proc p)
          (.sleeping .unlock chan lk next))
  | sleepUnlock {p : Fin n} {chan : A} {lk : L} {next : K}
      (hpc : s.pc (.proc p) = .sleeping .unlock chan lk next)
      (hlock : s.ptable = some (.proc p)) :
      RunOk program s c i (.proc p)
        ((s.setPtable c none (-1)).setPc (.proc p)
          (.sleeping .relock chan lk next))
  | sleepRelock {p : Fin n} {chan : A} {lk : L} {next : K}
      (hpc : s.pc (.proc p) = .sleeping .relock chan lk next)
      (hlock : s.spin lk = none) :
      RunOk program s c i (.proc p)
        ((s.setSpin c lk (some (.proc p)) 1).setPc (.proc p) (.code next))
  | wakeAcquire {a : Actor n C} {chan : A} {next : K}
      (hpc : s.pc a = .waking .acquire chan next) (hlock : s.ptable = none) :
      RunOk program s c i a
        ((s.setPtable c (some a) 1).setPc a (.waking (.scan 0) chan next))
  | wakeScan {a : Actor n C} {q : Fin n} {chan : A} {next : K}
      (hpc : s.pc a = .waking (.scan q.val) chan next) :
      RunOk program s c i a
        ((s.setTask q ((s.proc q).wake chan)).setPc a
          (.waking (.scan (q.val + 1)) chan next))
  | wakeEnd {a : Actor n C} {j : ℕ} {chan : A} {next : K}
      (hpc : s.pc a = .waking (.scan j) chan next) (hend : n ≤ j) :
      RunOk program s c i a (s.setPc a (.waking .release chan next))
  | wakeRelease {a : Actor n C} {chan : A} {next : K}
      (hpc : s.pc a = .waking .release chan next) (hlock : s.ptable = some a) :
      RunOk program s c i a ((s.setPtable c none (-1)).setPc a (.code next))
  | killAcquire {a : Actor n C} {pid : ℤ} {next : K}
      (hpc : s.pc a = .killing .acquire pid next) (hlock : s.ptable = none) :
      RunOk program s c i a
        ((s.setPtable c (some a) 1).setPc a (.killing (.scan 0) pid next))
  | killHit {a : Actor n C} {q : Fin n} {pid : ℤ} {next : K}
      (hpc : s.pc a = .killing (.scan q.val) pid next)
      (hpid : (s.proc q).pid = pid) :
      RunOk program s c i a
        ((s.setTask q (s.proc q).kill).setPc a (.killing .release pid next))
  | killMiss {a : Actor n C} {j : ℕ} {pid : ℤ} {stage : ScanStage} {next : K}
      (hpc : s.pc a = .killing (.scan j) pid next) (hstage : stage ≠ .acquire) :
      RunOk program s c i a (s.setPc a (.killing stage pid next))
  | killRelease {a : Actor n C} {pid : ℤ} {next : K}
      (hpc : s.pc a = .killing .release pid next) (hlock : s.ptable = some a) :
      RunOk program s c i a ((s.setPtable c none (-1)).setPc a (.code next))

inductive StepOk (program : Program A L K M I) (s : SleepMachine n C A L K M) :
    C × SleepMove n I → SleepMachine n C A L K M → Prop
  | schedAcquire {c : C} (hcpu : s.cpu c = .start) (hlock : s.ptable = none) :
      StepOk program s (c, .schedAcquire)
        ((s.setPtable c (some (.sched c)) 1).setCpu c .scan)
  | dispatch {c : C} {p : Fin n} (hcpu : s.cpu c = .scan)
      (hstate : (s.proc p).state = .runnable) :
      StepOk program s (c, .dispatch p)
        (((s.setTask p { s.proc p with state := .running }).setPtable c
          (some (.proc p)) 0).setCpu c (.running p))
  | schedRelease {c : C} (hcpu : s.cpu c = .scan)
      (hlock : s.ptable = some (.sched c)) :
      StepOk program s (c, .schedRelease)
        ((s.setPtable c none (-1)).setCpu c .start)
  | yield {c : C} {p : Fin n} {ncli : C → ℤ} (hcpu : s.cpu c = .running p)
      (hyield : s.inYield p = false) (hstate : (s.proc p).state = .running)
      (hlock : s.ptable = none) :
      StepOk program s (c, .yield)
        { ((s.setTask p { s.proc p with state := .runnable }).setYield p true
            ).setCpu c .scan with
          ptable := some (.sched c)
          ncli := ncli }
  | yieldReturn {c : C} {p : Fin n} (hcpu : s.cpu c = .running p)
      (hyield : s.inYield p = true) (hlock : s.ptable = some (.proc p)) :
      StepOk program s (c, .yieldReturn)
        ((s.setPtable c none (-1)).setYield p false)
  | interrupt {c : C} {i : I} {mem : M} {k : K} (hidle : s.inIntr c = false)
      (hintr : program.interrupt i s.mem = .ok (mem, k)) :
      StepOk program s (c, .interrupt i)
        { (s.setIntr c true).setPc (.intr c) (.code k) with mem := mem }
  | device {c : C} {i : I} {mem : M}
      (hdevice : program.device i s.mem = .ok mem) :
      StepOk program s (c, .device i) { s with mem := mem }
  | run {c : C} {i : I} {a : Actor n C} {t : SleepMachine n C A L K M}
      (hactor : s.actor c = some a) (hrun : RunOk program s c i a t) :
      StepOk program s (c, .run i) t

section

omit [DecidableEq C] [DecidableEq A] [DecidableEq L]

theorem current_eq_some {p : Fin n} :
    s.current c = some p ↔ s.inIntr c = false ∧ s.cpu c = .running p := by
  unfold current
  cases s.inIntr c <;> cases s.cpu c <;> simp

theorem actor_proc {p : Fin n} (hactor : s.actor c = some (.proc p)) :
    s.cpu c = .running p ∧ s.inYield p = false := by
  unfold actor at hactor
  split at hactor
  next => simp at hactor
  next q hintr hcpu =>
    split at hactor
    next => simp at hactor
    next hyield =>
      obtain rfl : q = p := by simpa using hactor
      exact ⟨hcpu, by simpa using hyield⟩
  next => simp at hactor

theorem actor_ne_sched {d : C} : s.actor c ≠ some (.sched d) := by
  unfold actor
  split
  next => simp
  next => split <;> simp
  next => simp

theorem actor_intr {d : C} (hactor : s.actor c = some (.intr d)) : d = c ∧ s.inIntr c = true := by
  unfold actor at hactor
  split at hactor
  next hintr =>
    obtain rfl : c = d := by simpa using hactor
    exact ⟨rfl, hintr⟩
  next => split at hactor <;> simp at hactor
  next => simp at hactor

end

theorem runCode_ok {k : K} {act : CodeAct A L K M} (hpc : s.pc a = .code k)
    (hcode : program.code (s.myproc a) i k s.mem = .ok act)
    (hrun : s.runCode c a act = .ok t) : RunOk program s c i a t := by
  cases act with
  | acquire lk next =>
    simp only [runCode, acquireSpin, bind_eq_ok, ensure_eq_ok, await_eq_ok, pure_eq_ok] at hrun
    obtain ⟨_, ⟨_, _, _, hlock, rfl⟩, rfl⟩ := hrun
    exact .acquire hpc hcode hlock
  | release lk next =>
    simp only [runCode, releaseSpin, bind_eq_ok, ensure_eq_ok, pure_eq_ok] at hrun
    obtain ⟨_, ⟨_, hlock, rfl⟩, rfl⟩ := hrun
    exact .release hpc hcode hlock
  | sleep chan lk next =>
    cases a with
    | proc p =>
      simp only [runCode, pure_eq_ok] at hrun
      subst hrun
      exact .sleep hpc hcode
    | sched d => simp [runCode] at hrun
    | intr d => simp [runCode] at hrun
  | wakeup chan next =>
    simp only [runCode, pure_eq_ok] at hrun
    subst hrun
    exact .wakeup hpc hcode
  | kill pid next =>
    simp only [runCode, pure_eq_ok] at hrun
    subst hrun
    exact .kill hpc hcode
  | store mem next =>
    simp only [runCode, pure_eq_ok] at hrun
    subst hrun
    exact .store hpc hcode
  | iret =>
    cases a with
    | proc p => simp [runCode] at hrun
    | sched d => simp [runCode] at hrun
    | intr d =>
      simp only [runCode, pure_eq_ok] at hrun
      subst hrun
      exact .iret hpc hcode

theorem runSleep_ok {p : Fin n} {stage : SleepStage} {chan : A} {lk : L} {next : K}
    (hpc : s.pc (.proc p) = .sleeping stage chan lk next)
    (hrun : s.runSleep c p chan lk next stage = .ok t) : RunOk program s c i (.proc p) t := by
  cases stage with
  | acquire =>
    simp only [runSleep, acquirePtable, bind_eq_ok, ensure_eq_ok, await_eq_ok, pure_eq_ok] at hrun
    obtain ⟨_, ⟨_, _, _, hlock, rfl⟩, rfl⟩ := hrun
    exact .sleepAcquire hpc hlock
  | release =>
    simp only [runSleep, releaseSpin, bind_eq_ok, ensure_eq_ok, pure_eq_ok] at hrun
    obtain ⟨_, ⟨_, hlock, rfl⟩, rfl⟩ := hrun
    exact .sleepRelease hpc hlock
  | setChan =>
    simp only [runSleep, pure_eq_ok] at hrun
    subst hrun
    exact .sleepChan hpc
  | setState =>
    simp only [runSleep, pure_eq_ok] at hrun
    subst hrun
    exact .sleepState hpc
  | sched =>
    simp only [runSleep, enterSched, bind_eq_ok, ensure_eq_ok, pure_eq_ok] at hrun
    obtain ⟨_, ⟨_, hlock, _, _, _, hstate, rfl⟩, rfl⟩ := hrun
    exact .sleepSched hpc hlock hstate
  | swtch =>
    simp only [runSleep, pure_eq_ok] at hrun
    subst hrun
    exact .sleepSwtch hpc
  | unlock =>
    simp only [runSleep, releasePtable, bind_eq_ok, ensure_eq_ok, pure_eq_ok] at hrun
    obtain ⟨_, ⟨_, hlock, rfl⟩, rfl⟩ := hrun
    exact .sleepUnlock hpc hlock
  | relock =>
    simp only [runSleep, acquireSpin, bind_eq_ok, ensure_eq_ok, await_eq_ok, pure_eq_ok] at hrun
    obtain ⟨_, ⟨_, _, _, hlock, rfl⟩, rfl⟩ := hrun
    exact .sleepRelock hpc hlock

theorem runWakeup_ok {stage : ScanStage} {chan : A} {next : K}
    (hpc : s.pc a = .waking stage chan next) (hrun : s.runWakeup c a chan next stage = .ok t) :
    RunOk program s c i a t := by
  cases stage with
  | acquire =>
    simp only [runWakeup, acquirePtable, bind_eq_ok, ensure_eq_ok, await_eq_ok, pure_eq_ok] at hrun
    obtain ⟨_, ⟨_, _, _, hlock, rfl⟩, rfl⟩ := hrun
    exact .wakeAcquire hpc hlock
  | scan j =>
    simp only [runWakeup] at hrun
    split at hrun
    next h =>
      rw [pure_eq_ok] at hrun
      subst hrun
      exact .wakeScan (q := ⟨j, h⟩) hpc
    next h =>
      rw [pure_eq_ok] at hrun
      subst hrun
      exact .wakeEnd hpc (Nat.le_of_not_lt h)
  | release =>
    simp only [runWakeup, releasePtable, bind_eq_ok, ensure_eq_ok, pure_eq_ok] at hrun
    obtain ⟨_, ⟨_, hlock, rfl⟩, rfl⟩ := hrun
    exact .wakeRelease hpc hlock

theorem runKill_ok {stage : ScanStage} {pid : ℤ} {next : K} (hpc : s.pc a = .killing stage pid next)
    (hrun : s.runKill c a pid next stage = .ok t) : RunOk program s c i a t := by
  cases stage with
  | acquire =>
    simp only [runKill, acquirePtable, bind_eq_ok, ensure_eq_ok, await_eq_ok, pure_eq_ok] at hrun
    obtain ⟨_, ⟨_, _, _, hlock, rfl⟩, rfl⟩ := hrun
    exact .killAcquire hpc hlock
  | scan j =>
    simp only [runKill] at hrun
    split at hrun
    next h =>
      split at hrun
      next hpid =>
        rw [pure_eq_ok] at hrun
        subst hrun
        exact .killHit (q := ⟨j, h⟩) hpc hpid
      next =>
        rw [pure_eq_ok] at hrun
        subst hrun
        exact .killMiss hpc (by simp)
    next =>
      rw [pure_eq_ok] at hrun
      subst hrun
      exact .killMiss hpc (by simp)
  | release =>
    simp only [runKill, releasePtable, bind_eq_ok, ensure_eq_ok, pure_eq_ok] at hrun
    obtain ⟨_, ⟨_, hlock, rfl⟩, rfl⟩ := hrun
    exact .killRelease hpc hlock

theorem runActor_ok (hrun : s.runActor program c i a = .ok t) : RunOk program s c i a t := by
  cases hpc : s.pc a with
  | code k =>
    cases a <;> simp only [runActor, hpc, bind_eq_ok] at hrun <;>
      (obtain ⟨act, hcode, hact⟩ := hrun; exact runCode_ok hpc hcode hact)
  | sleeping stage chan lk next =>
    cases a with
    | proc p =>
      simp only [runActor, hpc] at hrun
      exact runSleep_ok hpc hrun
    | sched | intr => simp [runActor, hpc] at hrun
  | waking stage chan next =>
    cases a <;> simp only [runActor, hpc] at hrun <;>
      exact runWakeup_ok hpc hrun
  | killing stage pid next =>
    cases a <;> simp only [runActor, hpc] at hrun <;>
      exact runKill_ok hpc hrun

theorem step_ok {label : C × SleepMove n I}
    (hstep : step program s label = some t) : StepOk program s label t := by
  obtain ⟨c, move⟩ := label
  simp only [step, stepOf_eq_some] at hstep
  cases move with
  | schedAcquire =>
    simp only [perform, schedAcquire, acquirePtable, bind_eq_ok,
      ensure_eq_ok, await_eq_ok, pure_eq_ok] at hstep
    obtain ⟨_, ⟨hcpu, _⟩, _, ⟨_, _, _, hlock, rfl⟩, rfl⟩ := hstep
    exact .schedAcquire hcpu hlock
  | dispatch p =>
    simp only [perform, dispatch, bind_eq_ok, await_eq_ok, pure_eq_ok] at hstep
    obtain ⟨_, ⟨hcpu, hstate⟩, rfl⟩ := hstep
    exact .dispatch hcpu hstate
  | schedRelease =>
    simp only [perform, schedRelease, releasePtable, bind_eq_ok,
      ensure_eq_ok, await_eq_ok, pure_eq_ok] at hstep
    obtain ⟨_, hcpu, _, ⟨_, hlock, rfl⟩, rfl⟩ := hstep
    exact .schedRelease hcpu hlock
  | yield =>
    simp only [perform, yield, acquirePtable, enterSched, bind_eq_ok,
      ensure_eq_ok, await_eq_ok, awaitSome_eq_ok, pure_eq_ok] at hstep
    obtain ⟨p, hcurrent, _, ⟨_, hyield, hstate⟩, _, ⟨_, _, _, hlock, rfl⟩,
      _, _, _, _, _, _, rfl⟩ := hstep
    exact .yield (current_eq_some.mp hcurrent).2 hyield hstate hlock
  | yieldReturn =>
    simp only [perform, yieldReturn, releasePtable, bind_eq_ok,
      ensure_eq_ok, await_eq_ok, awaitSome_eq_ok, pure_eq_ok] at hstep
    obtain ⟨p, hcurrent, _, hyield, _, ⟨_, hlock, rfl⟩, rfl⟩ := hstep
    exact .yieldReturn (current_eq_some.mp hcurrent).2 hyield hlock
  | interrupt i =>
    simp only [perform, interrupt, bind_eq_ok, await_eq_ok, pure_eq_ok] at hstep
    obtain ⟨_, ⟨hidle, _⟩, ⟨mem, k⟩, hintr, rfl⟩ := hstep
    exact .interrupt hidle hintr
  | device i =>
    simp only [perform, device, bind_eq_ok, pure_eq_ok] at hstep
    obtain ⟨mem, hdevice, rfl⟩ := hstep
    exact .device hdevice
  | run i =>
    simp only [perform, bind_eq_ok, awaitSome_eq_ok] at hstep
    obtain ⟨a, hactor, hrun⟩ := hstep
    exact .run hactor (runActor_ok hrun)

theorem RunOk.pc_of_ne (hrun : RunOk program s c i a t) (hne : b ≠ a) : t.pc b = s.pc b := by
  cases hrun <;> simp [hne]

/-- A step of a thread takes place inside `sleep`, `wakeup` or `kill`, or it is a
step of the caller's code. -/
theorem RunOk.view (hrun : RunOk program s c i a t) :
    (∀ b, (t.pc b).home = (s.pc b).home) ∧ t.mem = s.mem ∨
      ∃ k act, s.pc a = .code k ∧
        program.code (s.myproc a) i k s.mem = .ok act ∧
        (t.pc a).home = act.target k ∧ t.mem = act.result s.mem := by
  have hinside : ∀ pc : CodePc A L K, pc.home = (s.pc a).home → ∀ b,
      (Function.update s.pc a pc b).home = (s.pc b).home := by
    intro pc hpc b
    by_cases hb : b = a
    · simp [hb, hpc]
    · simp [hb]
  cases hrun with
  | acquire hpc hcode | release hpc hcode | wakeup hpc hcode | kill hpc hcode
  | store hpc hcode | sleep hpc hcode | iret hpc hcode =>
    refine Or.inr ⟨_, _, hpc, hcode, ?_, rfl⟩
    simp [CodePc.home, CodeAct.target, hpc]
  | sleepAcquire hpc | sleepRelease hpc | sleepChan hpc | sleepState hpc
  | sleepSched hpc | sleepSwtch hpc | sleepUnlock hpc | sleepRelock hpc
  | wakeAcquire hpc | wakeScan hpc | wakeEnd hpc | wakeRelease hpc
  | killAcquire hpc | killHit hpc | killMiss hpc | killRelease hpc =>
    refine Or.inl ⟨hinside _ ?_, rfl⟩
    simp [CodePc.home, hpc]

theorem RunOk.pid (hrun : RunOk program s c i a t) (p : Fin n) :
    (t.proc p).pid = (s.proc p).pid := by
  cases hrun with
  | @wakeScan _ q _ _ hpc =>
    by_cases hq : p = q
    · simp only [setTask, setPc, hq, Function.update_self, Task.wake]
      split <;> rfl
    · simp [hq]
  | @killHit _ q _ _ hpc hpid =>
    by_cases hq : p = q
    · simp [hq, Task.kill]
    · simp [hq]
  | @sleepChan q | @sleepState q | @sleepSwtch q =>
    by_cases hq : p = q
    · simp [hq]
    · simp [hq]
  | _ => rfl

theorem StepOk.pid {label : C × SleepMove n I} (hstep : StepOk program s label t) (p : Fin n) :
    (t.proc p).pid = (s.proc p).pid := by
  cases hstep with
  | @dispatch c q | @yield c q =>
    by_cases hq : p = q
    · simp [hq]
    · simp [hq]
  | run hactor hrun => exact hrun.pid p
  | _ => rfl

end SleepMachine

end Xv6Kernel
