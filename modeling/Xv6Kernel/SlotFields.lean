import Xv6Kernel.ProcFiles

/-!
# Well-formed slots

A started process has a kernel stack and a page directory, so `switchuvm` does
not panic; a slot that is free or a zombie holds no file and no directory, so
that `fork`, which copies only the open descriptors of the parent, leaves the
child exactly those.  The pids in the table are distinct as long as `nextpid`
has not wrapped.

`MemInvariant` and `TableInvariant` are about the process system alone and are
kept by `exec`, which changes nothing but a page directory.  `FileInvariant`
follows the descriptors through the loops of `fork` and `exit`.
-/

namespace Xv6Kernel

open TraceExecution Function

variable {C : Type} [DecidableEq C]

def Proc.HasMemory (p : Proc) : Prop := p.kstack ≠ none ∧ p.pgdir ≠ none

theorem switchuvm_ok {p : Proc} (hmemory : p.HasMemory) : switchuvm p = .ok () := by
  simp [switchuvm, ensure, hmemory.1, hmemory.2]

/-- The second slot has the memory that the first one has, or is free. -/
def Proc.KeepsMemory (before after : Proc) : Prop :=
  after.state = .unused ∨ (before.kstack ≠ none → after.kstack ≠ none) ∧
    (before.pgdir ≠ none → after.pgdir ≠ none)

theorem Proc.KeepsMemory.of_eq {before after : Proc} (hkstack : after.kstack = before.kstack)
    (hpgdir : after.pgdir = before.pgdir) : before.KeepsMemory after := by
  right
  rw [hkstack, hpgdir]
  exact ⟨id, id⟩

theorem Proc.KeepsMemory.hasMemory {before after : Proc} (hkeeps : before.KeepsMemory after)
    (hused : after.state ≠ .unused) (hmemory : before.HasMemory) : after.HasMemory := by
  obtain ⟨hkstack, hpgdir⟩ := hkeeps.resolve_left hused
  exact ⟨hkstack hmemory.1, hpgdir hmemory.2⟩

theorem keepsMemory_update {table : Table} {p q : Slot} {value : Proc}
    (hvalue : (table p).KeepsMemory value) : (table q).KeepsMemory (update table p value q) := by
  by_cases hq : q = p
  · subst q
    simpa using hvalue
  · simp [hq, Proc.KeepsMemory.of_eq]

theorem age_keepsMemory (source : SchedSource) (table : Table) (q : Slot) :
    (table q).KeepsMemory (Kernel.age source table q) := by
  cases source with
  | proc => exact .of_eq rfl rfl
  | proc3 =>
    simp only [Kernel.age, ageOne]
    split
    · exact .of_eq rfl rfl
    · split <;> exact .of_eq rfl rfl

theorem setPriority_keepsMemory (pid newPriority : ℤ) (table : Table)
    (q : Slot) : (table q).KeepsMemory ((setPriority pid newPriority table).1 q) := by
  unfold setPriority
  split
  · exact .of_eq rfl rfl
  · split
    · exact keepsMemory_update (.of_eq rfl rfl)
    · exact .of_eq rfl rfl

theorem kill_keepsMemory (pid : ℤ) (table : Table) (q : Slot) :
    (table q).KeepsMemory ((kill pid table).1 q) := by
  unfold kill
  split
  · exact keepsMemory_update (.of_eq rfl rfl)
  · exact .of_eq rfl rfl

theorem exitTable_keepsMemory (curproc : Slot) (initproc : Option Slot) (table : Table) (q : Slot) :
    (table q).KeepsMemory (exitTable curproc initproc table q) := by
  by_cases hq : q = curproc
  · subst q
    have hself := (exitTable_self curproc initproc table).2
    exact .of_eq hself.kstack hself.pgdir
  · have hwoken := exitTable_wokenFrom initproc table hq
    exact .of_eq hwoken.kstack hwoken.pgdir

namespace Kernel

structure MemInvariant (s : Kernel C) : Prop where
  started : ∀ q, (s.proc q).state.Started → (s.proc q).HasMemory
  booting : ∀ c i, s.sched c = .booting i → (s.proc i).HasMemory
  copyuvm : ∀ p q, (s.thread p).pc = .forkCopyuvm q → (s.proc q).kstack ≠ none
  publish : ∀ p q, (s.thread p).pc = .forkPublish q → (s.proc q).HasMemory

section Memory

variable {source : SchedSource} {s t : Kernel C} {c : C} {action : Action}

theorem StepOk.keepsMemory (hstep : StepOk source s c action t) (q : Slot) :
    (s.proc q).KeepsMemory (t.proc q) := by
  cases hstep
  case exit p hsched hthread hlock hinit =>
    exact exitTable_keepsMemory p s.initproc s.proc q
  case kill pid hsched hthread hlock => exact kill_keepsMemory pid s.proc q
  case setPriority p pid newPriority hsched hthread hlock =>
    exact setPriority_keepsMemory pid newPriority s.proc q
  case afterSwtch p hsched => exact age_keepsMemory source s.proc q
  case wakeup chan hlock =>
    have hwoken := wakeOne_wokenFrom (some chan) (s.proc q)
    exact .of_eq hwoken.kstack hwoken.pgdir
  case forkKallocFail | forkCopyuvmFail | waitReap => exact keepsMemory_update (Or.inl rfl)
  case userinitAlloc | forkKalloc | forkCopyuvm => exact keepsMemory_update (Or.inr (by simp))
  all_goals first
    | exact .of_eq rfl rfl
    | exact keepsMemory_update (.of_eq rfl rfl)

theorem StepOk.booting_hasMemory (hstep : StepOk source s c action t) {i : Slot}
    (hboot : s.sched c = .boot) (hnext : t.sched c = .booting i) : (t.proc i).HasMemory := by
  cases hstep <;> simp_all [Proc.HasMemory]

theorem MemInvariant.step (hmem : s.MemInvariant) (hbind : s.BindingInvariant)
    (hstep : StepOk source s c action t) : t.MemInvariant := by
  have hbind' := hbind.step hstep
  have hkeeps : ∀ q, (t.proc q).state ≠ .unused → (s.proc q).HasMemory →
      (t.proc q).HasMemory :=
    fun q => (hstep.keepsMemory q).hasMemory
  have hembryo : ∀ p q, forkChild (t.thread p).pc = some q →
      (t.proc q).state ≠ .unused := by
    intro p q hchild
    simp [(hbind'.fork.child p q hchild).1]
  constructor
  case started =>
    intro q hq
    rcases hstep.started_parent hbind hq with
      ⟨hbefore, _⟩ | hbooting | ⟨p, _, hpc, _⟩
    · exact hkeeps q hq.ne_unused (hmem.started q hbefore)
    · exact hkeeps q hq.ne_unused (hmem.booting c q hbooting)
    · exact hkeeps q hq.ne_unused (hmem.publish p q hpc)
  case booting =>
    intro c' i hbooting
    rcases hstep.booting_origin hbooting with hbefore | ⟨rfl, hboot, _, _⟩
    · refine hkeeps i ?_ (hmem.booting c' i hbefore)
      simp [hbind'.fork.booting c' i hbooting]
    · exact hstep.booting_hasMemory hboot hbooting
  case copyuvm =>
    intro p q hpc
    have hused := hembryo p q (by rw [hpc]; rfl)
    cases hstep.pcStep p with
    | same hnext =>
      rw [hnext] at hpc
      exact ((hstep.keepsMemory q).resolve_left hused).1 (hmem.copyuvm p q hpc)
    | reset hnext => simp [hnext] at hpc
    | forkAlloc _ hnext => simp [hnext] at hpc
    | forkKalloc _ hnext hkstack =>
      obtain rfl := Pc.forkCopyuvm.inj (hnext.symm.trans hpc)
      exact hkstack
    | forkCopyuvm _ hnext => simp [hnext] at hpc
    | waitSleep hnext => simp [hnext] at hpc
    | leaves hnext => simp [hpc, forkChild] at hnext
  case publish =>
    intro p q hpc
    have hused := hembryo p q (by rw [hpc]; rfl)
    cases hstep.pcStep p with
    | same hnext =>
      rw [hnext] at hpc
      exact hkeeps q hused (hmem.publish p q hpc)
    | reset hnext => simp [hnext] at hpc
    | forkAlloc _ hnext => simp [hnext] at hpc
    | forkKalloc _ hnext => simp [hnext] at hpc
    | forkCopyuvm hbefore hnext _ hkstack hpgdir =>
      obtain rfl := Pc.forkPublish.inj (hnext.symm.trans hpc)
      exact ⟨hkstack ▸ hmem.copyuvm p _ hbefore, hpgdir⟩
    | waitSleep hnext => simp [hnext] at hpc
    | leaves hnext => simp [hpc, forkChild] at hnext

theorem memInvariant_initial (bootCpu : C) : (initial bootCpu).MemInvariant := by
  have hunused : ∀ q, ((initial bootCpu).proc q).state = .unused := fun _ => rfl
  have hthread : ∀ p, ((initial bootCpu).thread p).pc = .exited := fun _ => rfl
  constructor
  · intro q hq
    simp [hunused q] at hq
  · intro c i hbooting
    by_cases hc : c = bootCpu <;> simp [initial, hc] at hbooting
  · intro p q hpc
    simp [hthread p] at hpc
  · intro p q hpc
    simp [hthread p] at hpc

end Memory

/-- The second kernel differs from the first in page directories only, and
has one wherever the first has. -/
structure OnlyPgdir (s t : Kernel C) : Prop where
  lock : t.lock = s.lock
  sched : t.sched = s.sched
  thread : t.thread = s.thread
  initproc : t.initproc = s.initproc
  nextpid : t.nextpid = s.nextpid
  cpuProc : t.cpuProc = s.cpuProc
  state : ∀ q, (t.proc q).state = (s.proc q).state
  parent : ∀ q, (t.proc q).parent = (s.proc q).parent
  pid : ∀ q, (t.proc q).pid = (s.proc q).pid
  kstack : ∀ q, (t.proc q).kstack = (s.proc q).kstack
  pgdir : ∀ q, (s.proc q).pgdir ≠ none → (t.proc q).pgdir ≠ none

section Pgdir

variable {s t : Kernel C}

omit [DecidableEq C]

theorem onlyPgdir_setProc (s : Kernel C) (p : Slot) (pgdir : Page) :
    OnlyPgdir s (s.setProc p { s.proc p with pgdir := some pgdir }) := by
  constructor <;> try rfl
  all_goals
    intro q
    by_cases hq : q = p
    · subst q
      simp
    · simp [hq]

theorem OnlyPgdir.bindingInvariant (hsame : OnlyPgdir s t)
    (hbind : s.BindingInvariant) : t.BindingInvariant := by
  constructor
  · simpa only [hsame.cpuProc, hsame.sched] using hbind.cpuProc
  · simpa only [hsame.lock, hsame.sched] using hbind.lock
  · constructor
    · simpa only [hsame.state, hsame.sched] using hbind.bound.running_iff
    · simpa only [hsame.sched] using hbind.bound.unique
  · constructor
    · simpa only [hsame.state, hsame.thread] using hbind.fork.child
    · simpa only [hsame.thread] using hbind.fork.unique
    · simpa only [hsame.state, hsame.sched] using hbind.fork.booting
    · simpa only [hsame.sched] using hbind.fork.bootingUnique
    · simpa only [hsame.sched, hsame.thread] using hbind.fork.bootingFresh

theorem OnlyPgdir.treeInvariant (hsame : OnlyPgdir s t)
    (htree : s.TreeInvariant) : t.TreeInvariant := by
  constructor
  · simpa only [hsame.sched] using htree.bootUnique
  · simpa only [hsame.sched, hsame.state] using htree.boot
  · simpa only [hsame.sched, hsame.state, hsame.initproc] using htree.booting
  · simpa only [hsame.sched, hsame.state, hsame.initproc, hsame.parent] using htree.init
  · simpa only [hsame.state, hsame.initproc] using htree.rooted
  · simpa only [hsame.state, hsame.parent] using htree.unused
  · simpa only [hsame.state, hsame.initproc, hsame.parent] using htree.parent
  · simpa only [hsame.thread, hsame.parent] using htree.orphan
  · simpa only [hsame.thread, hsame.parent] using htree.adopted

theorem OnlyPgdir.tableInvariant (hsame : OnlyPgdir s t)
    (hinv : s.TableInvariant) : t.TableInvariant where
  binding := hsame.bindingInvariant hinv.binding
  tree := hsame.treeInvariant hinv.tree
  pids := by
    constructor
    · simpa only [hsame.nextpid] using hinv.pids.positive
    · simpa only [hsame.nextpid, hsame.pid] using hinv.pids.range
    · simpa only [hsame.pid] using hinv.pids.distinct
  order := by
    constructor
    · simpa only [hsame.state, hsame.parent, hsame.pid] using hinv.order.parent
    · simpa only [hsame.state, hsame.initproc, hsame.pid] using hinv.order.init
    · simpa only [hsame.thread, hsame.pid] using hinv.order.child

theorem OnlyPgdir.memInvariant (hsame : OnlyPgdir s t)
    (hmem : s.MemInvariant) : t.MemInvariant := by
  have hkeeps : ∀ q, (s.proc q).HasMemory → (t.proc q).HasMemory := by
    intro q hq
    exact ⟨hsame.kstack q ▸ hq.1, hsame.pgdir q hq.2⟩
  constructor
  · intro q hq
    rw [hsame.state] at hq
    exact hkeeps q (hmem.started q hq)
  · intro c i hbooting
    rw [hsame.sched] at hbooting
    exact hkeeps i (hmem.booting c i hbooting)
  · simpa only [hsame.thread, hsame.kstack] using hmem.copyuvm
  · intro p q hpc
    rw [hsame.thread] at hpc
    exact hkeeps q (hmem.publish p q hpc)

end Pgdir

omit [DecidableEq C] in
theorem pc_of_update {s t : Kernel C} {p q : Slot} {pc : Pc} {value : Thread}
    (hthread : t.thread = update s.thread q value) (hne : p ≠ q)
    (hpc : (s.thread p).pc = pc) : (t.thread p).pc = pc := by
  rw [hthread, update_of_ne hne, hpc]

theorem StepOk.forkPublish_stays {source : SchedSource} {s t : Kernel C} {c : C} {action : Action}
    (hstep : StepOk source s c action t) (hbind : s.BindingInvariant) {p np : Slot}
    (hpc : (s.thread p).pc = .forkPublish np) :
    (t.thread p).pc = .forkPublish np ∨
      action = .forkPublish ∧ s.sched c = .switched p := by
  have hstate := (hbind.fork.child p np (by rw [hpc]; rfl)).2
  have hne : (s.proc p).state ≠ .unused ∧ (s.proc p).state ≠ .embryo := by
    rcases hstate with hstate | hstate <;> simp [hstate]
  cases hstep
  case userinitAlloc q k g hsched hlock hfind =>
    refine Or.inl (pc_of_update rfl ?_ hpc)
    rintro rfl
    exact hne.1 (findUnused_state hfind)
  case forkKalloc q np' k hsched hthread =>
    have hembryo := (hbind.fork.child q np' (by rw [hthread]; rfl)).1
    left
    refine (pc_of_update rfl ?_ ?_)
    · rintro rfl
      simp [hthread] at hpc
    · have hp : p ≠ np' := by
        rintro rfl
        exact hne.2 hembryo
      simpa [hp] using hpc
  case forkPublish q np' hsched hthread hlock =>
    by_cases hp : p = q
    · subst p
      exact Or.inr ⟨rfl, hsched⟩
    · exact Or.inl (pc_of_update rfl hp hpc)
  case yield q _ _ _ _ _ | yieldReturn q _ _ _ =>
    left
    by_cases hp : p = q
    · simpa [hp] using hpc
    · exact pc_of_update rfl hp hpc
  all_goals first
    | exact Or.inl hpc
    | exact Or.inl (pc_of_update rfl (by rintro rfl; simp_all) hpc)

end Kernel

/-! ## Descriptors -/

def FilePhase.child : FilePhase → Option Slot
  | .forkFd np _ | .forkCwd np | .forkDone np => some np
  | _ => none

namespace FileKernel

def Clean (s : FileKernel C) (q : Slot) : Prop :=
  s.cwd q = none ∧ ∀ fd, s.ofile q fd = none

def PhaseOk (s : FileKernel C) (p : Slot) : FilePhase → Prop
  | .user => True
  | .exitFd n => ∀ fd, fd.val < n → s.ofile p fd = none
  | .exitCwd => ∀ fd, s.ofile p fd = none
  | .exitDone => s.Clean p
  | .forkFd np n => (s.kernel.thread p).pc = .forkPublish np ∧
      s.cwd np = none ∧
      ∀ fd, s.ofile np fd = if fd.val < n then s.ofile p fd else none
  | .forkCwd np => (s.kernel.thread p).pc = .forkPublish np ∧
      s.cwd np = none ∧ ∀ fd, s.ofile np fd = s.ofile p fd
  | .forkDone np => (s.kernel.thread p).pc = .forkPublish np ∧
      s.cwd np = s.cwd p ∧ ∀ fd, s.ofile np fd = s.ofile p fd

structure FileInvariant (s : FileKernel C) : Prop where
  idle : ∀ q, (s.kernel.proc q).state = .unused ∨
    (s.kernel.proc q).state = .zombie → s.Clean q
  orphan : ∀ p q, Kernel.BeforeAdoption q (s.kernel.thread p).pc → s.Clean q
  live : ∀ p, s.phase p ≠ .user → (s.kernel.proc p).state.Live
  phase : ∀ p, s.PhaseOk p (s.phase p)

section Steps

variable {source : SchedSource} {s t : FileKernel C} {c : C} {action : Action} {p q np : Slot}
  {kernel : Kernel C} {phase : FilePhase}

section

omit [DecidableEq C]

theorem PhaseOk.child_pc (hok : s.PhaseOk p phase)
    (hchild : phase.child = some np) : (s.kernel.thread p).pc = .forkPublish np := by
  cases phase <;> simp only [FilePhase.child, Option.some.injEq, reduceCtorEq] at hchild
  all_goals
    subst hchild
    exact hok.1

theorem PhaseOk.congr (hok : s.PhaseOk p phase)
    (hpc : ∀ np, phase.child = some np → (t.kernel.thread p).pc = .forkPublish np)
    (hself : phase ≠ .user → t.cwd p = s.cwd p ∧ t.ofile p = s.ofile p)
    (hchild : ∀ np, phase.child = some np → t.cwd np = s.cwd np ∧ t.ofile np = s.ofile np) :
    t.PhaseOk p phase := by
  cases phase with
  | user => trivial
  | exitFd | exitCwd => simpa [PhaseOk, (hself (by simp)).2] using hok
  | exitDone => simpa [PhaseOk, Clean, hself (by simp)] using hok
  | forkFd np | forkCwd np =>
    refine ⟨hpc np rfl, ?_⟩
    rw [(hchild np rfl).1, (hchild np rfl).2, (hself (by simp)).2]
    exact hok.2
  | forkDone np =>
    refine ⟨hpc np rfl, ?_⟩
    rw [(hchild np rfl).1, (hchild np rfl).2, (hself (by simp)).1, (hself (by simp)).2]
    exact hok.2

theorem FileInvariant.child_embryo (hinv : s.FileInvariant) (hbind : s.kernel.BindingInvariant)
    (hchild : (s.phase p).child = some np) :
    forkChild (s.kernel.thread p).pc = some np ∧
      (s.kernel.proc np).state = .embryo := by
  have hpc := (hinv.phase p).child_pc hchild
  have hfork : forkChild (s.kernel.thread p).pc = some np := by rw [hpc]; rfl
  exact ⟨hfork, (hbind.fork.child p np hfork).1⟩

theorem FileInvariant.touch {x : Slot} (hinv : s.FileInvariant) (hkernel : t.kernel = s.kernel)
    (hfiles : ∀ q, q ≠ x → t.cwd q = s.cwd q ∧ t.ofile q = s.ofile q)
    (hphases : ∀ q, q ≠ p → t.phase q = s.phase q)
    (hused : (s.kernel.proc x).state ≠ .unused ∧ (s.kernel.proc x).state ≠ .zombie)
    (hadopted : ∀ q, ¬ Kernel.BeforeAdoption x (s.kernel.thread q).pc)
    (hothers : ∀ q, q ≠ p → s.phase q ≠ .user → q ≠ x ∧ (s.phase q).child ≠ some x)
    (hlive : t.phase p ≠ .user → (s.kernel.proc p).state.Live) (hok : t.PhaseOk p (t.phase p)) :
    t.FileInvariant := by
  constructor
  case idle =>
    intro q hq
    rw [hkernel] at hq
    have hne : q ≠ x := by
      rintro rfl
      rcases hq with hq | hq
      · exact hused.1 hq
      · exact hused.2 hq
    unfold Clean
    rw [(hfiles q hne).1, (hfiles q hne).2]
    exact hinv.idle q hq
  case orphan =>
    intro q r hpc
    rw [hkernel] at hpc
    have hne : r ≠ x := by
      rintro rfl
      exact hadopted q hpc
    unfold Clean
    rw [(hfiles r hne).1, (hfiles r hne).2]
    exact hinv.orphan q r hpc
  case live =>
    intro q hq
    rw [hkernel]
    by_cases hqp : q = p
    · subst q
      exact hlive hq
    · rw [hphases q hqp] at hq
      exact hinv.live q hq
  case phase =>
    intro q
    by_cases hqp : q = p
    · subst q
      exact hok
    · rw [hphases q hqp]
      have hold := hinv.phase q
      refine hold.congr ?_ ?_ ?_
      · intro np hchild
        rw [hkernel]
        exact hold.child_pc hchild
      · intro hphase
        exact hfiles q (hothers q hqp hphase).1
      · intro np hchild
        apply hfiles np
        rintro rfl
        refine (hothers q hqp ?_).2 hchild
        intro huser
        simp [huser, FilePhase.child] at hchild

/-! ### Steps of the process system -/

@[simp] theorem afterKernel_kernel (kernel : Kernel C) :
    (s.afterKernel c action kernel).kernel = kernel := rfl

@[simp] theorem afterKernel_cwd (kernel : Kernel C) :
    (s.afterKernel c action kernel).cwd = s.cwd := rfl

@[simp] theorem afterKernel_ofile (kernel : Kernel C) :
    (s.afterKernel c action kernel).ofile = s.ofile := rfl

end

theorem afterKernel_phase (q : Slot) (hstep : Kernel.StepOk source s.kernel c action kernel) :
    (s.afterKernel c action kernel).phase q = s.phase q ∨
      (∃ np, (s.kernel.thread q).pc = .forkCopyuvm np ∧
        (kernel.thread q).pc = .forkPublish np ∧ action ≠ .exit ∧
        s.kernel.sched c = .switched q ∧
        (s.afterKernel c action kernel).phase q = .forkFd np 0) ∨
      (s.afterKernel c action kernel).phase q = .user := by
  by_cases hq : s.kernel.current c = some q
  · have hphase : (s.afterKernel c action kernel).phase q =
        s.nextPhase q action := by
      simp [afterKernel, hq]
    rw [hphase]
    have hsched := Kernel.current_eq_some.mp hq
    cases hstep
    case forkCopyuvm p np g hsched' hthread =>
      obtain rfl : p = q := SchedPc.switched.inj (hsched'.symm.trans hsched)
      refine Or.inr (Or.inl ⟨np, by rw [hthread], by simp, by simp, hsched, ?_⟩)
      simp [nextPhase, hthread]
    case exit | forkPublish => exact Or.inr (Or.inr rfl)
    all_goals exact Or.inl rfl
  · left
    cases hcurrent : s.kernel.current c with
    | none => simp [afterKernel, hcurrent]
    | some p =>
      have hne : q ≠ p := by
        rintro rfl
        exact hq hcurrent
      simp [afterKernel, hcurrent, hne]

omit [DecidableEq C] in
theorem afterKernel_phase_ended
    (hsched : s.kernel.sched c = .switched q) (hends : action = .exit ∨ action = .forkPublish) :
    (s.afterKernel c action kernel).phase q = .user := by
  have hcurrent := Kernel.current_eq_some.mpr hsched
  rcases hends with rfl | rfl <;> simp [afterKernel, hcurrent, nextPhase]

section

variable (hinv : s.FileInvariant)

include hinv

theorem FileInvariant.kernelStep
    (hbind : s.kernel.BindingInvariant) (hphase : allows (s.phaseOn c) action = true)
    (hstep : Kernel.StepOk source s.kernel c action kernel) :
    (s.afterKernel c action kernel).FileInvariant := by
  constructor
  case idle =>
    intro q hq
    change s.Clean q
    by_cases hexit : action = .exit
    · subst action
      cases hstep with
      | @exit p hsched =>
        by_cases hqp : q = p
        · subst q
          have hdone : s.phase p = .exitDone := by
            simpa [allows, phaseOn, Kernel.current_eq_some.mpr hsched] using hphase
          have hok := hinv.phase p
          rw [hdone] at hok
          exact hok
        · have hwoken := exitTable_wokenFrom s.kernel.initproc s.kernel.proc hqp
          apply hinv.idle q
          rcases hwoken.state with hsame | ⟨_, hrun⟩
          · rw [← hsame]
            exact hq
          · rcases hq with hq | hq
            · have hboth := hrun.symm.trans hq
              contradiction
            · have hboth := hrun.symm.trans hq
              contradiction
    · cases hstep.slotStep hbind.bound hexit q with
      | kept _ hstate =>
        rcases hstate with hsame | ⟨_, hlive⟩
        · exact hinv.idle q (hsame ▸ hq)
        · simp only [afterKernel_kernel] at hq
          rcases hq with hq | hq <;> simp [hq] at hlive
      | allocated hbefore => exact hinv.idle q (Or.inl hbefore)
      | booted _ _ hafter | published _ _ hafter => simp [hafter] at hq
      | failed _ hpc => exact hinv.orphan _ q hpc
      | adopted _ hpc _ hstate => exact hinv.orphan _ q (Or.inr hpc)
      | reaped _ hbefore => exact hinv.idle q (Or.inr hbefore)
  case orphan =>
    intro p q hpc
    change s.Clean q
    cases hstep.pcStep p with
    | same hnext => exact hinv.orphan p q (hnext ▸ hpc)
    | reset hnext | forkCopyuvm _ hnext | waitSleep hnext =>
          simp [hnext, Kernel.BeforeAdoption] at hpc
    | @forkAlloc np _ hnext hunused =>
      obtain rfl : np = q := by
        simpa [hnext, Kernel.BeforeAdoption] using hpc
      exact hinv.idle np (Or.inl hunused)
    | @forkKalloc np hbefore hnext =>
      obtain rfl : np = q := by
        simpa [hnext, Kernel.BeforeAdoption] using hpc
      exact hinv.orphan p np (Or.inl hbefore)
    | leaves hnext =>
      simp only [afterKernel_kernel] at hpc
      simp [hpc.forkChild_eq] at hnext
  case live =>
    intro p hp
    change (kernel.proc p).state.Live
    by_cases hexit : action = .exit
    · subst action
      cases hstep with
      | @exit q hsched =>
        have hne : p ≠ q := by
          rintro rfl
          exact hp (afterKernel_phase_ended hsched (Or.inl rfl))
        have hsame : s.phase p ≠ .user := by
          simpa [afterKernel, Kernel.current_eq_some.mpr hsched, hne] using hp
        exact (exitTable_wokenFrom s.kernel.initproc s.kernel.proc
          hne).live_iff.mpr (hinv.live p hsame)
    · rcases afterKernel_phase p hstep with hsame | ⟨_, _, _, _, hsched, _⟩ | huser
      · exact hstep.live_stays hbind hexit (hinv.live p (hsame ▸ hp))
      · exact hstep.live_stays hbind hexit (by simp [hbind.running hsched])
      · exact (hp huser).elim
  case phase =>
    intro p
    rcases afterKernel_phase p hstep with
      hsame | ⟨np, hpc, hnext, _, _, hphase'⟩ | huser
    · rw [hsame]
      have hold := hinv.phase p
      by_cases hends : action = .forkPublish ∧ s.kernel.sched c = .switched p
      · have huser : (s.afterKernel c action kernel).phase p = .user :=
          afterKernel_phase_ended hends.2 (Or.inr hends.1)
        rw [← hsame, huser]
        trivial
      · refine hold.congr ?_ (fun _ => ⟨rfl, rfl⟩) (fun _ _ => ⟨rfl, rfl⟩)
        intro np hchild
        exact (hstep.forkPublish_stays hbind (hold.child_pc hchild)).resolve_right hends
    · rw [hphase']
      have hclean := hinv.orphan p np (Or.inr hpc)
      refine ⟨hnext, hclean.1, ?_⟩
      intro fd
      simpa using hclean.2 fd
    · rw [huser]
      trivial

/-! ### Steps of the descriptor calls and loops -/

omit [DecidableEq C] in
theorem FileInvariant.touchSelf (hbind : s.kernel.BindingInvariant)
    (hsched : s.kernel.sched c = .switched p) (hkernel : t.kernel = s.kernel)
    (hfiles : ∀ q, q ≠ p → t.cwd q = s.cwd q ∧ t.ofile q = s.ofile q)
    (hphases : ∀ q, q ≠ p → t.phase q = s.phase q) (hok : t.PhaseOk p (t.phase p)) :
    t.FileInvariant := by
  have hrunning := hbind.running hsched
  refine hinv.touch hkernel hfiles hphases ?_ ?_ ?_ ?_ hok
  · simp [hrunning]
  · intro q hpc
    simp [(hbind.fork.child q p hpc.forkChild_eq).1] at hrunning
  · intro q hq _
    refine ⟨hq, ?_⟩
    intro hchild
    simp [(hinv.child_embryo hbind hchild).2] at hrunning
  · intro _
    simp [hrunning]

omit [DecidableEq C] in
theorem FileInvariant.touchChild
    (hbind : s.kernel.BindingInvariant) (hsched : s.kernel.sched c = .switched p)
    (hchild : (s.phase p).child = some np) (hkernel : t.kernel = s.kernel)
    (hfiles : ∀ q, q ≠ np → t.cwd q = s.cwd q ∧ t.ofile q = s.ofile q)
    (hphases : ∀ q, q ≠ p → t.phase q = s.phase q) (hok : t.PhaseOk p (t.phase p)) :
    t.FileInvariant := by
  have hrunning := hbind.running hsched
  have hpc := (hinv.phase p).child_pc hchild
  obtain ⟨hfork, hembryo⟩ := hinv.child_embryo hbind hchild
  refine hinv.touch hkernel hfiles hphases ?_ ?_ ?_ ?_ hok
  · simp [hembryo]
  · intro q hbefore
    obtain rfl := hbind.fork.unique q p np hbefore.forkChild_eq hfork
    simp [hpc, Kernel.BeforeAdoption] at hbefore
  · intro q hq hphase
    refine ⟨?_, ?_⟩
    · rintro rfl
      have hlive := hinv.live q hphase
      simp [hembryo] at hlive
    · intro hother
      exact hq (hbind.fork.unique q p np (hinv.child_embryo hbind hother).1 hfork)
  · intro _
    simp [hrunning]

omit [DecidableEq C] in
theorem FileInvariant.onlyPgdir (hsame : Kernel.OnlyPgdir s.kernel t.kernel) (hcwd : t.cwd = s.cwd)
    (hofile : t.ofile = s.ofile) (hphase : t.phase = s.phase) : t.FileInvariant := by
  constructor
  · simpa only [Clean, hsame.state, hcwd, hofile] using hinv.idle
  · simpa only [Clean, hsame.thread, hcwd, hofile] using hinv.orphan
  · simpa only [hsame.state, hphase] using hinv.live
  · intro p
    have hold := hinv.phase p
    rw [hphase]
    refine hold.congr ?_ (fun _ => by simp [hcwd, hofile]) (fun _ _ => by simp [hcwd, hofile])
    intro np hchild
    rw [hsame.thread]
    exact hold.child_pc hchild

omit [DecidableEq C] in
theorem FileInvariant.enter
    (hbind : s.kernel.BindingInvariant) (hsched : s.kernel.sched c = .switched p)
    (hok : s.PhaseOk p phase) : (s.setPhase p phase).FileInvariant := by
  refine hinv.touchSelf hbind hsched rfl (fun _ _ => ⟨rfl, rfl⟩) ?_ ?_
  · intro q hq
    simp [hq]
  · simp only [setPhase, update_self]
    cases phase <;> exact hok

theorem FileInvariant.step {action : FileAction}
    (hbind : s.kernel.BindingInvariant) (hstep : StepOk source s c action t) : t.FileInvariant := by
  cases hstep with
  | kernel hphase hstep => exact hinv.kernelStep hbind hphase hstep
  | @userinitCwd p ip hsched =>
    have hembryo := hbind.fork.booting c p hsched
    have huser : s.phase p = .user := by
      by_contra hphase
      have hlive := hinv.live p hphase
      simp [hembryo] at hlive
    refine hinv.touch (p := p) (x := p) rfl ?_ (fun _ _ => rfl) ?_ ?_ ?_ ?_ ?_
    · intro q hq
      simp [hq]
    · simp [hembryo]
    · intro q hpc
      exact hbind.fork.bootingFresh c p q hsched hpc.forkChild_eq
    · intro q hq _
      refine ⟨hq, ?_⟩
      intro hchild
      exact hbind.fork.bootingFresh c p q hsched (hinv.child_embryo hbind hchild).1
    · intro hphase
      exact (hphase huser).elim
    · simp [huser, PhaseOk]
  | @files p action cwd ofile haction hsched hphase =>
    refine hinv.touchSelf hbind hsched rfl ?_ (fun _ _ => rfl) ?_
    · intro q hq
      simp [hq]
    · simp [hphase, PhaseOk]
  | @exec p pgdir hsched =>
    exact hinv.onlyPgdir (Kernel.onlyPgdir_setProc s.kernel p pgdir) rfl rfl rfl
  | growproc => exact hinv
  | @forkSkip p np i h hsched hphase hnone =>
    have hok := hinv.phase p
    rw [hphase] at hok
    refine hinv.enter hbind hsched ⟨hok.1, hok.2.1, ?_⟩
    intro fd
    rw [hok.2.2 fd]
    by_cases hfd : fd.val = i
    · obtain rfl : fd = ⟨i, h⟩ := Fin.ext hfd
      simp [hnone]
    · have hiff : fd.val < i ↔ fd.val < i + 1 := by omega
      simp only [hiff]
  | @forkFd p np i h hsched hphase =>
    have hok := hinv.phase p
    rw [hphase] at hok
    have hchild : (s.phase p).child = some np := by rw [hphase]; rfl
    have hne : p ≠ np := by
      rintro rfl
      have hrunning := hbind.running hsched
      simp [(hinv.child_embryo hbind hchild).2] at hrunning
    refine hinv.touchChild hbind hsched hchild rfl ?_ ?_ ?_
    · intro q hq
      simp [hq]
    · intro q hq
      simp [hq]
    · simp only [setPhase, setFd, update_self]
      refine ⟨hok.1, hok.2.1, ?_⟩
      intro fd
      simp only [update_self, update_of_ne hne]
      by_cases hfd : fd.val = i
      · obtain rfl : fd = ⟨i, h⟩ := Fin.ext hfd
        simp
      · have hiff : fd.val < i ↔ fd.val < i + 1 := by omega
        have hfd' : fd ≠ ⟨i, h⟩ := fun heq => hfd (congrArg Fin.val heq)
        rw [update_of_ne hfd', hok.2.2 fd]
        simp only [hiff]
  | @forkEnd p np i hsched hphase hlast =>
    have hok := hinv.phase p
    rw [hphase] at hok
    refine hinv.enter hbind hsched ⟨hok.1, hok.2.1, ?_⟩
    intro fd
    have hlt : fd.val < i := lt_of_lt_of_le fd.isLt hlast
    simpa [hlt] using hok.2.2 fd
  | @forkCwd p np hsched hphase =>
    have hok := hinv.phase p
    rw [hphase] at hok
    have hchild : (s.phase p).child = some np := by rw [hphase]; rfl
    refine hinv.touchChild hbind hsched hchild rfl ?_ ?_ ?_
    · intro q hq
      simp [hq]
    · intro q hq
      simp [hq]
    · simp only [setPhase, setCwd, update_self]
      refine ⟨hok.1, ?_, hok.2.2⟩
      by_cases hp : p = np <;> simp [hp]
  | @exitBegin p hsched hphase =>
    exact hinv.enter hbind hsched (by simp [PhaseOk])
  | @exitFd p i h hsched hphase =>
    have hok := hinv.phase p
    rw [hphase] at hok
    refine hinv.touchSelf hbind hsched rfl ?_ ?_ ?_
    · intro q hq
      simp [hq]
    · intro q hq
      simp [hq]
    · simp only [setPhase, setFd, update_self]
      intro fd hlt
      by_cases hfd : fd = ⟨i, h⟩
      · simp [hfd]
      · have hval : fd.val ≠ i := fun heq => hfd (Fin.ext heq)
        simpa [hfd] using hok fd (by omega)
  | @exitEnd p i hsched hphase hlast =>
    have hok := hinv.phase p
    rw [hphase] at hok
    exact hinv.enter hbind hsched fun fd => hok fd (lt_of_lt_of_le fd.isLt hlast)
  | @exitCwd p hsched hphase =>
    have hok := hinv.phase p
    rw [hphase] at hok
    refine hinv.touchSelf hbind hsched rfl ?_ ?_ ?_
    · intro q hq
      simp [hq]
    · intro q hq
      simp [hq]
    · simp only [setPhase, setCwd, update_self]
      exact ⟨by simp, hok⟩

end

/-! ### Whole runs -/

def allocates : FileAction → Bool
  | .kernel action => Kernel.allocates action
  | _ => false

def allocations (trace : List (C × FileAction)) : ℕ :=
  trace.countP fun label => allocates label.2

def HasPid (s : FileKernel C) (label : C × FileAction) : Prop :=
  allocates label.2 = true → s.kernel.nextpid < 2 ^ 31 - 1

structure SlotInvariant (s : FileKernel C) : Prop where
  table : s.kernel.TableInvariant
  memory : s.kernel.MemInvariant
  files : s.FileInvariant

theorem StepOk.kernel_step {action : FileAction} (hstep : StepOk source s c action t) :
    (∃ kaction, action = .kernel kaction ∧
        Kernel.StepOk source s.kernel c kaction t.kernel) ∨
      allocates action = false ∧ (t.kernel = s.kernel ∨
        Kernel.OnlyPgdir s.kernel t.kernel) := by
  cases hstep with
  | kernel hphase hstep => exact Or.inl ⟨_, rfl, hstep⟩
  | files haction =>
    refine Or.inr ⟨?_, Or.inl rfl⟩
    cases action <;> first
      | rfl
      | exact (haction _ rfl).elim
  | exec => exact Or.inr ⟨rfl, Or.inr (Kernel.onlyPgdir_setProc _ _ _)⟩
  | _ => exact Or.inr ⟨rfl, Or.inl rfl⟩

theorem SlotInvariant.step {action : FileAction} (hinv : s.SlotInvariant)
    (hroom : s.HasPid (c, action)) (hstep : StepOk source s c action t) : t.SlotInvariant := by
  have hfiles := hinv.files.step hinv.table.binding hstep
  rcases hstep.kernel_step with ⟨kaction, rfl, hkernel⟩ | ⟨_, hsame | hsame⟩
  · exact ⟨hinv.table.step hkernel hroom, hinv.memory.step hinv.table.binding hkernel, hfiles⟩
  · exact ⟨hsame ▸ hinv.table, hsame ▸ hinv.memory, hfiles⟩
  · exact ⟨hsame.tableInvariant hinv.table, hsame.memInvariant hinv.memory, hfiles⟩

theorem slotInvariant_initial (bootCpu : C) : (initial bootCpu).SlotInvariant := by
  refine ⟨Kernel.tableInvariant_initial bootCpu, Kernel.memInvariant_initial bootCpu, ?_⟩
  constructor
  · exact fun _ _ => ⟨rfl, fun _ => rfl⟩
  · exact fun _ _ _ => ⟨rfl, fun _ => rfl⟩
  · exact fun _ hphase => (hphase rfl).elim
  · exact fun _ => trivial

theorem stepsMeet_hasPid {bootCpu : C} {trace : List (C × FileAction)}
    (hfew : allocations trace < 2 ^ 31 - 1) :
    StepsMeet (step source) HasPid (initial bootCpu) trace := by
  have hcount : (initial bootCpu).kernel.nextpid + allocations trace ≤
      2 ^ 31 - 1 := by
    have hnext : (initial bootCpu).kernel.nextpid = 1 := rfl
    omega
  refine stepsMeet_counter 1 ?_ ?_ (le_refl (1 : ℤ)) hcount
  · rintro s ⟨c, action⟩ t hstep hallocates hpos hlt
    rcases (step_ok hstep).kernel_step with ⟨kaction, rfl, hkernel⟩ | ⟨hnot, _⟩
    · cases hkernel.pidStep with
      | kept hkept =>
        rw [show allocates (.kernel kaction) = _ from hkept] at hallocates
        contradiction
      | allocated _ _ hnext => rw [hnext, succPid_eq hpos hlt]
    · simp [hnot] at hallocates
  · rintro s ⟨c, action⟩ t hstep hkept
    rcases (step_ok hstep).kernel_step with
      ⟨kaction, rfl, hkernel⟩ | ⟨_, hsame | hsame⟩
    · cases hkernel.pidStep with
      | kept _ hnext => exact hnext
      | allocated hallocates =>
        rw [show allocates (.kernel kaction) = _ from hallocates] at hkept
        contradiction
    · rw [hsame]
    · exact hsame.nextpid

theorem slotInvariant_of_run {bootCpu : C} {trace : List (C × FileAction)}
    (hrun : TraceExecution.exec (step source) (initial bootCpu) trace = some s)
    (hfew : allocations trace < 2 ^ 31 - 1) : s.SlotInvariant := by
  refine StepsMeet.invariant (P := SlotInvariant) (Q := HasPid) ?_
    (slotInvariant_initial bootCpu) (stepsMeet_hasPid hfew) hrun
  rintro s ⟨c, action⟩ t hinv hroom hstep
  exact hinv.step hroom (step_ok hstep)

omit [DecidableEq C] in
theorem SlotInvariant.hasMemory_of_chosen (hinv : s.SlotInvariant)
    (hchosen : s.kernel.chosen c = some q) : (s.kernel.proc q).HasMemory := by
  obtain ⟨p, _, hrunnable, rfl⟩ := Kernel.chosen_eq_some hchosen
  apply hinv.memory.started
  simp [highestp_runnable hrunnable, ProcState.Started]

omit [DecidableEq C] in
theorem SlotInvariant.hasMemory_of_current (hinv : s.SlotInvariant)
    (hsched : s.kernel.sched c = .switched p) : (s.kernel.proc p).HasMemory := by
  apply hinv.memory.started
  simp [hinv.table.binding.running hsched, ProcState.Started]

theorem SlotInvariant.switchuvm_ok (hinv : s.SlotInvariant) (msg : String) :
    (∀ q, Kernel.perform source s.kernel (c, .dispatch q) ≠
      .error (.panic msg)) ∧
    (∀ pgdir, perform source s (c, .exec pgdir) ≠ .error (.panic msg)) ∧
    perform source s (c, .growproc) ≠ .error (.panic msg) := by
  refine ⟨?_, ?_, ?_⟩
  · intro q hpanic
    simp only [Kernel.perform, Kernel.schedDispatch, bind_eq_panic, await_ne_panic, await_eq_ok,
      ensure_eq_panic, ensure_eq_ok, pure_ne_panic, false_or] at hpanic
    obtain ⟨_, hchosen, hmissing⟩ := hpanic
    have hmemory := hinv.hasMemory_of_chosen hchosen
    simp [hmemory.1, hmemory.2] at hmissing
  · intro pgdir hpanic
    simp only [perform, FileKernel.exec, bind_eq_panic, awaitSome_ne_panic,
      awaitSome_eq_ok, pure_ne_panic, false_or] at hpanic
    obtain ⟨p, hcaller, hmissing⟩ := hpanic
    have hmemory := hinv.hasMemory_of_current (caller_eq_some.mp hcaller).1
    have hnew : Proc.HasMemory { s.kernel.proc p with pgdir := some pgdir } := ⟨hmemory.1, by simp⟩
    simp [Xv6Kernel.switchuvm_ok hnew] at hmissing
  · intro hpanic
    simp only [perform, FileKernel.growproc, bind_eq_panic, awaitSome_ne_panic,
      awaitSome_eq_ok, pure_ne_panic, false_or] at hpanic
    obtain ⟨p, hcaller, hmissing⟩ := hpanic
    have hmemory := hinv.hasMemory_of_current (caller_eq_some.mp hcaller).1
    simp [Xv6Kernel.switchuvm_ok hmemory] at hmissing

omit [DecidableEq C] in
/-- When `fork` publishes the child, the child has the descriptors and the
directory of its parent and nothing else. -/
theorem SlotInvariant.published (hinv : s.SlotInvariant)
    (hsched : s.kernel.sched c = .switched p) (hpc : (s.kernel.thread p).pc = .forkPublish np)
    (hphase : allows (s.phaseOn c) .forkPublish = true) :
    s.cwd np = s.cwd p ∧ ∀ fd, s.ofile np fd = s.ofile p fd := by
  have hphase' : allows (s.phase p) .forkPublish = true := by
    simpa [phaseOn, Kernel.current_eq_some.mpr hsched] using hphase
  have hok := hinv.files.phase p
  cases hp : s.phase p with
  | forkDone np' =>
    rw [hp] at hok
    obtain rfl := Pc.forkPublish.inj (hok.1.symm.trans hpc)
    exact hok.2
  | _ => simp [hp, allows] at hphase'

end Steps

end FileKernel

/-- In every state of a run that has taken fewer than `2^31 - 1` pids: nonzero
pids, also those left in UNUSED slots, are distinct and below `nextpid`; a
started process has a kernel stack and a page directory, so that `switchuvm`
does not panic in any of its callers; and a slot that is UNUSED or ZOMBIE has
no directory and no open file, so that a child is published with exactly the
directory and descriptors of its parent. -/
theorem slot_wellformed {source : SchedSource} {bootCpu : C} {trace : List (C × FileAction)}
    {s : FileKernel C}
    (hrun : exec (FileKernel.step source) (FileKernel.initial bootCpu) trace = some s)
    (hfew : FileKernel.allocations trace < 2 ^ 31 - 1) :
    (∀ p q, (s.kernel.proc p).pid ≠ 0 →
      (s.kernel.proc p).pid = (s.kernel.proc q).pid → p = q) ∧
    (∀ p, (s.kernel.proc p).pid ≠ 0 →
      (s.kernel.proc p).pid < s.kernel.nextpid) ∧
    (∀ q, (s.kernel.proc q).state.Started →
      (s.kernel.proc q).kstack ≠ none ∧ (s.kernel.proc q).pgdir ≠ none) ∧
    (∀ c msg,
      (∀ q, Kernel.perform source s.kernel (c, .dispatch q) ≠
        .error (.panic msg)) ∧
      (∀ pgdir, FileKernel.perform source s (c, .exec pgdir) ≠
        .error (.panic msg)) ∧
      FileKernel.perform source s (c, .growproc) ≠ .error (.panic msg)) ∧
    (∀ q, (s.kernel.proc q).state = .unused ∨
        (s.kernel.proc q).state = .zombie →
      s.cwd q = none ∧ ∀ fd, s.ofile q fd = none) ∧
    (∀ c p np t, FileKernel.step source s (c, .kernel .forkPublish) = some t →
      s.kernel.sched c = .switched p →
      (s.kernel.thread p).pc = .forkPublish np →
      t.cwd np = s.cwd p ∧ ∀ fd, t.ofile np fd = s.ofile p fd) := by
  have hinv := FileKernel.slotInvariant_of_run hrun hfew
  refine ⟨?_, ?_, hinv.memory.started, ?_, hinv.files.idle, ?_⟩
  · intro p q hne heq
    exact hinv.table.pids.distinct p q heq hne
  · intro p _
    exact (hinv.table.pids.range p).2
  · intro c msg
    exact hinv.switchuvm_ok msg
  · intro c p np t hstep hsched hpc
    cases FileKernel.step_ok hstep with
    | kernel hphase _ => exact hinv.published hsched hpc hphase
    | files haction => exact (haction _ rfl).elim

def forkWithFile : List (Bool × FileAction) :=
  [(false, .kernel (.userinitAlloc (some 1) (some 2))),
    (false, .userinitCwd 0), (false, .kernel .userinitPublish),
    (true, .kernel .acquirePtable), (true, .kernel (.dispatch 0)),
    (true, .kernel .forkret), (true, .fdalloc 3),
    (true, .kernel (.forkAlloc (some 1))),
    (true, .kernel (.forkKalloc (some 3))),
    (true, .kernel (.forkCopyuvm (some 4)))] ++
    List.replicate 18 (true, .forkDup) ++ [(true, .kernel .forkPublish)]

def childHasFile (s : FileKernel Bool) : Bool :=
  (s.kernel.proc 1).state = .runnable ∧ s.ofile 1 0 = some 3

theorem slot_wellformed_forkWithFile :
    ∃ s, exec (FileKernel.step .proc) (FileKernel.initial false) forkWithFile =
        some s ∧ s.ofile 1 0 = some 3 ∧
      (s.kernel.proc 1).kstack ≠ none ∧ (s.kernel.proc 1).pgdir ≠ none := by
  obtain ⟨s, hrun, htest⟩ : ∃ s, exec (FileKernel.step .proc)
      (FileKernel.initial false) forkWithFile = some s ∧
        childHasFile s = true :=
    exec_of_any (by decide +kernel)
  obtain ⟨hstate, hfile⟩ :
      (s.kernel.proc 1).state = .runnable ∧ s.ofile 1 0 = some 3 := by
    simpa [childHasFile] using htest
  refine ⟨s, hrun, hfile, ?_⟩
  exact (slot_wellformed hrun (by decide)).2.2.1 1 (Or.inl (Or.inl hstate))

end Xv6Kernel
