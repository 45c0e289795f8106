import Xv6Kernel.CpuBinding
import Mathlib.Logic.Relation

/-!
# The process tree

The `parent` pointers of `proc.c` are slots, which are recycled.  They form a
tree rooted at init because `exit` redirects every child in the critical
section in which it becomes ZOMBIE, `wait` clears the pointer of the slot it
frees, and a `fork` that fails does so before it has set the pointer.

`SlotStep` says what a step other than `exit` can do to one slot.
`TreeInvariant` follows from it, without any assumption on pids.  As long as
`nextpid` has not wrapped, pids grow along the tree.
-/

namespace Xv6Kernel

open TraceExecution ProcState Option

variable {C : Type} [DecidableEq C]

def ProcState.Live (state : ProcState) : Prop :=
  state = .runnable ∨ state = .running ∨ state = .sleeping

/-- A process that has been started and not been reaped yet. -/
def ProcState.Started (state : ProcState) : Prop :=
  state.Live ∨ state = .zombie

@[simp] theorem ProcState.live_runnable : runnable.Live := Or.inl rfl

@[simp] theorem ProcState.live_running : running.Live :=
  Or.inr (Or.inl rfl)

@[simp] theorem ProcState.live_sleeping : sleeping.Live :=
  Or.inr (Or.inr rfl)

@[simp] theorem ProcState.not_live_unused : ¬ unused.Live := by
  simp [ProcState.Live]

@[simp] theorem ProcState.not_live_embryo : ¬ embryo.Live := by
  simp [ProcState.Live]

@[simp] theorem ProcState.not_live_zombie : ¬ zombie.Live := by
  simp [ProcState.Live]

@[simp] theorem ProcState.started_zombie : zombie.Started := Or.inr rfl

@[simp] theorem ProcState.not_started_unused : ¬ unused.Started := by
  simp [ProcState.Started]

@[simp] theorem ProcState.not_started_embryo : ¬ embryo.Started := by
  simp [ProcState.Started]

theorem ProcState.Live.started {state : ProcState} (hlive : state.Live) :
    state.Started := Or.inl hlive

theorem ProcState.Started.ne_unused {state : ProcState}
    (hstarted : state.Started) : state ≠ .unused := by
  rintro rfl
  simp at hstarted

theorem Proc.WokenFrom.live_iff {before after : Proc}
    (hwoken : before.WokenFrom after) : after.state.Live ↔ before.state.Live := by
  rcases hwoken.state with hsame | ⟨hsleep, hrun⟩
  · rw [hsame]
  · simp [hsleep, hrun]

theorem Proc.WokenFrom.started_iff {before after : Proc} (hwoken : before.WokenFrom after) :
    after.state.Started ↔ before.state.Started := by
  rcases hwoken.state with hsame | ⟨hsleep, hrun⟩
  · rw [hsame]
  · simp [hsleep, hrun, ProcState.Started]

def inBoot : SchedPc → Bool
  | .boot | .booting _ => true
  | _ => false

namespace Kernel

/-! ## What a step other than `exit` does to a slot -/

inductive SlotStep (s t : Kernel C) (c : C) (action : Action) (q : Slot) : Prop
  | kept (hparent : (t.proc q).parent = (s.proc q).parent)
      (hstate : (t.proc q).state = (s.proc q).state ∨
        (s.proc q).state.Live ∧ (t.proc q).state.Live)
  | allocated (hbefore : (s.proc q).state = .unused)
      (hafter : (t.proc q).state = .embryo)
      (hparent : (t.proc q).parent = (s.proc q).parent)
      (hby : s.sched c = .boot ∧ t.sched c = .booting q ∨
        ∃ p, s.sched c = .switched p)
  | booted (hsched : s.sched c = .booting q) (hnext : t.sched c = .start)
      (hafter : (t.proc q).state = .runnable)
      (hparent : (t.proc q).parent = (s.proc q).parent)
  | failed {p : Slot} (hsched : s.sched c = .switched p)
      (hpc : (s.thread p).pc = .forkKalloc q ∨ (s.thread p).pc = .forkCopyuvm q)
      (hafter : (t.proc q).state = .unused)
      (hparent : (t.proc q).parent = (s.proc q).parent)
  | adopted {p : Slot} (hsched : s.sched c = .switched p)
      (hpc : (s.thread p).pc = .forkCopyuvm q)
      (hnext : (t.thread p).pc = .forkPublish q)
      (hstate : (t.proc q).state = (s.proc q).state)
      (hparent : (t.proc q).parent = some p)
  | published {p : Slot} (hsched : s.sched c = .switched p)
      (hpc : (s.thread p).pc = .forkPublish q)
      (hafter : (t.proc q).state = .runnable)
      (hparent : (t.proc q).parent = (s.proc q).parent)
  | reaped (haction : action = .waitScan)
      (hbefore : (s.proc q).state = .zombie)
      (hafter : (t.proc q).state = .unused)
      (hparent : (t.proc q).parent = none)

end Kernel

@[simp] theorem age_parent (source : SchedSource) (table : Table) (q : Slot) :
    (Kernel.age source table q).parent = (table q).parent :=
  age_field (fun _ _ _ => rfl) source table q

@[simp] theorem setPriority_parent (pid newPriority : ℤ) (table : Table) (q : Slot) :
    ((setPriority pid newPriority table).1 q).parent = (table q).parent :=
  setPriority_field (fun _ _ => rfl) pid newPriority table q

@[simp] theorem kill_parent (pid : ℤ) (table : Table) (q : Slot) :
    ((kill pid table).1 q).parent = (table q).parent :=
  kill_field (fun _ _ _ => rfl) pid table q

namespace Kernel

section Changes

variable {source : SchedSource} {s t : Kernel C} {c c' : C} {action : Action} {p q i : Slot}

omit [DecidableEq C] in
theorem SlotStep.of_woken
    (hparent : (t.proc q).parent = (s.proc q).parent)
    (hstate : (t.proc q).state = (s.proc q).state ∨
      (s.proc q).state = .sleeping ∧ (t.proc q).state = .runnable) :
    SlotStep s t c action q := by
  refine .kept hparent ?_
  rcases hstate with hsame | ⟨hbefore, hafter⟩
  · exact Or.inl hsame
  · exact Or.inr ⟨by simp [hbefore], by simp [hafter]⟩

omit [DecidableEq C] in
theorem SlotStep.of_ne (p : Slot) (hself : SlotStep s t c action p)
    (hother : q ≠ p → t.proc q = s.proc q) : SlotStep s t c action q := by
  by_cases hq : q = p
  · exact hq ▸ hself
  · exact .kept (by rw [hother hq]) (Or.inl (by rw [hother hq]))

theorem StepOk.slotStep (hstep : StepOk source s c action t) (hbound : s.RunningBound)
    (hexit : action ≠ .exit) (q : Slot) : SlotStep s t c action q := by
  have hrunning : ∀ p, s.sched c = .switched p → (s.proc p).state.Live := by
    intro p hsched
    rw [(hbound.running_iff p).mpr ⟨c, hsched⟩]
    exact live_running
  cases hstep
  case exit => contradiction
  case userinitAlloc p k g hsched hlock hfind =>
    refine .of_ne p (.allocated (findUnused_state hfind) (by simp [Proc.embryo])
      (by simp [Proc.embryo]) (Or.inl ⟨hsched, by simp⟩)) ?_
    exact fun hq => by simp [hq]
  case userinitPublish p hsched hlock =>
    refine .of_ne p (.booted hsched (by simp) (by simp) (by simp)) ?_
    exact fun hq => by simp [hq]
  case dispatch p hsched hstate hkstack hpgdir =>
    refine .of_ne (highestp s.proc p) (.kept (by simp)
      (Or.inr ⟨by simp [highestp_runnable hstate], by simp⟩)) ?_
    exact fun hq => by simp [hq]
  case yield p hsched _ _ _ _ | sleep p _ _ _ hsched _ _ _ | waitSleep p hsched _ _ _ =>
    refine .of_ne p (.kept (by simp) (Or.inr ⟨hrunning _ hsched, by simp⟩)) ?_
    exact fun hq => by simp [hq]
  case forkAlloc p np hsched hthread hlock hfind =>
    refine .of_ne np (.allocated (findUnused_state hfind) (by simp [Proc.embryo])
      (by simp [Proc.embryo]) (Or.inr ⟨p, hsched⟩)) ?_
    exact fun hq => by simp [hq]
  case forkKallocFail p np hsched hthread =>
    refine .of_ne np (.failed hsched (Or.inl (by rw [hthread])) (by simp) (by simp)) ?_
    exact fun hq => by simp [hq]
  case forkCopyuvmFail p np hsched hthread =>
    refine .of_ne np (.failed hsched (Or.inr (by rw [hthread])) (by simp) (by simp)) ?_
    exact fun hq => by simp [hq]
  case forkCopyuvm p np g hsched hthread =>
    refine .of_ne np (.adopted hsched (by rw [hthread]) (by simp) (by simp) (by simp)) ?_
    exact fun hq => by simp [hq]
  case forkPublish p np hsched hthread hlock =>
    refine .of_ne np (.published hsched (by rw [hthread]) (by simp) (by simp)) ?_
    exact fun hq => by simp [hq]
  case waitReap p z hsched hthread hlock hscan =>
    refine .of_ne z (.reaped rfl (waitScan_reap hscan).2 (by simp [Proc.reaped])
      (by simp [Proc.reaped])) ?_
    exact fun hq => by simp [hq]
  case kill pid _ _ _ => exact .of_woken (by simp) (kill_state pid s.proc q)
  case wakeup chan _ =>
    exact .of_woken (by simp) (wakeOne_wokenFrom (some chan) (s.proc q)).state
  case forkKalloc p np k hsched hthread =>
    exact .kept (by by_cases hq : q = np <;> simp [hq]) (by by_cases hq : q = np <;> simp [hq])
  case sleepReturn p _ _ _ _ | waitReturn p _ _ | trapKill p _ _ =>
    exact .kept (by by_cases hq : q = p <;> simp [hq]) (by by_cases hq : q = p <;> simp [hq])
  all_goals exact .kept (by simp) (by simp)

theorem StepOk.inBoot_origin (hstep : StepOk source s c action t)
    (hboot : inBoot (t.sched c')) : inBoot (s.sched c') := by
  by_cases hc : c' = c
  · subst c'
    cases hstep <;> simp_all [inBoot]
  · rw [hstep.sched_other hc] at hboot
    exact hboot

theorem StepOk.initproc_eq (hstep : StepOk source s c action t) :
    t.initproc = s.initproc ∨
      ∃ i, s.sched c = .boot ∧ t.sched c = .booting i ∧ t.initproc = some i := by
  cases hstep
  case userinitAlloc p k g hsched hlock hfind =>
    exact Or.inr ⟨p, hsched, by simp, rfl⟩
  all_goals exact Or.inl rfl

inductive PcStep (s t : Kernel C) (c : C) (p : Slot) : Prop
  | same (hnext : (t.thread p).pc = (s.thread p).pc)
  | reset (hnext : (t.thread p).pc = .forkret)
  | forkAlloc {np : Slot} (hsched : s.sched c = .switched p)
      (hnext : (t.thread p).pc = .forkKalloc np)
      (hbefore : (s.proc np).state = .unused)
      (hpid : (t.proc np).pid = s.nextpid)
  | forkKalloc {np : Slot} (hpc : (s.thread p).pc = .forkKalloc np)
      (hnext : (t.thread p).pc = .forkCopyuvm np)
      (hkstack : (t.proc np).kstack ≠ none)
  | forkCopyuvm {np : Slot} (hpc : (s.thread p).pc = .forkCopyuvm np)
      (hnext : (t.thread p).pc = .forkPublish np)
      (hparent : (t.proc np).parent = some p)
      (hkstack : (t.proc np).kstack = (s.proc np).kstack)
      (hpgdir : (t.proc np).pgdir ≠ none)
  | waitSleep (hnext : (t.thread p).pc = .waitSched)
      (hscan : Xv6Kernel.waitScan p s.proc = .sleep)
      (hproc : t.proc = Function.update s.proc p { s.proc p with
        chan := some (.proc p), state := .sleeping })
  | leaves (hnext : forkChild (t.thread p).pc = none)
      (hwait : (t.thread p).pc ≠ .waitSched)

omit [DecidableEq C] in
theorem PcStep.of_leaves (q : Slot) (hother : p ≠ q → t.thread p = s.thread p)
    (hnext : forkChild (t.thread q).pc = none) (hwait : (t.thread q).pc ≠ .waitSched) :
    PcStep s t c p := by
  by_cases hp : p = q
  · exact .leaves (hp ▸ hnext) (hp ▸ hwait)
  · exact .same (by rw [hother hp])

section

variable (hstep : StepOk source s c action t)

include hstep

theorem StepOk.pcStep (p : Slot) : PcStep s t c p := by
  cases hstep
  case userinitAlloc q k g hsched hlock hfind =>
    by_cases hp : p = q
    · exact .reset (by simp [hp])
    · exact .same (by simp [hp])
  case forkAlloc parent np hsched hthread hlock hfind =>
    by_cases hp : p = parent
    · subst p
      exact .forkAlloc hsched (by simp) (findUnused_state hfind) (by simp [Proc.embryo])
    · exact .same (by simp [hp])
  case forkKalloc parent np k hsched hthread =>
    by_cases hp : p = parent
    · subst p
      exact .forkKalloc (by rw [hthread]) (by simp) (by simp)
    · by_cases hnp : p = np
      · subst p
        exact .reset (by simp [hp])
      · exact .same (by simp [hp, hnp])
  case forkCopyuvm parent np g hsched hthread =>
    by_cases hp : p = parent
    · subst p
      exact .forkCopyuvm (by rw [hthread]) (by simp) (by simp) (by simp) (by simp)
    · exact .same (by simp [hp])
  case waitSleep q hsched hthread hlock hscan =>
    by_cases hp : p = q
    · subst p
      exact .waitSleep (by simp) hscan (by simp)
    · exact .same (by simp [hp])
  case yield q _ _ _ _ _ | yieldReturn q _ _ _ =>
    exact .same (by by_cases hp : p = q <;> simp [hp])
  case forkret q _ _ _ | sleep q _ _ _ _ _ _ _ | sleepReturn q _ _ _ _
  | sleepAcquire q _ _ _ _ _ | forkKallocFail q _ _ _ | forkCopyuvmFail q _ _ _
  | forkPublish q _ _ _ _ | exit q _ _ _ _ | waitAcquire q _ _ _ | waitReap q _ _ _ _ _
  | waitFail q _ _ _ _ | waitReturn q _ _ =>
    exact .of_leaves q (fun hp => by simp [hp]) (by simp [forkChild]) (by simp)
  all_goals exact .same (by simp)

theorem StepOk.boot_origin (hboot : t.sched c' = .boot) : s.sched c' = .boot := by
  by_cases hc : c' = c
  · subst c'
    cases hstep <;> simp_all
  · rw [hstep.sched_other hc] at hboot
    exact hboot

theorem StepOk.booting_initproc
    (hboot : s.sched c = .boot) (hnext : t.sched c = .booting i) : t.initproc = some i := by
  cases hstep <;> simp_all

theorem StepOk.booting_next (hbooting : s.sched c' = .booting i) :
    t.sched c' = .booting i ∨ (t.proc i).state = .runnable := by
  by_cases hc : c' = c
  · subst c'
    cases hstep <;> simp_all
  · rw [hstep.sched_other hc]
    exact Or.inl hbooting

end

end Changes

/-! ## Every process descends from init -/

def BeforeAdoption (q : Slot) (pc : Pc) : Prop :=
  pc = .forkKalloc q ∨ pc = .forkCopyuvm q

theorem BeforeAdoption.forkChild_eq {q : Slot} {pc : Pc}
    (hpc : BeforeAdoption q pc) : forkChild pc = some q := by
  rcases hpc with hpc | hpc <;> rw [hpc] <;> rfl

structure TreeInvariant (s : Kernel C) : Prop where
  bootUnique : ∀ c c', inBoot (s.sched c) → inBoot (s.sched c') → c = c'
  boot : ∀ c, s.sched c = .boot → ∀ q, (s.proc q).state = .unused
  booting : ∀ c i, s.sched c = .booting i →
    s.initproc = some i ∧ ∀ q, q ≠ i → (s.proc q).state = .unused
  init : ∀ i, s.initproc = some i → (s.proc i).parent = none ∧
    ((s.proc i).state.Live ∨ ∃ c, s.sched c = .booting i)
  rooted : ∀ q, (s.proc q).state.Started →
    ∃ i, s.initproc = some i ∧ (s.proc i).state.Live
  unused : ∀ q, (s.proc q).state = .unused → (s.proc q).parent = none
  parent : ∀ q, (s.proc q).state.Started → s.initproc ≠ some q →
    ∃ r, r ≠ q ∧ (s.proc q).parent = some r ∧ (s.proc r).state.Live
  orphan : ∀ p q, BeforeAdoption q (s.thread p).pc → (s.proc q).parent = none
  adopted : ∀ p q, (s.thread p).pc = .forkPublish q →
    (s.proc q).parent = some p

section Tree

variable {source : SchedSource} {s t : Kernel C} {c c' : C} {action : Action} {p q : Slot}

omit [DecidableEq C] in
theorem BindingInvariant.running (hbind : s.BindingInvariant)
    (hsched : s.sched c = .switched p) : (s.proc p).state = .running :=
  (hbind.bound.running_iff p).mpr ⟨c, hsched⟩

omit [DecidableEq C] in
theorem TreeInvariant.not_switched (htree : s.TreeInvariant) (hbind : s.BindingInvariant)
    (hboot : inBoot (s.sched c')) (p : Slot) : s.sched c ≠ .switched p := by
  intro hsched
  have hrunning := hbind.running hsched
  cases hc' : s.sched c' with
  | boot => simp [htree.boot c' hc' p] at hrunning
  | booting i =>
    by_cases hp : p = i
    · subst p
      simp [hbind.fork.booting c' i hc'] at hrunning
    · simp [(htree.booting c' i hc').2 p hp] at hrunning
  | _ => simp [hc', inBoot] at hboot

theorem TreeInvariant.unused_stays (htree : s.TreeInvariant) (hbind : s.BindingInvariant)
    (hstep : StepOk source s c action t) (hboot : inBoot (s.sched c'))
    (hunused : (s.proc q).state = .unused) (hnext : t.sched c' ≠ .booting q) :
    (t.proc q).state = .unused := by
  have hidle : ∀ p, s.sched c ≠ .switched p := htree.not_switched hbind hboot
  have hexit : action ≠ .exit := by
    rintro rfl
    cases hstep with
    | exit hsched => exact hidle _ hsched
  cases hstep.slotStep hbind.bound hexit q with
  | kept _ hstate =>
    rcases hstate with hsame | ⟨hlive, _⟩
    · rw [hsame, hunused]
    · simp [hunused] at hlive
  | allocated _ _ _ hby =>
    rcases hby with ⟨hc, hbooting⟩ | ⟨p, hsched⟩
    · have heq := htree.bootUnique c' c hboot (by simp [hc, inBoot])
      rw [heq] at hnext
      contradiction
    · exact (hidle p hsched).elim
  | booted hsched =>
    simp [hbind.fork.booting c q hsched] at hunused
  | failed hsched | adopted hsched | published hsched => exact (hidle _ hsched).elim
  | reaped _ hbefore => simp [hunused] at hbefore

omit [DecidableEq C] in
theorem SlotStep.parent_eq (hslot : SlotStep s t c action q) :
    (t.proc q).parent = (s.proc q).parent ∨
      (s.proc q).state = .zombie ∧ (t.proc q).state = .unused ∧
        (t.proc q).parent = none ∨
      ∃ p, (s.thread p).pc = .forkCopyuvm q ∧ (t.thread p).pc = .forkPublish q ∧
        (t.proc q).parent = some p := by
  cases hslot with
  | kept hparent | allocated _ _ hparent | booted _ _ _ hparent | failed _ _ _ hparent
  | published _ _ _ hparent => exact Or.inl hparent
  | adopted _ hpc hnext _ hparent => exact Or.inr (Or.inr ⟨_, hpc, hnext, hparent⟩)
  | reaped _ hbefore hafter hparent => exact Or.inr (Or.inl ⟨hbefore, hafter, hparent⟩)

omit [DecidableEq C] in
theorem SlotStep.parent_none (hslot : SlotStep s t c action q)
    (hnone : (s.proc q).parent = none) (hfork : s.ForkInvariant)
    (hstate : (s.proc q).state ≠ .embryo ∨ ∃ c', s.sched c' = .booting q) :
    (t.proc q).parent = none := by
  rcases hslot.parent_eq with hsame | ⟨_, _, hnull⟩ | ⟨p, hpc, _⟩
  · rw [hsame, hnone]
  · exact hnull
  · have hchild := BeforeAdoption.forkChild_eq (Or.inr hpc)
    rcases hstate with hstate | ⟨c', hbooting⟩
    · exact (hstate (hfork.child p q hchild).1).elim
    · exact (hfork.bootingFresh c' q p hbooting hchild).elim

theorem StepOk.live_stays (hstep : StepOk source s c action t) (hbind : s.BindingInvariant)
    (hexit : action ≠ .exit) (hlive : (s.proc q).state.Live) : (t.proc q).state.Live := by
  cases hstep.slotStep hbind.bound hexit q with
  | kept _ hstate =>
    rcases hstate with hsame | ⟨_, hafter⟩
    · rw [hsame]
      exact hlive
    · exact hafter
  | allocated hbefore | reaped _ hbefore => simp [hbefore] at hlive
  | booted _ _ hafter => simp [hafter]
  | failed _ hpc =>
    simp [(hbind.fork.child _ q (BeforeAdoption.forkChild_eq hpc)).1] at hlive
  | adopted _ _ _ hstate =>
    rw [hstate]
    exact hlive
  | published _ _ hafter => simp [hafter]

theorem StepOk.started_origin (hstep : StepOk source s c action t) (hbind : s.BindingInvariant)
    (hexit : action ≠ .exit) (hstarted : (t.proc q).state.Started) :
    (s.proc q).state.Started ∨
      s.sched c = .booting q ∧ (t.proc q).state = .runnable ∨
      ∃ p, s.sched c = .switched p ∧ (s.thread p).pc = .forkPublish q ∧
        (t.proc q).parent = (s.proc q).parent := by
  cases hstep.slotStep hbind.bound hexit q with
  | kept _ hstate =>
    rcases hstate with hsame | ⟨hbefore, _⟩
    · rw [hsame] at hstarted
      exact Or.inl hstarted
    · exact Or.inl hbefore.started
  | allocated _ hafter | failed _ _ hafter | reaped _ _ hafter => simp [hafter] at hstarted
  | booted hsched _ hafter => exact Or.inr (Or.inl ⟨hsched, hafter⟩)
  | adopted _ _ _ hstate =>
    rw [hstate] at hstarted
    exact Or.inl hstarted
  | published hsched hpc _ hparent =>
    exact Or.inr (Or.inr ⟨_, hsched, hpc, hparent⟩)

theorem TreeInvariant.initproc_stays (htree : s.TreeInvariant) (hstep : StepOk source s c action t)
    (hused : (s.proc q).state ≠ .unused) : t.initproc = s.initproc := by
  rcases hstep.initproc_eq with hsame | ⟨_, hboot, _⟩
  · exact hsame
  · exact (hused (htree.boot c hboot q)).elim

theorem TreeInvariant.exit (htree : s.TreeInvariant) (hbind : s.BindingInvariant)
    (hsched : s.sched c = .switched p) (hthread : s.thread p = ⟨.elsewhere, false⟩)
    (hinit : s.initproc ≠ some p) (hstep : StepOk source s c action t)
    (hproc : t.proc = exitTable p s.initproc s.proc) (hinitproc : t.initproc = s.initproc)
    (hthreads : ∀ q, q ≠ p → t.thread q = s.thread q) (hexited : (t.thread p).pc = .exited) :
    t.TreeInvariant := by
  have hparents : ∀ q, (t.proc q).parent =
      if (s.proc q).parent = some p then s.initproc else (s.proc q).parent := by
    intro q
    rw [hproc]
    exact exitTable_parent p s.initproc s.proc q
  have hwoken : ∀ q, q ≠ p → (s.proc q).WokenFrom (t.proc q) := by
    intro q hq
    rw [hproc]
    exact exitTable_wokenFrom s.initproc s.proc hq
  have hrunning := hbind.running hsched
  have hnoboot : ∀ c', ¬ inBoot (t.sched c') := by
    intro c' hboot
    exact htree.not_switched hbind (hstep.inBoot_origin hboot) p hsched
  have hstarted : ∀ q, (t.proc q).state.Started → (s.proc q).state.Started := by
    intro q hstarted
    by_cases hq : q = p
    · subst q
      simp [hrunning, ProcState.Started]
    · exact (hwoken q hq).started_iff.mp hstarted
  have hinitlive : ∀ i, s.initproc = some i → (s.proc i).state.Live →
      (t.proc i).state.Live := by
    intro i hi hlive
    have hne : i ≠ p := by
      rintro rfl
      exact hinit hi
    exact (hwoken i hne).live_iff.mpr hlive
  constructor
  case bootUnique =>
    intro c' _ hboot
    exact (hnoboot c' hboot).elim
  case boot =>
    intro c' hboot
    exact (hnoboot c' (by simp [hboot, inBoot])).elim
  case booting =>
    intro c' i hbooting
    exact (hnoboot c' (by simp [hbooting, inBoot])).elim
  case init =>
    intro i hi
    rw [hinitproc] at hi
    obtain ⟨hnone, hlive | ⟨c', hbooting⟩⟩ := htree.init i hi
    · refine ⟨?_, Or.inl (hinitlive i hi hlive)⟩
      rw [hparents i]
      simp [hnone]
    · have hboot : inBoot (s.sched c') := by simp [hbooting, inBoot]
      exact (htree.not_switched hbind hboot p hsched).elim
  case rooted =>
    intro q hq
    obtain ⟨i, hi, hlive⟩ := htree.rooted q (hstarted q hq)
    exact ⟨i, hinitproc.trans hi, hinitlive i hi hlive⟩
  case unused =>
    intro q hunused
    by_cases hq : q = p
    · subst q
      rw [hproc, (exitTable_self _ s.initproc s.proc).1] at hunused
      contradiction
    · have hbefore : (s.proc q).state = .unused := by
        rcases (hwoken q hq).state with hsame | ⟨_, hrunnable⟩
        · rw [← hsame, hunused]
        · rw [hunused] at hrunnable
          contradiction
      rw [hparents q]
      simp [htree.unused q hbefore]
  case parent =>
    intro q hq hne
    rw [hinitproc] at hne
    obtain ⟨r, hr, hparent, hlive⟩ := htree.parent q (hstarted q hq) hne
    by_cases hrp : r = p
    · subst r
      obtain ⟨i, hi, hlive⟩ := htree.rooted q (hstarted q hq)
      refine ⟨i, ?_, ?_, hinitlive i hi hlive⟩
      · rintro rfl
        exact hne hi
      · rw [hparents q, if_pos hparent, hi]
    · refine ⟨r, hr, ?_, (hwoken r hrp).live_iff.mpr hlive⟩
      rw [hparents q, if_neg (by simp [hparent, hrp]), hparent]
  case orphan =>
    intro p' q hpc
    by_cases hp : p' = p
    · subst p'
      simp [hexited, BeforeAdoption] at hpc
    · rw [hthreads p' hp] at hpc
      rw [hparents q]
      simp [htree.orphan p' q hpc]
  case adopted =>
    intro p' q hpc
    by_cases hp : p' = p
    · subst p'
      simp [hexited] at hpc
    · rw [hthreads p' hp] at hpc
      rw [hparents q]
      simp [htree.adopted p' q hpc, hp]

theorem StepOk.child_parent (hstep : StepOk source s c action t) (hbind : s.BindingInvariant)
    (hexit : action ≠ .exit) (hchild : forkChild (s.thread p).pc = some q) :
    (t.proc q).parent = (s.proc q).parent ∨
      (s.thread p).pc = .forkCopyuvm q ∧ (t.thread p).pc = .forkPublish q := by
  rcases (hstep.slotStep hbind.bound hexit q).parent_eq with
    hsame | ⟨hzombie, _⟩ | ⟨p', hpc, hnext, _⟩
  · exact Or.inl hsame
  · simp [(hbind.fork.child p q hchild).1] at hzombie
  · have hchild' := BeforeAdoption.forkChild_eq (Or.inr hpc)
    have hp := hbind.fork.unique p' p q hchild' hchild
    rw [hp] at hpc hnext
    exact Or.inr ⟨hpc, hnext⟩

theorem TreeInvariant.step (htree : s.TreeInvariant) (hbind : s.BindingInvariant)
    (hstep : StepOk source s c action t) : t.TreeInvariant := by
  by_cases hexit : action = .exit
  · subst action
    have hstep' := hstep
    cases hstep with
    | exit hsched hthread hlock hinit =>
      refine htree.exit hbind hsched hthread hinit hstep' rfl rfl ?_ (by simp)
      intro q hq
      simp [hq]
  have hslot := hstep.slotStep hbind.bound hexit
  have hlive : ∀ q, (s.proc q).state.Live → (t.proc q).state.Live :=
    fun q => hstep.live_stays hbind hexit
  have hstarted := fun q => hstep.started_origin hbind hexit (q := q)
  have hused : ∀ q, (s.proc q).state.Started → (s.proc q).state ≠ .unused := by
    intro q hq hunused
    simp [hunused] at hq
  constructor
  case bootUnique =>
    intro c1 c2 h1 h2
    exact htree.bootUnique c1 c2 (hstep.inBoot_origin h1) (hstep.inBoot_origin h2)
  case boot =>
    intro c' hboot q
    have hbefore := hstep.boot_origin hboot
    have hinboot : inBoot (s.sched c') := by simp [hbefore, inBoot]
    exact htree.unused_stays hbind hstep hinboot (htree.boot c' hbefore q) (by simp [hboot])
  case booting =>
    intro c' i hbooting
    have hinboot : inBoot (s.sched c') := hstep.inBoot_origin (by simp [hbooting, inBoot])
    have hstays : ∀ q, q ≠ i → (s.proc q).state = .unused →
        (t.proc q).state = .unused := by
      intro q hq hunused
      exact htree.unused_stays hbind hstep hinboot hunused (by simp [hbooting, Ne.symm hq])
    rcases hstep.booting_origin hbooting with hbefore | ⟨rfl, hboot, _, _⟩
    · obtain ⟨hinit, hothers⟩ := htree.booting c' i hbefore
      refine ⟨?_, fun q hq => hstays q hq (hothers q hq)⟩
      rw [htree.initproc_stays hstep (q := i) (by simp [hbind.fork.booting c' i hbefore]), hinit]
    · exact ⟨hstep.booting_initproc hboot hbooting, fun q hq => hstays q hq (htree.boot _ hboot q)⟩
  case init =>
    intro i hi
    rcases hstep.initproc_eq with hsame | ⟨j, hboot, hbooting, hj⟩
    · rw [hsame] at hi
      obtain ⟨hnone, hstate⟩ := htree.init i hi
      refine ⟨(hslot i).parent_none hnone hbind.fork ?_, ?_⟩
      · rcases hstate with hlives | hbooting
        · exact Or.inl fun hembryo => by simp [hembryo] at hlives
        · exact Or.inr hbooting
      · rcases hstate with hlives | ⟨c', hbooting⟩
        · exact Or.inl (hlive i hlives)
        · rcases hstep.booting_next hbooting with hnext | hrunnable
          · exact Or.inr ⟨c', hnext⟩
          · exact Or.inl (by simp [hrunnable])
    · obtain rfl : j = i := by simpa [hj] using hi
      have hunused := htree.boot c hboot j
      exact ⟨(hslot j).parent_none (htree.unused j hunused) hbind.fork
        (Or.inl (by simp [hunused])), Or.inr ⟨c, hbooting⟩⟩
  case rooted =>
    have hroot : ∀ q, (s.proc q).state.Started →
        ∃ i, t.initproc = some i ∧ (t.proc i).state.Live := by
      intro q hq
      obtain ⟨i, hi, hilive⟩ := htree.rooted q hq
      refine ⟨i, ?_, hlive i hilive⟩
      rw [htree.initproc_stays hstep (hused q hq), hi]
    intro q hq
    rcases hstarted q hq with hbefore | ⟨hbooting, hrunnable⟩ | ⟨p, hsched, _⟩
    · exact hroot q hbefore
    · refine ⟨q, ?_, by simp [hrunnable]⟩
      rw [htree.initproc_stays hstep
        (by simp [hbind.fork.booting c q hbooting] : (s.proc q).state ≠ _)]
      exact (htree.booting c q hbooting).1
    · exact hroot p (by simp [hbind.running hsched, ProcState.Started])
  case unused =>
    intro q hunused
    cases hslot q with
    | kept hparent hstate =>
      rcases hstate with hsame | ⟨_, hafter⟩
      · rw [hparent, htree.unused q (hsame ▸ hunused)]
      · simp [hunused] at hafter
    | allocated _ hafter | booted _ _ hafter | published _ _ hafter => simp [hunused] at hafter
    | failed _ hpc _ hparent => rw [hparent, htree.orphan _ q hpc]
    | adopted _ hpc _ hstate =>
      have hchild := BeforeAdoption.forkChild_eq (Or.inr hpc)
      simp [hstate, (hbind.fork.child _ q hchild).1] at hunused
    | reaped _ _ _ hparent => exact hparent
  case parent =>
    intro q hq hne
    rcases hstarted q hq with hbefore | ⟨hbooting, _⟩ | ⟨p, hsched, hpc, hparent⟩
    · rw [htree.initproc_stays hstep (hused q hbefore)] at hne
      obtain ⟨r, hr, hparent, hrlive⟩ := htree.parent q hbefore hne
      refine ⟨r, hr, ?_, hlive r hrlive⟩
      rcases (hslot q).parent_eq with hsame | ⟨_, hunused, _⟩ | ⟨p, hpc, _⟩
      · rw [hsame, hparent]
      · simp [hunused] at hq
      · have hchild := BeforeAdoption.forkChild_eq (Or.inr hpc)
        simp [(hbind.fork.child p q hchild).1] at hbefore
    · rw [htree.initproc_stays hstep
        (by simp [hbind.fork.booting c q hbooting] : (s.proc q).state ≠ _)] at hne
      exact (hne (htree.booting c q hbooting).1).elim
    · have hchild : forkChild (s.thread p).pc = some q := by rw [hpc]; rfl
      have hrunning := hbind.running hsched
      refine ⟨p, ?_, hparent.trans (htree.adopted p q hpc), ?_⟩
      · rintro rfl
        simp [(hbind.fork.child p p hchild).1] at hrunning
      · exact hlive p (by simp [hrunning])
  case orphan =>
    intro p q hpc
    cases hstep.pcStep p with
    | same hnext =>
      rw [hnext] at hpc
      rcases hstep.child_parent hbind hexit hpc.forkChild_eq with
        hsame | ⟨_, hpublish⟩
      · rw [hsame, htree.orphan p q hpc]
      · rw [← hnext, hpublish] at hpc
        simp [BeforeAdoption] at hpc
    | reset hnext | forkCopyuvm _ hnext | waitSleep hnext => simp [hnext, BeforeAdoption] at hpc
    | forkAlloc _ hnext hunused =>
      obtain rfl : _ = q := by simpa [hnext, BeforeAdoption] using hpc
      exact (hslot _).parent_none (htree.unused _ hunused) hbind.fork (Or.inl (by simp [hunused]))
    | forkKalloc hbefore hnext =>
      obtain rfl : _ = q := by simpa [hnext, BeforeAdoption] using hpc
      have hpc' : BeforeAdoption _ (s.thread p).pc := Or.inl hbefore
      rcases hstep.child_parent hbind hexit hpc'.forkChild_eq with
        hsame | ⟨hother, _⟩
      · rw [hsame, htree.orphan p _ hpc']
      · rw [hbefore] at hother
        contradiction
    | leaves hnext => simp [hpc.forkChild_eq] at hnext
  case adopted =>
    intro p q hpc
    cases hstep.pcStep p with
    | same hnext =>
      rw [hnext] at hpc
      have hchild : forkChild (s.thread p).pc = some q := by rw [hpc]; rfl
      rcases hstep.child_parent hbind hexit hchild with hsame | ⟨hbefore, _⟩
      · rw [hsame, htree.adopted p q hpc]
      · rw [hpc] at hbefore
        contradiction
    | reset hnext | forkAlloc _ hnext | forkKalloc _ hnext | waitSleep hnext => simp [hnext] at hpc
    | forkCopyuvm _ hnext hparent =>
      obtain rfl : _ = q := Pc.forkPublish.inj (hnext.symm.trans hpc)
      exact hparent
    | leaves hnext => simp [hpc, forkChild] at hnext

theorem treeInvariant_initial (bootCpu : C) : (initial bootCpu).TreeInvariant := by
  have hunused : ∀ q, ((initial bootCpu).proc q).state = .unused := fun _ => rfl
  have hthread : ∀ p, ((initial bootCpu).thread p).pc = .exited := fun _ => rfl
  have hinit : (initial bootCpu).initproc = none := rfl
  constructor
  case bootUnique =>
    intro c c' hc hc'
    have hboot : ∀ c, inBoot ((initial bootCpu).sched c) → c = bootCpu := by
      intro c hc
      by_contra hne
      simp [initial, hne, inBoot] at hc
    rw [hboot c hc, hboot c' hc']
  case boot => exact fun _ _ q => hunused q
  case booting =>
    intro c i hbooting
    by_cases hc : c = bootCpu <;> simp [initial, hc] at hbooting
  case init =>
    intro i hi
    simp [hinit] at hi
  case rooted | parent =>
    intro q hq
    simp [hunused q] at hq
  case unused => exact fun _ _ => rfl
  case orphan =>
    intro p q hpc
    simp [hthread p, BeforeAdoption] at hpc
  case adopted =>
    intro p q hpc
    simp [hthread p] at hpc

end Tree

/-! ## Pids -/

def allocates : Action → Bool
  | .userinitAlloc _ _ | .forkAlloc (some _) => true
  | _ => false

/-- What a step does to `nextpid` and to the pids of the table. -/
inductive PidStep (s t : Kernel C) (action : Action) : Prop
  | kept (hallocates : allocates action = false) (hnext : t.nextpid = s.nextpid)
      (hpid : ∀ q, (t.proc q).pid = (s.proc q).pid ∨
        (t.proc q).state = .unused ∧ (t.proc q).pid = 0)
  | allocated {np : Slot} (hallocates : allocates action = true)
      (hbefore : (s.proc np).state = .unused)
      (hnext : t.nextpid = succPid s.nextpid)
      (hpid : (t.proc np).pid = s.nextpid)
      (hothers : ∀ q, q ≠ np → (t.proc q).pid = (s.proc q).pid)

end Kernel

@[simp] theorem age_pid (source : SchedSource) (table : Table) (q : Slot) :
    (Kernel.age source table q).pid = (table q).pid :=
  age_field (fun _ _ _ => rfl) source table q

@[simp] theorem setPriority_pid (pid newPriority : ℤ) (table : Table) (q : Slot) :
    ((setPriority pid newPriority table).1 q).pid = (table q).pid :=
  setPriority_field (fun _ _ => rfl) pid newPriority table q

@[simp] theorem kill_pid (pid : ℤ) (table : Table) (q : Slot) :
    ((kill pid table).1 q).pid = (table q).pid :=
  kill_field (fun _ _ _ => rfl) pid table q

@[simp] theorem exitTable_pid (curproc : Slot) (initproc : Option Slot) (table : Table) (q : Slot) :
    (exitTable curproc initproc table q).pid = (table q).pid := by
  by_cases hq : q = curproc
  · subst q
    exact (exitTable_self _ initproc table).2.pid
  · exact (exitTable_wokenFrom initproc table hq).pid

@[simp] theorem wakeOne_pid (chan : Option Chan) (p : Proc) : (wakeOne chan p).pid = p.pid :=
  (wakeOne_wokenFrom chan p).pid

theorem update_pid {table : Table} {p q : Slot} {value : Proc} (hpid : value.pid = (table p).pid) :
    (Function.update table p value q).pid = (table q).pid := by
  by_cases hq : q = p
  · subst q
    simp [hpid]
  · simp [hq]

theorem succPid_eq {nextpid : ℤ} (hpos : 1 ≤ nextpid)
    (hlt : nextpid < 2 ^ 31 - 1) : succPid nextpid = nextpid + 1 := by
  unfold succPid
  rw [Int.bmod_eq_of_le] <;> omega

namespace Kernel

section Pids

variable {source : SchedSource} {s t : Kernel C} {c : C} {action : Action} {q : Slot}

theorem StepOk.pidStep (hstep : StepOk source s c action t) : PidStep s t action := by
  cases hstep
  case userinitAlloc hfind | forkAlloc hfind =>
    refine .allocated rfl (findUnused_state hfind) rfl (by simp [Proc.embryo]) ?_
    intro q hq
    simp [hq]
  case waitReap p z hsched hthread hlock hscan =>
    refine .kept rfl rfl ?_
    intro q
    by_cases hq : q = z
    · subst q
      exact Or.inr (by simp [Proc.reaped])
    · exact Or.inl (by simp [hq])
  case exit p hsched hthread hlock hinit =>
    exact .kept rfl rfl fun q => Or.inl (exitTable_pid p s.initproc s.proc q)
  all_goals
    refine .kept rfl rfl ?_
    intro q
    left
    first
      | exact update_pid rfl
      | simp

/-- Pids, also those left in UNUSED slots, are below `nextpid` and distinct
unless zero. -/
structure PidInvariant (s : Kernel C) : Prop where
  positive : 1 ≤ s.nextpid
  range : ∀ q, 0 ≤ (s.proc q).pid ∧ (s.proc q).pid < s.nextpid
  distinct : ∀ p q, (s.proc p).pid = (s.proc q).pid → (s.proc p).pid ≠ 0 → p = q

theorem pidInvariant_initial (bootCpu : C) : (initial bootCpu).PidInvariant := by
  have hzero : ∀ q, ((initial bootCpu).proc q).pid = 0 := fun _ => rfl
  have hnext : (initial bootCpu).nextpid = 1 := rfl
  constructor
  · omega
  · intro q
    have hq := hzero q
    omega
  · intro p _ _ hne
    exact (hne (hzero p)).elim

omit [DecidableEq C] in
theorem PidStep.invariant (hpids : PidStep s t action) (hinv : s.PidInvariant)
    (hroom : allocates action = true → s.nextpid < 2 ^ 31 - 1) : t.PidInvariant := by
  cases hpids with
  | kept _ hnext hpid =>
    constructor
    · rw [hnext]
      exact hinv.positive
    · intro q
      have hrange := hinv.range q
      rw [hnext]
      rcases hpid q with hsame | ⟨_, hzero⟩ <;> omega
    · intro p q heq hne
      have hp := (hpid p).resolve_right fun hzero => hne hzero.2
      have hq := (hpid q).resolve_right fun hzero => hne (heq.trans hzero.2)
      exact hinv.distinct p q (by rw [← hp, heq, hq]) (hp ▸ hne)
  | @allocated np hallocates _ hnext hpid hothers =>
    have hpos := hinv.positive
    rw [succPid_eq hpos (hroom hallocates)] at hnext
    constructor
    · omega
    · intro q
      have hrange := hinv.range q
      by_cases hq : q = np
      · subst q
        omega
      · rw [hothers q hq]
        omega
    · intro p q heq hne
      have hp := hinv.range p
      have hq := hinv.range q
      by_cases hpn : p = np
      · subst p
        by_contra hne'
        rw [hothers q (Ne.symm hne')] at heq
        omega
      · rw [hothers p hpn] at heq hne
        by_cases hqn : q = np
        · subst q
          omega
        · rw [hothers q hqn] at heq
          exact hinv.distinct p q heq hne

def allocations (trace : List (C × Action)) : ℕ :=
  trace.countP fun label => allocates label.2

/-- The state before a step leaves room for the pid it takes. -/
def HasPid (s : Kernel C) (label : C × Action) : Prop :=
  allocates label.2 = true → s.nextpid < 2 ^ 31 - 1

theorem stepsMeet_hasPid {bootCpu : C} {trace : List (C × Action)}
    (hfew : allocations trace < 2 ^ 31 - 1) :
    StepsMeet (step source) HasPid (initial bootCpu) trace := by
  have hcount : (initial bootCpu).nextpid + allocations trace ≤ 2 ^ 31 - 1 := by
    have hnext : (initial bootCpu).nextpid = 1 := rfl
    omega
  refine stepsMeet_counter 1 ?_ ?_ (le_refl (1 : ℤ)) hcount
  · rintro s ⟨c, action⟩ t hstep hallocates hpos hlt
    cases (step_ok hstep).pidStep with
    | kept hkept => simp [hkept] at hallocates
    | allocated _ _ hnext => rw [hnext, succPid_eq hpos hlt]
  · rintro s ⟨c, action⟩ t hstep hkept
    cases (step_ok hstep).pidStep with
    | kept _ hnext => exact hnext
    | allocated hallocates => simp [hallocates] at hkept

/-- Pids grow from parent to child, init has the smallest, and the child a
thread is building is younger than the thread. -/
structure PidOrder (s : Kernel C) : Prop where
  parent : ∀ q r, (s.proc q).state.Started → (s.proc q).parent = some r →
    (s.proc r).pid < (s.proc q).pid
  init : ∀ q i, (s.proc q).state.Started → s.initproc = some i → q ≠ i →
    (s.proc i).pid < (s.proc q).pid
  child : ∀ p q, forkChild (s.thread p).pc = some q →
    (s.proc p).pid < (s.proc q).pid

omit [DecidableEq C] in
theorem PidStep.pid_eq (hpids : PidStep s t action) (hbefore : (s.proc q).state ≠ .unused)
    (hafter : (t.proc q).state ≠ .unused) : (t.proc q).pid = (s.proc q).pid := by
  cases hpids with
  | kept _ _ hpid => exact (hpid q).resolve_right fun hzero => hafter hzero.1
  | allocated _ hunused _ _ hothers =>
    apply hothers
    rintro rfl
    exact hbefore hunused

theorem StepOk.started_parent (hstep : StepOk source s c action t) (hbind : s.BindingInvariant)
    (hstarted : (t.proc q).state.Started) :
    ((s.proc q).state.Started ∧ ((t.proc q).parent = (s.proc q).parent ∨
        (t.proc q).parent = s.initproc)) ∨
      s.sched c = .booting q ∨
      ∃ p, s.sched c = .switched p ∧ (s.thread p).pc = .forkPublish q ∧
        (t.proc q).parent = (s.proc q).parent := by
  by_cases hexit : action = .exit
  · subst action
    cases hstep with
    | @exit p hsched =>
      refine Or.inl ⟨?_, ?_⟩
      · by_cases hq : q = p
        · subst q
          simp [hbind.running hsched, ProcState.Started]
        · exact (exitTable_wokenFrom s.initproc s.proc hq).started_iff.mp hstarted
      · have hparent := exitTable_parent p s.initproc s.proc q
        split at hparent
        · exact Or.inr hparent
        · exact Or.inl hparent
  · rcases hstep.started_origin hbind hexit hstarted with
      hbefore | ⟨hbooting, _⟩ | hpublished
    · refine Or.inl ⟨hbefore, ?_⟩
      rcases (hstep.slotStep hbind.bound hexit q).parent_eq with
        hsame | ⟨_, hunused, _⟩ | ⟨p, hpc, _⟩
      · exact Or.inl hsame
      · simp [hunused] at hstarted
      · have hchild := BeforeAdoption.forkChild_eq (Or.inr hpc)
        simp [(hbind.fork.child p q hchild).1] at hbefore
    · exact Or.inr (Or.inl hbooting)
    · exact Or.inr (Or.inr hpublished)

theorem PidOrder.step (horder : s.PidOrder) (hrange : s.PidInvariant) (hbind : s.BindingInvariant)
    (htree : s.TreeInvariant) (hstep : StepOk source s c action t) : t.PidOrder := by
  have hbind' := hbind.step hstep
  have htree' := htree.step hbind hstep
  have hpid : ∀ q, (s.proc q).state ≠ .unused → (t.proc q).state ≠ .unused →
      (t.proc q).pid = (s.proc q).pid :=
    fun q => hstep.pidStep.pid_eq
  have hembryo : ∀ p q, (s.thread p).pc = .forkPublish q →
      (s.proc q).state = .embryo := by
    intro p q hpc
    exact (hbind.fork.child p q (by rw [hpc]; rfl)).1
  constructor
  case parent =>
    intro q r hq hparent
    have hne : t.initproc ≠ some q := by
      intro hinit
      rw [(htree'.init q hinit).1] at hparent
      contradiction
    obtain ⟨r', hr', hparent', hlive'⟩ := htree'.parent q hq hne
    obtain rfl : r' = r := some.inj (hparent'.symm.trans hparent)
    rcases hstep.started_parent hbind hq with
      ⟨hbefore, hsame | hinit⟩ | hbooting | ⟨p, hsched, hpc, hsame⟩
    · rw [htree.initproc_stays hstep hbefore.ne_unused] at hne
      obtain ⟨r₀, _, hold, hlive⟩ := htree.parent q hbefore hne
      obtain rfl : r₀ = r' := some.inj (hold.symm.trans (hsame.symm.trans hparent'))
      rw [hpid q hbefore.ne_unused hq.ne_unused,
        hpid r₀ hlive.started.ne_unused hlive'.started.ne_unused]
      exact horder.parent q r₀ hbefore hold
    · obtain ⟨i, hi, hlive⟩ := htree.rooted q hbefore
      obtain rfl : i = r' := some.inj (hi.symm.trans (hinit.symm.trans hparent'))
      rw [hpid q hbefore.ne_unused hq.ne_unused,
        hpid i hlive.started.ne_unused hlive'.started.ne_unused]
      exact horder.init q i hbefore hi (Ne.symm hr')
    · have hused : (s.proc q).state ≠ .unused := by
        simp [hbind.fork.booting c q hbooting]
      rw [htree.initproc_stays hstep hused] at hne
      exact (hne (htree.booting c q hbooting).1).elim
    · obtain rfl : p = r' := some.inj
        ((htree.adopted p q hpc).symm.trans (hsame.symm.trans hparent'))
      rw [hpid q (by simp [hembryo p q hpc]) hq.ne_unused,
        hpid p (by simp [hbind.running hsched]) hlive'.started.ne_unused]
      exact horder.child p q (by rw [hpc]; rfl)
  case init =>
    intro q i hq hi hne
    obtain ⟨i', hi', hlive'⟩ := htree'.rooted q hq
    obtain rfl : i' = i := some.inj (hi'.symm.trans hi)
    rcases hstep.started_parent hbind hq with
      ⟨hbefore, _⟩ | hbooting | ⟨p, hsched, hpc, _⟩
    · rw [htree.initproc_stays hstep hbefore.ne_unused] at hi
      obtain ⟨j, hj, hlive⟩ := htree.rooted q hbefore
      obtain rfl : j = i' := some.inj (hj.symm.trans hi)
      rw [hpid q hbefore.ne_unused hq.ne_unused,
        hpid j hlive.started.ne_unused hlive'.started.ne_unused]
      exact horder.init q j hbefore hi hne
    · have hused : (s.proc q).state ≠ .unused := by
        simp [hbind.fork.booting c q hbooting]
      rw [htree.initproc_stays hstep hused, (htree.booting c q hbooting).1] at hi
      exact (hne (some.inj hi)).elim
    · have hstarted : (s.proc p).state.Started := by
        simp [hbind.running hsched, ProcState.Started]
      rw [htree.initproc_stays hstep hstarted.ne_unused] at hi
      obtain ⟨j, hj, hlive⟩ := htree.rooted p hstarted
      obtain rfl : j = i' := some.inj (hj.symm.trans hi)
      rw [hpid q (by simp [hembryo p q hpc]) hq.ne_unused,
        hpid j hlive.started.ne_unused hlive'.started.ne_unused]
      have hchild := horder.child p q (by rw [hpc]; rfl)
      by_cases hp : p = j
      · rw [← hp]
        exact hchild
      · exact (horder.init p j hstarted hi hp).trans hchild
  case child =>
    intro p q hchild
    obtain ⟨hembryo', hstate'⟩ := hbind'.fork.child p q hchild
    have hp' : (t.proc p).state ≠ .unused := by
      rcases hstate' with hstate' | hstate' <;> simp [hstate']
    have hkeeps : forkChild (s.thread p).pc = some q →
        (t.proc p).pid < (t.proc q).pid := by
      intro hbefore
      obtain ⟨hembryo, hstate⟩ := hbind.fork.child p q hbefore
      rw [hpid q (by simp [hembryo]) (by simp [hembryo']),
        hpid p (by rcases hstate with hstate | hstate <;> simp [hstate]) hp']
      exact horder.child p q hbefore
    cases hstep.pcStep p with
    | same hnext =>
      rw [hnext] at hchild
      exact hkeeps hchild
    | reset hnext | waitSleep hnext => simp [hnext, forkChild] at hchild
    | @forkAlloc np hsched hnext _ hnew =>
      obtain rfl : np = q := by simpa [hnext, forkChild] using hchild
      rw [hnew, hpid p (by simp [hbind.running hsched]) hp']
      exact (hrange.range p).2
    | @forkKalloc np hpc hnext | @forkCopyuvm np hpc hnext =>
      obtain rfl : np = q := by simpa [hnext, forkChild] using hchild
      exact hkeeps (by rw [hpc]; rfl)
    | leaves hnext => simp [hchild] at hnext

theorem pidOrder_initial (bootCpu : C) : (initial bootCpu).PidOrder := by
  have hunused : ∀ q, ((initial bootCpu).proc q).state = .unused := fun _ => rfl
  constructor
  · intro q r hq
    simp [hunused q] at hq
  · intro q i hq
    simp [hunused q] at hq
  · intro p q hchild
    simp [initial, forkChild] at hchild

/-- What holds along every run in which `nextpid` does not wrap. -/
structure TableInvariant (s : Kernel C) : Prop where
  binding : s.BindingInvariant
  tree : s.TreeInvariant
  pids : s.PidInvariant
  order : s.PidOrder

theorem tableInvariant_initial (bootCpu : C) : (initial bootCpu).TableInvariant :=
  ⟨bindingInvariant_initial bootCpu, treeInvariant_initial bootCpu,
    pidInvariant_initial bootCpu, pidOrder_initial bootCpu⟩

theorem TableInvariant.step (hinv : s.TableInvariant) (hstep : StepOk source s c action t)
    (hroom : s.HasPid (c, action)) : t.TableInvariant where
  binding := hinv.binding.step hstep
  tree := hinv.tree.step hinv.binding hstep
  pids := hstep.pidStep.invariant hinv.pids hroom
  order := hinv.order.step hinv.pids hinv.binding hinv.tree hstep

theorem tableInvariant_of_run {bootCpu : C} {trace : List (C × Action)}
    (hrun : exec (Kernel.step source) (initial bootCpu) trace = some s)
    (hfew : allocations trace < 2 ^ 31 - 1) : s.TableInvariant := by
  refine StepsMeet.invariant (P := TableInvariant) (Q := HasPid) ?_
    (tableInvariant_initial bootCpu) (stepsMeet_hasPid hfew) hrun
  rintro s ⟨c, action⟩ t hinv hroom hstep
  exact hinv.step (step_ok hstep) hroom

end Pids

def ParentOf (s : Kernel C) (q r : Slot) : Prop :=
  (s.proc q).parent = some r

omit [DecidableEq C] in
theorem TableInvariant.parent_spec {s : Kernel C} (hinv : s.TableInvariant) {q : Slot}
    (hstarted : (s.proc q).state.Started) (hinit : s.initproc ≠ some q) :
    ∃ r, (s.proc q).parent = some r ∧ (s.proc r).state.Live ∧
      (s.proc r).pid < (s.proc q).pid := by
  obtain ⟨r, _, hparent, hlive⟩ := hinv.tree.parent q hstarted hinit
  exact ⟨r, hparent, hlive, hinv.order.parent q r hstarted hparent⟩

omit [DecidableEq C] in
theorem TableInvariant.reaches_init {s : Kernel C} (hinv : s.TableInvariant)
    {q : Slot} (hstarted : (s.proc q).state.Started) :
    ∃ i, s.initproc = some i ∧ Relation.ReflTransGen s.ParentOf q i := by
  induction hpid : (s.proc q).pid.toNat using Nat.strong_induction_on
    generalizing q with
  | _ n ih =>
    by_cases hinit : s.initproc = some q
    · exact ⟨q, hinit, .refl⟩
    · obtain ⟨r, hparent, hlive, hlt⟩ := hinv.parent_spec hstarted hinit
      have hrange := hinv.pids.range r
      obtain ⟨i, hi, hchain⟩ := ih (s.proc r).pid.toNat (by omega) hlive.started rfl
      exact ⟨i, hi, .head hparent hchain⟩

omit [DecidableEq C] in
theorem TableInvariant.pid_lt_of_chain {s : Kernel C} (hinv : s.TableInvariant) {q r : Slot}
    (hstarted : (s.proc q).state.Started) (hchain : Relation.TransGen s.ParentOf q r) :
    (s.proc r).state.Started ∧ (s.proc r).pid < (s.proc q).pid := by
  have hone : ∀ {a b}, (s.proc a).state.Started → s.ParentOf a b →
      (s.proc b).state.Started ∧ (s.proc b).pid < (s.proc a).pid := by
    intro a b ha hab
    have hinit : s.initproc ≠ some a := by
      intro hinit
      have hnone := (hinv.tree.init a hinit).1
      rw [hab] at hnone
      contradiction
    obtain ⟨r, hparent, hlive, hlt⟩ := hinv.parent_spec ha hinit
    obtain rfl : r = b := some.inj (hparent.symm.trans hab)
    exact ⟨hlive.started, hlt⟩
  induction hchain with
  | single hab => exact hone hstarted hab
  | tail _ hab ih =>
    obtain ⟨hb, hlt⟩ := hone ih.1 hab
    exact ⟨hb, hlt.trans ih.2⟩

end Kernel

/-- In every run that has taken fewer than `2^31 - 1` pids every process other
than init, running or waiting to be reaped, has a live parent with a smaller
pid; so its chain of parents has no cycle and ends at init.  Unused slots have
no parent.  This is so whoever holds `ptable.lock`, since `exit` redirects its
children and becomes ZOMBIE in one step.  Init does not exit: that is a
panic. -/
theorem process_tree {source : SchedSource} {bootCpu : C} {trace : List (C × Action)} {s : Kernel C}
    (hrun : exec (Kernel.step source) (Kernel.initial bootCpu) trace = some s)
    (hfew : Kernel.allocations trace < 2 ^ 31 - 1) :
    (∀ q, (s.proc q).state.Started → s.initproc ≠ some q →
      ∃ r, (s.proc q).parent = some r ∧ (s.proc r).state.Live ∧
        (s.proc r).pid < (s.proc q).pid) ∧
    (∀ q, (s.proc q).state.Started → ¬ Relation.TransGen s.ParentOf q q ∧
      ∃ i, s.initproc = some i ∧ Relation.ReflTransGen s.ParentOf q i) ∧
    (∀ q, (s.proc q).state = .unused → (s.proc q).parent = none) := by
  have hinv := Kernel.tableInvariant_of_run hrun hfew
  refine ⟨?_, ?_, hinv.tree.unused⟩
  · intro q hstarted hinit
    exact hinv.parent_spec hstarted hinit
  · intro q hstarted
    refine ⟨?_, hinv.reaches_init hstarted⟩
    intro hcycle
    exact lt_irrefl _ (hinv.pid_lt_of_chain hstarted hcycle).2

def bootAndFork : List (Bool × Action) :=
  bootInit ++ [(true, .forkAlloc (some 1)), (true, .forkKalloc (some 3)),
    (true, .forkCopyuvm (some 4)), (true, .forkPublish)]

def childReady : Kernel Bool :=
  (exec (Kernel.step .proc) (Kernel.initial false) bootAndFork).getD
    (Kernel.initial false)

theorem process_tree_childReady :
    childReady.initproc ≠ some 1 ∧
      ∃ r, (childReady.proc 1).parent = some r ∧
        (childReady.proc r).state.Live ∧
        (childReady.proc r).pid < (childReady.proc 1).pid := by
  have hrun : exec (Kernel.step .proc) (Kernel.initial false) bootAndFork = some childReady := rfl
  have hinit : childReady.initproc ≠ some 1 := by decide
  exact ⟨hinit, (process_tree hrun (by decide)).1 1 (Or.inl (Or.inl rfl)) hinit⟩

end Xv6Kernel
