import Xv6Kernel.ProcSteps

/-!
# Which process runs on which CPU

While a CPU is inside a scheduling pass, or has just been switched back to by
`sched`, it holds `ptable.lock` and `c->proc` may lag behind the table.  Once
the lock is free no CPU is in such a position, and `c->proc` is a bijection
between the CPUs that run a process and the slots in state RUNNING.

`StateChange` says what one step can do to the state of one slot and to the
CPU that runs it.  The invariants follow from it: `RunningBound` ties RUNNING
to the thread a CPU executes, and `ForkInvariant` says that the half-built
child of a `fork`, which the parent writes to without the lock, belongs to that
parent alone.
-/

namespace Xv6Kernel

open TraceExecution

variable {C : Type} [DecidableEq C]

def schedProc : SchedPc → Option Slot
  | .switched p | .returned p => some p
  | _ => none

def inPass : SchedPc → Bool
  | .scan _ | .returned _ => true
  | _ => false

def forkChild : Pc → Option Slot
  | .forkKalloc np | .forkCopyuvm np | .forkPublish np => some np
  | _ => none

/-! ## How a step changes the state of a slot -/

section Fields

variable {α : Type} {f : Proc → α}

theorem age_field (hf : ∀ p priority counter, f { p with priority, counter } = f p)
    (source : SchedSource) (table : Table) (q : Slot) :
    f (Kernel.age source table q) = f (table q) := by
  cases source with
  | proc => rfl
  | proc3 =>
    simp only [Kernel.age, ageOne]
    split
    · rfl
    · split <;> exact hf _ _ _

theorem setPriority_field (hf : ∀ p priority, f { p with priority } = f p) (pid newPriority : ℤ)
    (table : Table) (q : Slot) : f ((setPriority pid newPriority table).1 q) = f (table q) := by
  unfold setPriority
  split
  · rfl
  · split
    next p _ =>
      by_cases hq : q = p
      · subst q
        simp [hf]
      · simp [hq]
    next => rfl

theorem kill_field (hf : ∀ p killed state, f { p with killed, state } = f p) (pid : ℤ)
    (table : Table) (q : Slot) : f ((kill pid table).1 q) = f (table q) := by
  unfold kill
  split
  next p _ =>
    by_cases hq : q = p
    · subst q
      simp [killOne, hf]
    · simp [hq]
  next => rfl

end Fields

@[simp] theorem age_state (source : SchedSource) (table : Table) (p : Slot) :
    (Kernel.age source table p).state = (table p).state :=
  age_field (fun _ _ _ => rfl) source table p

@[simp] theorem setPriority_state (pid newPriority : ℤ) (table : Table) (q : Slot) :
    ((setPriority pid newPriority table).1 q).state = (table q).state :=
  setPriority_field (fun _ _ => rfl) pid newPriority table q

theorem kill_state (pid : ℤ) (table : Table) (q : Slot) :
    ((kill pid table).1 q).state = (table q).state ∨
      (table q).state = .sleeping ∧ ((kill pid table).1 q).state = .runnable := by
  unfold kill
  split
  next p _ =>
    by_cases hq : q = p
    · subst q
      by_cases hsleep : (table p).state = .sleeping
      · simp [killOne, hsleep]
      · simp [killOne, hsleep]
    · simp [hq]
  next => exact Or.inl rfl

namespace Kernel

/-- What a step of `c` can do to the state of a slot while the threads of the
other slots stay where they are. -/
inductive SlotMove (s t : Kernel C) (c : C) (q : Slot) : Prop
  | same (hstate : (t.proc q).state = (s.proc q).state)
  | allocated (hbefore : (s.proc q).state = .unused)
      (hafter : (t.proc q).state = .embryo)
  | booted (hbefore : s.sched c = .booting q) (hnext : t.sched c = .start)
      (hafter : (t.proc q).state = .runnable)
  | built {p : Slot} (hparent : s.sched c = .switched p)
      (hchild : forkChild (s.thread p).pc = some q)
      (hdone : forkChild (t.thread p).pc = none)
      (hafter : (t.proc q).state = .unused ∨ (t.proc q).state = .runnable)
  | woken (hbefore : (s.proc q).state = .sleeping)
      (hafter : (t.proc q).state = .runnable)
  | reaped (hbefore : (s.proc q).state = .zombie)
      (hafter : (t.proc q).state = .unused)

/-- What a step of `c` can do to the state of a slot and to the position of
`c` relative to it. -/
inductive StateChange (s t : Kernel C) (c : C) (q : Slot) : Prop
  | stays (hmove : SlotMove s t c q)
      (hsched : t.sched c = .switched q ↔ s.sched c = .switched q)
  | dispatched (hbefore : (s.proc q).state = .runnable)
      (hafter : (t.proc q).state = .running)
      (hpass : inPass (s.sched c)) (hsched : t.sched c = .switched q)
  | left (hsched : s.sched c = .switched q) (hreturned : t.sched c = .returned q)
      (hafter : (t.proc q).state = .runnable ∨
        forkChild (s.thread q).pc = none ∧
          ((t.proc q).state = .sleeping ∨ (t.proc q).state = .zombie))

section Changes

variable {source : SchedSource} {s t : Kernel C} {c c' : C} {action : Action} {p q np : Slot}

omit [DecidableEq C] in
theorem SlotMove.of_woken
    (hstate : (t.proc q).state = (s.proc q).state ∨
      (s.proc q).state = .sleeping ∧ (t.proc q).state = .runnable) :
    SlotMove s t c q := by
  rcases hstate with hsame | ⟨hbefore, hafter⟩
  · exact .same hsame
  · exact .woken hbefore hafter

theorem StepOk.stateChange (hstep : StepOk source s c action t) (q : Slot) :
    StateChange s t c q := by
  cases hstep
  case userinitAlloc p k g hsched hlock hfind =>
    refine .stays ?_ (by simp [hsched])
    by_cases hq : q = p
    · subst q
      exact .allocated (findUnused_state hfind) (by simp [Proc.embryo])
    · exact .same (by simp [hq])
  case userinitPublish p hsched hlock =>
    refine .stays ?_ (by simp [hsched])
    by_cases hq : q = p
    · subst q
      exact .booted hsched (by simp) (by simp)
    · exact .same (by simp [hq])
  case dispatch p hsched hstate hkstack hpgdir =>
    by_cases hq : q = highestp s.proc p
    · subst q
      exact .dispatched (highestp_runnable hstate) (by simp) (by simp [hsched, inPass]) (by simp)
    · exact .stays (.same (by simp [hq])) (by simp [hsched, Ne.symm hq])
  case yield p hsched hthread hstate hlock hcli =>
    by_cases hq : q = p
    · subst q
      exact .left hsched (by simp) (Or.inl (by simp))
    · exact .stays (.same (by simp [hq])) (by simp [hsched, Ne.symm hq])
  case sleep p _ _ _ hsched hthread _ _ | waitSleep p hsched hthread _ _ =>
    by_cases hq : q = p
    · subst q
      exact .left hsched (by simp) (Or.inr ⟨by simp [hthread, forkChild], by simp⟩)
    · exact .stays (.same (by simp [hq])) (by simp [hsched, Ne.symm hq])
  case exit p hsched hthread hlock hinit =>
    by_cases hq : q = p
    · subst q
      have hzombie := (exitTable_self p s.initproc s.proc).1
      exact .left hsched (by simp) (Or.inr ⟨by simp [hthread, forkChild], Or.inr hzombie⟩)
    · exact .stays (.of_woken (exitTable_wokenFrom s.initproc s.proc hq).state)
        (by simp [hsched, Ne.symm hq])
  case forkAlloc p np hsched hthread hlock hfind =>
    refine .stays ?_ Iff.rfl
    by_cases hq : q = np
    · subst q
      exact .allocated (findUnused_state hfind) (by simp [Proc.embryo])
    · exact .same (by simp [hq])
  case forkKallocFail np hsched hthread | forkCopyuvmFail np hsched hthread
  | forkPublish np hsched hthread _ =>
    refine .stays ?_ Iff.rfl
    by_cases hq : q = np
    · subst q
      exact .built hsched (by simp [hthread, forkChild]) (by simp [forkChild]) (by simp)
    · exact .same (by simp [hq])
  case waitReap p z hsched hthread hlock hscan =>
    refine .stays ?_ Iff.rfl
    by_cases hq : q = z
    · subst q
      exact .reaped (waitScan_reap hscan).2 (by simp [Proc.reaped])
    · exact .same (by simp [hq])
  case kill pid _ _ _ => exact .stays (.of_woken (kill_state pid s.proc q)) Iff.rfl
  case wakeup chan _ =>
    exact .stays (.of_woken (wakeOne_wokenFrom (some chan) (s.proc q)).state) Iff.rfl
  case forkKalloc np _ _ _ | forkCopyuvm np _ _ _ =>
    exact .stays (.same (by by_cases hq : q = np <;> simp [hq])) Iff.rfl
  case sleepReturn p _ _ _ _ | waitReturn p _ _ | trapKill p _ _ =>
    exact .stays (.same (by by_cases hq : q = p <;> simp [hq])) Iff.rfl
  all_goals exact .stays (.same (by simp)) (by simp [*])

theorem StepOk.sched_other (hstep : StepOk source s c action t)
    (hc : c' ≠ c) : t.sched c' = s.sched c' := by
  cases hstep <;> simp [hc]

theorem forkChild_update {thread : Slot → Thread} {value : Thread}
    (hchild : forkChild (Function.update thread p value q).pc = some np) :
    q = p ∧ forkChild value.pc = some np ∨ forkChild (thread q).pc = some np := by
  by_cases hq : q = p
  · subst q
    rw [Function.update_self] at hchild
    exact Or.inl ⟨rfl, hchild⟩
  · rw [Function.update_of_ne hq] at hchild
    exact Or.inr hchild

theorem StepOk.forkChild_origin (hstep : StepOk source s c action t)
    (hchild : forkChild (t.thread p).pc = some np) :
    forkChild (s.thread p).pc = some np ∨
      s.sched c = .switched p ∧ t.sched c = .switched p ∧
        (s.proc np).state = .unused ∧ (t.proc np).state = .embryo := by
  cases hstep
  case forkAlloc parent child hsched hthread hlock hfind =>
    rcases forkChild_update hchild with ⟨hp, hvalue⟩ | hbefore
    · subst p
      obtain rfl : child = np := by simpa [forkChild] using hvalue
      exact Or.inr ⟨hsched, hsched, findUnused_state hfind, by simp [Proc.embryo]⟩
    · exact Or.inl hbefore
  case forkKalloc parent child k hsched hthread =>
    rcases forkChild_update hchild with ⟨hp, hvalue⟩ | hbefore
    · subst p
      rw [hthread]
      exact Or.inl hvalue
    · rcases forkChild_update hbefore with ⟨_, hvalue⟩ | hbefore
      · simp [forkChild] at hvalue
      · exact Or.inl hbefore
  case forkCopyuvm parent child g hsched hthread =>
    rcases forkChild_update hchild with ⟨hp, hvalue⟩ | hbefore
    · subst p
      rw [hthread]
      exact Or.inl hvalue
    · exact Or.inl hbefore
  all_goals first
    | exact Or.inl hchild
    | rcases forkChild_update hchild with ⟨hp, hvalue⟩ | hbefore
      · subst p
        first
          | exact Or.inl hvalue
          | simp [forkChild] at hvalue
      · exact Or.inl hbefore

theorem StepOk.booting_origin (hstep : StepOk source s c action t)
    (hbooting : t.sched c' = .booting p) :
    s.sched c' = .booting p ∨
      c' = c ∧ s.sched c = .boot ∧
        (s.proc p).state = .unused ∧ (t.proc p).state = .embryo := by
  by_cases hc : c' = c
  · subst c'
    cases hstep
    case userinitAlloc q k g hsched hlock hfind =>
      obtain rfl : q = p := by simpa using hbooting
      exact Or.inr ⟨rfl, hsched, findUnused_state hfind, by simp [Proc.embryo]⟩
    all_goals simp_all
  · rw [hstep.sched_other hc] at hbooting
    exact Or.inl hbooting

end Changes

/-! ## RUNNING slots and executing threads -/

structure RunningBound (s : Kernel C) : Prop where
  running_iff : ∀ p, (s.proc p).state = .running ↔ ∃ c, s.sched c = .switched p
  unique : ∀ c c' p, s.sched c = .switched p → s.sched c' = .switched p → c = c'

/-- A child is EMBRYO while its parent builds it, and no other thread, nor the
boot CPU, builds the same slot. -/
structure ForkInvariant (s : Kernel C) : Prop where
  child : ∀ p np, forkChild (s.thread p).pc = some np →
    (s.proc np).state = .embryo ∧
      ((s.proc p).state = .running ∨ (s.proc p).state = .runnable)
  unique : ∀ p q np, forkChild (s.thread p).pc = some np →
    forkChild (s.thread q).pc = some np → p = q
  booting : ∀ c p, s.sched c = .booting p → (s.proc p).state = .embryo
  bootingUnique : ∀ c c' p, s.sched c = .booting p → s.sched c' = .booting p →
    c = c'
  bootingFresh : ∀ c p q, s.sched c = .booting p →
    forkChild (s.thread q).pc ≠ some p

section Steps

variable {source : SchedSource} {s t : Kernel C} {c c' : C} {action : Action} {p q np : Slot}

omit [DecidableEq C] in
theorem SlotMove.running_iff (hmove : SlotMove s t c q) (hfork : s.ForkInvariant) :
    (t.proc q).state = .running ↔ (s.proc q).state = .running := by
  cases hmove with
  | same hstate => rw [hstate]
  | allocated hbefore hafter | woken hbefore hafter | reaped hbefore hafter =>
        simp [hbefore, hafter]
  | booted hbefore _ hafter => simp [hfork.booting c q hbefore, hafter]
  | built _ hchild _ hafter =>
    have hembryo := (hfork.child _ q hchild).1
    rcases hafter with hafter | hafter <;> simp [hembryo, hafter]

theorem StepOk.switched_origin (hstep : StepOk source s c action t)
    (hswitched : t.sched c' = .switched q) :
    s.sched c' = .switched q ∨
      c' = c ∧ (s.proc q).state = .runnable ∧ (t.proc q).state = .running := by
  by_cases hc : c' = c
  · subst c'
    cases hstep.stateChange q with
    | stays _ hsched => exact Or.inl (hsched.mp hswitched)
    | dispatched hbefore hafter _ _ => exact Or.inr ⟨rfl, hbefore, hafter⟩
    | left _ hreturned _ =>
      rw [hreturned] at hswitched
      contradiction
  · rw [hstep.sched_other hc] at hswitched
    exact Or.inl hswitched

theorem RunningBound.step (hbound : s.RunningBound) (hfork : s.ForkInvariant)
    (hstep : StepOk source s c action t) : t.RunningBound := by
  have hfree : ∀ c' q, s.sched c' = .switched q → (s.proc q).state ≠ .runnable := by
    intro c' q hq hrunnable
    have hrunning := (hbound.running_iff q).mpr ⟨c', hq⟩
    rw [hrunnable] at hrunning
    contradiction
  constructor
  · intro q
    cases hstep.stateChange q with
    | stays hmove hsched =>
      have hiff : ∀ c', t.sched c' = .switched q ↔ s.sched c' = .switched q := by
        intro c'
        by_cases hc : c' = c
        · rw [hc]
          exact hsched
        · rw [hstep.sched_other hc]
      rw [hmove.running_iff hfork, hbound.running_iff q]
      simp only [hiff]
    | dispatched _ hafter _ hsched =>
      exact ⟨fun _ => ⟨c, hsched⟩, fun _ => hafter⟩
    | left hsched hreturned hafter =>
      have hnone : ¬ ∃ c', t.sched c' = .switched q := by
        rintro ⟨c', hc'⟩
        rcases hstep.switched_origin hc' with hbefore | ⟨_, hrunnable, _⟩
        · have heq := hbound.unique c' c q hbefore hsched
          rw [heq, hreturned] at hc'
          contradiction
        · exact hfree c q hsched hrunnable
      have hstate : (t.proc q).state ≠ .running := by
        rcases hafter with hafter | ⟨_, hafter | hafter⟩ <;> simp [hafter]
      simp [hstate, hnone]
  · intro c1 c2 q h1 h2
    rcases hstep.switched_origin h1 with h1 | ⟨hc1, hrunnable, _⟩
    · rcases hstep.switched_origin h2 with h2 | ⟨_, hrunnable, _⟩
      · exact hbound.unique c1 c2 q h1 h2
      · exact (hfree c1 q h1 hrunnable).elim
    · rcases hstep.switched_origin h2 with h2 | ⟨hc2, _, _⟩
      · exact (hfree c2 q h2 hrunnable).elim
      · rw [hc1, hc2]

theorem StepOk.embryo_stays (hstep : StepOk source s c action t)
    (hbound : s.RunningBound) (hembryo : (s.proc q).state = .embryo) :
    (t.proc q).state = .embryo ∨ s.sched c = .booting q ∧ t.sched c = .start ∨
      ∃ p, s.sched c = .switched p ∧ forkChild (s.thread p).pc = some q ∧
        forkChild (t.thread p).pc = none := by
  cases hstep.stateChange q with
  | stays hmove _ =>
    cases hmove with
    | same hstate => exact Or.inl (hstate.trans hembryo)
    | booted hbefore hnext _ => exact Or.inr (Or.inl ⟨hbefore, hnext⟩)
    | built hparent hchild hdone _ =>
      exact Or.inr (Or.inr ⟨_, hparent, hchild, hdone⟩)
    | allocated hbefore | woken hbefore | reaped hbefore => simp [hembryo] at hbefore
  | dispatched hbefore _ _ _ => simp [hembryo] at hbefore
  | left hsched _ _ =>
    have hrunning := (hbound.running_iff q).mpr ⟨c, hsched⟩
    simp [hembryo] at hrunning

theorem StepOk.parent_stays (hstep : StepOk source s c action t)
    (hfork : s.ForkInvariant) (hchild : forkChild (s.thread p).pc = some np) :
    (t.proc p).state = .running ∨ (t.proc p).state = .runnable := by
  have hstate := (hfork.child p np hchild).2
  cases hstep.stateChange p with
  | stays hmove _ =>
    cases hmove with
    | same hsame =>
      rw [hsame]
      exact hstate
    | booted _ _ hafter => exact Or.inr hafter
    | built _ hbuilt _ _ => simp [(hfork.child _ p hbuilt).1] at hstate
    | allocated hbefore | woken hbefore | reaped hbefore => simp [hbefore] at hstate
  | dispatched _ hafter _ _ => exact Or.inl hafter
  | left _ _ hafter =>
    rcases hafter with hrunnable | ⟨hnone, _⟩
    · exact Or.inr hrunnable
    · rw [hnone] at hchild
      contradiction

theorem ForkInvariant.step (hfork : s.ForkInvariant) (hbound : s.RunningBound)
    (hstep : StepOk source s c action t) : t.ForkInvariant := by
  have hembryo_ne : ∀ q, (s.proc q).state = .embryo →
      (s.proc q).state ≠ .unused := by
    intro q hembryo
    simp [hembryo]
  have hbound' := hbound.step hfork hstep
  constructor
  case child =>
    intro p np hchild
    rcases hstep.forkChild_origin hchild with hbefore | ⟨_, hsched, _, hembryo⟩
    · refine ⟨?_, hstep.parent_stays hfork hbefore⟩
      rcases hstep.embryo_stays hbound (hfork.child p np hbefore).1 with
        hembryo | ⟨hbooting, _⟩ | ⟨p', _, hchild', hdone⟩
      · exact hembryo
      · exact (hfork.bootingFresh c np p hbooting hbefore).elim
      · have hp := hfork.unique p p' np hbefore hchild'
        rw [hp, hdone] at hchild
        contradiction
    · exact ⟨hembryo, Or.inl ((hbound'.running_iff p).mpr ⟨c, hsched⟩)⟩
  case unique =>
    intro p q np hp hq
    rcases hstep.forkChild_origin hp with hp | ⟨hp, _, hunused, _⟩
    · rcases hstep.forkChild_origin hq with hq | ⟨_, _, hunused, _⟩
      · exact hfork.unique p q np hp hq
      · exact (hembryo_ne np (hfork.child p np hp).1 hunused).elim
    · rcases hstep.forkChild_origin hq with hq | ⟨hq, _, _, _⟩
      · exact (hembryo_ne np (hfork.child q np hq).1 hunused).elim
      · rw [hp] at hq
        exact SchedPc.switched.inj hq
  case booting =>
    intro c' p hbooting
    rcases hstep.booting_origin hbooting with hbefore | ⟨_, _, _, hembryo⟩
    · rcases hstep.embryo_stays hbound (hfork.booting c' p hbefore) with
        hembryo | ⟨hbooting', hnext⟩ | ⟨q, _, hchild, _⟩
      · exact hembryo
      · rw [hfork.bootingUnique c' c p hbefore hbooting', hnext] at hbooting
        contradiction
      · exact (hfork.bootingFresh c' p q hbefore hchild).elim
    · exact hembryo
  case bootingUnique =>
    intro c1 c2 p h1 h2
    rcases hstep.booting_origin h1 with h1 | ⟨hc1, _, hunused, _⟩
    · rcases hstep.booting_origin h2 with h2 | ⟨_, _, hunused, _⟩
      · exact hfork.bootingUnique c1 c2 p h1 h2
      · exact (hembryo_ne p (hfork.booting c1 p h1) hunused).elim
    · rcases hstep.booting_origin h2 with h2 | ⟨hc2, _, _, _⟩
      · exact (hembryo_ne p (hfork.booting c2 p h2) hunused).elim
      · rw [hc1, hc2]
  case bootingFresh =>
    intro c' p q hbooting hchild
    rcases hstep.booting_origin hbooting with hbooting | ⟨_, hboot, hunused, _⟩
    · rcases hstep.forkChild_origin hchild with hchild | ⟨_, _, hunused, _⟩
      · exact hfork.bootingFresh c' p q hbooting hchild
      · exact hembryo_ne p (hfork.booting c' p hbooting) hunused
    · rcases hstep.forkChild_origin hchild with hchild | ⟨hswitched, _, _, _⟩
      · exact hembryo_ne p (hfork.child q p hchild).1 hunused
      · rw [hboot] at hswitched
        contradiction

/-- What holds of every reachable state, whoever has the lock. -/
structure BindingInvariant (s : Kernel C) : Prop where
  cpuProc : ∀ c, s.cpuProc c = schedProc (s.sched c)
  lock : ∀ c, inPass (s.sched c) → s.lock = some c
  bound : s.RunningBound
  fork : s.ForkInvariant

theorem StepOk.cpuProc_eq (hstep : StepOk source s c action t)
    (hcpu : ∀ c, s.cpuProc c = schedProc (s.sched c)) (c' : C) :
    t.cpuProc c' = schedProc (t.sched c') := by
  by_cases hc : c' = c
  · subst c'
    cases hstep <;> simp_all [schedProc]
  · have hother : t.cpuProc c' = s.cpuProc c' := by
      cases hstep <;> simp [hc]
    rw [hother, hstep.sched_other hc, hcpu c']

theorem StepOk.lock_inPass (hstep : StepOk source s c action t)
    (hlock : ∀ c, inPass (s.sched c) → s.lock = some c) (c' : C)
    (hpass : inPass (t.sched c')) : t.lock = some c' := by
  by_cases hc : c' = c
  · subst c'
    have hc := hlock c
    cases hstep <;> simp_all [inPass]
  · rw [hstep.sched_other hc] at hpass
    have hc' := hlock c' hpass
    cases hstep <;> simp_all

theorem bindingInvariant_initial (bootCpu : C) : (initial bootCpu).BindingInvariant := by
  have hsched : ∀ c, (initial bootCpu).sched c = .boot ∨
      (initial bootCpu).sched c = .start := by
    intro c
    by_cases hc : c = bootCpu <;> simp [initial, hc]
  have hthread : ∀ p, forkChild ((initial bootCpu).thread p).pc = none := fun _ => rfl
  have hunused : ∀ p, ((initial bootCpu).proc p).state = .unused := fun _ => rfl
  constructor
  case cpuProc =>
    intro c
    rcases hsched c with hc | hc <;> rw [hc] <;> rfl
  case lock =>
    intro c hpass
    rcases hsched c with hc | hc <;> rw [hc] at hpass <;> contradiction
  case bound | fork =>
    constructor <;> intros <;> grind

theorem BindingInvariant.step (hinv : s.BindingInvariant)
    (hstep : StepOk source s c action t) : t.BindingInvariant where
  cpuProc := hstep.cpuProc_eq hinv.cpuProc
  lock := hstep.lock_inPass hinv.lock
  bound := hinv.bound.step hinv.fork hstep
  fork := hinv.fork.step hinv.bound hstep

theorem Booted.bindingInvariant (hbooted : Booted source s) : s.BindingInvariant := by
  refine Reachable.invariant ?_ ?_ hbooted
  · rintro start ⟨bootCpu, rfl⟩
    exact bindingInvariant_initial bootCpu
  · rintro s ⟨c, action⟩ t hinv hstep
    exact hinv.step (step_ok hstep)

omit [DecidableEq C] in
theorem BindingInvariant.cpuProc_iff (hinv : s.BindingInvariant) (hpass : ¬ inPass (s.sched c))
    : s.cpuProc c = some p ↔ s.sched c = .switched p := by
  rw [hinv.cpuProc c]
  cases hsched : s.sched c <;> simp_all [schedProc, inPass]

omit [DecidableEq C] in
/-- When a zombie is reaped no CPU has it as `c->proc`: the CPU it left is
past `c->proc = 0`, since the reaper has the lock. -/
theorem BindingInvariant.not_cpuProc_of_zombie (hinv : s.BindingInvariant)
    (hsched : s.sched c = .switched p) (hlock : s.lock = some c)
    (hzombie : (s.proc q).state = .zombie) (c' : C) : s.cpuProc c' ≠ some q := by
  intro hq
  have hpass : ¬ inPass (s.sched c') := by
    intro hpass
    have heq := hinv.lock c' hpass
    rw [hlock] at heq
    obtain rfl := Option.some.inj heq
    simp [hsched, inPass] at hpass
  have hswitched := (hinv.cpuProc_iff hpass).mp hq
  have hrunning := (hinv.bound.running_iff q).mpr ⟨c', hswitched⟩
  simp [hzombie] at hrunning

end Steps

end Kernel

/-- While `ptable.lock` is free `c->proc` is a bijection from the CPUs that
have a process onto the RUNNING slots; at no time does a process run on two
CPUs, and `wait` reaps no slot that is some CPU's `c->proc`. -/
theorem cpu_proc_binding {source : SchedSource} {s : Kernel C} (hbooted : Kernel.Booted source s) :
    (s.lock = none →
      (∀ c c' p, s.cpuProc c = some p → s.cpuProc c' = some p → c = c') ∧
      (∀ p, (∃ c, s.cpuProc c = some p) ↔ (s.proc p).state = .running)) ∧
    (∀ c c' p, s.current c = some p → s.current c' = some p → c = c') ∧
    (∀ c t p q, Kernel.step source s (c, .waitScan) = some t →
      s.current c = some p → waitScan p s.proc = .reap q →
      ∀ c', s.cpuProc c' ≠ some q) := by
  have hinv := hbooted.bindingInvariant
  refine ⟨?_, ?_, ?_⟩
  · intro hlock
    have hpass : ∀ c, ¬ inPass (s.sched c) := by
      intro c hpass
      have hheld := hinv.lock c hpass
      rw [hlock] at hheld
      contradiction
    constructor
    · intro c c' p hc hc'
      rw [hinv.cpuProc_iff (hpass c)] at hc
      rw [hinv.cpuProc_iff (hpass c')] at hc'
      exact hinv.bound.unique c c' p hc hc'
    · intro p
      rw [hinv.bound.running_iff p]
      constructor
      · rintro ⟨c, hc⟩
        exact ⟨c, (hinv.cpuProc_iff (hpass c)).mp hc⟩
      · rintro ⟨c, hc⟩
        exact ⟨c, (hinv.cpuProc_iff (hpass c)).mpr hc⟩
  · intro c c' p hc hc'
    rw [Kernel.current_eq_some] at hc hc'
    exact hinv.bound.unique c c' p hc hc'
  · intro c t p q hstep hcurrent hscan
    rw [Kernel.current_eq_some] at hcurrent
    have hlock : s.lock = some c := by
      cases Kernel.step_ok hstep <;> assumption
    exact hinv.not_cpuProc_of_zombie hcurrent hlock (waitScan_reap hscan).2

def bootInit : List (Bool × Action) :=
  [(false, .userinitAlloc (some 1) (some 2)), (false, .userinitPublish),
    (true, .acquirePtable), (true, .dispatch 0), (true, .forkret)]

def initRunning : Kernel Bool :=
  (exec (Kernel.step .proc) (Kernel.initial false) bootInit).getD
    (Kernel.initial false)

theorem cpu_proc_binding_initRunning :
    initRunning.cpuProc true = some 0 ∧ initRunning.lock = none ∧
      ∀ p, (∃ c, initRunning.cpuProc c = some p) ↔
        (initRunning.proc p).state = .running := by
  have hbooted : Kernel.Booted .proc initRunning :=
    ⟨Kernel.initial false, bootInit, ⟨false, rfl⟩, rfl⟩
  exact ⟨rfl, rfl, ((cpu_proc_binding hbooted).1 rfl).2⟩

end Xv6Kernel
