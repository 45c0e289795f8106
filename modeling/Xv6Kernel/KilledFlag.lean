import Xv6Kernel.CpuBinding

/-!
# Where a killed flag comes from

`killed` lives in a slot that is used again and again.  `kill` sets it in the
first slot with a matching pid, whatever the state of that slot, `wait` clears
it, and `allocproc` leaves it alone.  A history variable records, for every
slot, whether somebody asked for the end of its present process: `kill` was
called with its pid, or the process itself took a fatal trap, since
`allocproc` created it.

A flag can outlive its process in two ways: `kill` finds a slot that is UNUSED,
or a `fork` that fails gives back a slot whose flag has been set meanwhile.  In
runs without such steps every flag is the present process's own.
-/

namespace Xv6Kernel

open TraceExecution Function

variable {C : Type} [DecidableEq C]

/-- The kernel with the history of requests to end a process. -/
structure Audited (C : Type) where
  kernel : Kernel C
  asked : Slot → Bool

def allocatedBy (s : Kernel C) : Action → Option Slot
  | .userinitAlloc _ _ => findUnused s.proc
  | .forkAlloc np => np
  | _ => none

def asksFor (s : Kernel C) (q : Slot) : C × Action → Bool
  | (_, .kill pid) => (s.proc q).pid = pid
  | (c, .trapKill) => s.current c = some q
  | _ => false

namespace Audited

def recordAsked (a : Audited C) (label : C × Action) : Slot → Bool :=
  fun q =>
    if allocatedBy a.kernel label.2 = some q then false
    else a.asked q || asksFor a.kernel q label

def step (source : SchedSource) (a : Audited C) (label : C × Action) : Option (Audited C) :=
  (Kernel.step source a.kernel label).map fun kernel =>
    { kernel := kernel, asked := a.recordAsked label }

def initial (bootCpu : C) : Audited C where
  kernel := Kernel.initial bootCpu
  asked := fun _ => false

def KilledFresh (a : Audited C) : Prop :=
  ∀ q, (a.kernel.proc q).state ≠ .unused → (a.kernel.proc q).killed = true →
    a.asked q = true

end Audited

/-- The step leaves no flag behind in an UNUSED slot: a `kill` does not find
one, and a failing `fork` does not give back a child that has been killed. -/
def LeavesNoFlag (s : Kernel C) : C × Action → Prop
  | (_, .kill pid) =>
      ∀ p, findSlot (fun p => (s.proc p).pid = pid) = some p →
        (s.proc p).state ≠ .unused
  | (c, .forkKalloc none) | (c, .forkCopyuvm none) =>
      ∀ p np, s.current c = some p → forkChild (s.thread p).pc = some np →
        (s.proc np).killed = false
  | _ => True

inductive KilledChange (s : Kernel C) (c : C) (action : Action) (q : Slot)
    (after : Proc) : Prop
  | same (hkilled : after.killed = (s.proc q).killed)
      (hstate : after.state = .unused → (s.proc q).state = .unused)
  | cleared (hkilled : after.killed = false)
  | abandoned {p : Slot}
      (haction : action = .forkKalloc none ∨ action = .forkCopyuvm none)
      (hcurrent : s.current c = some p)
      (hchild : forkChild (s.thread p).pc = some q)
      (hkilled : after.killed = (s.proc q).killed)
  | killed {pid : ℤ} (haction : action = .kill pid)
      (hfind : findSlot (fun p => (s.proc p).pid = pid) = some q)
      (hstate : after.state = .unused → (s.proc q).state = .unused)
  | trapped (haction : action = .trapKill) (hcurrent : s.current c = some q)
      (hstate : after.state = (s.proc q).state)

section Changes

variable {source : SchedSource} {s t : Kernel C} {c : C} {action : Action}

section

omit [DecidableEq C]

theorem KilledChange.of_update {p : Slot} {value : Proc} (q : Slot)
    (hkilled : value.killed = (s.proc p).killed)
    (hstate : value.state = .unused → (s.proc p).state = .unused) :
    KilledChange s c action q (update s.proc p value q) := by
  by_cases hq : q = p
  · subst q
    rw [update_self]
    exact .same hkilled hstate
  · rw [update_of_ne hq]
    exact .same rfl id

theorem KilledChange.of_wokenFrom {q : Slot} {after : Proc}
    (hwoken : (s.proc q).WokenFrom after) : KilledChange s c action q after := by
  refine .same hwoken.killed ?_
  intro hunused
  rcases hwoken.state with hsame | ⟨_, hrunnable⟩
  · rw [← hsame]
    exact hunused
  · rw [hrunnable] at hunused
    contradiction

theorem kill_killedChange (pid : ℤ) (q : Slot) :
    KilledChange s c (.kill pid) q ((kill pid s.proc).1 q) := by
  unfold kill
  split
  next p hfind =>
    by_cases hq : q = p
    · subst q
      refine .killed rfl hfind ?_
      simp only [update_self, killOne]
      split
      · simp
      · exact id
    · simp only [update_of_ne hq]
      exact .same rfl id
  next => exact .same rfl id

theorem exitTable_killedChange (p : Slot) (q : Slot) :
    KilledChange s c .exit q (exitTable p s.initproc s.proc q) := by
  by_cases hq : q = p
  · subst q
    have hself := exitTable_self p s.initproc s.proc
    refine .same hself.2.killed ?_
    intro hunused
    rw [hself.1] at hunused
    contradiction
  · exact .of_wokenFrom (exitTable_wokenFrom s.initproc s.proc hq)

end

theorem age_killed (source : SchedSource) (table : Table) (q : Slot) :
    (Kernel.age source table q).killed = (table q).killed :=
  age_field (fun _ _ _ => rfl) source table q

theorem setPriority_killed (pid newPriority : ℤ) (table : Table) (q : Slot) :
    ((setPriority pid newPriority table).1 q).killed = (table q).killed :=
  setPriority_field (fun _ _ => rfl) pid newPriority table q

theorem Kernel.StepOk.killedChange (hstep : Kernel.StepOk source s c action t)
    (q : Slot) : KilledChange s c action q (t.proc q) := by
  cases hstep
  case afterSwtch =>
    exact .same (age_killed source s.proc q) (by simp)
  case exit p _ _ _ _ => exact exitTable_killedChange p q
  case kill pid _ _ _ => exact kill_killedChange pid q
  case setPriority pid newPriority _ _ _ =>
    exact .same (setPriority_killed pid newPriority s.proc q) (by simp)
  case wakeup chan _ => exact .of_wokenFrom (wakeOne_wokenFrom (some chan) (s.proc q))
  case forkKallocFail p np hsched hthread =>
    by_cases hq : q = np
    · subst q
      exact .abandoned (Or.inl rfl) (Kernel.current_eq_some.mpr hsched)
        (by simp [hthread, forkChild]) (by simp)
    · exact .same (by simp [hq]) (by simp [hq])
  case forkCopyuvmFail p np hsched hthread =>
    by_cases hq : q = np
    · subst q
      exact .abandoned (Or.inr rfl) (Kernel.current_eq_some.mpr hsched)
        (by simp [hthread, forkChild]) (by simp)
    · exact .same (by simp [hq]) (by simp [hq])
  case waitReap p z _ _ _ _ =>
    by_cases hq : q = z
    · subst q
      exact .cleared (by simp [Proc.reaped])
    · exact .same (by simp [hq]) (by simp [hq])
  case trapKill p hsched _ =>
    by_cases hq : q = p
    · subst q
      exact .trapped rfl (Kernel.current_eq_some.mpr hsched) (by simp)
    · exact .same (by simp [hq]) (by simp [hq])
  case userinitAlloc | forkAlloc => exact .of_update q rfl (by simp [Proc.embryo])
  case userinitPublish | dispatch | yield | sleep | forkPublish | waitSleep =>
    exact .of_update q rfl (by simp)
  case sleepReturn | forkKalloc | forkCopyuvm | waitReturn => exact .of_update q rfl id
  all_goals exact .same rfl id

end Changes

/-- Every flag that is set belongs to a live process that was asked to end. -/
structure AuditInvariant (a : Audited C) : Prop where
  binding : a.kernel.BindingInvariant
  asked : ∀ q, (a.kernel.proc q).killed = true → a.asked q = true
  live : ∀ q, (a.kernel.proc q).killed = true →
    (a.kernel.proc q).state ≠ .unused

theorem auditInvariant_initial (bootCpu : C) : AuditInvariant (Audited.initial bootCpu) where
  binding := Kernel.bindingInvariant_initial bootCpu
  asked := fun q hkilled => by simp [Audited.initial, Kernel.initial, Proc.zero] at hkilled
  live := fun q hkilled => by simp [Audited.initial, Kernel.initial, Proc.zero] at hkilled

section Steps

variable {source : SchedSource} {a b : Audited C} {c : C} {action : Action}

theorem allocatedBy_unused {s t : Kernel C} {q : Slot} (hstep : Kernel.StepOk source s c action t)
    (hallocated : allocatedBy s action = some q) : (s.proc q).state = .unused := by
  cases hstep <;> simp only [allocatedBy, reduceCtorEq] at hallocated
  case userinitAlloc => exact findUnused_state hallocated
  case forkAlloc hfind =>
    rw [← Option.some.inj hallocated]
    exact findUnused_state hfind

omit [DecidableEq C] in
theorem recordAsked_eq_true {q : Slot} (hlive : allocatedBy a.kernel action ≠ some q)
    (hasked : a.asked q = true ∨ asksFor a.kernel q (c, action) = true) :
    a.recordAsked (c, action) q = true := by
  simp only [Audited.recordAsked, if_neg hlive, Bool.or_eq_true]
  exact hasked

theorem AuditInvariant.step (hinv : AuditInvariant a) (hflag : LeavesNoFlag a.kernel (c, action))
    (hstep : Audited.step source a (c, action) = some b) : AuditInvariant b := by
  simp only [Audited.step, Option.map_eq_some_iff] at hstep
  obtain ⟨t, hkernel, rfl⟩ := hstep
  have hok := Kernel.step_ok hkernel
  have hfresh : ∀ q, (a.kernel.proc q).state ≠ .unused →
      allocatedBy a.kernel action ≠ some q := by
    intro q hstate hallocated
    exact hstate (allocatedBy_unused hok hallocated)
  have hboth : ∀ q, (t.proc q).killed = true →
      a.recordAsked (c, action) q = true ∧ (t.proc q).state ≠ .unused := by
    intro q hkilled
    cases hok.killedChange q with
    | same hsame hstate =>
      rw [hsame] at hkilled
      have hlive := hinv.live q hkilled
      exact ⟨recordAsked_eq_true (hfresh q hlive) (Or.inl (hinv.asked q hkilled)),
        fun hunused => hlive (hstate hunused)⟩
    | cleared hcleared =>
      rw [hcleared] at hkilled
      contradiction
    | abandoned haction hcurrent hchild hsame =>
      have hclear : (a.kernel.proc q).killed = false := by
        rcases haction with rfl | rfl
        · exact hflag _ q hcurrent hchild
        · exact hflag _ q hcurrent hchild
      rw [hsame, hclear] at hkilled
      contradiction
    | killed haction hfind hstate =>
      subst haction
      have hlive := hflag q hfind
      have hpid : asksFor a.kernel q (c, .kill _) = true := findSlot_eq_some hfind
      exact ⟨recordAsked_eq_true (hfresh q hlive) (Or.inr hpid),
        fun hunused => hlive (hstate hunused)⟩
    | trapped haction hcurrent hstate =>
      subst haction
      have hrunning : (a.kernel.proc q).state = .running :=
        (hinv.binding.bound.running_iff q).mpr
          ⟨c, Kernel.current_eq_some.mp hcurrent⟩
      have hself : asksFor a.kernel q (c, .trapKill) = true := by
        simp [asksFor, hcurrent]
      refine ⟨recordAsked_eq_true (hfresh q (by simp [hrunning])) (Or.inr hself), ?_⟩
      simp [hstate, hrunning]
  exact
    { binding := hinv.binding.step hok
      asked := fun q hkilled => (hboth q hkilled).1
      live := fun q hkilled => (hboth q hkilled).2 }

end Steps

/-- In a run whose steps leave no flag behind, a live process has its flag set
only if, since `allocproc` created it, `kill` was called with its pid or it
took a fatal trap. -/
theorem killed_flag_fresh {source : SchedSource} {bootCpu : C}
    {trace : List (C × Action)} {a : Audited C}
    (hexec : exec (Audited.step source) (Audited.initial bootCpu) trace = some a)
    (hmeet : StepsMeet (Audited.step source)
      (fun a label => LeavesNoFlag a.kernel label) (Audited.initial bootCpu)
      trace) :
    a.KilledFresh := by
  have hinv : AuditInvariant a := by
    refine StepsMeet.invariant ?_ (auditInvariant_initial bootCpu) hmeet hexec
    rintro a ⟨c, action⟩ b hinv hflag hstep
    exact hinv.step hflag hstep
  intro q _ hkilled
  exact hinv.asked q hkilled

def forkThenKill : List (Unit × Action) :=
  [((), .userinitAlloc (some 1) (some 2)), ((), .userinitPublish),
    ((), .acquirePtable), ((), .dispatch 0), ((), .forkret),
    ((), .forkAlloc (some 1)), ((), .forkKalloc (some 3)),
    ((), .forkCopyuvm (some 4)), ((), .forkPublish), ((), .kill 2)]

def childKilled : Audited Unit :=
  (exec (Audited.step .proc) (Audited.initial ()) forkThenKill).getD
    (Audited.initial ())

theorem killed_flag_fresh_childKilled :
    (childKilled.kernel.proc 1).killed = true ∧ childKilled.KilledFresh := by
  have hexec : exec (Audited.step .proc) (Audited.initial ()) forkThenKill = some childKilled := rfl
  refine ⟨rfl, killed_flag_fresh hexec ?_⟩
  refine .cons trivial rfl <| .cons trivial rfl <| .cons trivial rfl <|
    .cons trivial rfl <| .cons trivial rfl <| .cons trivial rfl <|
    .cons trivial rfl <| .cons trivial rfl <| .cons trivial rfl <|
    .cons ?_ rfl trivial
  intro p hfind
  cases hfind
  decide

/-- Init calls `kill(0)`, which finds the first slot never used, and then
forks: the child starts out killed. -/
def killZeroThenFork : List (Unit × Action) :=
  [((), .userinitAlloc (some 1) (some 2)), ((), .userinitPublish),
    ((), .acquirePtable), ((), .dispatch 0), ((), .forkret), ((), .kill 0),
    ((), .forkAlloc (some 1)), ((), .forkKalloc (some 3)),
    ((), .forkCopyuvm (some 4)), ((), .forkPublish)]

theorem killed_flag_stale :
    ∃ a, exec (Audited.step .proc) (Audited.initial ()) killZeroThenFork = some a ∧
      ¬ a.KilledFresh := by
  refine ⟨_, rfl, ?_⟩
  intro hfresh
  have hasked := hfresh 1 (by decide) rfl
  contradiction

end Xv6Kernel
