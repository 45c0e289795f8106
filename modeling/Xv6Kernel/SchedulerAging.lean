import Xv6Kernel.CpuBinding
import Xv6Kernel.SchedulerRoundRobin

/-!
# Aging bounds the wait of a RUNNABLE process

In `proc_3.c` every completed dispatch ages every RUNNABLE process: fifty of
them are worth one level of priority, up to level 20, which nobody exceeds.
The wait of a slot therefore has two phases.  Below level 20 the dispatches of
a CPU are paid for by `agingDebt`, the number of aging rounds still missing;
at level 20 they are paid for by the cyclic distance of the round robin.

The same account gives the priority and the counter of a process after any
number of completed dispatches.
-/

namespace Xv6Kernel

open TraceExecution CyclicScan Function Kernel

variable {C : Type} [DecidableEq C]

/-- How one step may change the priority and the counter of one slot. -/
inductive PriorityChange (source : SchedSource) (action : Action)
    (before after : Proc) : Prop
  | same (hpriority : after.priority = before.priority)
      (hcounter : after.counter = before.counter)
      (haction : source = .proc3 → action ≠ .afterSwtch)
  | fresh (hbefore : before.state = .unused)
      (hpriority : after.priority = 5) (hcounter : after.counter = 0)
      (hafter : after.state = .embryo)
  | aged (haction : action = .afterSwtch) (hafter : after = ageOne before)
  | set {pid newPriority : ℤ} (haction : action = .setPriority pid newPriority)
      (hpid : before.pid = pid) (hpositive : 0 < newPriority)
      (hbound : newPriority ≤ 20) (hpriority : after.priority = newPriority)
      (hcounter : after.counter = before.counter)

section Changes

variable {source : SchedSource} {action : Action} {table : Table} {p : Slot}

theorem kill_priorityChange (pid : ℤ) (table : Table) (q : Slot) :
    PriorityChange source (.kill pid) (table q) ((kill pid table).1 q) := by
  unfold kill
  split
  next p hfind =>
    by_cases heq : q = p
    · subst q
      exact .same (by simp [killOne]) (by simp [killOne]) (by simp)
    · simp only [update_of_ne heq]
      exact .same rfl rfl (by simp)
  next => exact .same rfl rfl (by simp)

theorem setPriority_priorityChange (pid newPriority : ℤ) (table : Table) (q : Slot) :
    PriorityChange source (.setPriority pid newPriority) (table q)
      ((setPriority pid newPriority table).1 q) := by
  unfold setPriority
  split
  next => exact .same rfl rfl (by simp)
  next hrange =>
    have hpositive : 0 < newPriority := by omega
    have hbound : newPriority ≤ 20 := by omega
    split
    next p hfind =>
      by_cases heq : q = p
      · subst q
        have hpid : (table p).pid = pid := by
          simpa using findSlot_eq_some hfind
        exact .set rfl hpid hpositive hbound (by simp) (by simp)
      · simp only [update_of_ne heq]
        exact .same rfl rfl (by simp)
    next => exact .same rfl rfl (by simp)

theorem PriorityChange.update {value : Proc} (q : Slot)
    (haction : source = .proc3 → action ≠ .afterSwtch)
    (hvalue : PriorityChange source action (table p) value) :
    PriorityChange source action (table q) (update table p value q) := by
  by_cases heq : q = p
  · subst q
    simpa only [update_self] using hvalue
  · simp only [update_of_ne heq]
    exact .same rfl rfl haction

theorem age_priorityChange (table : Table) (q : Slot) :
    PriorityChange source .afterSwtch (table q) (age source table q) := by
  cases source with
  | proc => exact .same rfl rfl (by simp)
  | proc3 => exact .aged rfl rfl

theorem exitTable_priorityChange (initproc : Option Slot) (table : Table) (q : Slot) :
    PriorityChange source .exit (table q) (exitTable p initproc table q) := by
  by_cases heq : q = p
  · subst q
    have hself := (exitTable_self p initproc table).2
    exact .same hself.priority hself.counter (by simp)
  · have hwoken := exitTable_wokenFrom initproc table heq
    exact .same hwoken.priority hwoken.counter (by simp)

end Changes

namespace Kernel

variable {source : SchedSource} {s t : Kernel C} {c : C} {action : Action} {r : Slot}

theorem StepOk.priorityChange (hstep : StepOk source s c action t) (q : Slot) :
    PriorityChange source action (s.proc q) (t.proc q) := by
  cases hstep
  case userinitAlloc hfind | forkAlloc hfind =>
    exact .update q (by simp) (.fresh (findUnused_state hfind) rfl rfl rfl)
  case afterSwtch => exact age_priorityChange s.proc q
  case exit => exact exitTable_priorityChange s.initproc s.proc q
  case kill => exact kill_priorityChange _ s.proc q
  case setPriority => exact setPriority_priorityChange _ _ s.proc q
  case wakeup chan _ =>
    have hwoken := wakeOne_wokenFrom (some chan) (s.proc q)
    exact .same hwoken.priority hwoken.counter (by simp)
  case userinitPublish | dispatch | yield | sleep | sleepReturn | forkKallocFail | forkKalloc
  | forkCopyuvmFail | forkCopyuvm | forkPublish | waitReap | waitSleep | waitReturn | trapKill =>
    exact .update q (by simp) (.same rfl rfl (by simp))
  all_goals exact .same rfl rfl (by simp)

/-- A process whose priority nobody sets keeps it, or a completed dispatch ages it. -/
theorem StepOk.kept_or_aged (hstep : StepOk .proc3 s c action t)
    (hfree : (s.proc r).state = .unused → (t.proc r).state = .unused)
    (hset : ∀ v, action ≠ .setPriority (s.proc r).pid v) :
    ((t.proc r).priority = (s.proc r).priority ∧ (t.proc r).counter = (s.proc r).counter ∧
        action ≠ .afterSwtch) ∨
      (action = .afterSwtch ∧ t.proc r = ageOne (s.proc r)) := by
  cases hstep.priorityChange r with
  | same hpriority hcounter haction => exact .inl ⟨hpriority, hcounter, haction rfl⟩
  | fresh hbefore _ _ hafter => simp [hfree hbefore] at hafter
  | aged haction hafter => exact .inr ⟨haction, hafter⟩
  | set haction hpid =>
    subst hpid
    exact (hset _ haction).elim

end Kernel

def PrioritiesInRange (table : Table) : Prop :=
  ∀ p, (table p).priority ≤ 20 ∧ 0 ≤ (table p).counter ∧
    (table p).counter ≤ 49

variable {source : SchedSource} {action : Action} {before after : Proc}

theorem PriorityChange.inRange (hchange : PriorityChange source action before after)
    (hrange : before.priority ≤ 20 ∧ 0 ≤ before.counter ∧ before.counter ≤ 49) :
    after.priority ≤ 20 ∧ 0 ≤ after.counter ∧ after.counter ≤ 49 := by
  cases hchange with
  | same hpriority hcounter _ =>
    rw [hpriority, hcounter]
    exact hrange
  | fresh _ hpriority hcounter =>
    rw [hpriority, hcounter]
    omega
  | aged _ hafter =>
    subst hafter
    unfold ageOne
    split
    · exact hrange
    · split
      · dsimp only
        split <;> omega
      · dsimp only
        omega
  | set _ _ _ hbound hpriority hcounter =>
    rw [hpriority, hcounter]
    exact ⟨hbound, hrange.2⟩

theorem PriorityChange.le_priority {lo : ℤ} (hchange : PriorityChange source action before after)
    (hlo : lo ≤ 1) (hbefore : lo ≤ before.priority) : lo ≤ after.priority := by
  cases hchange with
  | same hpriority => exact hpriority ▸ hbefore
  | fresh _ hpriority => omega
  | aged _ hafter =>
    subst hafter
    unfold ageOne
    split
    · exact hbefore
    · split
      · dsimp only
        split <;> omega
      · exact hbefore
  | set _ _ hpositive _ hpriority => omega

theorem prioritiesInRange_of_booted {s : Kernel C}
    (hbooted : Kernel.Booted source s) : PrioritiesInRange s.proc := by
  apply Reachable.invariant (P := fun s => PrioritiesInRange s.proc) _ _ hbooted
  · rintro s ⟨bootCpu, rfl⟩ p
    simp [initial, Proc.zero]
  · rintro s ⟨c, action⟩ next hrange hstep p
    exact ((step_ok hstep).priorityChange p).inRange (hrange p)

/-! ## The two phases of a wait -/

/-- The aging rounds a process still needs to reach priority 20. -/
def agingDebt (p : Proc) : ℤ :=
  50 * (20 - p.priority) - p.counter

/-- A dispatch of this CPU has not been followed by its aging round yet. -/
def midDispatch : SchedPc → ℤ
  | .switched _ | .returned _ => 1
  | _ => 0

def waitBound (c : C) (r : Slot) (s : Kernel C) : ℤ :=
  if (s.proc r).priority < 20 then
    agingDebt (s.proc r) - midDispatch (s.sched c) + (nproc - 1)
  else gapTo c r s

theorem midDispatch_nonneg (pc : SchedPc) : 0 ≤ midDispatch pc := by
  cases pc <;> simp [midDispatch]

theorem midDispatch_le_one (pc : SchedPc) : midDispatch pc ≤ 1 := by
  cases pc <;> simp [midDispatch]

theorem agingDebt_ageOne {p : Proc} (hstate : p.state = .runnable)
    (hcounter : p.counter ≤ 49) (hlow : p.priority < 20) :
    ((ageOne p).priority < 20 ∧ agingDebt (ageOne p) = agingDebt p - 1) ∨
      (20 ≤ (ageOne p).priority ∧ agingDebt p = 1) := by
  unfold ageOne agingDebt
  simp only [hstate, ne_eq, not_true_eq_false, false_and, if_false, hlow, if_true]
  by_cases hfull : p.counter + 1 = 50
  · simp only [hfull, if_true]
    omega
  · simp only [hfull, if_false]
    omega

theorem ageOne_priority_of_full {p : Proc} (hfull : ¬ p.priority < 20) :
    (ageOne p).priority = p.priority := by
  unfold ageOne
  rw [if_neg hfull]
  split
  · rfl
  · split <;> rfl

namespace Kernel

variable {s t : Kernel C} {c : C}

theorem StepOk.midDispatch_eq {source : SchedSource} {c' : C} {action : Action}
    (hstep : StepOk source s c' action t) (hdispatch : ∀ p, (c', action) ≠ (c, .dispatch p))
    (hafter : (c', action) ≠ (c, .afterSwtch)) :
    midDispatch (t.sched c) = midDispatch (s.sched c) := by
  by_cases hc : c = c'
  · subst hc
    cases hstep
    case dispatch => exact (hdispatch _ rfl).elim
    case afterSwtch => exact (hafter rfl).elim
    all_goals simp [midDispatch, *]
  · rw [hstep.sched_of_ne hc]

theorem StepOk.midDispatch_dispatch {source : SchedSource} {q : Slot}
    (hstep : StepOk source s c (.dispatch q) t) :
    midDispatch (s.sched c) = 0 ∧ midDispatch (t.sched c) = 1 := by
  cases hstep
  case dispatch hsched _ _ _ => simp [midDispatch, hsched]

end Kernel

def isDispatchBy (c : C) : C × Action → ℤ
  | (c', .dispatch _) => if c' = c then 1 else 0
  | _ => 0

theorem isDispatchBy_dispatch (c : C) (q : Slot) : isDispatchBy c (c, .dispatch q) = 1 := by
  simp [isDispatchBy]

theorem isDispatchBy_of_ne {c : C} {label : C × Action}
    (hlabel : ∀ q, label ≠ (c, .dispatch q)) : isDispatchBy c label = 0 := by
  obtain ⟨c', action⟩ := label
  cases action with
  | dispatch q =>
    have hne : c' ≠ c := by
      intro heq
      exact hlabel q (by rw [heq])
    simp [isDispatchBy, hne]
  | _ => rfl

section WaitBound

variable {s t : Kernel C} {c c' : C} {r : Slot} {action : Action}

private theorem waitBound_step_same (hstep : Kernel.StepOk .proc3 s c' action t)
    (hlow : (s.proc r).priority < 20) (hpriority : (t.proc r).priority = (s.proc r).priority)
    (hcounter : (t.proc r).counter = (s.proc r).counter) (haction : action ≠ .afterSwtch) :
    waitBound c r t + isDispatchBy c (c', action) ≤ waitBound c r s := by
  have hdebt : agingDebt (t.proc r) = agingDebt (s.proc r) := by
    unfold agingDebt
    rw [hpriority, hcounter]
  unfold waitBound
  rw [hpriority, if_pos hlow, if_pos hlow, hdebt]
  by_cases hdispatch : ∃ q, (c', action) = (c, .dispatch q)
  · obtain ⟨q, hq⟩ := hdispatch
    obtain ⟨rfl, rfl⟩ := Prod.mk.inj hq
    have hmid := hstep.midDispatch_dispatch
    rw [isDispatchBy_dispatch]
    omega
  · have hother : ∀ q, (c', action) ≠ (c, .dispatch q) := not_exists.mp hdispatch
    have hmid := hstep.midDispatch_eq hother (by simp [haction])
    rw [isDispatchBy_of_ne hother, hmid]
    omega

omit [DecidableEq C] in
private theorem waitBound_step_aged (hstate : (s.proc r).state = .runnable)
    (hcounter : (s.proc r).counter ≤ 49) (hlow : (s.proc r).priority < 20)
    (hafter : t.proc r = ageOne (s.proc r)) : waitBound c r t ≤ waitBound c r s := by
  have hmid : midDispatch (s.sched c) - 1 ≤ midDispatch (t.sched c) := by
    have hnonneg := midDispatch_nonneg (t.sched c)
    have hle := midDispatch_le_one (s.sched c)
    omega
  have hgap := gapTo_lt c r t
  have hle := midDispatch_le_one (s.sched c)
  have hage := agingDebt_ageOne hstate hcounter hlow
  rw [← hafter] at hage
  unfold waitBound
  rw [if_pos hlow]
  rcases hage with ⟨hlow', hdebt⟩ | ⟨hfull, hdebt⟩
  · rw [if_pos hlow', hdebt]
    omega
  · rw [if_neg (by omega), hdebt]
    omega

section

variable (hstep : Kernel.StepOk .proc3 s c' action t) (hrange : PrioritiesInRange s.proc)
  (hstate : (s.proc r).state = .runnable) (hstate' : (t.proc r).state = .runnable)

include hstep hrange hstate hstate'

private theorem waitBound_step_full (hfull : ¬ (s.proc r).priority < 20)
    (hpriority : (t.proc r).priority = (s.proc r).priority) :
    waitBound c r t + isDispatchBy c (c', action) ≤ waitBound c r s := by
  unfold waitBound
  rw [hpriority, if_neg hfull, if_neg hfull]
  by_cases hdispatch : ∃ q, (c', action) = (c, .dispatch q)
  · obtain ⟨q, hq⟩ := hdispatch
    obtain ⟨rfl, rfl⟩ := Prod.mk.inj hq
    have hmax : ∀ x, (s.proc x).state = .runnable →
        (s.proc x).priority ≤ (s.proc r).priority := by
      intro x _
      have hx := (hrange x).1
      omega
    obtain ⟨_, hle, hnext⟩ := hstep.gapTo_dispatch hstate hstate' hmax
    rw [isDispatchBy_dispatch]
    omega
  · have hother : ∀ q, (c', action) ≠ (c, .dispatch q) := not_exists.mp hdispatch
    have hle := hstep.gapTo_le hstate hother
    rw [isDispatchBy_of_ne hother]
    omega

theorem waitBound_step (hset : ∀ v, action ≠ .setPriority (s.proc r).pid v) :
    waitBound c r t + isDispatchBy c (c', action) ≤ waitBound c r s := by
  have hchange := hstep.kept_or_aged (by simp [hstate]) hset
  by_cases hlow : (s.proc r).priority < 20
  · rcases hchange with ⟨hpriority, hcounter, haction⟩ | ⟨rfl, hafter⟩
    · exact waitBound_step_same hstep hlow hpriority hcounter haction
    · have hle := waitBound_step_aged (c := c) hstate (hrange r).2.2 hlow hafter
      simpa [isDispatchBy] using hle
  · have hpriority : (t.proc r).priority = (s.proc r).priority := by
      rcases hchange with ⟨hpriority, -⟩ | ⟨-, hafter⟩
      · exact hpriority
      · rw [hafter]
        exact ageOne_priority_of_full hlow
    exact waitBound_step_full hstep hrange hstate hstate' hlow hpriority

end

end WaitBound

def NoSetPriority (r : Slot) (s : Kernel C) (label : C × Action) : Prop :=
  ∀ v, label.2 ≠ .setPriority (s.proc r).pid v

theorem dispatchedBy_length_cons (c : C) (label : C × Action) (trace : List (C × Action)) :
    ((dispatchedBy c (label :: trace)).length : ℤ) =
      (dispatchedBy c trace).length + isDispatchBy c label := by
  by_cases hdispatch : ∃ q, label = (c, .dispatch q)
  · obtain ⟨q, rfl⟩ := hdispatch
    rw [dispatchedBy_cons_dispatch, isDispatchBy_dispatch]
    simp
  · have hother : ∀ q, label ≠ (c, .dispatch q) := not_exists.mp hdispatch
    rw [dispatchedBy_cons_of_ne hother, isDispatchBy_of_ne hother]
    simp

variable {s t : Kernel C} {c : C} {r : Slot}

theorem dispatches_le_waitBound (trace : List (C × Action))
    (hrange : PrioritiesInRange s.proc) (hexec : exec (step .proc3) s trace = some t)
    (hrunnable : Always (step .proc3) (fun u => (u.proc r).state = .runnable) s trace)
    (hset : StepsMeet (step .proc3) (NoSetPriority r) s trace) :
    (dispatchedBy c trace).length + waitBound c r t ≤ waitBound c r s := by
  induction trace generalizing s with
  | nil =>
    obtain rfl : s = t := by simpa using hexec
    simp [dispatchedBy]
  | cons label rest ih =>
    obtain ⟨c', action⟩ := label
    obtain ⟨next, hstep, hrest⟩ := exec_cons_eq_some hexec
    have hok := step_ok hstep
    have hrangeNext : PrioritiesInRange next.proc := by
      intro p
      exact (hok.priorityChange p).inRange (hrange p)
    have htail := ih hrangeNext hrest (hrunnable.2 next hstep) (hset.2 next hstep)
    have hhead := waitBound_step (c := c) hok hrange hrunnable.1
      (hrunnable.2 next hstep).head hset.1
    rw [dispatchedBy_length_cons]
    omega

omit [DecidableEq C] in
theorem waitBound_nonneg (hrange : PrioritiesInRange s.proc) : 0 ≤ waitBound c r s := by
  have hr := hrange r
  have hmid := midDispatch_le_one (s.sched c)
  have hslots : (nproc : ℤ) = 64 := rfl
  unfold waitBound agingDebt
  split <;> omega

/-- With the aging scheduler a slot that stays RUNNABLE is passed over by a
CPU at most `50 * (20 - p0) + NPROC - 1` times. -/
theorem aging_bounds_wait {trace : List (C × Action)}
    (hbooted : Kernel.Booted .proc3 s) (hexec : exec (Kernel.step .proc3) s trace = some t)
    (hrunnable : Always (Kernel.step .proc3) (fun u => (u.proc r).state = .runnable) s trace)
    (hset : StepsMeet (Kernel.step .proc3) (NoSetPriority r) s trace) :
    ((dispatchedBy c trace).length : ℤ) ≤
      50 * (20 - (s.proc r).priority) + nproc - 1 := by
  have hrange := prioritiesInRange_of_booted hbooted
  have hrangeLast := prioritiesInRange_of_booted (hbooted.after hexec)
  have hcount := dispatches_le_waitBound (c := c) trace hrange hexec hrunnable hset
  have hlast := waitBound_nonneg (c := c) (r := r) hrangeLast
  have hmid := midDispatch_nonneg (s.sched c)
  have hgap := gapTo_lt c r s
  have hr := hrange r
  have hbound : waitBound c r s ≤
      50 * (20 - (s.proc r).priority) + nproc - 1 := by
    unfold waitBound agingDebt
    split <;> omega
  omega

def bootForkYield : List (Unit × Action) :=
  [((), .userinitAlloc (some 1) (some 2)), ((), .userinitPublish),
    ((), .acquirePtable), ((), .dispatch 0), ((), .forkret),
    ((), .forkAlloc (some 1)), ((), .forkKalloc (some 3)),
    ((), .forkCopyuvm (some 4)), ((), .forkPublish), ((), .yield)]

def initYielded : Kernel Unit :=
  (exec (Kernel.step .proc3) (Kernel.initial ()) bootForkYield).getD
    (Kernel.initial ())

theorem aging_bounds_wait_initYielded :
    ((dispatchedBy () [((), .afterSwtch), ((), .dispatch 1)]).length : ℤ) ≤
      50 * (20 - (initYielded.proc 0).priority) + nproc - 1 := by
  refine aging_bounds_wait (s := initYielded)
    ⟨Kernel.initial (), bootForkYield, ⟨(), rfl⟩, rfl⟩ rfl ?_ ?_
  · exact .cons rfl rfl (.cons rfl rfl rfl)
  · refine .cons ?_ rfl (.cons ?_ rfl trivial)
    · intro v hv
      cases hv
    · intro v hv
      cases hv

/-! ## Priorities and counters in closed form -/

namespace Kernel

variable {source : SchedSource} {s t : Kernel C} {c : C} {action : Action} {q : Slot}

theorem StepOk.allocated_of_unused (hstep : StepOk source s c action t) (hfork : s.ForkInvariant)
    (hbound : s.RunningBound) (hbefore : (s.proc q).state = .unused)
    (hafter : (t.proc q).state ≠ .unused) : (t.proc q).state = .embryo := by
  cases hstep.stateChange q with
  | stays hmove _ =>
    cases hmove with
    | same hstate => exact (hafter (hstate.trans hbefore)).elim
    | allocated _ hembryo => exact hembryo
    | booted hbooting => simp [hfork.booting c q hbooting] at hbefore
    | built _ hchild => simp [(hfork.child _ q hchild).1] at hbefore
    | woken hsleeping | reaped hsleeping => simp [hbefore] at hsleeping
  | dispatched hrunnable => simp [hbefore] at hrunnable
  | left hsched =>
    have hrunning := (hbound.running_iff q).mpr ⟨c, hsched⟩
    simp [hbefore] at hrunning

theorem StepOk.priority_of_allocated (hstep : StepOk source s c action t)
    (hbefore : (s.proc q).state = .unused) (hafter : (t.proc q).state = .embryo) :
    (t.proc q).priority = 5 := by
  have hchanged : ¬ (t.proc q).state = (s.proc q).state := by simp [hbefore, hafter]
  cases hstep
  case userinitAlloc p _ _ _ _ _ | forkAlloc p _ _ _ _ =>
    by_cases hq : q = p
    · simp [hq, Proc.embryo]
    · simp [hq] at hchanged
  case exit p _ _ _ _ =>
    by_cases hq : q = p
    · simp [hq, exitTable] at hafter
    · have hwoken := (exitTable_wokenFrom s.initproc s.proc hq).state
      exact (hchanged (hwoken.resolve_right (by simp [hbefore]))).elim
  case kill pid _ _ _ =>
    have hwoken := kill_state pid s.proc q
    exact (hchanged (hwoken.resolve_right (by simp [hbefore]))).elim
  all_goals
    simp [update_apply] at hafter hchanged <;> grind [wakeOne, Proc.reaped]

end Kernel

theorem priority_pos_of_booted {source : SchedSource} (hbooted : Kernel.Booted source s) {p : Slot}
    (hused : (s.proc p).state ≠ .unused) : 1 ≤ (s.proc p).priority := by
  have hinv : s.BindingInvariant ∧
      ∀ p, (s.proc p).state ≠ .unused → 1 ≤ (s.proc p).priority := by
    apply Reachable.invariant
      (P := fun s => s.BindingInvariant ∧
        ∀ p, (s.proc p).state ≠ .unused → 1 ≤ (s.proc p).priority) _ _ hbooted
    · rintro s ⟨bootCpu, rfl⟩
      refine ⟨bindingInvariant_initial bootCpu, ?_⟩
      intro p hused
      simp [initial, Proc.zero] at hused
    · rintro s ⟨c, action⟩ next ⟨hbind, hpos⟩ hstep
      have hok := step_ok hstep
      refine ⟨hbind.step hok, ?_⟩
      intro p hused
      by_cases hbefore : (s.proc p).state = .unused
      · have hembryo := hok.allocated_of_unused hbind.fork hbind.bound hbefore hused
        rw [hok.priority_of_allocated hbefore hembryo]
        decide
      · exact (hok.priorityChange p).le_priority le_rfl (hpos p hbefore)
  exact hinv.2 p hused

/-- The dispatches, of any CPU, that are completed along a trace. -/
def completed (trace : List (C × Action)) : ℕ :=
  trace.countP fun label => label.2 = .afterSwtch

def Proc.Ages (p : Proc) : Prop :=
  p.state = .runnable ∨ p.state = .running

theorem ageOne_of_not_ages {p : Proc} (hrests : ¬ p.Ages) : ageOne p = p :=
  if_pos (not_or.mp hrests)

theorem ageOne_of_ages {p : Proc} (hages : p.Ages) (hpriority : p.priority ≤ 20)
    {k : ℤ} (hk : 0 ≤ k) :
    min 20 ((ageOne p).priority + ((ageOne p).counter + k) / 50) =
        min 20 (p.priority + (p.counter + (k + 1)) / 50) ∧
      ((ageOne p).counter + k) % 50 = (p.counter + (k + 1)) % 50 := by
  have hguard : ¬ (p.state ≠ .runnable ∧ p.state ≠ .running) := by
    rintro ⟨hrunnable, hrunning⟩
    exact hages.elim hrunnable hrunning
  unfold ageOne
  rw [if_neg hguard]
  split
  · dsimp only
    split <;> omega
  · dsimp only
    omega

theorem aging_run (trace : List (C × Action))
    (hrange : PrioritiesInRange s.proc) (hexec : exec (step .proc3) s trace = some t)
    (hset : StepsMeet (step .proc3) (NoSetPriority r) s trace)
    (hages : Always (step .proc3) (fun u => (u.proc r).Ages) s trace) :
    (t.proc r).priority =
        min 20 ((s.proc r).priority + ((s.proc r).counter + completed trace) / 50) ∧
      (t.proc r).counter = ((s.proc r).counter + completed trace) % 50 := by
  induction trace generalizing s with
  | nil =>
    obtain rfl : s = t := by simpa using hexec
    have hr := hrange r
    simp only [completed, List.countP_nil, Nat.cast_zero]
    omega
  | cons label rest ih =>
    obtain ⟨c, action⟩ := label
    obtain ⟨next, hstep, hrest⟩ := exec_cons_eq_some hexec
    have hok := step_ok hstep
    have hnext : PrioritiesInRange next.proc := fun p =>
      (hok.priorityChange p).inRange (hrange p)
    have htail := ih hnext hrest (hset.2 next hstep) (hages.2 next hstep)
    rw [htail.1, htail.2]
    have hfree : (s.proc r).state = .unused → (next.proc r).state = .unused := by
      rcases hages.1 with hstate | hstate <;> simp [hstate]
    rcases hok.kept_or_aged hfree hset.1 with ⟨hpriority, hcounter, haction⟩ | ⟨rfl, hafter⟩
    · have hcount : completed ((c, action) :: rest) = completed rest := by
        simp [completed, haction]
      rw [hpriority, hcounter, hcount]
      exact ⟨rfl, rfl⟩
    · have hcount : (completed ((c, .afterSwtch) :: rest) : ℤ) = completed rest + 1 := by
        simp [completed]
      rw [hafter, hcount]
      exact ageOne_of_ages hages.1 (hrange r).1 (by omega)

theorem resting_run {free : Prop} (trace : List (C × Action))
    (hexec : exec (step .proc3) s trace = some t)
    (hset : StepsMeet (step .proc3) (NoSetPriority r) s trace)
    (hrests : Always (step .proc3)
      (fun u => ¬ (u.proc r).Ages ∧ ((u.proc r).state = .unused ↔ free)) s trace) :
    (t.proc r).priority = (s.proc r).priority ∧ (t.proc r).counter = (s.proc r).counter := by
  induction trace generalizing s with
  | nil =>
    obtain rfl : s = t := by simpa using hexec
    exact ⟨rfl, rfl⟩
  | cons label rest ih =>
    obtain ⟨c, action⟩ := label
    obtain ⟨next, hstep, hrest⟩ := exec_cons_eq_some hexec
    have htail := ih hrest (hset.2 next hstep) (hrests.2 next hstep)
    rw [htail.1, htail.2]
    have hsame := hrests.1.2.trans (hrests.2 next hstep).head.2.symm
    rcases (step_ok hstep).kept_or_aged hsame.mp hset.1 with
      ⟨hpriority, hcounter, -⟩ | ⟨-, hafter⟩
    · exact ⟨hpriority, hcounter⟩
    · rw [hafter, ageOne_of_not_ages hrests.1.1]
      exact ⟨rfl, rfl⟩

/-- Every process has a priority from 1 to 20 and a counter from 0 to 49.  While it is RUNNABLE
or RUNNING every completed dispatch counts, fifty of them for a level; in other states none. -/
theorem aging_closed_form (hbooted : Kernel.Booted .proc3 s) (r : Slot) :
    ((s.proc r).state ≠ .unused →
      (1 ≤ (s.proc r).priority ∧ (s.proc r).priority ≤ 20) ∧
        0 ≤ (s.proc r).counter ∧ (s.proc r).counter ≤ 49) ∧
    ∀ trace t, exec (Kernel.step .proc3) s trace = some t →
      StepsMeet (Kernel.step .proc3) (NoSetPriority r) s trace →
      (Always (Kernel.step .proc3) (fun u => (u.proc r).Ages) s trace →
        (t.proc r).priority =
            min 20 ((s.proc r).priority + ((s.proc r).counter + completed trace) / 50) ∧
          (t.proc r).counter = ((s.proc r).counter + completed trace) % 50) ∧
      (Always (Kernel.step .proc3) (fun u => ¬ (u.proc r).Ages ∧
          ((u.proc r).state = .unused ↔ (s.proc r).state = .unused)) s trace →
        (t.proc r).priority = (s.proc r).priority ∧
          (t.proc r).counter = (s.proc r).counter) := by
  have hrange := prioritiesInRange_of_booted hbooted
  refine ⟨?_, ?_⟩
  · intro hused
    exact ⟨⟨priority_pos_of_booted hbooted hused, (hrange r).1⟩, (hrange r).2⟩
  · intro trace t hexec hset
    exact ⟨aging_run trace hrange hexec hset, resting_run trace hexec hset⟩

theorem aging_closed_form_initYielded :
    (1 ≤ (initYielded.proc 0).priority ∧ (initYielded.proc 0).priority ≤ 20) ∧
      ∃ t, exec (Kernel.step .proc3) initYielded [((), .afterSwtch)] = some t ∧
        (t.proc 0).counter = ((initYielded.proc 0).counter + 1) % 50 := by
  have hbooted : Kernel.Booted .proc3 initYielded :=
    ⟨Kernel.initial (), bootForkYield, ⟨(), rfl⟩, rfl⟩
  have hform := aging_closed_form hbooted 0
  refine ⟨(hform.1 (by decide +kernel)).1, _, rfl, ?_⟩
  refine ((hform.2 [((), .afterSwtch)] _ rfl ?_).1 ?_).2
  · refine .cons ?_ rfl trivial
    intro v hv
    cases hv
  · exact .cons (Or.inl rfl) rfl (Or.inl rfl)

end Xv6Kernel
