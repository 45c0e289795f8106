import Xv6Kernel.ProcSteps

/-!
# Round robin among processes of the greatest priority

The scan variable of `scheduler` is overwritten with the chosen slot, so it
jumps; but seen from a RUNNABLE slot `r` that nobody outranks it only comes
nearer.  `gapTo` is the cyclic distance from the scan position of a CPU to
`r`.  A dispatch of another slot lowers it below the distance of that slot,
and no other step of any CPU raises it.
-/

namespace Xv6Kernel

open TraceExecution CyclicScan

variable {C : Type} [DecidableEq C]

def dispatchedBy (c : C) (trace : List (C × Action)) : List Slot :=
  trace.filterMap fun label =>
    match label with
    | (c', .dispatch p) => if c' = c then some p else none
    | _ => none

theorem dispatchedBy_cons_dispatch (c : C) (p : Slot) (trace : List (C × Action)) :
    dispatchedBy c ((c, .dispatch p) :: trace) = p :: dispatchedBy c trace := by
  simp [dispatchedBy]

theorem dispatchedBy_cons_of_ne {c : C} {label : C × Action}
    (hlabel : ∀ p, label ≠ (c, .dispatch p)) (trace : List (C × Action)) :
    dispatchedBy c (label :: trace) = dispatchedBy c trace := by
  obtain ⟨c', action⟩ := label
  unfold dispatchedBy
  rw [List.filterMap_cons]
  cases action with
  | dispatch p =>
    have hne : c' ≠ c := by
      intro heq
      exact hlabel p (by rw [heq])
    simp [hne]
  | _ => simp

def schedPos : SchedPc → ℕ
  | .boot | .booting _ | .start => 0
  | .scan p => p
  | .switched p | .returned p => p.val + 1

def gapTo (c : C) (r : Slot) (s : Kernel C) : ℕ :=
  cyclicGap nproc (schedPos (s.sched c)) r.val

omit [DecidableEq C] in
theorem gapTo_lt (c : C) (r : Slot) (s : Kernel C) : gapTo c r s < nproc :=
  cyclicGap_lt _ r.isLt

namespace Kernel

variable {source : SchedSource} {s t : Kernel C} {c : C}

theorem StepOk.sched_of_ne {c' : C} {action : Action} (hstep : StepOk source s c' action t)
    (hne : c ≠ c') : t.sched c = s.sched c := by
  cases hstep <;> simp [hne]

theorem StepOk.gapTo_le {c' : C} {action : Action} {r : Slot} (hstep : StepOk source s c' action t)
    (hr : (s.proc r).state = .runnable) (hlabel : ∀ p, (c', action) ≠ (c, .dispatch p)) :
    gapTo c r t ≤ gapTo c r s := by
  by_cases hc : c = c'
  · subst hc
    unfold gapTo
    cases hstep
    case skip p hsched hstate =>
      have hne : p.val ≠ r.val := by
        intro heq
        exact hstate (by rw [Fin.ext heq, hr])
      have hsucc := cyclicGap_succ p.isLt hne
      simp only [setSched, Function.update_self, hsched, schedPos]
      omega
    case dispatch p _ _ _ _ => exact (hlabel _ rfl).elim
    case releasePtable hsched _ =>
      simp [hsched, schedPos, cyclicGap_end r.isLt]
    all_goals simp [schedPos, *]
  · rw [gapTo, gapTo, hstep.sched_of_ne hc]

theorem StepOk.gapTo_dispatch {q r : Slot} (hstep : StepOk source s c (.dispatch q) t)
    (hr : (s.proc r).state = .runnable) (hr' : (t.proc r).state = .runnable)
    (hmax : ∀ x, (s.proc x).state = .runnable → (s.proc x).priority ≤ (s.proc r).priority) :
    q ≠ r ∧ cyclicGap nproc q.val r.val ≤ gapTo c r s ∧
      gapTo c r t + 1 = cyclicGap nproc q.val r.val := by
  cases hstep
  case dispatch p hsched hstate _ _ =>
    have hne : highestp s.proc p ≠ r := by
      intro heq
      simp [heq] at hr'
    have hgap := highestp_gap_le hstate hr hmax
    have hsplit := cyclicGap_split p.isLt.le r.isLt hgap (highestp s.proc p).isLt
    refine ⟨hne, ?_, ?_⟩
    · simp only [gapTo, hsched, schedPos]
      omega
    · have hval : (highestp s.proc p).val ≠ r.val := by
        intro heq
        exact hne (Fin.ext heq)
      simpa [gapTo, schedPos] using cyclicGap_succ (highestp s.proc p).isLt hval

end Kernel

/-- At a dispatch by `c` no RUNNABLE slot has a greater priority than `r`. -/
def TopAtDispatch (c : C) (r : Slot) (s : Kernel C) (label : C × Action) : Prop :=
  ∀ q, label = (c, .dispatch q) →
    ∀ x, (s.proc x).state = .runnable → ¬ (s.proc r).priority < (s.proc x).priority

variable {source : SchedSource} {s t : Kernel C} {c : C} {r : Slot}

theorem dispatchedBy_approaches (trace : List (C × Action))
    (hexec : exec (Kernel.step source) s trace = some t)
    (hrunnable : Always (Kernel.step source) (fun u => (u.proc r).state = .runnable) s trace)
    (htop : StepsMeet (Kernel.step source) (TopAtDispatch c r) s trace) :
    (dispatchedBy c trace).Nodup ∧
      (∀ d ∈ dispatchedBy c trace,
        d ≠ r ∧ cyclicGap nproc d.val r.val ≤ gapTo c r s) ∧
      (dispatchedBy c trace).length + gapTo c r t ≤ gapTo c r s := by
  induction trace generalizing s with
  | nil =>
    obtain rfl : s = t := by simpa using hexec
    simp [dispatchedBy]
  | cons label rest ih =>
    obtain ⟨next, hstep, hrest⟩ := exec_cons_eq_some hexec
    have hr := hrunnable.1
    have hr' := (hrunnable.2 next hstep).head
    obtain ⟨hnodup, hnear, hlength⟩ := ih hrest (hrunnable.2 next hstep) (htop.2 next hstep)
    by_cases hlabel : ∃ q, label = (c, .dispatch q)
    · obtain ⟨q, rfl⟩ := hlabel
      have hmax : ∀ x, (s.proc x).state = .runnable →
          (s.proc x).priority ≤ (s.proc r).priority := by
        intro x hx
        exact not_lt.mp (htop.1 q rfl x hx)
      obtain ⟨hne, hle, hnext⟩ := (Kernel.step_ok hstep).gapTo_dispatch hr hr' hmax
      rw [dispatchedBy_cons_dispatch]
      refine ⟨?_, ?_, ?_⟩
      · apply List.Nodup.cons _ hnodup
        intro hmem
        have hbound := (hnear q hmem).2
        omega
      · intro d hd
        rcases List.mem_cons.mp hd with heq | hd
        · subst d
          exact ⟨hne, hle⟩
        · have hbound := hnear d hd
          exact ⟨hbound.1, by omega⟩
      · simp only [List.length_cons]
        omega
    · have hother : ∀ q, label ≠ (c, .dispatch q) := by
        intro q heq
        exact hlabel ⟨q, heq⟩
      have hle : gapTo c r next ≤ gapTo c r s := by
        cases label
        exact (Kernel.step_ok hstep).gapTo_le hr hother
      rw [dispatchedBy_cons_of_ne hother]
      refine ⟨hnodup, ?_, by omega⟩
      intro d hd
      have hbound := hnear d hd
      exact ⟨hbound.1, by omega⟩

/-- While `r` stays RUNNABLE and is outranked at none of the dispatches of a
CPU, that CPU dispatches no slot twice, whatever the other CPUs and processes
do in between. -/
theorem scheduler_round_robin {trace : List (C × Action)}
    (hexec : exec (Kernel.step .proc) s trace = some t)
    (hrunnable : Always (Kernel.step .proc) (fun u => (u.proc r).state = .runnable) s trace)
    (htop : StepsMeet (Kernel.step .proc) (TopAtDispatch c r) s trace) :
    (dispatchedBy c trace).Nodup ∧ r ∉ dispatchedBy c trace ∧
      (dispatchedBy c trace).length ≤ nproc - 1 := by
  obtain ⟨hnodup, hnear, hlength⟩ := dispatchedBy_approaches trace hexec hrunnable htop
  have hgap := gapTo_lt c r s
  refine ⟨hnodup, ?_, by omega⟩
  intro hmem
  exact (hnear r hmem).1 rfl

def twoReady : Kernel Unit :=
  { Kernel.initial () with
    sched := fun _ => .start
    proc := fun p =>
      if p.val < 2 then
        { Proc.zero with
          state := .runnable, priority := 5, kstack := some 1, pgdir := some 2 }
      else Proc.zero }

theorem scheduler_round_robin_twoReady :
    (dispatchedBy () [((), .acquirePtable), ((), .dispatch 0)]).Nodup ∧
      (1 : Slot) ∉ dispatchedBy () [((), .acquirePtable), ((), .dispatch 0)] ∧
      (dispatchedBy () [((), .acquirePtable), ((), .dispatch 0)]).length ≤
        nproc - 1 := by
  refine scheduler_round_robin (s := twoReady) rfl ?_ ?_
  · exact .cons rfl rfl (.cons rfl rfl rfl)
  · refine .cons ?_ rfl (.cons ?_ rfl trivial)
    · intro q hq
      simp at hq
    · intro q _
      decide

theorem Kernel.StepOk.dispatch_chosen {p q : Slot}
    (hstep : Kernel.StepOk source s c (.dispatch q) t) (hscan : s.sched c = .scan p.val) :
    q = highestp s.proc p ∧ t.cpuProc c = some q ∧
      t.proc = Function.update s.proc q { s.proc q with state := .running } := by
  cases hstep with
  | @dispatch p' hscan' _ _ _ =>
    have hp : p' = p := by
      rw [hscan] at hscan'
      simp only [SchedPc.scan.injEq] at hscan'
      exact Fin.ext hscan'.symm
    rw [hp]
    exact ⟨rfl, by simp, rfl⟩

/-- Where the scan stands at a RUNNABLE slot, the slot that `scheduler` sets
RUNNING is the first RUNNABLE slot of the greatest priority that it meets going
once around the table, and the dispatch changes nothing else in the table. -/
theorem scheduler_priority_selection {p : Slot}
    (hscan : s.sched c = .scan p.val) (hp : (s.proc p).state = .runnable) :
    ∃ q, (s.proc q).state = .runnable ∧
      (∀ r, (s.proc r).state = .runnable →
        (s.proc r).priority ≤ (s.proc q).priority) ∧
      (∃ before after, scanOrder nproc p.val = before ++ q :: after ∧
        ∀ r ∈ before, (s.proc r).state = .runnable →
          (s.proc r).priority < (s.proc q).priority) ∧
      (∀ r t, Kernel.step source s (c, .dispatch r) = some t →
        r = q ∧ t.cpuProc c = some q ∧
          t.proc = Function.update s.proc q { s.proc q with state := .running }) ∧
      ((s.proc q).kstack ≠ none → (s.proc q).pgdir ≠ none →
        ∃ t, Kernel.step source s (c, .dispatch q) = some t) := by
  refine ⟨highestp s.proc p, highestp_runnable hp, ?_, highestp_first s.proc p, ?_, ?_⟩
  · intro r hr
    exact highestp_priority_le p hr
  · intro r t hstep
    obtain ⟨rfl, hcpu, hproc⟩ := (Kernel.step_ok hstep).dispatch_chosen hscan
    exact ⟨rfl, hcpu, hproc⟩
  · intro hkstack hpgdir
    have hchosen : s.chosen c = some (highestp s.proc p) := by
      simp [Kernel.chosen, hscan, hp]
    simp only [Kernel.step, stepOf_eq_some, Kernel.perform, Kernel.schedDispatch,
      bind_eq_ok, await_eq_ok, ensure_eq_ok, pure_eq_ok]
    exact ⟨_, (), hchosen, (), hkstack, (), hpgdir, rfl⟩

/-- One CPU whose scan stands at slot 1, with priorities 7, 5, 7 and 6 in the
first four slots. -/
def fourReady : Kernel Unit :=
  { Kernel.initial () with
    sched := fun _ => .scan 1
    proc := fun p =>
      if p.val < 4 then
        { Proc.zero with
          state := .runnable, kstack := some 1, pgdir := some 2
          priority := if p.val = 1 then 5 else if p.val = 3 then 6 else 7 }
      else Proc.zero }

theorem scheduler_priority_selection_fourReady :
    ∃ t, Kernel.step .proc fourReady ((), .dispatch 2) = some t ∧
      (t.proc 2).state = .running ∧ (t.proc 0).state = .runnable := by
  have hdispatch : ∃ t, Kernel.step .proc fourReady ((), .dispatch 2) = some t := ⟨_, rfl⟩
  obtain ⟨t, ht⟩ := hdispatch
  obtain ⟨q, _, _, _, hall, _⟩ := @scheduler_priority_selection Unit _ .proc fourReady () 1 rfl rfl
  obtain ⟨rfl, _, hproc⟩ := hall 2 t ht
  refine ⟨t, ht, ?_, ?_⟩
  · rw [hproc, Function.update_self]
  · rw [hproc, Function.update_of_ne (by decide)]
    rfl

end Xv6Kernel
