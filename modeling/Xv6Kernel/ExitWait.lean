import Xv6Kernel.ProcTree
import Mathlib.Data.List.Infix

/-!
# `exit` and `wait`

`exit` wakes the parent before it marks itself ZOMBIE, hands its children to
init and wakes init if one of them is a zombie already.  All of it happens
under `ptable.lock`, and `wait` sleeps with the lock it scanned under, so a
process asleep in `wait` has no zombie child.

The ledger records, in order, the processes that have exited and those whose
pid `wait` has returned.  For each slot the two lists agree, up to the zombie
that may still be there.
-/

namespace Xv6Kernel

open TraceExecution List

variable {C : Type} [DecidableEq C]

theorem waitScan_sleep {curproc : Slot} {table : Table} (hscan : waitScan curproc table = .sleep)
    (q : Slot) (hparent : (table q).parent = some curproc) : (table q).state ≠ .zombie := by
  unfold waitScan at hscan
  split at hscan
  next => simp at hscan
  next hfind =>
    have hnone := findSlot_eq_none hfind q
    simp only [hparent, true_and, decide_eq_false_iff_not] at hnone
    exact hnone

@[simp] theorem age_chan (source : SchedSource) (table : Table) (q : Slot) :
    (Kernel.age source table q).chan = (table q).chan :=
  age_field (fun _ _ _ => rfl) source table q

@[simp] theorem setPriority_chan (pid newPriority : ℤ) (table : Table) (q : Slot) :
    ((setPriority pid newPriority table).1 q).chan = (table q).chan :=
  setPriority_field (fun _ _ => rfl) pid newPriority table q

@[simp] theorem kill_chan (pid : ℤ) (table : Table) (q : Slot) :
    ((kill pid table).1 q).chan = (table q).chan :=
  kill_field (fun _ _ _ => rfl) pid table q

namespace Kernel

/-! ## A process asleep in `wait` -/

/-- A process asleep in `wait` sleeps on its own slot and has no zombie
child. -/
def WaitInvariant (s : Kernel C) : Prop :=
  ∀ r, (s.thread r).pc = .waitSched → (s.proc r).state = .sleeping →
    (s.proc r).chan = some (.proc r) ∧
      ∀ q, (s.proc q).parent = some r → (s.proc q).state ≠ .zombie

section Steps

variable {source : SchedSource} {s t : Kernel C} {c : C} {action : Action} {p q : Slot}

def SleepOrigin (s t : Kernel C) (q : Slot) : Prop :=
  (s.proc q).state = .sleeping ∧ (t.proc q).chan = (s.proc q).chan ∨
    (s.thread q).pc = .elsewhere ∨ (s.thread q).pc = .waitLoop

omit [DecidableEq C] in
theorem SleepOrigin.of_update {value : Proc}
    (hproc : t.proc = Function.update s.proc p value) (hsleep : (t.proc q).state = .sleeping)
    (hself : value.state = .sleeping → SleepOrigin s t p) : SleepOrigin s t q := by
  by_cases hq : q = p
  · subst q
    apply hself
    simpa [hproc] using hsleep
  · left
    simpa [hproc, hq] using hsleep

omit [DecidableEq C] in
theorem SleepOrigin.of_woken
    (hchan : (t.proc q).chan = (s.proc q).chan)
    (hstate : (t.proc q).state = (s.proc q).state ∨
      (s.proc q).state = .sleeping ∧ (t.proc q).state = .runnable)
    (hsleep : (t.proc q).state = .sleeping) : SleepOrigin s t q := by
  rcases hstate with hsame | ⟨hbefore, _⟩
  · exact Or.inl ⟨hsame ▸ hsleep, hchan⟩
  · exact Or.inl ⟨hbefore, hchan⟩

section

variable (hstep : StepOk source s c action t) (hbind : s.BindingInvariant)

include hstep hbind

theorem StepOk.sleepOrigin (hsleep : (t.proc q).state = .sleeping) : SleepOrigin s t q := by
  cases hstep
  case sleep p chan lk ncli hsched hthread hlock hspin =>
    exact .of_update rfl hsleep fun _ => Or.inr (Or.inl (by rw [hthread]))
  case waitSleep p hsched hthread hlock hscan =>
    exact .of_update rfl hsleep fun _ => Or.inr (Or.inr (by rw [hthread]))
  case sleepReturn hsched _ _ | waitReturn hsched _ | trapKill hsched _ =>
    refine .of_update rfl hsleep ?_
    simp [hbind.running hsched]
  case forkKalloc | forkCopyuvm =>
    refine .of_update rfl hsleep ?_
    intro hstate
    exact Or.inl ⟨hstate, by simp⟩
  case kill pid hsched hthread hlock =>
    exact .of_woken (kill_chan pid s.proc q) (kill_state pid s.proc q) hsleep
  case wakeup chan hlock =>
    have hwoken := wakeOne_wokenFrom (some chan) (s.proc q)
    exact .of_woken hwoken.chan hwoken.state hsleep
  case exit p hsched hthread hlock hinit =>
    by_cases hq : q = p
    · subst q
      have hzombie := (exitTable_self p s.initproc s.proc).1
      have hboth := hzombie.symm.trans hsleep
      contradiction
    · have hwoken := exitTable_wokenFrom s.initproc s.proc hq
      exact .of_woken hwoken.chan hwoken.state hsleep
  case setPriority | afterSwtch =>
    exact .of_woken (by simp) (Or.inl (by simp)) hsleep
  case userinitAlloc | forkAlloc => exact .of_update rfl hsleep (by simp [Proc.embryo])
  case waitReap => exact .of_update rfl hsleep (by simp [Proc.reaped])
  case userinitPublish | dispatch | yield | forkKallocFail | forkCopyuvmFail | forkPublish =>
    exact .of_update rfl hsleep (by simp)
  all_goals exact Or.inl ⟨hsleep, rfl⟩

theorem StepOk.zombie_origin (hexit : action ≠ .exit) (hzombie : (t.proc q).state = .zombie) :
    (s.proc q).state = .zombie := by
  cases hstep.slotStep hbind.bound hexit q with
  | kept _ hstate =>
    rcases hstate with hsame | ⟨_, hlive⟩
    · rw [← hsame, hzombie]
    · simp [hzombie] at hlive
  | allocated _ hafter | booted _ _ hafter | failed _ _ hafter | published _ _ hafter
  | reaped _ _ hafter => simp [hafter] at hzombie
  | adopted _ _ _ hstate => rw [← hstate, hzombie]

theorem StepOk.zombie_stays (hexit : action ≠ .exit) (hwait : action ≠ .waitScan)
    (hzombie : (s.proc q).state = .zombie) : (t.proc q).state = .zombie := by
  cases hstep.slotStep hbind.bound hexit q with
  | kept _ hstate =>
    rcases hstate with hsame | ⟨hlive, _⟩
    · rw [hsame, hzombie]
    · simp [hzombie] at hlive
  | allocated hbefore => simp [hbefore] at hzombie
  | booted hsched => simp [hbind.fork.booting c q hsched] at hzombie
  | failed _ hpc =>
    have hchild := BeforeAdoption.forkChild_eq hpc
    simp [(hbind.fork.child _ q hchild).1] at hzombie
  | adopted _ _ _ hstate => rw [hstate, hzombie]
  | @published p _ hpc =>
    have hchild : forkChild (s.thread p).pc = some q := by rw [hpc]; rfl
    simp [(hbind.fork.child p q hchild).1] at hzombie
  | reaped haction => exact (hwait haction).elim

end

omit [DecidableEq C] in
theorem WaitInvariant.exit (hwait : s.WaitInvariant) (hbind : s.BindingInvariant)
    (htree : s.TreeInvariant) (hsched : s.sched c = .switched p) (hinit : s.initproc ≠ some p)
    (hproc : t.proc = exitTable p s.initproc s.proc)
    (hthreads : ∀ q, q ≠ p → t.thread q = s.thread q) (hexited : (t.thread p).pc = .exited) :
    t.WaitInvariant := by
  intro r hpc hsleep
  have hr : r ≠ p := by
    rintro rfl
    rw [hexited] at hpc
    contradiction
  rw [hthreads r hr] at hpc
  have hwoken : ∀ q, q ≠ p → (s.proc q).WokenFrom (t.proc q) := by
    intro q hq
    rw [hproc]
    exact exitTable_wokenFrom s.initproc s.proc hq
  have hbefore : (s.proc r).state = .sleeping := by
    rcases (hwoken r hr).state with hsame | ⟨hbefore, _⟩
    · rw [← hsame, hsleep]
    · exact hbefore
  obtain ⟨hchan, hchildren⟩ := hwait r hpc hbefore
  have hchan' : (t.proc r).chan = some (.proc r) := (hwoken r hr).chan.trans hchan
  have hself : SleepsOnSelf (exitTable p s.initproc s.proc) r := by
    rw [← hproc]
    exact ⟨hsleep, hchan'⟩
  obtain ⟨_, hnotparent, hnotinit⟩ := exitTable_sleepsOnSelf hr hself
  refine ⟨hchan', ?_⟩
  intro q hparent hzombie
  have hparents : (t.proc q).parent =
      if (s.proc q).parent = some p then s.initproc else (s.proc q).parent := by
    rw [hproc]
    exact exitTable_parent p s.initproc s.proc q
  have hzombie' : q ≠ p → (s.proc q).state = .zombie := by
    intro hq
    rcases (hwoken q hq).state with hsame | ⟨_, hrunnable⟩
    · rw [← hsame, hzombie]
    · simp [hzombie] at hrunnable
  by_cases hpassed : (s.proc q).parent = some p
  · rw [hparents, if_pos hpassed] at hparent
    have hq : q ≠ p := by
      rintro rfl
      have hstarted : (s.proc q).state.Started := by
        simp [hbind.running hsched, ProcState.Started]
      obtain ⟨r', hne, hparent', _⟩ := htree.parent q hstarted hinit
      rw [hpassed] at hparent'
      exact hne (Option.some.inj hparent').symm
    exact hnotinit hparent q hpassed (hzombie' hq)
  · rw [hparents, if_neg hpassed] at hparent
    have hq : q ≠ p := by
      rintro rfl
      exact hnotparent hparent
    exact hchildren q hparent (hzombie' hq)

theorem WaitInvariant.step (hwait : s.WaitInvariant) (hbind : s.BindingInvariant)
    (htree : s.TreeInvariant) (hstep : StepOk source s c action t) : t.WaitInvariant := by
  by_cases hexit : action = .exit
  · subst action
    cases hstep with
    | exit hsched hthread hlock hinit =>
      refine hwait.exit hbind htree hsched hinit rfl ?_ (by simp)
      intro q hq
      simp [hq]
  intro r hpc hsleep
  cases hstep.pcStep r with
  | same hnext =>
    rw [hnext] at hpc
    rcases hstep.sleepOrigin hbind hsleep with ⟨hbefore, hchan⟩ | hother
    · obtain ⟨hself, hchildren⟩ := hwait r hpc hbefore
      refine ⟨hchan.trans hself, ?_⟩
      intro q hparent hzombie
      have hzombie' := hstep.zombie_origin hbind hexit hzombie
      rcases (hstep.slotStep hbind.bound hexit q).parent_eq with
        hsame | ⟨_, hunused, _⟩ | ⟨p, hpc', _⟩
      · exact hchildren q (hsame ▸ hparent) hzombie'
      · simp [hzombie] at hunused
      · have hchild := BeforeAdoption.forkChild_eq (Or.inr hpc')
        simp [(hbind.fork.child p q hchild).1] at hzombie'
    · rcases hother with hother | hother <;> simp [hpc] at hother
  | reset hnext | forkAlloc _ hnext | forkKalloc _ hnext | forkCopyuvm _ hnext =>
        simp [hnext] at hpc
  | waitSleep _ hscan hproc =>
    refine ⟨by simp [hproc], ?_⟩
    intro q hparent
    by_cases hq : q = r
    · subst q
      simp [hproc]
    · rw [hproc, Function.update_of_ne hq] at hparent ⊢
      exact waitScan_sleep hscan q hparent
  | leaves _ hnever => exact (hnever hpc).elim

theorem waitInvariant_of_booted (hbooted : Booted source s) : s.WaitInvariant := by
  have hall : s.BindingInvariant ∧ s.TreeInvariant ∧ s.WaitInvariant := by
    refine Reachable.invariant
      (P := fun s => s.BindingInvariant ∧ s.TreeInvariant ∧ s.WaitInvariant)
      ?_ ?_ hbooted
    · rintro start ⟨bootCpu, rfl⟩
      refine ⟨bindingInvariant_initial bootCpu, treeInvariant_initial bootCpu, ?_⟩
      intro r hpc
      simp [initial] at hpc
    · rintro s ⟨c, action⟩ t ⟨hbind, htree, hwait⟩ hstep
      have hok := step_ok hstep
      exact ⟨hbind.step hok, htree.step hbind hok, hwait.step hbind htree hok⟩
  exact hall.2.2

end Steps

end Kernel

/-! ## The ledger of exits and returns -/

def exitEvent (s : Kernel C) : C × Action → List (Slot × ℤ)
  | (c, .exit) => ((s.current c).map fun p => (p, (s.proc p).pid)).toList
  | _ => []

def reapEvent (table : Table) (curproc : Slot) : List (Slot × ℤ) :=
  match waitScan curproc table with
  | .reap q => [(q, (table q).pid)]
  | _ => []

def returnEvent (s : Kernel C) : C × Action → List (Slot × ℤ)
  | (c, .waitScan) => (s.current c).elim [] (reapEvent s.proc)
  | _ => []

/-- The kernel with the history of exits and of the pids returned by `wait`. -/
structure Ledger (C : Type) where
  kernel : Kernel C
  exited : List (Slot × ℤ)
  returned : List (Slot × ℤ)

namespace Ledger

def step (source : SchedSource) (a : Ledger C) (label : C × Action) : Option (Ledger C) :=
  (Kernel.step source a.kernel label).map fun kernel =>
    { kernel := kernel
      exited := a.exited ++ exitEvent a.kernel label
      returned := a.returned ++ returnEvent a.kernel label }

def initial (bootCpu : C) : Ledger C where
  kernel := Kernel.initial bootCpu
  exited := []
  returned := []

end Ledger

def pidsOf (q : Slot) (events : List (Slot × ℤ)) : List ℤ :=
  (events.filter fun event => event.1 = q).map Prod.snd

@[simp] theorem pidsOf_append (q : Slot) (before after : List (Slot × ℤ)) :
    pidsOf q (before ++ after) = pidsOf q before ++ pidsOf q after := by
  simp [pidsOf]

@[simp] theorem pidsOf_nil (q : Slot) : pidsOf q [] = [] := rfl

@[simp] theorem pidsOf_self (q : Slot) (pid : ℤ) : pidsOf q [(q, pid)] = [pid] := by
  simp [pidsOf]

theorem pidsOf_other {p q : Slot} (hne : q ≠ p) (pid : ℤ) : pidsOf q [(p, pid)] = [] := by
  simp [pidsOf, Ne.symm hne]

/-- The exit of the process in the slot that no `wait` has returned yet. -/
def unreturned (table : Table) (q : Slot) : List ℤ :=
  if (table q).state = .zombie then [(table q).pid] else []

/-- Exits and returns agree slot by slot, up to the zombie in the slot. -/
def Ledger.Balanced (a : Ledger C) : Prop :=
  ∀ q, pidsOf q a.exited = pidsOf q a.returned ++ unreturned a.kernel.proc q

theorem unreturned_eq {before after : Table} {q : Slot}
    (hstate : (after q).state = .zombie ↔ (before q).state = .zombie)
    (hpid : (before q).state = .zombie → (after q).pid = (before q).pid) :
    unreturned after q = unreturned before q := by
  unfold unreturned
  by_cases hzombie : (before q).state = .zombie
  · rw [if_pos hzombie, if_pos (hstate.mpr hzombie), hpid hzombie]
  · rw [if_neg hzombie, if_neg fun hafter => hzombie (hstate.mp hafter)]

namespace Kernel

section Events

variable {source : SchedSource} {s t : Kernel C} {c : C} {action : Action}

omit [DecidableEq C] in
theorem exitEvent_of_ne (hexit : action ≠ .exit) : exitEvent s (c, action) = [] := by
  cases action <;> first
    | rfl
    | contradiction

omit [DecidableEq C] in
theorem returnEvent_of_ne (hwait : action ≠ .waitScan) : returnEvent s (c, action) = [] := by
  cases action <;> first
    | rfl
    | contradiction

omit [DecidableEq C] in
theorem returnEvent_waitScan {p : Slot} (hsched : s.sched c = .switched p) :
    returnEvent s (c, .waitScan) = reapEvent s.proc p := by
  simp [returnEvent, current_eq_some.mpr hsched]

theorem StepOk.returnEvent_cases (hstep : StepOk source s c action t) :
    returnEvent s (c, action) = [] ∨
      ∃ p z, returnEvent s (c, action) = [(z, (s.proc z).pid)] ∧
        s.sched c = .switched p ∧ (s.proc z).parent = some p ∧
        (s.proc z).state = .zombie ∧ (t.proc z).state = .unused ∧
        (t.proc z).pid = 0 := by
  by_cases hwait : action = .waitScan
  · subst action
    cases hstep with
    | @waitReap p z hsched hthread hlock hscan =>
      obtain ⟨hparent, hzombie⟩ := waitScan_reap hscan
      refine Or.inr ⟨p, z, ?_, hsched, hparent, hzombie, ?_, ?_⟩
      · rw [returnEvent_waitScan hsched]
        simp [reapEvent, hscan]
      · simp [Proc.reaped]
      · simp [Proc.reaped]
    | waitFail hsched _ _ hscan | waitSleep hsched _ _ hscan =>
      rw [returnEvent_waitScan hsched]
      exact Or.inl (by simp [reapEvent, hscan])
  · exact Or.inl (returnEvent_of_ne hwait)

theorem StepOk.balance (hstep : StepOk source s c action t)
    (hbind : s.BindingInvariant) (q : Slot) :
    unreturned s.proc q ++ pidsOf q (exitEvent s (c, action)) =
      pidsOf q (returnEvent s (c, action)) ++ unreturned t.proc q := by
  by_cases hexit : action = .exit
  · subst action
    cases hstep with
    | @exit p hsched hthread hlock hinit =>
      have hevent : exitEvent s (c, .exit) = [(p, (s.proc p).pid)] := by
        simp [exitEvent, current_eq_some.mpr hsched]
      rw [hevent, returnEvent_of_ne (by simp)]
      by_cases hq : q = p
      · subst q
        have hzombie := (exitTable_self p s.initproc s.proc).1
        simp [unreturned, hbind.running hsched, hzombie]
      · have hwoken := exitTable_wokenFrom s.initproc s.proc hq
        rw [pidsOf_other hq, pidsOf_nil, append_nil, nil_append]
        refine (unreturned_eq ?_ fun _ => hwoken.pid).symm
        rcases hwoken.state with hsame | ⟨hsleep, hrun⟩
        · exact hsame ▸ Iff.rfl
        · simp [hsleep, hrun]
  rw [exitEvent_of_ne hexit, pidsOf_nil, append_nil]
  by_cases hwait : action = .waitScan
  · subst action
    cases hstep with
    | @waitReap p z hsched hthread hlock hscan =>
      rw [returnEvent_waitScan hsched]
      have hevent : reapEvent s.proc p = [(z, (s.proc z).pid)] := by
        simp [reapEvent, hscan]
      rw [hevent]
      by_cases hq : q = z
      · subst q
        simp [unreturned, (waitScan_reap hscan).2, Proc.reaped]
      · rw [pidsOf_other hq, nil_append]
        exact unreturned_eq (by simp [hq]) (by simp [hq])
    | @waitFail p hsched hthread hlock hscan =>
      rw [returnEvent_waitScan hsched]
      simp [reapEvent, hscan]
    | @waitSleep p hsched hthread hlock hscan =>
      rw [returnEvent_waitScan hsched]
      have hevent : reapEvent s.proc p = [] := by simp [reapEvent, hscan]
      rw [hevent, pidsOf_nil, nil_append]
      by_cases hq : q = p
      · subst q
        simp [unreturned, hbind.running hsched]
      · simp [unreturned, hq]
  · rw [returnEvent_of_ne hwait, pidsOf_nil, nil_append]
    refine (unreturned_eq ⟨hstep.zombie_origin hbind hexit,
      hstep.zombie_stays hbind hexit hwait⟩ ?_).symm
    intro hzombie
    have hafter := hstep.zombie_stays hbind hexit hwait hzombie
    exact hstep.pidStep.pid_eq (by simp [hzombie]) (by simp [hafter])

end Events

end Kernel

namespace Ledger

section Runs

variable {source : SchedSource} {a b : Ledger C} {label : C × Action}

theorem step_eq_some (hstep : step source a label = some b) :
    ∃ kernel, Kernel.step source a.kernel label = some kernel ∧
      b = { kernel := kernel
            exited := a.exited ++ exitEvent a.kernel label
            returned := a.returned ++ returnEvent a.kernel label } := by
  simpa [step, eq_comm] using hstep

theorem Balanced.step (hbalanced : a.Balanced) (hbind : a.kernel.BindingInvariant)
    (hstep : Ledger.step source a label = some b) : b.Balanced := by
  obtain ⟨kernel, hkernel, rfl⟩ := step_eq_some hstep
  intro q
  have hbalance := (Kernel.step_ok hkernel).balance hbind q
  simp only [pidsOf_append, hbalanced q, append_assoc, hbalance]

theorem step_kernel (a : Ledger C) (label : C × Action) (b : Ledger C)
    (hstep : Ledger.step source a label = some b) :
    Kernel.step source a.kernel label = some b.kernel := by
  obtain ⟨kernel, hkernel, rfl⟩ := step_eq_some hstep
  exact hkernel

theorem balanced_of_run {bootCpu : C} {trace : List (C × Action)}
    (hrun : exec (Ledger.step source) (initial bootCpu) trace = some a) : a.Balanced := by
  have hboth : a.kernel.BindingInvariant ∧ a.Balanced := by
    refine exec_invariant (P := fun a => a.kernel.BindingInvariant ∧ a.Balanced) ?_ ?_ hrun
    · rintro a ⟨c, action⟩ b ⟨hbind, hbalanced⟩ hstep
      refine ⟨?_, hbalanced.step hbind hstep⟩
      obtain ⟨kernel, hkernel, rfl⟩ := step_eq_some hstep
      exact hbind.step (Kernel.step_ok hkernel)
    · refine ⟨Kernel.bindingInvariant_initial bootCpu, ?_⟩
      intro q
      rfl
  exact hboth.2

/-- The pids returned so far are distinct, and no slot will ever have one of
them again. -/
structure Spent (a : Ledger C) : Prop where
  nodup : (a.returned.map Prod.snd).Nodup
  past : ∀ pid ∈ a.returned.map Prod.snd, 0 < pid ∧ pid < a.kernel.nextpid ∧
    ∀ q, (a.kernel.proc q).pid ≠ pid

omit [DecidableEq C] in
theorem Spent.of_pidStep {s t : Kernel C} {action : Action} {pid : ℤ}
    (hpids : s.PidInvariant) (hstep : Kernel.PidStep s t action)
    (hroom : Kernel.allocates action = true → s.nextpid < 2 ^ 31 - 1)
    (hpos : 0 < pid) (hlt : pid < s.nextpid) (hpast : ∀ q, (s.proc q).pid ≠ pid) :
    pid < t.nextpid ∧ ∀ q, (t.proc q).pid ≠ pid := by
  cases hstep with
  | kept _ hnext hpid =>
    refine ⟨hnext ▸ hlt, ?_⟩
    intro q
    rcases hpid q with hsame | ⟨_, hzero⟩
    · rw [hsame]
      exact hpast q
    · omega
  | @allocated np hallocates _ hnext hnew hothers =>
    rw [succPid_eq hpids.positive (hroom hallocates)] at hnext
    refine ⟨by omega, ?_⟩
    intro q
    by_cases hq : q = np
    · subst q
      omega
    · rw [hothers q hq]
      exact hpast q

theorem Spent.step (hspent : a.Spent) (hinv : a.kernel.TableInvariant)
    (hroom : a.kernel.HasPid label) (hstep : Ledger.step source a label = some b) : b.Spent := by
  obtain ⟨kernel, hkernel, rfl⟩ := step_eq_some hstep
  obtain ⟨c, action⟩ := label
  have hok := Kernel.step_ok hkernel
  have hkeeps : ∀ pid ∈ a.returned.map Prod.snd, 0 < pid ∧
      pid < kernel.nextpid ∧ ∀ q, (kernel.proc q).pid ≠ pid := by
    intro pid hmem
    obtain ⟨hpos, hlt, hpast⟩ := hspent.past pid hmem
    exact ⟨hpos, Spent.of_pidStep hinv.pids hok.pidStep hroom hpos hlt hpast⟩
  rcases hok.returnEvent_cases with
    hnone | ⟨p, z, hevent, hsched, hparent, hzombie, _, hzero⟩
  · constructor
    · simpa [hnone] using hspent.nodup
    · simpa [hnone] using hkeeps
  · have haction : action = .waitScan := by
      by_contra hne
      rw [Kernel.returnEvent_of_ne hne] at hevent
      contradiction
    subst action
    have hstarted : (a.kernel.proc z).state.Started := Or.inr hzombie
    have hpos : 0 < (a.kernel.proc z).pid := by
      have hparentpid := (hinv.pids.range p).1
      have horder := hinv.order.parent z p hstarted hparent
      omega
    have hnew : (a.kernel.proc z).pid < kernel.nextpid ∧
        ∀ q, (kernel.proc q).pid ≠ (a.kernel.proc z).pid := by
      cases hok.pidStep with
      | allocated hallocates => contradiction
      | kept _ hnext hpid =>
        refine ⟨hnext ▸ (hinv.pids.range z).2, ?_⟩
        intro q heq
        by_cases hq : q = z
        · subst q
          omega
        · rcases hpid q with hsame | ⟨_, hzero⟩
          · rw [hsame] at heq
            exact hq (hinv.pids.distinct q z heq (by omega))
          · omega
    have hfresh : (a.kernel.proc z).pid ∉ a.returned.map Prod.snd := by
      intro hmem
      exact (hspent.past _ hmem).2.2 z rfl
    constructor
    · simp only [hevent, map_append, map_cons, map_nil]
      exact nodup_append.mpr ⟨hspent.nodup, nodup_singleton _, by
        intro pid hmem other hother
        rintro rfl
        rw [mem_singleton.mp hother] at hmem
        exact hfresh hmem⟩
    · intro pid hmem
      simp only [hevent, map_append, map_cons, map_nil, mem_append, mem_singleton] at hmem
      rcases hmem with hmem | rfl
      · exact hkeeps pid hmem
      · exact ⟨hpos, hnew⟩

theorem spent_of_run {bootCpu : C} {trace : List (C × Action)}
    (hrun : exec (Ledger.step source) (initial bootCpu) trace = some a)
    (hfew : Kernel.allocations trace < 2 ^ 31 - 1) : a.Spent := by
  have hmeet : StepsMeet (Ledger.step source)
      (fun a label => a.kernel.HasPid label) (initial bootCpu) trace :=
    .of_forget step_kernel (Kernel.stepsMeet_hasPid hfew)
  have hboth : a.kernel.TableInvariant ∧ a.Spent := by
    refine StepsMeet.invariant (P := fun a => a.kernel.TableInvariant ∧ a.Spent) ?_ ?_ hmeet hrun
    · rintro a ⟨c, action⟩ b ⟨hinv, hspent⟩ hroom hstep
      have hok := Kernel.step_ok (step_kernel a (c, action) b hstep)
      exact ⟨hinv.step hok hroom, hspent.step hinv hroom hstep⟩
    · exact ⟨Kernel.tableInvariant_initial bootCpu, nodup_nil, by
        intro pid hmem
        contradiction⟩
  exact hboth.2

end Runs

end Ledger

/-- In no reachable state is a process asleep in `wait` while it has a zombie
child.  Every exit is matched by at most one return, in the order in which the
processes of a slot exited, and until then the process is the zombie of its
slot; so, while pids do not wrap, no pid is returned twice.  The call that
returns it is made by the parent, and the slot is UNUSED with pid 0 after
it. -/
theorem exit_never_missed {source : SchedSource} {bootCpu : C} {trace : List (C × Action)}
    {a : Ledger C} (hrun : exec (Ledger.step source) (Ledger.initial bootCpu) trace = some a) :
    (∀ p q, (a.kernel.thread p).pc = .waitSched →
      (a.kernel.proc p).state = .sleeping → (a.kernel.proc q).parent = some p →
      (a.kernel.proc p).chan = some (.proc p) ∧
        (a.kernel.proc q).state ≠ .zombie) ∧
    (∀ q, pidsOf q a.exited = pidsOf q a.returned ++
      if (a.kernel.proc q).state = .zombie then [(a.kernel.proc q).pid]
      else []) ∧
    (Kernel.allocations trace < 2 ^ 31 - 1 →
      (a.returned.map Prod.snd).Nodup) ∧
    (∀ c b p q, Ledger.step source a (c, .waitScan) = some b →
      a.kernel.current c = some p → waitScan p a.kernel.proc = .reap q →
      b.returned = a.returned ++ [(q, (a.kernel.proc q).pid)] ∧
        (a.kernel.proc q).parent = some p ∧
        (a.kernel.proc q).state = .zombie ∧
        (b.kernel.proc q).state = .unused ∧ (b.kernel.proc q).pid = 0) := by
  have hbooted : Kernel.Booted source a.kernel :=
    ⟨_, trace, ⟨bootCpu, rfl⟩, exec_forget Ledger.step_kernel hrun⟩
  have hwait := Kernel.waitInvariant_of_booted hbooted
  refine ⟨?_, Ledger.balanced_of_run hrun, ?_, ?_⟩
  · intro p q hpc hsleep hparent
    obtain ⟨hchan, hchildren⟩ := hwait p hpc hsleep
    exact ⟨hchan, hchildren q hparent⟩
  · intro hfew
    exact (Ledger.spent_of_run hrun hfew).nodup
  · intro c b p q hstep hcurrent hscan
    obtain ⟨kernel, hkernel, rfl⟩ := Ledger.step_eq_some hstep
    have hevent : returnEvent a.kernel (c, .waitScan) =
        [(q, (a.kernel.proc q).pid)] := by
      simp [returnEvent, hcurrent, reapEvent, hscan]
    obtain ⟨hparent, hzombie⟩ := waitScan_reap hscan
    rcases (Kernel.step_ok hkernel).returnEvent_cases with
      hnone | ⟨_, z, hevent', _, _, _, hunused, hzero⟩
    · rw [hnone] at hevent
      contradiction
    · obtain ⟨rfl, _⟩ : q = z ∧ _ := by simpa [hevent] using hevent'
      exact ⟨by rw [hevent], hparent, hzombie, hunused, hzero⟩

def exitThenWait : List (Bool × Action) :=
  bootAndFork ++ [(false, .acquirePtable), (false, .skip),
    (false, .dispatch 1), (false, .forkret), (false, .exit),
    (false, .afterSwtch)] ++ List.replicate 62 (false, .skip) ++
    [(false, .releasePtable), (true, .waitAcquire), (true, .waitScan)]

def oneReturned (a : Ledger Bool) : Bool :=
  a.returned = [(1, 2)] ∧ (a.kernel.proc 1).state ≠ .zombie

theorem exit_never_missed_exitThenWait :
    ∃ a, exec (Ledger.step .proc) (Ledger.initial false) exitThenWait = some a ∧
      a.returned = [(1, 2)] ∧ pidsOf 1 a.exited = [2] := by
  obtain ⟨a, hrun, htest⟩ : ∃ a, exec (Ledger.step .proc)
      (Ledger.initial false) exitThenWait = some a ∧ oneReturned a = true :=
    exec_of_any (by decide +kernel)
  obtain ⟨hreturned, hstate⟩ :
      a.returned = [(1, 2)] ∧ (a.kernel.proc 1).state ≠ .zombie := by
    simpa [oneReturned] using htest
  have hbalanced := (exit_never_missed hrun).2.1 1
  rw [if_neg hstate, List.append_nil, hreturned] at hbalanced
  exact ⟨a, hrun, hreturned, hbalanced⟩

end Xv6Kernel
