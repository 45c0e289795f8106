import Xv6Kernel.SleepInvariant

/-!
# No wakeup is lost

A process waits on a channel from the moment it releases the caller's lock
inside `sleep` until another process makes it RUNNABLE.  When it begins to wait
it has `ptable.lock`, so nobody is inside the loop of `wakeup1`; and a loop that
passes its slot later finds it SLEEPING.  So a thread that has completed
`wakeup` since then has made it RUNNABLE.
-/

namespace Xv6Kernel

open TraceExecution

def CodePc.InSleep {A L K : Type} : CodePc A L K → Prop
  | .sleeping _ _ _ _ => True
  | _ => False

/-- Inside `sleep`, behind the release of the caller's lock and not yet made
RUNNABLE again. -/
def CodePc.Waits {A L K : Type} (state : ProcState) (chan : A) :
    CodePc A L K → Prop
  | .sleeping .setChan ch _ _ | .sleeping .setState ch _ _
  | .sleeping .sched ch _ _ => ch = chan
  | .sleeping .swtch ch _ _ => ch = chan ∧ state = .sleeping
  | _ => False

def CodePc.Past {A L K : Type} (slot : ℕ) (chan : A) : CodePc A L K → Prop
  | .waking (.scan j) ch _ => ch = chan ∧ slot < j
  | .waking .release ch _ => ch = chan
  | _ => False

def CodePc.Rouses {A L K : Type} (slot : ℕ) (chan : A) : CodePc A L K → Prop
  | .waking .acquire ch _ => ch = chan
  | .waking (.scan j) ch _ => ch = chan ∧ j ≤ slot
  | _ => False

instance {A L K : Type} (pc : CodePc A L K) : Decidable pc.InSleep := by
  unfold CodePc.InSleep
  split <;> infer_instance

namespace SleepMachine

variable {n : ℕ} {C A L K M I : Type}
variable [DecidableEq C] [DecidableEq A] [DecidableEq L]
variable {program : Program A L K M I}
variable {s t : SleepMachine n C A L K M} {c : C} {i : I} {a b : Actor n C}
variable {p : Fin n} {chan : A} {lk : L} {label : C × SleepMove n I}

def Waiting (s : SleepMachine n C A L K M) (p : Fin n) (chan : A) : Prop :=
  (s.pc (.proc p)).Waits (s.proc p).state chan

def SleepingOn (s : SleepMachine n C A L K M) (p : Fin n) (chan : A) : Prop :=
  (s.proc p).state = .sleeping ∧ (s.proc p).chan = some chan

instance (s : SleepMachine n C A L K M) (p : Fin n) (chan : A) :
    Decidable (s.SleepingOn p chan) :=
  inferInstanceAs (Decidable (_ ∧ _))

omit [DecidableEq C] [DecidableEq A] [DecidableEq L] in
theorem Sound.waiting (hs : s.Sound) (hsleep : s.SleepingOn p chan) : s.Waiting p chan := by
  obtain ⟨hstate, hchan⟩ := hsleep
  have hat : (s.pc (.proc p)).AtSched ∨ (s.pc (.proc p)).AtSwtch := by
    rcases hs.sleeping p hstate with ⟨_, hat⟩ | hat
    · exact Or.inl hat
    · exact Or.inr hat
  rw [hs.chan p] at hchan
  unfold Waiting
  rw [hstate]
  cases hpc : s.pc (.proc p) with
  | sleeping stage ch lk next =>
    rw [hpc] at hat hchan
    cases stage <;> simp_all [CodePc.AtSched, CodePc.AtSwtch, CodePc.Waits,
      CodePc.waitsOn]
  | code | waking | killing => simp [hpc, CodePc.waitsOn] at hchan

/-! ## One step -/

theorem RunOk.others (hrun : RunOk program s c i a t) (hne : a ≠ .proc p) :
    t.pc (.proc p) = s.pc (.proc p) ∧
      ((t.proc p).state = (s.proc p).state ∨
        (s.proc p).state = .sleeping ∧ (t.proc p).state = .runnable) := by
  have hne' := hne.symm
  cases hrun with
  | @wakeScan _ q _ _ hpc =>
    refine ⟨by simp [hne'], ?_⟩
    by_cases hq : p = q
    · subst q
      simpa using wake_state _ _
    · simp [hq]
  | @killHit _ q _ _ hpc hpid =>
    refine ⟨by simp [hne'], ?_⟩
    by_cases hq : p = q
    · subst q
      simpa using kill_state _
    · simp [hq]
  | sleepChan | sleepState | sleepSched | sleepSwtch =>
    have hq : p ≠ ‹Fin n› := fun h => hne (h ▸ rfl)
    simp [hne', hq]
  | _ => simp [hne']

omit [DecidableEq C] [DecidableEq A] [DecidableEq L] in
theorem Waiting.of_others (hwait : t.Waiting p chan) (hpc : t.pc (.proc p) = s.pc (.proc p))
    (hstate : (t.proc p).state = .sleeping → (s.proc p).state = .sleeping) : s.Waiting p chan := by
  unfold Waiting at hwait ⊢
  rw [hpc] at hwait
  cases hcode : s.pc (.proc p) with
  | sleeping stage ch lk next =>
    rw [hcode] at hwait
    cases stage <;> simp_all [CodePc.Waits]
  | code | waking | killing => simp [hcode, CodePc.Waits] at hwait

theorem StepOk.waiting (hs : s.Sound) (hstep : StepOk program s label t)
    (hwait : t.Waiting p chan) :
    s.Waiting p chan ∨
      ∃ lk next, s.pc (.proc p) = .sleeping .release chan lk next := by
  cases hstep with
  | schedAcquire | schedRelease | yieldReturn | device =>
    exact Or.inl (hwait.of_others rfl id)
  | interrupt => exact Or.inl (hwait.of_others (by simp) id)
  | @dispatch c q | @yield c q =>
    refine Or.inl (hwait.of_others rfl ?_)
    by_cases hq : p = q
    · simp [hq]
    · simp [hq]
  | @run c i a t hactor hrun =>
    by_cases ha : a = .proc p
    · subst a
      have hchan := hs.chan p
      cases hrun <;> simp_all [Waiting, CodePc.Waits, CodePc.waitsOn]
    · obtain ⟨hpc, hstate⟩ := hrun.others ha
      refine Or.inl (hwait.of_others hpc ?_)
      intro hsleep
      rcases hstate with hsame | ⟨hbefore, _⟩
      · rw [← hsame, hsleep]
      · exact hbefore

omit [DecidableEq C] [DecidableEq A] [DecidableEq L] in
theorem Waiting.asleep (hs : s.Sound) (hwait : s.Waiting p chan) (hholds : s.HoldsPtable a)
    (hne : a ≠ .proc p) : s.SleepingOn p chan := by
  have hfree : (s.pc (.proc p)).Owns → (s.pc (.proc p)).AtSwtch := by
    intro howns
    rcases hs.owner p howns with hon | hat
    · have hself : s.HoldsPtable (.proc p) := ⟨hon, Or.inr howns⟩
      exact (hne (hs.ptable.unique hholds hself)).elim
    · exact hat
  have hchan := hs.chan p
  unfold Waiting at hwait
  cases hpc : s.pc (.proc p) with
  | sleeping stage ch lk next =>
    rw [hpc] at hwait hfree hchan
    cases stage <;> simp_all [CodePc.Waits, CodePc.Owns, CodePc.AtSwtch,
      CodePc.waitsOn, SleepingOn]
  | code | waking | killing => simp [hpc, CodePc.Waits] at hwait

omit [DecidableEq C] [DecidableEq L] in
theorem wake_not_sleeping {task : Task A} (hchan : task.chan = some chan) :
    (task.wake chan).state ≠ .sleeping := by
  unfold Task.wake
  split
  next => simp
  next hsleep =>
    intro hstate
    exact hsleep ⟨hstate, hchan⟩

theorem RunOk.past (hs : s.Sound) (hactor : s.actor c = some a)
    (hrun : RunOk program s c i a t) (hwait : t.Waiting p chan)
    (hbefore : ¬ (s.pc a).Past p.val chan) : ¬ (t.pc a).Past p.val chan := by
  have ht := hrun.sound hs hactor
  cases hrun with
  | @wakeScan a q ch next hpc =>
    intro hafter
    simp only [setTask, setPc, Function.update_self, CodePc.Past] at hafter
    obtain ⟨rfl, hlt⟩ := hafter
    simp only [hpc, CodePc.Past, true_and, not_lt] at hbefore
    obtain rfl : q = p := Fin.ext (by omega)
    have hne : a ≠ .proc q := by
      rintro rfl
      simp [Waiting, CodePc.Waits] at hwait
    have howns : (s.pc a).Owns := by simp [hpc, CodePc.Owns]
    have hlock : s.ptable = some a := (hs.ptable a).mpr ((holdsPtable_actor hactor).mpr howns)
    have hsleep := hwait.asleep ht ((ht.ptable a).mp hlock) hne
    have hchan : (s.proc q).chan = some ch := by simpa using hsleep.2
    exact wake_not_sleeping hchan (by simpa using hsleep.1)
  | wakeEnd hpc hend =>
    intro hafter
    simp only [setPc, Function.update_self, CodePc.Past] at hafter
    rw [hpc] at hbefore
    exact hbefore ⟨hafter, by omega⟩
  | _ => simp_all [CodePc.Past]

theorem RunOk.rouses (hs : s.Sound) (hactor : s.actor c = some a) (hrun : RunOk program s c i a t)
    (hwait : ∀ stage next, t.pc a = .waking stage chan next → t.Waiting p chan)
    (hbefore : (s.pc a).Rouses p.val chan) : (t.pc a).Rouses p.val chan := by
  have hpast : t.Waiting p chan → ¬ (s.pc a).Past p.val chan →
      ¬ (t.pc a).Past p.val chan := hrun.past hs hactor
  cases hrun with
  | wakeAcquire hpc hlock =>
    rw [hpc] at hbefore
    obtain rfl := hbefore
    simp [CodePc.Rouses]
  | @wakeScan _ q ch next hpc =>
    rw [hpc] at hbefore
    obtain ⟨rfl, hle⟩ := hbefore
    have hafter := hpast (hwait _ _ (Function.update_self a _ s.pc))
      (by simpa [hpc, CodePc.Past] using hle)
    simpa [CodePc.Rouses, CodePc.Past] using hafter
  | wakeEnd hpc hend =>
    rw [hpc] at hbefore
    have hlt := p.isLt
    exact absurd hbefore.2 (by omega)
  | _ => simp_all [CodePc.Rouses]

theorem StepOk.pc_proc (hstep : StepOk program s label t) :
    t.pc (.proc p) = s.pc (.proc p) ∨
      ∃ c i, s.actor c = some (.proc p) ∧ RunOk program s c i (.proc p) t := by
  cases hstep with
  | interrupt => exact Or.inl (by simp)
  | @run c i a t hactor hrun =>
    by_cases ha : a = .proc p
    · subst a
      exact Or.inr ⟨c, i, hactor, hrun⟩
    · exact Or.inl (hrun.others ha).1
  | _ => exact Or.inl rfl

/-- The process is in a call of `sleep` and has released the caller's lock. -/
def InCall (s : SleepMachine n C A L K M) (p : Fin n) (chan : A) (lk : L) : Prop :=
  ∃ stage next, s.pc (.proc p) = .sleeping stage chan lk next ∧
    stage ≠ .acquire ∧ stage ≠ .release

theorem StepOk.inCall (hstep : StepOk program s label t) (hcall : s.InCall p chan lk)
    (hin : (t.pc (.proc p)).InSleep) : t.InCall p chan lk := by
  obtain ⟨stage, next, hpc, hacquire, hrelease⟩ := hcall
  rcases hstep.pc_proc (p := p) with hsame | ⟨c, i, hactor, hrun⟩
  · exact ⟨stage, next, hsame.trans hpc, hacquire, hrelease⟩
  · cases hrun <;> simp_all [InCall, CodePc.InSleep]

theorem StepOk.sleep_returns (hs : s.Sound) (hstep : StepOk program s label t)
    (hcall : s.InCall p chan lk) (hout : ¬ (t.pc (.proc p)).InSleep) :
    t.spin lk = some (.proc p) ∧ (t.proc p).chan = none := by
  obtain ⟨stage, next, hpc, hacquire, hrelease⟩ := hcall
  have ht := (hs.step hstep).chan p
  rcases hstep.pc_proc (p := p) with hsame | ⟨c, i, hactor, hrun⟩
  · simp [hsame, hpc, CodePc.InSleep] at hout
  · cases hrun <;> simp_all [CodePc.InSleep, CodePc.waitsOn]

/-- The process does not wait, or no loop of `wakeup1` has passed it. -/
def Unpassed (s : SleepMachine n C A L K M) (p : Fin n) (chan : A) : Prop :=
  s.Waiting p chan → ∀ a, (∀ d, a ≠ .sched d) → ¬ (s.pc a).Past p.val chan

theorem Unpassed.step (hs : s.Sound) (hcall : s.InCall p chan lk) (hunpassed : s.Unpassed p chan)
    (hstep : StepOk program s label t) : t.Unpassed p chan := by
  intro hwait b hsched
  have hbefore : ¬ (s.pc b).Past p.val chan := by
    refine hunpassed ?_ b hsched
    rcases hstep.waiting hs hwait with h | ⟨lk', next', h⟩
    · exact h
    · obtain ⟨stage, next, hpc, _, hrelease⟩ := hcall
      rw [hpc] at h
      simp_all
  cases hstep with
  | @interrupt c i mem k hidle hintr =>
    by_cases hb : b = .intr c
    · simp [hb, CodePc.Past]
    · simpa [hb] using hbefore
  | @run c i a t hactor hrun =>
    by_cases hb : b = a
    · subst b
      exact hrun.past hs hactor hwait hbefore
    · rwa [hrun.pc_of_ne hb]
  | _ => exact hbefore

omit [DecidableEq C] [DecidableEq A] [DecidableEq L] in
theorem Sound.holds_of_past {slot : ℕ} (hs : s.Sound) (hsched : ∀ d, a ≠ .sched d)
    (hpast : (s.pc a).Past slot chan) : s.HoldsPtable a := by
  have hpos : (s.pc a).Owns ∧ ¬ (s.pc a).AtSwtch := by
    unfold CodePc.Past at hpast
    split at hpast
    next h => simp [h, CodePc.Owns, CodePc.AtSwtch]
    next h => simp [h, CodePc.Owns, CodePc.AtSwtch]
    next => exact hpast.elim
  cases a with
  | proc q =>
    rcases hs.owner q hpos.1 with hon | hat
    · exact ⟨hon, Or.inr hpos.1⟩
    · exact (hpos.2 hat).elim
  | sched d => exact (hsched d rfl).elim
  | intr d => exact hpos.1

omit [DecidableEq C] [DecidableEq A] [DecidableEq L] in
theorem Sound.unpassed (hs : s.Sound) {next : K}
    (hpc : s.pc (.proc p) = .sleeping .setChan chan lk next) : s.Unpassed p chan := by
  intro _ a hsched hpast
  have hon : s.OnCpu p := by
    rcases hs.owner p (by simp [hpc, CodePc.Owns]) with hon | hat
    · exact hon
    · simp [hpc, CodePc.AtSwtch] at hat
  have hself : s.HoldsPtable (.proc p) := ⟨hon, Or.inr (by simp [hpc, CodePc.Owns])⟩
  have hsame := hs.ptable.unique (hs.holds_of_past hsched hpast) hself
  subst a
  simp [hpc, CodePc.Past] at hpast

/-! ## Whole runs -/

theorem Reachable.sound {start : Fin n → K}
    (hreach : Reachable (step program) (Initial start) s) : s.Sound :=
  hreach.invariant (fun _ hinit => sound_initial hinit)
    fun _ _ _ hs hstep => hs.step (step_ok hstep)

/-- Along the run some thread of control acquires `lk` and later completes a
call of `wakeup(chan)`. -/
def WokenSince (program : Program A L K M I) (chan : A) (lk : L)
    (s : SleepMachine n C A L K M) (trace : List (C × SleepMove n I)) : Prop :=
  ∃ (a : Actor n C) (before middle after : List (C × SleepMove n I))
    (acquire : C × SleepMove n I) (d : C) (j : I) (next : K)
    (u v w : SleepMachine n C A L K M),
    trace = before ++ acquire :: (middle ++ (d, .run j) :: after) ∧
    exec (step program) s before = some u ∧
    step program u acquire = some v ∧
    u.spin lk ≠ some a ∧ v.spin lk = some a ∧
    exec (step program) v middle = some w ∧
    w.actor d = some a ∧ w.pc a = .waking .release chan next

/-- While a process stays in one call of `sleep`, the loops that have passed it
have made it RUNNABLE, and it does not begin to wait again. -/
theorem inCall_run {trace : List (C × SleepMove n I)} (hs : s.Sound) (hcall : s.InCall p chan lk)
    (hexec : exec (step program) s trace = some t)
    (hinside : Always (step program) (fun x => (x.pc (.proc p)).InSleep) s trace) :
    t.Sound ∧ t.InCall p chan lk ∧
      (s.Unpassed p chan → t.Unpassed p chan) ∧
      (¬ s.Waiting p chan → ¬ t.Waiting p chan) := by
  refine hinside.invariant (P := fun x => x.Sound ∧ x.InCall p chan lk ∧
    (s.Unpassed p chan → x.Unpassed p chan) ∧
      (¬ s.Waiting p chan → ¬ x.Waiting p chan)) ?_ ⟨hs, hcall, id, id⟩ hexec
  rintro x label y ⟨hx, hxcall, hxun, hxwait⟩ hin hstep
  have hok := step_ok hstep
  refine ⟨hx.step hok, hok.inCall hxcall hin, ?_, ?_⟩
  · intro hun
    exact (hxun hun).step hx hxcall hok
  · intro hnot hwait
    rcases hok.waiting hx hwait with h | ⟨lk', next', h⟩
    · exact hxwait hnot h
    · obtain ⟨stage, next, hpc, _, hrelease⟩ := hxcall
      rw [hpc] at h
      simp_all

/-- A process that has released the caller's lock inside `sleep(chan, lk)` is not
SLEEPING on `chan` any more once a thread that acquired `lk` after that has
completed `wakeup(chan)`; and the call returns with `lk` held by the process and
its `chan` equal to zero. -/
theorem sleep_wakeup_no_lost_wakeup {start : Fin n → K} {next : K} {u : SleepMachine n C A L K M}
    {trace : List (C × SleepMove n I)} (hreach : Reachable (step program) (Initial start) s)
    (hactor : s.actor c = some (.proc p)) (hcall : s.pc (.proc p) = .sleeping .release chan lk next)
    (hrelease : step program s (c, .run i) = some u) (hexec : exec (step program) u trace = some t)
    (hinside : Always (step program) (fun x => (x.pc (.proc p)).InSleep) u trace) :
    (WokenSince program chan lk u trace → ¬ t.SleepingOn p chan) ∧
      ∀ label v, step program t label = some v →
        ¬ (v.pc (.proc p)).InSleep →
          v.spin lk = some (.proc p) ∧ (v.proc p).chan = none := by
  have hu : u.Sound := (Reachable.sound hreach).step (step_ok hrelease)
  have hpc : u.pc (.proc p) = .sleeping .setChan chan lk next := by
    cases step_ok hrelease with
    | @run _ _ a _ hactor' hrun =>
        obtain rfl : Actor.proc p = a := by simpa [hactor] using hactor'
        cases hrun <;> simp_all
  have hin : u.InCall p chan lk := ⟨.setChan, next, hpc, by simp, by simp⟩
  constructor
  · rintro ⟨a, before, middle, after, acquire, d, j, k, x, y, w, htrace, hx, hy,
      _, _, hmiddle, hd, hdone⟩ hsleep
    have hsplit : trace = (before ++ acquire :: middle) ++ (d, .run j) :: after := by
      simpa using htrace
    have hw : exec (step program) u (before ++ acquire :: middle) = some w := by
      rw [exec_append, hx]
      simp [hy, hmiddle]
    have hlater : exec (step program) w ((d, .run j) :: after) = some t := by
      rw [hsplit, exec_append, hw] at hexec
      exact hexec
    rw [hsplit] at hinside
    obtain ⟨hfirst, hsecond⟩ := hinside.append hw
    obtain ⟨hwsound, hwcall, hwun, _⟩ := inCall_run hu hin hw hfirst
    have hnot : ¬ w.Waiting p chan := by
      intro hwait
      refine hwun (hu.unpassed hpc) hwait a ?_ ?_
      · rintro e rfl
        exact actor_ne_sched hd
      · simp [hdone, CodePc.Past]
    obtain ⟨ht, _, _, hkeep⟩ := inCall_run hwsound hwcall hlater hsecond
    exact hkeep hnot (ht.waiting hsleep)
  · intro label v hstep hout
    obtain ⟨ht, htcall, _⟩ := inCall_run hu hin hexec hinside
    exact (step_ok hstep).sleep_returns ht htcall hout

def anyCaller : Program A L Unit Unit (CodeAct A L Unit Unit) where
  code _ act _ _ := .ok act
  interrupt _ _ := blocked
  device _ _ := blocked

def twoCallers : SleepMachine 2 (Fin 2) Unit Unit Unit Unit where
  proc p := ⟨.runnable, none, false, p.val + 1⟩
  ptable := none
  spin _ := none
  ncli _ := 0
  cpu _ := .start
  inIntr _ := false
  inYield _ := true
  pc _ := .code ()
  mem := ()

theorem twoCallers_initial : twoCallers.Initial fun _ => () := by
  constructor <;> simp [twoCallers]

def callerRelease : List (Fin 2 × SleepMove 2 (CodeAct Unit Unit Unit Unit)) :=
  [(0, .schedAcquire), (0, .dispatch 0), (0, .yieldReturn), (1, .schedAcquire),
    (1, .dispatch 1), (1, .yieldReturn), (0, .run (.acquire () ())),
    (0, .run (.sleep () () ())), (0, .run .iret)]

def callerSleep : List (Fin 2 × SleepMove 2 (CodeAct Unit Unit Unit Unit)) :=
  [(0, .run .iret), (0, .run .iret), (0, .run .iret), (0, .schedRelease)]

def callerWakeup : List (Fin 2 × SleepMove 2 (CodeAct Unit Unit Unit Unit)) :=
  [(1, .run (.wakeup () ())), (1, .run .iret), (1, .run .iret), (1, .run .iret),
    (1, .run .iret)]

theorem sleep_wakeup_two_callers :
    ∃ s u t : SleepMachine 2 (Fin 2) Unit Unit Unit Unit,
      Reachable (step anyCaller) (Initial fun _ => ()) s ∧
      step anyCaller s (0, .run .iret) = some u ∧
      exec (step anyCaller) u (callerSleep ++ (1, .run (.acquire () ())) ::
        (callerWakeup ++ [(1, .run .iret)])) = some t ∧
      ¬ t.SleepingOn 0 () := by
  have hrun : ∃ s, exec (step anyCaller) twoCallers callerRelease = some s ∧
      (decide (s.actor 0 = some (.proc 0)) &&
        decide (s.pc (.proc 0) = .sleeping .release () () ()) &&
        (step anyCaller s (0, .run .iret)).any fun u =>
          checkSteps (step anyCaller)
            (fun x _ => decide (x.pc (.proc 0)).InSleep) u
            (callerSleep ++ (1, .run (.acquire () ())) ::
              (callerWakeup ++ [(1, .run .iret)])) &&
          (exec (step anyCaller) u (callerSleep ++
            (1, .run (.acquire () ())) ::
              (callerWakeup ++ [(1, .run .iret)]))).any
            (fun x => decide (x.pc (.proc 0)).InSleep) &&
          (exec (step anyCaller) u callerSleep).any fun x =>
            decide (x.spin () ≠ some (.proc 1)) &&
            (step anyCaller x (1, .run (.acquire () ()))).any fun y =>
              decide (y.spin () = some (.proc 1)) &&
              (exec (step anyCaller) y callerWakeup).any fun w =>
                decide (w.actor 1 = some (.proc 1)) &&
                decide (w.pc (.proc 1) = .waking .release () ())) = true :=
    exec_of_any (by decide +kernel)
  obtain ⟨s, hs, htest⟩ := hrun
  simp only [Bool.and_eq_true, decide_eq_true_eq, Option.any_eq_true] at htest
  obtain ⟨⟨hactor, hpc⟩, u, hu, ⟨hcheck, hlast⟩, x, hx, hfree, y, hy, hheld, w,
    hw, hwactor, hwpc⟩ := htest
  obtain ⟨t, ht, hin⟩ := hlast
  have hreach : Reachable (step anyCaller) (Initial fun _ => ()) s :=
    ⟨twoCallers, callerRelease, twoCallers_initial, hs⟩
  have hinside := always_of_checkSteps hcheck (by rw [ht]; simpa using hin)
  refine ⟨s, u, t, hreach, hu, ht, ?_⟩
  refine (sleep_wakeup_no_lost_wakeup hreach hactor hpc hu ht (by simpa using hinside)).1 ?_
  exact ⟨.proc 1, callerSleep, callerWakeup, [], (1, .run (.acquire () ())), 1,
    .iret, (), x, y, w, rfl, hx, hy, hfree, hheld, hw, hwactor, hwpc⟩

end SleepMachine

end Xv6Kernel
