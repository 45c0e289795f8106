import Xv6Kernel.SleepSteps

/-!
# Who has `ptable.lock`, and who is SLEEPING

The invariant `Sound` says where in the code `ptable.lock` is held, and ties the
fields `state` and `chan` of a process to the position of its thread.  It holds
for every program.
-/

namespace Xv6Kernel

open TraceExecution CodePc

/-- The positions in which a running thread has `ptable.lock`. -/
def CodePc.Owns {A L K : Type} : CodePc A L K → Prop
  | .sleeping .release _ _ _ | .sleeping .setChan _ _ _
  | .sleeping .setState _ _ _ | .sleeping .sched _ _ _
  | .sleeping .swtch _ _ _ | .sleeping .unlock _ _ _
  | .waking (.scan _) _ _ | .waking .release _ _
  | .killing (.scan _) _ _ | .killing .release _ _ => True
  | _ => False

/-- The channel between `p->chan = chan` and `p->chan = 0`. -/
def CodePc.waitsOn {A L K : Type} : CodePc A L K → Option A
  | .sleeping .setState chan _ _ | .sleeping .sched chan _ _
  | .sleeping .swtch chan _ _ => some chan
  | _ => none

def CodePc.AtSched {A L K : Type} : CodePc A L K → Prop
  | .sleeping .sched _ _ _ => True
  | _ => False

def CodePc.AtSwtch {A L K : Type} : CodePc A L K → Prop
  | .sleeping .swtch _ _ _ => True
  | _ => False

section Positions

variable {A L K : Type} {pc : CodePc A L K}

theorem CodePc.AtSched.waitsOn (hpc : pc.AtSched) : pc.waitsOn ≠ none := by
  unfold CodePc.AtSched at hpc
  split at hpc
  next => simp [waitsOn]
  next => exact hpc.elim

theorem CodePc.AtSched.owns (hpc : pc.AtSched) : pc.Owns := by
  unfold CodePc.AtSched at hpc
  split at hpc
  next => trivial
  next => exact hpc.elim

theorem CodePc.AtSwtch.owns (hpc : pc.AtSwtch) : pc.Owns := by
  unfold CodePc.AtSwtch at hpc
  split at hpc
  next => trivial
  next => exact hpc.elim

end Positions

namespace SleepMachine

variable {n : ℕ} {C A L K M I : Type}
variable {s t : SleepMachine n C A L K M} {c : C} {i : I} {a b : Actor n C}

def OnCpu (s : SleepMachine n C A L K M) (p : Fin n) : Prop :=
  ∃ c, s.cpu c = .running p

def HoldsPtable (s : SleepMachine n C A L K M) : Actor n C → Prop
  | .proc p => s.OnCpu p ∧ (s.inYield p = true ∨ (s.pc (.proc p)).Owns)
  | .sched c => s.cpu c = .scan
  | .intr c => (s.pc (.intr c)).Owns

/-- The state of the process table fits the positions of the threads. -/
structure Sound (s : SleepMachine n C A L K M) : Prop where
  ptable : Owned s.ptable s.HoldsPtable
  unique : ∀ c d p, s.cpu c = .running p → s.cpu d = .running p → c = d
  running : ∀ p, s.OnCpu p → (s.proc p).state = .running ∨
    (s.proc p).state = .sleeping ∧ (s.pc (.proc p)).AtSched
  sleeping : ∀ p, (s.proc p).state = .sleeping →
    s.OnCpu p ∧ (s.pc (.proc p)).AtSched ∨ (s.pc (.proc p)).AtSwtch
  runnable : ∀ p, (s.proc p).state = .runnable →
    s.inYield p = true ∨ (s.pc (.proc p)).AtSwtch
  yields : ∀ p, s.inYield p = true → ¬ (s.pc (.proc p)).Owns
  owner : ∀ p, (s.pc (.proc p)).Owns →
    s.OnCpu p ∨ (s.pc (.proc p)).AtSwtch
  chan : ∀ p, (s.proc p).chan = (s.pc (.proc p)).waitsOn
  idle : ∀ c, s.inIntr c = false → ∃ k, s.pc (.intr c) = .code k

/-- What `Sound` says about one process, which is on a CPU or not. -/
structure TaskOk (on : Prop) (task : Task A) (pc : CodePc A L K) (inYield : Bool) : Prop where
  running : on → task.state = .running ∨ task.state = .sleeping ∧ pc.AtSched
  sleeping : task.state = .sleeping → on ∧ pc.AtSched ∨ pc.AtSwtch
  runnable : task.state = .runnable → inYield = true ∨ pc.AtSwtch
  yields : inYield = true → ¬ pc.Owns
  owner : pc.Owns → on ∨ pc.AtSwtch
  chan : task.chan = pc.waitsOn

theorem TaskOk.onCpu {on : Prop} {task : Task A} {pc : CodePc A L K} {inYield : Bool} (hon : on)
    (hstate : task.state = .running ∨ task.state = .sleeping ∧ pc.AtSched)
    (hchan : task.chan = pc.waitsOn) (hyields : inYield = true → ¬ pc.Owns) :
    TaskOk on task pc inYield := by
  refine ⟨fun _ => hstate, ?_, ?_, hyields, fun _ => Or.inl hon, hchan⟩
  · intro hsleep
    rcases hstate with hrunning | ⟨_, hsched⟩
    · simp [hrunning] at hsleep
    · exact Or.inl ⟨hon, hsched⟩
  · intro hrunnable
    rcases hstate with hrunning | ⟨hsleeping, _⟩
    · simp [hrunning] at hrunnable
    · simp [hsleeping] at hrunnable

theorem Sound.task (hs : s.Sound) (p : Fin n) :
    TaskOk (s.OnCpu p) (s.proc p) (s.pc (.proc p)) (s.inYield p) :=
  ⟨hs.running p, hs.sleeping p, hs.runnable p, hs.yields p, hs.owner p, hs.chan p⟩

theorem sound_of_tasks (hptable : Owned t.ptable t.HoldsPtable)
    (hunique : ∀ c d p, t.cpu c = .running p → t.cpu d = .running p → c = d)
    (htask : ∀ p, TaskOk (t.OnCpu p) (t.proc p) (t.pc (.proc p)) (t.inYield p))
    (hidle : ∀ c, t.inIntr c = false → ∃ k, t.pc (.intr c) = .code k) : t.Sound :=
  ⟨hptable, hunique, fun p => (htask p).running, fun p => (htask p).sleeping,
    fun p => (htask p).runnable, fun p => (htask p).yields, fun p => (htask p).owner,
    fun p => (htask p).chan, hidle⟩

/-- The process `p` changes, and no other one. -/
theorem Sound.change (p : Fin n) (hs : s.Sound) (hptable : Owned t.ptable t.HoldsPtable)
    (hunique : ∀ c d p, t.cpu c = .running p → t.cpu d = .running p → c = d)
    (hothers : ∀ q, q ≠ p → (t.OnCpu q ↔ s.OnCpu q) ∧ t.proc q = s.proc q ∧
      t.pc (.proc q) = s.pc (.proc q) ∧ t.inYield q = s.inYield q)
    (hself : TaskOk (t.OnCpu p) (t.proc p) (t.pc (.proc p)) (t.inYield p))
    (hidle : ∀ c, t.inIntr c = false → ∃ k, t.pc (.intr c) = .code k) : t.Sound := by
  refine sound_of_tasks hptable hunique (fun q => ?_) hidle
  by_cases hq : q = p
  · exact hq ▸ hself
  · obtain ⟨hon, hproc, hpc, hyield⟩ := hothers q hq
    rw [propext hon, hproc, hpc, hyield]
    exact hs.task q

theorem sound_initial {start : Fin n → K} (hinit : s.Initial start) : s.Sound := by
  have hoff : ∀ p, ¬ s.OnCpu p := by
    rintro p ⟨c, hcpu⟩
    simp [hinit.cpu c] at hcpu
  constructor
  case ptable =>
    intro a
    rw [hinit.ptable]
    refine iff_of_false (by simp) ?_
    cases a with
    | proc p => exact fun hholds => hoff p hholds.1
    | sched c => simp [HoldsPtable, hinit.cpu c]
    | intr c =>
      obtain ⟨k, hk⟩ := hinit.idle c
      simp [HoldsPtable, hk, CodePc.Owns]
  case unique =>
    intro c d p hc
    simp [hinit.cpu c] at hc
  case running =>
    intro p hon
    exact (hoff p hon).elim
  case sleeping =>
    intro p hstate
    rcases hinit.state p with h | h <;> simp [h] at hstate
  case runnable =>
    intro p _
    exact Or.inl (hinit.inYield p)
  case yields =>
    intro p _
    simp [hinit.pc p, CodePc.Owns]
  case owner =>
    intro p howns
    simp [hinit.pc p, CodePc.Owns] at howns
  case chan =>
    intro p
    rw [hinit.chan p, hinit.pc p]
    rfl
  case idle => exact fun c _ => hinit.idle c

theorem holdsPtable_actor (hactor : s.actor c = some a) : s.HoldsPtable a ↔ (s.pc a).Owns := by
  cases a with
  | proc p =>
    obtain ⟨hcpu, hyield⟩ := actor_proc hactor
    simp only [HoldsPtable, hyield, Bool.false_eq_true, false_or, and_iff_right_iff_imp]
    exact fun _ => ⟨c, hcpu⟩
  | sched d => exact (actor_ne_sched hactor).elim
  | intr d => exact Iff.rfl

variable [DecidableEq C] {p : Fin n}

theorem running_of_update {cpu : C → CpuPc n} {pc : CpuPc n} {d : C} (hpc : pc ≠ .running p)
    (hcpu : Function.update cpu c pc d = .running p) : cpu d = .running p := by
  by_cases hd : d = c
  · subst d
    exact (hpc (by simpa using hcpu)).elim
  · rwa [Function.update_of_ne hd] at hcpu

theorem onCpu_update {pc : CpuPc n} (hbefore : s.cpu c ≠ .running p) (hafter : pc ≠ .running p)
    (hcpu : t.cpu = Function.update s.cpu c pc) : t.OnCpu p ↔ s.OnCpu p := by
  unfold OnCpu
  rw [hcpu]
  constructor
  · rintro ⟨d, hd⟩
    exact ⟨d, running_of_update hafter hd⟩
  · rintro ⟨d, hd⟩
    have hne : d ≠ c := by
      rintro rfl
      exact hbefore hd
    exact ⟨d, by rw [Function.update_of_ne hne, hd]⟩

/-- The step changes nothing that `Sound` speaks about but a position and
`ptable.lock`. -/
structure Moves (s : SleepMachine n C A L K M) (a : Actor n C)
    (pc : CodePc A L K) (t : SleepMachine n C A L K M) : Prop where
  proc : t.proc = s.proc
  cpu : t.cpu = s.cpu
  inYield : t.inYield = s.inYield
  inIntr : t.inIntr = s.inIntr
  pc : t.pc = Function.update s.pc a pc

namespace Moves

variable {pc : CodePc A L K}

theorem onCpu (hmoves : Moves s a pc t) (p : Fin n) : t.OnCpu p ↔ s.OnCpu p := by
  simp only [OnCpu, hmoves.cpu]

theorem holdsPtable_of_ne (hmoves : Moves s a pc t) (hne : b ≠ a) :
    t.HoldsPtable b ↔ s.HoldsPtable b := by
  have hpc : t.pc b = s.pc b := by rw [hmoves.pc, Function.update_of_ne hne]
  cases b with
  | proc p => simp only [HoldsPtable, hmoves.onCpu, hmoves.inYield, hpc]
  | sched d => simp only [HoldsPtable, hmoves.cpu]
  | intr d => simp only [HoldsPtable, hpc]

theorem holdsPtable_self (hmoves : Moves s a pc t)
    (hactor : s.actor c = some a) : t.HoldsPtable a ↔ pc.Owns := by
  have hpc : t.pc a = pc := by rw [hmoves.pc, Function.update_self]
  cases a with
  | proc p =>
    obtain ⟨hcpu, hyield⟩ := actor_proc hactor
    simp only [HoldsPtable, hmoves.onCpu, hmoves.inYield, hyield, hpc,
      Bool.false_eq_true, false_or, and_iff_right_iff_imp]
    exact fun _ => ⟨c, hcpu⟩
  | sched d => exact (actor_ne_sched hactor).elim
  | intr d => simp only [HoldsPtable, hpc]

theorem sound (hmoves : Moves s a pc t) (hs : s.Sound) (hactor : s.actor c = some a)
    (hptable : Owned t.ptable t.HoldsPtable) (hbefore : (s.pc a).waitsOn = none)
    (hafter : pc.waitsOn = none) : t.Sound := by
  refine sound_of_tasks hptable (by rw [hmoves.cpu]; exact hs.unique) (fun q => ?_) fun d hd => ?_
  · rw [propext (hmoves.onCpu q), hmoves.proc, hmoves.inYield, hmoves.pc]
    by_cases hq : Actor.proc q = a
    · subst hq
      obtain ⟨hcpu, hyield⟩ := actor_proc hactor
      rw [Function.update_self]
      refine .onCpu ⟨c, hcpu⟩ (Or.inl ?_) ?_ (by simp [hyield])
      · exact (hs.running q ⟨c, hcpu⟩).resolve_right fun h => h.2.waitsOn hbefore
      · rw [hs.chan q, hbefore, hafter]
    · rw [Function.update_of_ne hq]
      exact hs.task q
  · rw [hmoves.inIntr] at hd
    have hne : Actor.intr d ≠ a := by
      rintro rfl
      obtain ⟨rfl, hintr⟩ := actor_intr hactor
      simp [hintr] at hd
    rw [hmoves.pc, Function.update_of_ne hne]
    exact hs.idle d hd

section

variable (hs : s.Sound) (hactor : s.actor c = some a) (hmoves : Moves s a pc t)

include hs hactor hmoves

theorem keep (hlock : t.ptable = s.ptable) (howns : pc.Owns ↔ (s.pc a).Owns)
    (hbefore : (s.pc a).waitsOn = none) (hafter : pc.waitsOn = none) : t.Sound := by
  apply hmoves.sound hs hactor _ hbefore hafter
  rw [hlock]
  apply hs.ptable.keep (p := a)
  · rw [hmoves.holdsPtable_self hactor, holdsPtable_actor hactor]
    exact howns
  · intro q hq
    exact hmoves.holdsPtable_of_ne hq

theorem take (hfree : s.ptable = none) (hlock : t.ptable = some a) (howns : pc.Owns)
    (hbefore : (s.pc a).waitsOn = none) (hafter : pc.waitsOn = none) : t.Sound := by
  apply hmoves.sound hs hactor _ hbefore hafter
  rw [hlock]
  have howned := hs.ptable
  rw [hfree] at howned
  apply howned.take
  · exact (hmoves.holdsPtable_self hactor).mpr howns
  · intro q hq
    exact hmoves.holdsPtable_of_ne hq

theorem drop (hheld : s.ptable = some a) (hlock : t.ptable = none) (howns : ¬ pc.Owns)
    (hbefore : (s.pc a).waitsOn = none) (hafter : pc.waitsOn = none) : t.Sound := by
  apply hmoves.sound hs hactor _ hbefore hafter
  rw [hlock]
  apply hs.ptable.release (p := a)
  · exact (hs.ptable a).mp hheld
  · rw [hmoves.holdsPtable_self hactor]
    exact howns
  · intro q hq
    exact hmoves.holdsPtable_of_ne hq

end

end Moves

/-! ## The invariant along a run -/

theorem Sound.own {task : Task A} {pc : CodePc A L K} (hs : s.Sound)
    (hactor : s.actor c = some (.proc p)) (hbefore : (s.pc (.proc p)).Owns) (hafter : pc.Owns)
    (hstate : task.state = .running ∨ task.state = .sleeping ∧ pc.AtSched)
    (hchan : task.chan = pc.waitsOn) : ((s.setTask p task).setPc (.proc p) pc).Sound := by
  obtain ⟨hcpu, hyield⟩ := actor_proc hactor
  have hmoves : Moves s (.proc p) pc { s.setPc (.proc p) pc with } := ⟨rfl, rfl, rfl, rfl, rfl⟩
  refine hs.change p ?_ hs.unique (fun q hq => ⟨Iff.rfl, by simp [hq], by simp [hq], rfl⟩) ?_
    (by simpa using hs.idle)
  · apply hs.ptable.keep (p := .proc p)
    · exact (hmoves.holdsPtable_self hactor).trans
        (iff_of_true hafter ((holdsPtable_actor hactor).mpr hbefore))
    · intro q hq
      exact hmoves.holdsPtable_of_ne hq
  · exact .onCpu ⟨c, hcpu⟩ (by simpa using hstate) (by simpa using hchan) (by simp [hyield])

omit [DecidableEq C] in
theorem Sound.asleep (hs : s.Sound) (hholds : s.HoldsPtable a) (hpc : ¬ (s.pc a).AtSched)
    (hstate : (s.proc p).state = .sleeping) : (s.pc (.proc p)).AtSwtch ∧ ¬ s.OnCpu p := by
  have hsched : s.OnCpu p → ¬ (s.pc (.proc p)).AtSched := by
    intro hon hat
    have hself : s.HoldsPtable (.proc p) := ⟨hon, Or.inr hat.owns⟩
    have hsame := hs.ptable.unique hholds hself
    exact hpc (hsame ▸ hat)
  constructor
  · rcases hs.sleeping p hstate with ⟨hon, hat⟩ | hat
    · exact (hsched hon hat).elim
    · exact hat
  · intro hon
    rcases hs.running p hon with hrunning | ⟨_, hat⟩
    · simp [hrunning] at hstate
    · exact hsched hon hat

theorem Sound.rouse {q : Fin n} {task : Task A} {pc : CodePc A L K} (hs : s.Sound)
    (hactor : s.actor c = some a) (hbefore : (s.pc a).Owns) (hwaits : (s.pc a).waitsOn = none)
    (hafter : pc.Owns) (hwaits' : pc.waitsOn = none)
    (hstate : task.state = (s.proc q).state ∨ (s.proc q).state = .sleeping ∧ task.state = .runnable)
    (hchan : task.chan = (s.proc q).chan) : ((s.setTask q task).setPc a pc).Sound := by
  have hmoves : Moves s a pc (s.setPc a pc) := ⟨rfl, rfl, rfl, rfl, rfl⟩
  have hmid : (s.setPc a pc).Sound :=
    Moves.keep hs hactor hmoves rfl (iff_of_true hafter hbefore) hwaits
      hwaits'
  have hholds : (s.setPc a pc).HoldsPtable a := (hmoves.holdsPtable_self hactor).mpr hafter
  have hnot : ¬ ((s.setPc a pc).pc a).AtSched := by
    simp only [setPc, Function.update_self]
    exact fun h => h.waitsOn hwaits'
  have hold := hmid.task q
  refine hmid.change q hmid.ptable hmid.unique (fun r hr => ⟨Iff.rfl, by simp [hr], rfl, rfl⟩) ?_
    hmid.idle
  simp only [setPc, setTask, Function.update_self]
  rcases hstate with hsame | ⟨hsleeping, hrunnable⟩
  · refine ⟨?_, ?_, ?_, hold.yields, hold.owner, hchan.trans hold.chan⟩
    · rw [hsame]
      exact hold.running
    · rw [hsame]
      exact hold.sleeping
    · rw [hsame]
      exact hold.runnable
  · obtain ⟨hat, hoff⟩ := hmid.asleep hholds hnot hsleeping
    exact ⟨fun hon => (hoff hon).elim, by simp [hrunnable], fun _ => Or.inr hat, hold.yields,
      hold.owner, hchan.trans hold.chan⟩

theorem Sound.leave (hs : s.Sound) (hcpu : s.cpu c = .running p)
    (htcpu : t.cpu = Function.update s.cpu c .scan) (hlock : t.ptable = some (.sched c))
    (hfree : s.ptable = none ∨ s.ptable = some (.proc p))
    (hothers : ∀ b, b ≠ .proc p → t.pc b = s.pc b)
    (hyields : ∀ q, q ≠ p → t.inYield q = s.inYield q) (hprocs : ∀ q, q ≠ p → t.proc q = s.proc q)
    (htask : TaskOk False (t.proc p) (t.pc (.proc p)) (t.inYield p)) (hintr : t.inIntr = s.inIntr) :
    t.Sound := by
  have hon : ∀ q, t.OnCpu q ↔ s.OnCpu q ∧ q ≠ p := by
    intro q
    constructor
    · rintro ⟨d, hd⟩
      rw [htcpu] at hd
      by_cases hdc : d = c
      · simp [hdc] at hd
      · rw [Function.update_of_ne hdc] at hd
        refine ⟨⟨d, hd⟩, ?_⟩
        rintro rfl
        exact hdc (hs.unique d c q hd hcpu)
    · rintro ⟨⟨d, hd⟩, hq⟩
      refine ⟨d, ?_⟩
      have hdc : d ≠ c := by
        rintro rfl
        rw [hcpu] at hd
        exact hq (CpuPc.running.inj hd).symm
      rw [htcpu, Function.update_of_ne hdc, hd]
  have hscan : ∀ d, d ≠ c → (t.cpu d = .scan ↔ s.cpu d = .scan) := by
    intro d hd
    rw [htcpu, Function.update_of_ne hd]
  have hself : ¬ t.HoldsPtable (.proc p) := fun hholds =>
    ((hon p).mp hholds.1).2 rfl
  have hcsched : t.HoldsPtable (.sched c) := by
    simp [HoldsPtable, htcpu]
  have hrest : ∀ b, b ≠ .proc p → b ≠ .sched c →
      (t.HoldsPtable b ↔ s.HoldsPtable b) := by
    intro b hbp hbc
    cases b with
    | proc q =>
      have hq : q ≠ p := fun h => hbp (h ▸ rfl)
      simp only [HoldsPtable, hon q, hyields q hq, hothers _ hbp, hq, ne_eq,
        not_false_eq_true, and_true]
    | sched d => exact hscan d fun h => hbc (h ▸ rfl)
    | intr d => simp only [HoldsPtable, hothers _ hbp]
  refine hs.change p ?_ ?_ ?_ ?_ ?_
  · rw [hlock]
    rcases hfree with hnone | hheld
    · have howned := hs.ptable
      rw [hnone] at howned
      apply howned.take hcsched
      intro b hb
      by_cases hbp : b = .proc p
      · subst b
        refine iff_of_false hself ?_
        intro hholds
        simpa using (howned (.proc p)).mpr hholds
      · exact hrest b hbp hb
    · exact hs.ptable.pass ((hs.ptable (.proc p)).mp hheld) hself hcsched hrest
  · intro d e q hd he
    rw [htcpu] at hd he
    by_cases hdc : d = c
    · simp [hdc] at hd
    · by_cases hec : e = c
      · simp [hec] at he
      · rw [Function.update_of_ne hdc] at hd
        rw [Function.update_of_ne hec] at he
        exact hs.unique d e q hd he
  · intro q hq
    exact ⟨by simp [hon, hq], hprocs q hq, hothers _ (by simpa using hq), hyields q hq⟩
  · rwa [show t.OnCpu p = False by simp [hon]]
  · intro d hd
    rw [hintr] at hd
    rw [hothers _ (by simp)]
    exact hs.idle d hd

variable [DecidableEq A] [DecidableEq L] {program : Program A L K M I}

theorem wake_state (chan : A) (task : Task A) :
    (task.wake chan).state = task.state ∨
      task.state = .sleeping ∧ (task.wake chan).state = .runnable := by
  unfold Task.wake
  split
  next hsleep => exact Or.inr ⟨hsleep.1, rfl⟩
  next => exact Or.inl rfl

omit [DecidableEq A] in
theorem kill_state (task : Task A) :
    task.kill.state = task.state ∨
      task.state = .sleeping ∧ task.kill.state = .runnable := by
  unfold Task.kill
  by_cases hsleep : task.state = .sleeping
  · exact Or.inr ⟨hsleep, by simp [hsleep]⟩
  · exact Or.inl (by simp [hsleep])

@[simp] theorem wake_chan (chan : A) (task : Task A) : (task.wake chan).chan = task.chan := by
  unfold Task.wake
  split <;> rfl

theorem RunOk.sound (hs : s.Sound) (hactor : s.actor c = some a)
    (hrun : RunOk program s c i a t) : t.Sound := by
  cases hrun with
  | acquire hpc hcode hlock | release hpc hcode hlock | store hpc hcode
  | wakeup hpc hcode | kill hpc hcode =>
    exact Moves.keep hs hactor ⟨rfl, rfl, rfl, rfl, rfl⟩ rfl
      (by simp [hpc, CodePc.Owns]) (by simp [hpc, waitsOn]) rfl
  | sleep hpc | sleepRelease hpc | sleepRelock hpc | wakeEnd hpc =>
    exact Moves.keep hs hactor ⟨rfl, rfl, rfl, rfl, rfl⟩ rfl
      (by simp [hpc, CodePc.Owns]) (by simp [hpc, waitsOn]) rfl
  | @iret d k hpc hcode =>
    refine ⟨hs.1, hs.2, hs.3, hs.4, hs.5, hs.6, hs.7, hs.8, ?_⟩
    intro e he
    by_cases hec : e = c
    · obtain ⟨rfl, _⟩ := actor_intr hactor
      exact ⟨k, hec ▸ hpc⟩
    · exact hs.idle e (by simpa [hec] using he)
  | sleepAcquire hpc hlock | wakeAcquire hpc hlock | killAcquire hpc hlock =>
    exact Moves.take hs hactor ⟨rfl, rfl, rfl, rfl, rfl⟩ hlock rfl trivial
      (by simp [hpc, waitsOn]) rfl
  | @sleepChan p chan lk next hpc | @sleepSwtch p chan lk next hpc =>
    refine hs.own hactor (by simp [hpc, CodePc.Owns]) trivial ?_ rfl
    have hstate := hs.running p ⟨c, (actor_proc hactor).1⟩
    simpa [hpc, CodePc.AtSched] using hstate
  | @sleepState p chan lk next hpc =>
    refine hs.own hactor (by simp [hpc, CodePc.Owns]) trivial (Or.inr ⟨rfl, trivial⟩) ?_
    simpa [hpc, waitsOn] using hs.chan p
  | @sleepSched p chan lk next hpc hlock hstate =>
    obtain ⟨hcpu, _⟩ := actor_proc hactor
    apply hs.leave hcpu rfl rfl (Or.inr hlock)
    · intro b hb
      simp [hb]
    · intro q _
      rfl
    · intro q _
      rfl
    · have hchan := hs.chan p
      rw [hpc] at hchan
      simp only [setPc, Function.update_self]
      exact ⟨False.elim, fun _ => Or.inr trivial, fun _ => Or.inr trivial,
        by simp [(actor_proc hactor).2], fun _ => Or.inr trivial, hchan⟩
    · rfl
  | sleepUnlock hpc hlock | wakeRelease hpc hlock | killRelease hpc hlock =>
    exact Moves.drop hs hactor ⟨rfl, rfl, rfl, rfl, rfl⟩ hlock rfl
      (by simp [CodePc.Owns]) (by simp [hpc, waitsOn]) rfl
  | wakeScan hpc =>
    exact hs.rouse hactor (by simp [hpc, CodePc.Owns])
      (by simp [hpc, waitsOn]) trivial rfl (wake_state _ _)
      (wake_chan _ _)
  | killHit hpc hpid =>
    exact hs.rouse hactor (by simp [hpc, CodePc.Owns])
      (by simp [hpc, waitsOn]) trivial rfl (kill_state _) rfl
  | killMiss hpc hstage =>
    refine Moves.keep hs hactor ⟨rfl, rfl, rfl, rfl, rfl⟩ rfl ?_ (by simp [hpc, waitsOn]) rfl
    rw [hpc]
    cases ‹ScanStage› <;> simp_all [CodePc.Owns]

omit [DecidableEq A] [DecidableEq L] in
theorem Sound.parked {pc : CpuPc n} (hs : s.Sound) (hbefore : ∀ p, s.cpu c ≠ .running p)
    (hafter : ∀ p, pc ≠ .running p) (hcpu : t.cpu = Function.update s.cpu c pc)
    (hproc : t.proc = s.proc) (hyield : t.inYield = s.inYield) (hpc : t.pc = s.pc)
    (hintr : t.inIntr = s.inIntr)
    (hlock : Owned t.ptable fun a => if a = .sched c then pc = .scan else s.HoldsPtable a) :
    t.Sound := by
  have hon : ∀ q, t.OnCpu q ↔ s.OnCpu q := fun q =>
    onCpu_update (hbefore q) (hafter q) hcpu
  apply sound_of_tasks
  · intro b
    rw [hlock b]
    cases b with
    | proc q => simp [HoldsPtable, hon, hyield, hpc]
    | sched d =>
      by_cases hd : d = c
      · simp [HoldsPtable, hcpu, hd]
      · simp [HoldsPtable, hcpu, hd]
    | intr d => simp [HoldsPtable, hpc]
  · intro d e q hd he
    rw [hcpu] at hd he
    exact hs.unique d e q (running_of_update (hafter q) hd) (running_of_update (hafter q) he)
  · intro q
    rw [propext (hon q), hproc, hyield, hpc]
    exact hs.task q
  · rw [hintr, hpc]
    exact hs.idle

omit [DecidableEq A] [DecidableEq L] in
theorem Sound.dispatch (hs : s.Sound) (hcpu : s.cpu c = .scan)
    (hstate : (s.proc p).state = .runnable) :
    Sound (((s.setTask p { s.proc p with state := .running }).setPtable c
      (some (.proc p)) 0).setCpu c (.running p)) := by
  have hoff : ¬ s.OnCpu p := by
    intro hon
    rcases hs.running p hon with h | ⟨h, _⟩ <;> simp [hstate] at h
  have hcpus : ∀ q d, q ≠ p →
      (Function.update s.cpu c (.running p) d = .running q ↔
        s.cpu d = .running q) := by
    intro q d hq
    by_cases hd : d = c
    · subst d
      simp [hcpu, hq.symm]
    · rw [Function.update_of_ne hd]
  have hcpup : ∀ d, Function.update s.cpu c (.running p) d = .running p →
      d = c := by
    intro d hd
    by_contra hne
    rw [Function.update_of_ne hne] at hd
    exact hoff ⟨d, hd⟩
  have hsched : s.HoldsPtable (.sched c) := hcpu
  refine hs.change p ?_ ?_ ?_ ?_ ?_
  · apply hs.ptable.pass hsched
    · simp [HoldsPtable]
    · refine ⟨⟨c, by simp⟩, ?_⟩
      rcases hs.runnable p hstate with hyield | hat
      · exact Or.inl hyield
      · exact Or.inr hat.owns
    · intro b hbc hbp
      cases b with
      | proc q =>
        have hq : q ≠ p := fun h => hbp (h ▸ rfl)
        simp only [HoldsPtable, OnCpu, setTask, setPtable, setCpu, hcpus q _ hq]
      | sched d =>
        have hd : d ≠ c := fun h => hbc (h ▸ rfl)
        simp [HoldsPtable, hd]
      | intr d => exact Iff.rfl
  · intro d e q hd he
    simp only [setTask, setPtable, setCpu] at hd he
    by_cases hq : q = p
    · subst q
      rw [hcpup d hd, hcpup e he]
    · rw [hcpus q _ hq] at hd he
      exact hs.unique d e q hd he
  · intro q hq
    exact ⟨by simp only [OnCpu, setTask, setPtable, setCpu, hcpus q _ hq], by simp [hq], rfl, rfl⟩
  · exact .onCpu ⟨c, by simp⟩ (Or.inl (by simp)) (by simpa using hs.chan p) (hs.yields p)
  · exact hs.idle

omit [DecidableEq A] [DecidableEq L] in
theorem Sound.yieldReturn (hs : s.Sound) (hcpu : s.cpu c = .running p) (hyield : s.inYield p = true)
    (hlock : s.ptable = some (.proc p)) : Sound ((s.setPtable c none (-1)).setYield p false) := by
  refine hs.change p ?_ hs.unique (fun q hq => ⟨Iff.rfl, rfl, rfl, by simp [hq]⟩) ?_ hs.idle
  · apply hs.ptable.release ((hs.ptable _).mp hlock)
    · simpa [HoldsPtable] using fun _ => hs.yields p hyield
    · intro b hb
      cases b with
      | proc q =>
        have hq : q ≠ p := fun h => hb (h ▸ rfl)
        simp [HoldsPtable, OnCpu, hq]
      | sched | intr => exact Iff.rfl
  · exact .onCpu ⟨c, hcpu⟩ (hs.running p ⟨c, hcpu⟩) (hs.chan p) (by simp)

theorem Sound.step {label : C × SleepMove n I} (hs : s.Sound)
    (hstep : StepOk program s label t) : t.Sound := by
  cases hstep with
  | @schedAcquire c hcpu hlock =>
    refine hs.parked (c := c) ?_ ?_ rfl rfl rfl rfl rfl ?_
    · simp [hcpu]
    · simp
    have howned := hs.ptable
    rw [hlock] at howned
    apply howned.take
    · simp
    · intro b hb
      simp [hb]
  | dispatch hcpu hstate => exact hs.dispatch hcpu hstate
  | @schedRelease c hcpu hlock =>
    refine hs.parked (c := c) ?_ ?_ rfl rfl rfl rfl rfl ?_
    · simp [hcpu]
    · simp
    apply hs.ptable.release ((hs.ptable _).mp hlock)
    · simp
    · intro b hb
      simp [hb]
  | @yield c p ncli hcpu hyield hstate hlock =>
    have hfree : ¬ (s.pc (.proc p)).Owns := by
      intro howns
      have hholds : s.HoldsPtable (.proc p) := ⟨⟨c, hcpu⟩, Or.inr howns⟩
      simpa [hlock] using (hs.ptable (.proc p)).mpr hholds
    apply hs.leave hcpu rfl rfl (Or.inl hlock)
    · intro b _
      rfl
    · intro q hq
      simp [hq]
    · intro q hq
      simp [hq]
    · exact ⟨False.elim, by simp, by simp, fun _ => hfree, fun howns => (hfree howns).elim,
        by simpa using hs.chan p⟩
    · rfl
  | yieldReturn hcpu hyield hlock => exact hs.yieldReturn hcpu hyield hlock
  | @interrupt c i mem k hidle hintr =>
    refine ⟨?_, hs.2, hs.3, hs.4, hs.5, hs.6, hs.7, hs.8, ?_⟩
    · apply hs.ptable.keep (p := .intr c)
      · obtain ⟨k', hk'⟩ := hs.idle c hidle
        simp [HoldsPtable, hk', CodePc.Owns]
      · intro b hb
        cases b with
        | proc q => simp [HoldsPtable, OnCpu]
        | sched d => simp [HoldsPtable]
        | intr d => simp [HoldsPtable, Function.update_of_ne hb]
    · intro d hd
      by_cases hdc : d = c
      · exact ⟨k, by simp [hdc]⟩
      · simpa [hdc] using hs.idle d (by simpa [hdc] using hd)
  | device hdevice => exact ⟨hs.1, hs.2, hs.3, hs.4, hs.5, hs.6, hs.7, hs.8, hs.9⟩
  | run hactor hrun => exact hrun.sound hs hactor

end SleepMachine

end Xv6Kernel
