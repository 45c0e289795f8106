import Xv6Kernel.LogSystem

/-!
# Nobody sleeps on the log without a reason

Between its decision to wait and the moment it is SLEEPING, a process in
`begin_op` gives up `log.lock` but not `ptable.lock`, which `wakeup` needs; a
process that removes the reason for waiting keeps `log.lock` until it has woken
the sleepers.  So whenever `log.lock` is free, everyone who sleeps on the log,
or is about to, has a reason that still holds.
-/

namespace Xv6Kernel

open TraceExecution

namespace LogPc

def holdsLog : LogPc → Bool
  | .beginLoop | .sleepPtable | .sleepUnlock | .ending | .wakeupAll
  | .releaseLog => true
  | _ => false

def holdsPtable : LogPc → Bool
  | .sleepUnlock | .sleepSched => true
  | _ => false

/-- Between `begin_op` and the decrement of `log.outstanding` in `end_op`. -/
def inOperation : LogPc → Bool
  | .inOp | .logWriting _ | .ending => true
  | _ => false

/-- From the moment `log.committing` is set to the moment it is cleared. -/
def inCommit : LogPc → Bool
  | .commitStart | .commitLog | .commitHead | .commitInstall | .commitClear
  | .commitErase | .commitAcquire => true
  | _ => false

def committed : LogPc → Bool
  | .commitErase | .commitAcquire => true
  | _ => false

/-- From the decision to wait until the process is woken. -/
def waiting : LogPc → Bool
  | .sleepPtable | .sleepUnlock | .sleepSched | .asleep => true
  | _ => false

/-- The properties of a position that being woken does not change. -/
structure Unwoken (f : LogPc → Bool) : Prop where
  wake : ∀ pc : LogPc, f pc.wake = f pc

theorem unwoken_holdsLog : Unwoken holdsLog := ⟨by intro pc; cases pc <;> rfl⟩

theorem unwoken_holdsPtable : Unwoken holdsPtable :=
  ⟨by intro pc; cases pc <;> rfl⟩

theorem unwoken_inOperation : Unwoken inOperation :=
  ⟨by intro pc; cases pc <;> rfl⟩

theorem unwoken_inCommit : Unwoken inCommit := ⟨by intro pc; cases pc <;> rfl⟩

theorem unwoken_committed : Unwoken committed := ⟨by intro pc; cases pc <;> rfl⟩

end LogPc

open LogPc

variable {P : Type} [DecidableEq P]

namespace LogSystem

def MustWait (s : LogSystem P) : Prop :=
  s.committing = true ∨ 0 < s.outstanding ∧
    (logSize : ℤ) < s.block.length + (s.outstanding + 1) * maxOpBlocks

section Steps

variable {s t : LogSystem P} {p : P} {action : LogAction P}

theorem StepOk.pc_other (hstep : StepOk s p action t) {q : P} (hq : q ≠ p) :
    t.pc q = s.pc q ∨ t.pc q = (s.pc q).wake := by
  cases hstep
  case kill r hpc hptable =>
    by_cases hr : q = r
    · subst r
      simp
    · simp [hr]
  case wakeupAll => simp [hq]
  all_goals simp [hq]

theorem StepOk.unwoken_other {f : LogPc → Bool} (hf : Unwoken f) (hstep : StepOk s p action t)
    {q : P} (hq : q ≠ p) : f (t.pc q) = f (s.pc q) := by
  rcases hstep.pc_other hq with hsame | hwoken
  · rw [hsame]
  · rw [hwoken, hf.wake]

theorem kill_pc_self {q : P} (hpc : s.pc p = .outside) :
    Function.update s.pc q (s.pc q).wake p = .outside := by
  by_cases hq : p = q
  · subst q
    simp [hpc, LogPc.wake]
  · simp [hq, hpc]

/-- Who is inside a critical section, as the positions and as the locks say. -/
structure LocksHeld (s : LogSystem P) : Prop where
  log : ∀ p, (s.pc p).holdsLog = true ↔ s.lock = some p
  ptable : ∀ p, (s.pc p).holdsPtable = true ↔ s.ptableLock = some p

theorem LocksHeld.step (hlocks : s.LocksHeld) (hstep : StepOk s p action t) : t.LocksHeld := by
  have hlog := hlocks.log p
  have hptable := hlocks.ptable p
  constructor
  · intro q
    by_cases hq : q = p
    · subst q
      cases hstep <;> simp_all [holdsLog, kill_pc_self]
    · rw [hstep.unwoken_other unwoken_holdsLog hq, hlocks.log q]
      have hne : p ≠ q := Ne.symm hq
      clear hlocks
      cases hstep <;> simp_all [holdsLog]
  · intro q
    by_cases hq : q = p
    · subst q
      cases hstep <;> simp_all [holdsPtable, kill_pc_self]
    · rw [hstep.unwoken_other unwoken_holdsPtable hq, hlocks.ptable q]
      have hne : p ≠ q := Ne.symm hq
      clear hlocks
      cases hstep <;> simp_all [holdsPtable]

variable [Fintype P]

def share (pc : LogPc) : ℕ := if pc.inOperation then 1 else 0

def operationCount (s : LogSystem P) : ℕ := ∑ p, share (s.pc p)

theorem operationCount_step (hstep : StepOk s p action t) :
    operationCount t + share (s.pc p) = operationCount s + share (t.pc p) := by
  unfold operationCount
  apply sum_add_of_move (f := fun q => share (s.pc q)) (g := fun q => share (t.pc q)) p
  intro q hq
  unfold share
  rw [hstep.unwoken_other unwoken_inOperation hq]

omit [DecidableEq P] in
theorem operationCount_pos (hp : (s.pc p).inOperation = true) : 0 < operationCount s := by
  have hle : share (s.pc p) ≤ operationCount s :=
    Finset.single_le_sum (f := fun q => share (s.pc q))
      (fun _ _ => Nat.zero_le _) (Finset.mem_univ p)
  simp only [share, hp, if_true] at hle
  omega

omit [DecidableEq P] in
theorem exists_inOperation (hcount : 0 < operationCount s) : ∃ p, (s.pc p).inOperation = true := by
  obtain ⟨p, _, hp⟩ := Finset.exists_ne_zero_of_sum_ne_zero hcount.ne'
  refine ⟨p, ?_⟩
  by_contra hnot
  simp [share, hnot] at hp

theorem outstanding_step (hcount : s.outstanding = operationCount s)
    (hstep : StepOk s p action t) : t.outstanding = operationCount t := by
  have hmove := operationCount_step hstep
  cases hstep <;>
    simp_all [share, inOperation, kill_pc_self] <;> omega

/-! ## The invariant -/

structure AdmissionInvariant (s : LogSystem P) : Prop where
  locks : s.LocksHeld
  outstanding : s.outstanding = operationCount s
  committing : ∀ p, (s.pc p).inCommit = true → s.committing = true
  committer : s.committing = true → ∃ p, (s.pc p).inCommit = true
  unique : ∀ p q, (s.pc p).inCommit = true → (s.pc q).inCommit = true → p = q
  exclusive : s.committing = true → s.outstanding = 0
  cleared : ∀ p, (s.pc p).committed = true → s.block = []
  empty : s.outstanding = 0 → s.committing = false → s.block = []
  reason : ∀ p, (s.pc p).waiting = true →
    s.MustWait ∨ ∃ q, s.pc q = .wakeupAll

omit [DecidableEq P] in
theorem AdmissionInvariant.no_commit (hinv : s.AdmissionInvariant)
    (hp : (s.pc p).inOperation = true) : 0 < s.outstanding ∧ s.committing = false := by
  have hcount := operationCount_pos hp
  have houtstanding := hinv.outstanding
  have hpos : 0 < s.outstanding := by omega
  refine ⟨hpos, ?_⟩
  by_contra hcommitting
  have hzero := hinv.exclusive (by simpa using hcommitting)
  omega

omit [Fintype P] in
theorem StepOk.commit_cases (hstep : StepOk s p action t) :
    (t.committing = s.committing ∧ (t.pc p).inCommit = (s.pc p).inCommit) ∨
    (s.committing = false ∧ t.committing = true ∧ (t.pc p).inCommit = true) ∨
    ((s.pc p).inCommit = true ∧ t.committing = false ∧
      (t.pc p).inCommit = false) := by
  cases hstep <;> simp_all [inCommit, kill_pc_self]

section

variable (hinv : s.AdmissionInvariant) (hstep : StepOk s p action t)

include hinv hstep

theorem AdmissionInvariant.commit_step :
    (∀ q, (t.pc q).inCommit = true → t.committing = true) ∧
    (t.committing = true → ∃ q, (t.pc q).inCommit = true) ∧
    (∀ q r, (t.pc q).inCommit = true → (t.pc r).inCommit = true → q = r) := by
  have hother : ∀ q, q ≠ p → (t.pc q).inCommit = (s.pc q).inCommit :=
    fun q hq => hstep.unwoken_other unwoken_inCommit hq
  rcases hstep.commit_cases with ⟨hcommitting, hself⟩ | ⟨hfree, htaken, hself⟩ |
      ⟨hown, hgiven, hself⟩
  · have hall : ∀ q, (t.pc q).inCommit = (s.pc q).inCommit := by
      intro q
      by_cases hq : q = p
      · rw [hq, hself]
      · exact hother q hq
    simp only [hall, hcommitting]
    exact ⟨hinv.committing, hinv.committer, hinv.unique⟩
  · have honly : ∀ q, (t.pc q).inCommit = true → q = p := by
      intro q hq
      by_contra hne
      rw [hother q hne] at hq
      have hcommitting := hinv.committing q hq
      rw [hfree] at hcommitting
      contradiction
    refine ⟨fun _ _ => htaken, fun _ => ⟨p, hself⟩, ?_⟩
    intro q r hq hr
    rw [honly q hq, honly r hr]
  · have hnone : ∀ q, (t.pc q).inCommit = false := by
      intro q
      by_cases hq : q = p
      · rw [hq, hself]
      · rw [hother q hq]
        by_contra hcommit
        exact hq (hinv.unique q p (by simpa using hcommit) hown)
    simp [hnone, hgiven]

theorem AdmissionInvariant.exclusive_step : t.committing = true → t.outstanding = 0 := by
  have hexclusive := hinv.exclusive
  cases hstep <;> simp_all [Full]

theorem AdmissionInvariant.cleared_step
    (q : P) (hq : (t.pc q).committed = true) : t.block = [] := by
  have hcommit : ∀ pc : LogPc, pc.committed = true → pc.inCommit = true := by
    intro pc
    cases pc <;> simp [committed, inCommit]
  have hclear := hinv.cleared p
  by_cases heq : q = p
  · subst q
    clear hinv
    cases hstep <;> simp_all [committed, kill_pc_self]
  · rw [hstep.unwoken_other unwoken_committed heq] at hq
    have hblock := hinv.cleared q hq
    have hcommitting := hinv.committing q (hcommit _ hq)
    cases hstep
    case logWriting hpc _ =>
      have hfree := (hinv.no_commit (p := p) (by simp [hpc, inOperation])).2
      rw [hcommitting] at hfree
      contradiction
    all_goals simp [hblock]

theorem AdmissionInvariant.empty_step
    (hzero : t.outstanding = 0) (hfree : t.committing = false) : t.block = [] := by
  have hcount := hinv.outstanding
  have hempty := hinv.empty
  have hclear := hinv.cleared p
  have hbusy : (s.pc p).inOperation = true → 0 < s.outstanding := fun hp => (hinv.no_commit hp).1
  clear hinv
  cases hstep <;> simp_all [committed, inOperation]
  case enter => omega

theorem AdmissionInvariant.mustWait_step
    (hwait : s.MustWait) : t.MustWait ∨ t.pc p = .wakeupAll := by
  have hcommitting := hinv.committing p
  unfold MustWait at hwait ⊢
  cases hstep
  case enter hpc hfull =>
    simp only [Full, not_or] at hfull
    left
    right
    rcases hwait with hwait | ⟨hpos, hspace⟩
    · exact (hfull.1 hwait).elim
    · exact ⟨by simp; omega, by simp; omega⟩
  case logWriting blockno hpc hlock =>
    left
    have hlength := absorb_length_le s.block blockno
    rcases hwait with hwait | ⟨hpos, hspace⟩
    · exact Or.inl hwait
    · refine Or.inr ⟨hpos, ?_⟩
      simp only [setPc]
      omega
  case endLast | endOther | commitAcquire => simp
  case commitClear hpc =>
    left
    left
    exact hcommitting (by simp [hpc, inCommit])
  all_goals exact Or.inl hwait

end

omit [Fintype P] in
theorem StepOk.waiting_origin (hstep : StepOk s p action t) {q : P} (hq : (t.pc q).waiting = true) :
    (s.pc q).waiting = true ∨ s.pc p = .beginLoop ∧ s.Full ∧
      t = s.setPc p .sleepPtable := by
  by_cases heq : q = p
  · subst q
    cases hstep <;> simp_all [waiting, kill_pc_self]
  · have hwake : ∀ pc : LogPc, pc.wake.waiting = true → pc.waiting = true := by
      intro pc
      cases pc <;> simp [LogPc.wake, waiting]
    rcases hstep.pc_other heq with hsame | hwoken
    · rw [hsame] at hq
      exact Or.inl hq
    · rw [hwoken] at hq
      exact Or.inl (hwake _ hq)

section

variable (hinv : s.AdmissionInvariant)

include hinv

omit [DecidableEq P] in
theorem AdmissionInvariant.mustWait_of_full (hfull : s.Full) : s.MustWait := by
  rcases hfull with hcommitting | hspace
  · exact Or.inl hcommitting
  · by_cases hfree : s.committing = false
    · right
      refine ⟨?_, hspace⟩
      by_contra hpos
      have hcount := hinv.outstanding
      have hzero : s.outstanding = 0 := by omega
      have hblock := hinv.empty hzero hfree
      simp [hblock, hzero] at hspace
    · exact Or.inl (by simpa using hfree)

/-- A `wakeup` leaves nobody waiting: those who have decided to wait and are
not yet SLEEPING would hold one of the two locks. -/
theorem AdmissionInvariant.wakeupAll_waiting (hstep : StepOk s p action t)
    (hpc : s.pc p = .wakeupAll) (q : P) : (t.pc q).waiting = false := by
  have hlock := (hinv.locks.log p).mp (by simp [hpc, holdsLog])
  cases hstep
  case wakeupAll _ hptable =>
    by_cases hq : q = p
    · simp [hq, waiting]
    · have hlog : (s.pc q).holdsLog = false := by
        by_contra hholds
        have hheld := (hinv.locks.log q).mp (by simpa using hholds)
        rw [hlock] at hheld
        exact hq (Option.some.inj hheld).symm
      have htable : (s.pc q).holdsPtable = false := by
        by_contra hholds
        have hheld := (hinv.locks.ptable q).mp (by simpa using hholds)
        rw [hptable] at hheld
        contradiction
      simp only [Function.update_of_ne hq]
      cases hposition : s.pc q <;>
        simp_all [LogPc.wake, waiting, holdsLog, holdsPtable]
  all_goals simp_all

theorem AdmissionInvariant.reason_step (hstep : StepOk s p action t)
    (q : P) (hq : (t.pc q).waiting = true) : t.MustWait ∨ ∃ r, t.pc r = .wakeupAll := by
  rcases hstep.waiting_origin hq with hbefore | ⟨_, hfull, rfl⟩
  · rcases hinv.reason q hbefore with hwait | ⟨r, hr⟩
    · rcases hinv.mustWait_step hstep hwait with hwait | hwakes
      · exact Or.inl hwait
      · exact Or.inr ⟨p, hwakes⟩
    · by_cases hrp : r = p
      · subst r
        have hnot := hinv.wakeupAll_waiting hstep hr q
        rw [hq] at hnot
        contradiction
      · right
        refine ⟨r, ?_⟩
        rcases hstep.pc_other hrp with hsame | hwoken
        · rw [hsame, hr]
        · rw [hwoken, hr]
          rfl
  · exact Or.inl (hinv.mustWait_of_full hfull)

theorem AdmissionInvariant.step (hstep : StepOk s p action t) : t.AdmissionInvariant where
  locks := hinv.locks.step hstep
  outstanding := outstanding_step hinv.outstanding hstep
  committing := (hinv.commit_step hstep).1
  committer := (hinv.commit_step hstep).2.1
  unique := (hinv.commit_step hstep).2.2
  exclusive := hinv.exclusive_step hstep
  cleared := hinv.cleared_step hstep
  empty := hinv.empty_step hstep
  reason := hinv.reason_step hstep

end

end Steps

/-- The states the log can reach after `initlog`, on a log of any size. -/
def Booted (s : LogSystem P) : Prop :=
  Reachable step (fun start => ∃ size, start = initial P size) s

variable [Fintype P] {s : LogSystem P}

omit [DecidableEq P] in
theorem admissionInvariant_initial (size : ℤ) : (initial P size).AdmissionInvariant where
  locks := ⟨by simp [initial, holdsLog], by simp [initial, holdsPtable]⟩
  outstanding := by simp [initial, operationCount, share, inOperation]
  committing := by simp [initial, inCommit]
  committer := by simp [initial]
  unique := by simp [initial, inCommit]
  exclusive := by simp [initial]
  cleared := by simp [initial]
  empty := by simp [initial]
  reason := by simp [initial, waiting]

theorem Booted.admissionInvariant (hbooted : s.Booted) : s.AdmissionInvariant := by
  refine Reachable.invariant ?_ ?_ hbooted
  · rintro start ⟨size, rfl⟩
    exact admissionInvariant_initial size
  · rintro s ⟨p, action⟩ t hinv hstep
    exact hinv.step (step_ok hstep)

theorem AdmissionInvariant.perform_ne_panic (hinv : s.AdmissionInvariant) (p : P)
    (action : LogAction P) : s.perform (p, action) ≠ .error (.panic "log.committing") := by
  cases action with
  | beginOp => simp [perform, beginOp]
  | logWrite blockno => simp [perform, logWrite]
  | endOp => simp [perform, endOp]
  | kill q => simp [perform, kill]
  | advance =>
    simp only [perform, advance]
    cases hpc : s.pc p
    case ending =>
      have hfree := (hinv.no_commit (p := p) (by simp [hpc, inOperation])).2
      simp only [hfree, Bool.false_eq_true, if_false]
      split <;> simp
    case beginLoop | commitStart => simp only []; split <;> simp
    all_goals simp

/-- When `log.lock` is free: a commit excludes operations, an idle log is
empty, and whoever sleeps on the log has a reason that still holds and somebody
who will wake them.  `end_op` never panics. -/
theorem log_admission (hbooted : s.Booted) :
    (s.lock = none →
      (s.committing = true →
        s.outstanding = 0 ∧ ∀ p, (s.pc p).inOperation = false) ∧
      (s.outstanding = 0 → s.committing = false → s.block = []) ∧
      (∀ p, s.pc p = .asleep →
        (s.committing = true ∨ 0 < s.outstanding ∧
          (logSize : ℤ) < s.block.length + (s.outstanding + 1) * maxOpBlocks) ∧
        ∃ q, (s.pc q).inOperation = true ∨ (s.pc q).inCommit = true)) ∧
    ∀ label, s.perform label ≠ .error (.panic "log.committing") := by
  have hinv := hbooted.admissionInvariant
  refine ⟨?_, fun label => hinv.perform_ne_panic label.1 label.2⟩
  intro hlock
  refine ⟨?_, hinv.empty, ?_⟩
  · intro hcommitting
    refine ⟨hinv.exclusive hcommitting, ?_⟩
    intro p
    by_contra hp
    have hfree := (hinv.no_commit (by simpa using hp)).2
    rw [hcommitting] at hfree
    contradiction
  · intro p hp
    have hwait : s.MustWait := by
      rcases hinv.reason p (by simp [hp, waiting]) with hwait | ⟨q, hq⟩
      · exact hwait
      · have hheld := (hinv.locks.log q).mp (by simp [hq, holdsLog])
        rw [hlock] at hheld
        contradiction
    refine ⟨hwait, ?_⟩
    rcases hwait with hcommitting | ⟨hpos, _⟩
    · obtain ⟨q, hq⟩ := hinv.committer hcommitting
      exact ⟨q, Or.inr hq⟩
    · have hcount := hinv.outstanding
      obtain ⟨q, hq⟩ := exists_inOperation (s := s) (by omega)
      exact ⟨q, Or.inl hq⟩

def threeInOneAsleep : List (Fin 4 × LogAction (Fin 4)) :=
  [(0, .beginOp), (0, .advance), (1, .beginOp), (1, .advance), (2, .beginOp),
    (2, .advance), (3, .beginOp), (3, .advance), (3, .advance), (3, .advance),
    (3, .advance)]

def fourthAsleep : LogSystem (Fin 4) :=
  (exec step (initial (Fin 4) 30) threeInOneAsleep).getD (initial (Fin 4) 30)

theorem log_admission_fourthAsleep :
    fourthAsleep.pc 3 = .asleep ∧
      ∃ q, (fourthAsleep.pc q).inOperation = true ∨
        (fourthAsleep.pc q).inCommit = true := by
  have hbooted : fourthAsleep.Booted := ⟨initial (Fin 4) 30, threeInOneAsleep, ⟨30, rfl⟩, rfl⟩
  exact ⟨rfl, (((log_admission hbooted).1 rfl).2.2 3 rfl).2⟩

end LogSystem

end Xv6Kernel
