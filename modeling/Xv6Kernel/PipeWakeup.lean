import Xv6Kernel.PipeStream

/-!
# When a process sleeps on a pipe

A process that waits on a channel of the pipe either has a reason to, or the
process that holds `p->lock` has taken the reason away and is still to call
`wakeup`.  The one exit of `pipewrite` that breaks this is the return of a
killed writer that finds the pipe full: it may have filled the pipe itself and
does not call `wakeup(&p->nread)`.  The return for `readopen == 0` looks the
same but is harmless, since no process can sleep in `piperead` then.
-/

namespace Xv6Kernel

open TraceExecution RingBuffer WordBytes PipePc

def PipePc.inLoop : PipePc → Option PipeLoop
  | .acquire loop | .locked (.test loop) | .sleepPtable loop
  | .sleepUnlock loop | .sleepSched loop | .asleep loop | .woken loop =>
      some loop
  | _ => none

/-- The channel on which a process is SLEEPING, or will be without taking
`p->lock` again. -/
def PipePc.sleepsOn : PipePc → Option PipeChan
  | .sleepSched loop | .asleep loop => some loop.chan
  | _ => none

def PipePc.Closing (writable : Bool) : PipePc → Prop
  | .acquireClose end' | .locked (.closeSet end') => end' = writable
  | _ => False

/-- The positions on the way to a `wakeup` of a channel, but for the early
return of `pipewrite`. -/
def PipeCode.Wakes : PipeChan → PipeCode → Prop
  | .nread, .test (.write _ _) | .nread, .writeStore _ _
  | .nread, .writeWake _ _ | .nread, .writeEnd | .nread, .closeWake true
  | .nwrite, .readCopy _ _ | .nwrite, .readTake _ _ | .nwrite, .readEnd
  | .nwrite, .closeWake false => True
  | _, _ => False

@[simp] theorem PipePc.wake_inLoop (pc : PipePc) (chan : PipeChan) :
    (pc.wake chan).inLoop = pc.inLoop := by
  cases pc <;> simp only [PipePc.wake]
  split <;> rfl

@[simp] theorem PipePc.rouse_inLoop (pc : PipePc) : pc.rouse.inLoop = pc.inLoop := by
  cases pc <;> rfl

@[simp] theorem PipePc.wake_closing (pc : PipePc) (chan : PipeChan)
    (writable : Bool) : (pc.wake chan).Closing writable ↔ pc.Closing writable := by
  cases pc <;> simp only [PipePc.wake]
  split <;> rfl

@[simp] theorem PipePc.rouse_closing (pc : PipePc) (writable : Bool) :
    pc.rouse.Closing writable ↔ pc.Closing writable := by
  cases pc <;> rfl

namespace PipeSystem

variable {P : Type} [DecidableEq P] {s t : PipeSystem P} {p q : P} {action : PipeAction P}
  {code : PipeCode} {writable : Bool}

def Idle (s : PipeSystem P) : PipeChan → Prop
  | .nread => s.ring.Empty ∧ s.writeopen = true
  | .nwrite => s.ring.Full ∧ s.readopen = true

structure ReaderInvariant (s : PipeSystem P) : Prop where
  reading : ∀ q n, (s.pc q).inLoop = some (.read n) → q ∈ s.holders false
  closing : ∀ q, (s.pc q).Closing false → s.holders false = 0
  closed : s.readopen = false → s.holders false = 0

omit [DecidableEq P] in
theorem readerInvariant_initial (creator : P) (data : Fin pipesize → Byte) :
    (initial creator data).ReaderInvariant := by
  constructor <;> simp [initial, inLoop, PipePc.Closing]

section

variable (hstep : StepOk s p action t)

include hstep

/-- The position of a process after a step: for all but one of them it is the
old one, up to being woken. -/
private theorem StepOk.others (hne : q ≠ p) :
    t.pc q = s.pc q ∨ t.pc q = (s.pc q).rouse ∨
      ∃ chan, t.pc q = (s.pc q).wake chan := by
  cases hstep
  case code hpc hcode =>
    rcases hcode.others hne with heq | hwake
    · exact Or.inl heq
    · exact Or.inr (Or.inr hwake)
  case kill victim =>
    by_cases hq : q = victim
    · subst q
      exact Or.inr (Or.inl (by simp))
    · exact Or.inl (by simp [hq])
  all_goals exact Or.inl (by simp [hne])

private theorem StepOk.inLoop_others (hne : q ≠ p) : (t.pc q).inLoop = (s.pc q).inLoop := by
  rcases hstep.others hne with heq | heq | ⟨chan, heq⟩ <;> simp [heq]

private theorem StepOk.closing_others
    (hne : q ≠ p) (writable : Bool) : (t.pc q).Closing writable ↔ (s.pc q).Closing writable := by
  rcases hstep.others hne with heq | heq | ⟨chan, heq⟩ <;> simp [heq]

theorem StepOk.reading {n : ℕ} (hq : (t.pc q).inLoop = some (.read n)) :
    (s.pc q).inLoop = some (.read n) ∨ q ∈ t.holders false := by
  by_cases hne : q = p
  · subst q
    cases hstep
    case piperead hpc hholds => exact Or.inr hholds
    case code hpc hcode =>
      cases hcode
      case readSleep => exact Or.inl (by simpa [hpc, inLoop] using hq)
      all_goals simp_all [inLoop]
    case kill victim =>
      by_cases hvictim : p = victim
      · subst victim
        exact Or.inl (by simpa using hq)
      · exact Or.inl (by simpa [hvictim] using hq)
    all_goals simp_all [inLoop]
  · exact Or.inl (hstep.inLoop_others hne ▸ hq)

theorem StepOk.holders_zero (hzero : s.holders writable = 0) : t.holders writable = 0 := by
  cases hstep
  case share shared q hholds =>
    have hne : writable ≠ shared := by
      rintro rfl
      simp [hzero] at hholds
    simpa [hne] using hzero
  case closeLast closed hpc hlast =>
    by_cases hne : writable = closed
    · subst hne
      simpa using hlast
    · simpa [hne] using hzero
  case closeOther closed hpc =>
    by_cases hne : writable = closed
    · subst hne
      simp [hzero]
    · simpa [hne] using hzero
  case code hpc hcode => cases hcode <;> exact hzero
  all_goals exact hzero

theorem StepOk.mem_holders
    (hq : q ∈ s.holders writable) (hpc : s.pc q ≠ .outside) : q ∈ t.holders writable := by
  have herase : ∀ closed, s.pc p = .outside →
      q ∈ Function.update s.holders closed ((s.holders closed).erase p)
        writable := by
    intro closed hout
    have hne : q ≠ p := fun heq => hpc (heq ▸ hout)
    by_cases hclosed : writable = closed
    · subst hclosed
      simpa [Multiset.mem_erase_of_ne hne] using hq
    · simpa [hclosed] using hq
  cases hstep
  case share shared r hholds =>
    by_cases hshared : writable = shared
    · subst hshared
      simp [hq]
    · simpa [hshared] using hq
  case closeLast closed hout _ | closeOther closed hout => exact herase closed hout
  case code hlocked hcode => cases hcode <;> exact hq
  all_goals exact hq

theorem StepOk.closing (hq : (t.pc q).Closing writable) :
    (s.pc q).Closing writable ∨ t.holders writable = 0 := by
  by_cases hne : q = p
  · subst q
    cases hstep
    case closeLast closed hpc hlast =>
      obtain rfl : closed = writable := by simpa [PipePc.Closing] using hq
      exact Or.inr (by simpa using hlast)
    case acquireClose closed hpc hlock =>
      exact Or.inl (by simpa [hpc, PipePc.Closing] using hq)
    case code hpc hcode =>
      cases hcode <;> simp [PipePc.Closing] at hq
    case kill victim =>
      by_cases hvictim : p = victim
      · subst victim
        exact Or.inl (by simpa using hq)
      · exact Or.inl (by simpa [hvictim] using hq)
    case share | closeOther => exact Or.inl hq
    all_goals simp [PipePc.Closing] at hq
  · exact Or.inl ((hstep.closing_others hne writable).mp hq)

theorem StepOk.closed
    (hclosed : t.readopen = false) : s.readopen = false ∨ (s.pc p).Closing false := by
  rcases hstep.quiet with hquiet | ⟨_, code, hpc, hcode⟩
  · exact Or.inl (hquiet.readopen ▸ hclosed)
  · cases hcode
    case closeSet writable =>
      cases writable
      · exact Or.inr (by simp [hpc, PipePc.Closing])
      · exact Or.inl hclosed
    all_goals exact Or.inl hclosed

end

theorem ReaderInvariant.step (hs : s.ReaderInvariant)
    (hstep : StepOk s p action t) : t.ReaderInvariant := by
  constructor
  case reading =>
    intro q n hq
    rcases hstep.reading hq with hbefore | hholds
    · refine hstep.mem_holders (hs.reading q n hbefore) ?_
      intro hout
      simp [hout, inLoop] at hbefore
    · exact hholds
  case closing =>
    intro q hq
    rcases hstep.closing hq with hbefore | hzero
    · exact hstep.holders_zero (hs.closing q hbefore)
    · exact hzero
  case closed =>
    intro hclosed
    rcases hstep.closed hclosed with hbefore | hbefore
    · exact hstep.holders_zero (hs.closed hbefore)
    · exact hstep.holders_zero (hs.closing p hbefore)

/-! ## Nobody waits without a reason -/

/-- A process that waits on a channel has a reason to, or a process in `pipe.c`
will call `wakeup`. -/
def WakeInvariant (s : PipeSystem P) : Prop :=
  ∀ q chan, (s.pc q).awaits = some chan →
    s.Idle chan ∨ ∃ p code, s.pc p = .locked code ∧ code.Wakes chan

section

omit [DecidableEq P]

theorem wakeInvariant_initial (creator : P) (data : Fin pipesize → Byte) :
    (initial creator data).WakeInvariant := by
  intro q chan hq
  simp [initial, PipePc.awaits] at hq

theorem Quiet.idle (hquiet : Quiet s t) (chan : PipeChan) : t.Idle chan ↔ s.Idle chan := by
  cases chan <;>
    simp only [Idle, hquiet.ring, hquiet.readopen, hquiet.writeopen]

theorem WakeInvariant.quiet (hs : s.WakeInvariant) (hquiet : Quiet s t) : t.WakeInvariant := by
  intro q chan hq
  rcases hs q chan (hquiet.awaits q chan hq) with hidle | ⟨p, code, hp, hwakes⟩
  · exact Or.inl ((hquiet.idle chan).mpr hidle)
  · exact Or.inr ⟨p, code, hquiet.stays p code hp, hwakes⟩

theorem WakeInvariant.of_locked (hs : s.WakeInvariant) (hlocks : s.LockInvariant)
    (hpc : s.pc p = .locked code) {chan : PipeChan} (hq : (s.pc q).awaits = some chan) :
    s.Idle chan ∨ code.Wakes chan := by
  rcases hs q chan hq with hidle | ⟨r, other, hr, hwakes⟩
  · exact Or.inl hidle
  · have hsame : r = p := hlocks.unique (by simp [hpc, PipePc.HoldsLock])
      (by simp [hr, PipePc.HoldsLock])
    subst r
    obtain rfl : code = other := by simpa [hpc] using hr
    exact Or.inr hwakes

/-- The process in `pipe.c` is the only one that can be on its way to sleep and
still hold `p->lock`. -/
theorem LockInvariant.sleepsOn (hlocks : s.LockInvariant)
    (hpc : s.pc p = .locked code) (hne : q ≠ p) {chan : PipeChan}
    (hq : (s.pc q).awaits = some chan) : (s.pc q).sleepsOn = some chan := by
  have hother : ¬ (s.pc q).HoldsLock := fun hholds =>
    hne (hlocks.unique (by simp [hpc, PipePc.HoldsLock]) hholds)
  cases hpcq : s.pc q
  case sleepSched | asleep =>
    rw [hpcq] at hq
    exact hq
  all_goals simp [hpcq, PipePc.awaits, PipePc.HoldsLock] at hq hother

theorem LockInvariant.wakeup (hlocks : s.LockInvariant)
    (hpc : s.pc p = .locked code) (hptable : s.ptableLock = none) (hne : q ≠ p)
    (chan : PipeChan) : ((s.pc q).wake chan).awaits ≠ some chan := by
  intro hq
  have hsleeps := hlocks.sleepsOn hpc hne (PipePc.awaits_of_wake hq)
  cases hpcq : s.pc q
  case sleepSched loop =>
    have hheld : s.ptableLock = some q := (hlocks.ptable q).mpr (by simp [hpcq, PipePc.HoldsPtable])
    rw [hptable] at hheld
    cases hheld
  case asleep loop =>
    have hchan : loop.chan = chan := by
      simpa [hpcq, PipePc.sleepsOn] using hsleeps
    simp [hpcq, PipePc.wake, hchan, PipePc.awaits] at hq
  all_goals simp [hpcq, PipePc.sleepsOn] at hsleeps

end

def GivesUp (s : PipeSystem P) (p : P) : Prop :=
  match s.pc p with
  | .locked (.test (.write addr i)) =>
      i < addr.length ∧ s.ring.Full ∧ s.killed p = true
  | _ => False

instance (s : PipeSystem P) (p : P) : Decidable (s.GivesUp p) := by
  unfold GivesUp
  split <;> infer_instance

/-- A killed writer gives up on a full pipe only while nobody sleeps in
`piperead`. -/
def QuitsUnnoticed (s : PipeSystem P) (label : P × PipeAction P) : Prop :=
  label.2 = .advance → s.GivesUp label.1 →
    ∀ q, (s.pc q).sleepsOn ≠ some .nread

instance [Fintype P] (s : PipeSystem P) (label : P × PipeAction P) :
    Decidable (s.QuitsUnnoticed label) := by
  unfold QuitsUnnoticed
  infer_instance

private theorem wakeInvariant_of_code (hs : s.WakeInvariant)
    (hlocks : s.LockInvariant) (hpc : s.pc p = .locked code)
    (hcode : CodeOk s p code t)
    (hactor : ∀ chan, (t.pc p).awaits = some chan → t.Idle chan)
    (hothers : ∀ chan q, q ≠ p → (t.pc q).awaits = some chan →
      s.Idle chan ∨ code.Wakes chan →
        t.Idle chan ∨ ∃ after, t.pc p = .locked after ∧ after.Wakes chan) :
    t.WakeInvariant := by
  intro q chan hq
  by_cases hne : q = p
  · subst q
    exact Or.inl (hactor chan hq)
  · have hbefore : (s.pc q).awaits = some chan := by
      rcases hcode.others hne with heq | ⟨woken, heq⟩
      · exact heq ▸ hq
      · exact PipePc.awaits_of_wake (heq ▸ hq)
    rcases hothers chan q hne hq (hs.of_locked hlocks hpc hbefore) with
      hidle | ⟨after, hafter, hwakes⟩
    · exact Or.inl hidle
    · exact Or.inr ⟨p, after, hafter, hwakes⟩

omit [DecidableEq P] in
theorem nobody_reads (hlocks : s.LockInvariant) (hreaders : s.ReaderInvariant) {addr : List Byte}
    {i : ℕ} (hpc : s.pc p = .locked (.test (.write addr i))) (hmore : i < addr.length)
    (hfull : s.ring.Full) (hquit : s.readopen = false ∨ s.killed p = true)
    (hmeet : s.QuitsUnnoticed (p, .advance)) (hne : q ≠ p) : (s.pc q).awaits ≠ some .nread := by
  intro hq
  have hsleeps := hlocks.sleepsOn hpc hne hq
  rcases hquit with hclosed | hkilled
  · have hreads : ∃ n, (s.pc q).inLoop = some (.read n) := by
      cases hpcq : s.pc q <;> simp [hpcq, PipePc.sleepsOn] at hsleeps
      all_goals
        rename_i loop
        cases loop <;> simp_all [PipeLoop.chan, inLoop]
    obtain ⟨n, hn⟩ := hreads
    have hmem := hreaders.reading q n hn
    rw [hreaders.closed hclosed] at hmem
    exact Multiset.notMem_zero q hmem
  · refine hmeet rfl ?_ q hsleeps
    simp [GivesUp, hpc, hmore, hfull, hkilled]

private theorem CodeOk.idle (hs : s.WakeInvariant) (hlocks : s.LockInvariant)
    (hpc : s.pc p = .locked code) (hcode : CodeOk s p code t)
    (chan : PipeChan) (hp : (t.pc p).awaits = some chan) : t.Idle chan := by
  cases hcode
  case full hfull hopen =>
    obtain rfl : PipeChan.nwrite = chan := by simpa [PipePc.awaits] using hp
    exact ⟨hfull, hopen⟩
  case writeWake addr i hptable =>
    obtain rfl : PipeChan.nwrite = chan := by
      simpa [PipePc.awaits, PipeLoop.chan] using hp
    have hawaits : (s.pc p).awaits = some .nwrite := by rw [hpc]; rfl
    exact (hs.of_locked hlocks hpc hawaits).resolve_right id
  case readSleep hempty hopen =>
    obtain rfl : PipeChan.nread = chan := by
      simpa [PipePc.awaits, PipeLoop.chan] using hp
    exact ⟨hempty, hopen⟩
  all_goals simp [PipePc.awaits] at hp

theorem WakeInvariant.of_code (hs : s.WakeInvariant) (hlocks : s.LockInvariant)
    (hreaders : s.ReaderInvariant) (hstream : s.StreamInvariant)
    (hmeet : s.QuitsUnnoticed (p, .advance)) (hpc : s.pc p = .locked code)
    (hcode : CodeOk s p code t) : t.WakeInvariant := by
  apply wakeInvariant_of_code hs hlocks hpc hcode (hcode.idle hs hlocks hpc)
  intro chan q hne hq hreason
  -- The channel is the one the position is to wake, or its reason is as before.
  cases hcode
  case giveUp addr i hmore hfull hquit =>
    have hawake := nobody_reads hlocks hreaders hpc hmore hfull hquit hmeet hne
    cases chan
    · exact (hawake (by simpa [hne] using hq)).elim
    · exact Or.inl (hreason.resolve_right id)
  case writeStore addr i =>
    cases chan
    · exact Or.inr ⟨.test (.write addr (i + 1)), by simp, trivial⟩
    · have hidle : s.Idle .nwrite := hreason.resolve_right id
      exact (hstream.room p addr i hpc hidle.1).elim
  case readTake n i =>
    cases chan
    · have hidle : s.Idle .nread := hreason.resolve_right id
      exact (hstream.data p n i hpc hidle.1).elim
    · exact Or.inr ⟨.readCopy n (i + 1), by simp, trivial⟩
  case writeWake hptable | writeEnd hptable =>
    cases chan
    · exact (hlocks.wakeup hpc hptable hne _ (by simpa [hne] using hq)).elim
    · exact Or.inl (hreason.resolve_right id)
  case readEnd hptable =>
    cases chan
    · exact Or.inl (hreason.resolve_right id)
    · exact (hlocks.wakeup hpc hptable hne _ (by simpa [hne] using hq)).elim
  case closeWake writable hptable =>
    have hawake := hlocks.wakeup hpc hptable hne (if writable then .nread else .nwrite)
    cases writable <;> cases chan
    · exact Or.inl (hreason.resolve_right id)
    · exact (hawake (by simpa [hne] using hq)).elim
    · exact (hawake (by simpa [hne] using hq)).elim
    · exact Or.inl (hreason.resolve_right id)
  case closeSet writable =>
    cases writable <;> cases chan
    · exact Or.inl (hreason.resolve_right id)
    · exact Or.inr ⟨.closeWake false, by simp, trivial⟩
    · exact Or.inr ⟨.closeWake true, by simp, trivial⟩
    · exact Or.inl (hreason.resolve_right id)
  all_goals
    cases chan
    all_goals
      first
      | exact Or.inl (hreason.resolve_right id)
      | exact Or.inr ⟨_, Function.update_self .., trivial⟩

/-- In every run in which a killed writer gives up on a full pipe only while
nobody sleeps in `piperead`, a process that sleeps while `p->lock` is free has
a reason to. -/
theorem sleeper_has_reason (creator : P) (data : Fin pipesize → Byte)
    (trace : List (P × PipeAction P)) (s : PipeSystem P)
    (hexec : exec step (initial creator data) trace = some s)
    (hmeet : StepsMeet step QuitsUnnoticed (initial creator data) trace)
    (hfree : s.lock = none) (q : P) :
    (∀ n, s.pc q = .asleep (.read n) →
      s.ring.nread = s.ring.nwrite ∧ s.writeopen = true) ∧
    (∀ addr i, s.pc q = .asleep (.write addr i) →
      s.ring.nwrite = s.ring.nread + 512 ∧ s.readopen = true) := by
  have hinvariant : s.LockInvariant ∧ s.StreamInvariant ∧
      s.ReaderInvariant ∧ s.WakeInvariant := by
    refine StepsMeet.invariant (P := fun s => s.LockInvariant ∧
      s.StreamInvariant ∧ s.ReaderInvariant ∧ s.WakeInvariant) ?_
      ⟨lockInvariant_initial creator data,
        streamInvariant_initial creator data,
        readerInvariant_initial creator data,
        wakeInvariant_initial creator data⟩ hmeet hexec
    rintro s ⟨p, action⟩ t ⟨hlocks, hstream, hreaders, hwake⟩ hquits hstep
    have hok := step_ok hstep
    refine ⟨hlocks.step hok, hstream.step hlocks hok, hreaders.step hok, ?_⟩
    rcases hok.quiet with hquiet | ⟨rfl, code, hpc, hcode⟩
    · exact hwake.quiet hquiet
    · exact hwake.of_code hlocks hreaders hstream hquits hpc hcode
  obtain ⟨hlocks, _, _, hwake⟩ := hinvariant
  have hidle : ∀ chan, (s.pc q).awaits = some chan → s.Idle chan := by
    intro chan hq
    rcases hwake q chan hq with hidle | ⟨p, code, hp, _⟩
    · exact hidle
    · have howner := hlocks.owner hp
      rw [hfree] at howner
      cases howner
  constructor
  · intro n hq
    exact hidle .nread (by rw [hq]; rfl)
  · intro addr i hq
    exact hidle .nwrite (by rw [hq]; rfl)

def secondWriter : List (Bool × PipeAction Bool) :=
  (true, .share true false) :: (true, .kill true) ::
    (true, .pipewrite (List.replicate 513 0)) ::
    List.replicate 1026 (true, .advance) ++
    (false, .pipewrite [1]) :: List.replicate 6 (false, .advance)

theorem sleeper_has_reason_secondWriter :
    ∃ s, exec step (initial true fun _ => 0) secondWriter = some s ∧
      s.pc false = .asleep (.write [1] 0) ∧
      s.ring.nwrite = s.ring.nread + 512 ∧ s.readopen = true := by
  have hrun : (exec step (initial true fun _ => 0) secondWriter).any
      (fun s => s.lock == none && s.pc false == .asleep (.write [1] 0)) =
        true := by
    decide +kernel
  have hcheck : checkSteps step (fun s label => decide (s.QuitsUnnoticed label))
      (initial true fun _ => 0) secondWriter = true := by
    decide +kernel
  have hmeet := stepsMeet_of_checkSteps hcheck
  simp only [decide_eq_true_eq] at hmeet
  obtain ⟨s, hexec, htest⟩ := exec_of_any hrun
  simp only [Bool.and_eq_true, beq_iff_eq] at htest
  have hreason := sleeper_has_reason true (fun _ => 0) secondWriter s hexec hmeet htest.1 false
  exact ⟨s, hexec, htest.2, hreason.2 [1] 0 htest.2⟩

def killedWriter : List (Bool × PipeAction Bool) :=
  (true, .share false false) :: (false, .piperead 1) ::
    List.replicate 5 (false, .advance) ++
    (true, .kill true) :: (true, .pipewrite (List.replicate 513 0)) ::
    List.replicate 1026 (true, .advance)

/-- The reader sleeps although the pipe is full, the lock is free and no
process is in `pipe.c`. -/
theorem killed_writer_leaves_reader_asleep :
    ∃ s, exec step (initial true fun _ => 0) killedWriter = some s ∧
      s.lock = none ∧ s.pc false = .asleep (.read 1) ∧ s.pc true = .outside ∧
      s.ring.nread ≠ s.ring.nwrite := by
  have hrun : (exec step (initial true fun _ => 0) killedWriter).any
      (fun s => s.lock == none && s.pc false == .asleep (.read 1) &&
        s.pc true == .outside && s.ring.nread != s.ring.nwrite) = true := by
    decide +kernel
  obtain ⟨s, hexec, htest⟩ := exec_of_any hrun
  simp only [Bool.and_eq_true, beq_iff_eq, bne_iff_ne] at htest
  obtain ⟨⟨⟨hlock, hreader⟩, hwriter⟩, hcounters⟩ := htest
  exact ⟨s, hexec, hlock, hreader, hwriter, hcounters⟩

end PipeSystem

end Xv6Kernel
